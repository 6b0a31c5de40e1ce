import BalancedMove.Parallel.Pieces
import BalancedMove.Parallel.Worker

/-! Handing out the pieces of a domain to its workers. A piece has a list record with the owner of
its input start and a tree record with the owner of its output start, in one node if both are the
same. Shared pieces are numbered in the order of `p`, for each ordered pair of owners on its own. -/
namespace BalancedMove

structure Assignment where
  piece : Piece
  inputOwner : Nat
  outputOwner : Nat
  /-- index among the pieces in the list of the input owner -/
  place : Nat
  /-- number among the pieces that the output owner shares with the input owner -/
  number : Option Nat
deriving DecidableEq, Repr

structure Numbering where
  places : Array Nat
  numbers : Array (Array Nat)
deriving DecidableEq, Repr

namespace Numbering

def start (workers : Nat) : Numbering where
  places := Array.replicate workers 0
  numbers := Array.replicate workers (Array.replicate workers 0)

def assign (numbering : Numbering) (bounds : Array Nat) (piece : Piece) :
    Checked (Assignment × Numbering) := do
  let ⟨places,numbers⟩ := numbering
  let inputOwner ← rangeOf bounds piece.pair.p
  let outputOwner ← rangeOf bounds piece.pair.q
  let place ← Checked.found places[inputOwner]?
  let places := places.modify inputOwner (· + 1)
  if inputOwner = outputOwner then
    return ({ piece, inputOwner, outputOwner, place, number := none },⟨places,numbers⟩)
  else
    let shared ← Checked.found numbers[outputOwner]?
    let number ← Checked.found shared[inputOwner]?
    let numbers := numbers.modify outputOwner fun shared => shared.modify inputOwner (· + 1)
    return ({ piece, inputOwner, outputOwner, place, number := some number },⟨places,numbers⟩)

def assignAll (bounds : Array Nat) (numbering : Numbering) :
    List Piece → Checked (List Assignment × Numbering)
  | [] => .ok ([],numbering)
  | piece :: rest => do
    let (assignment,numbering) ← numbering.assign bounds piece
    let (assignments,numbering) ← assignAll bounds numbering rest
    return (assignment :: assignments,numbering)

end Numbering

def addInput (worker : Nat) (state : Store × Array (Array NodeId)) (assignment : Assignment) :
    Checked (Store × Array (Array NodeId)) := do
  let (store,records) := state
  let (id,store) := store.alloc assignment.piece.pair
  let store ← store.pushBack id
  let store ← store.setCut id assignment.piece.cut
  if assignment.outputOwner = worker then return (store,records)
  else return (store,records.modify assignment.outputOwner (·.push id))

/-- The tree record of a piece: its list record if that is in the same store, else a new node. -/
def addOutput (worker : Nat) (state : Store × List NodeId) (assignment : Assignment) :
    Checked (Store × List NodeId) := do
  let (store,ids) := state
  if assignment.inputOwner = worker then return (store,assignment.place :: ids)
  else
    let (id,store) := store.alloc assignment.piece.pair
    let store ← store.setTwin id assignment.number
    return (store,id :: ids)

def Worker.assemble (width : Width) (a : Nat) (bounds : Array Nat) (numbering : Numbering)
    (byInput byOutput : List Assignment) (index : Nat) : Checked Worker := do
  let start ← Checked.found bounds[index]?
  let stop ← Checked.found bounds[index + 1]?
  let workers ← Checked.sub bounds.size 1
  let store : Store := { width, start, stop }
  let inputs := byInput.filter fun assignment => assignment.inputOwner == index
  let outputs := byOutput.filter fun assignment => assignment.outputOwner == index
  let (store,records) ← inputs.foldlM (addInput index) (store,Array.replicate workers #[])
  let (store,ids) ← outputs.foldlM (addOutput index) (store,[])
  let store ← store.buildTree ids.reverse
  let nextNumber ← Checked.found numbering.numbers[index]?
  let router : Outgoing := { bounds, nextNumber, staged := Array.replicate workers #[] }
  let balancer ← Balancer.start store router a
  return { index, balancer, records }

def assemble (width : Width) (a : Nat) (bounds : Array Nat) (pieces : List Piece) :
    Checked (List Worker) := do
  let workers ← Checked.sub bounds.size 1
  let (byInput,numbering) ← Numbering.assignAll bounds (.start workers) pieces
  let byOutput := sortBy (·.piece.pair.q) byInput
  (List.range workers).mapM (Worker.assemble width a bounds numbering byInput byOutput)

end BalancedMove
