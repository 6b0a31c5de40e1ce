import BalancedMove.MoveTable.OfPairs
import BalancedMove.Store.Basic

/-! Encoding of a store that holds every pair in both orders. One walk along the list numbers the
nodes; then the tree order and the input starts, both increasing, are merged, which finds the input
interval of each output start without a search. -/
namespace BalancedMove

namespace MoveTable

def advance (inputStarts : Array Nat) (position : Nat) : Nat → Nat → Checked Nat
  | 0, _ => .error .endless
  | fuel + 1, i => do
    let next ← Checked.found inputStarts[i + 1]?
    if next ≤ position then advance inputStarts position fuel (i + 1) else return i

/-- Writes index and offset for the rows of tree nodes, in tree order. `ranks` gives the rows, and
the search for the input interval goes on from `i`. -/
def locate (store : Store) (inputStarts : Array Nat) (ranks : Array (Option Nat)) :
    List NodeId → Nat → Array Nat → Array Nat → Outcome (Array Nat × Array Nat)
  | [], _, indices, offsets => .ok (indices,offsets)
  | id :: rest, i, indices, offsets => do
    let q ← store.q id
    let i ← advance inputStarts q (inputStarts.size + 1) i
    match ← Checked.found ranks[id]? with
    | none => reject (.notAPermutation (reported q))
    | some row =>
      let index ← index store.width i
      Checked.require (row < indices.size)
      let offset ← Checked.sub q (← Checked.found inputStarts[i]?)
      locate store inputStarts ranks rest i (indices.setIfInBounds row index)
        (offsets.setIfInBounds row offset)

def rankOf (size : Nat) (ids : List NodeId) : Array (Option Nat) :=
  ids.zipIdx.foldl (fun ranks entry => ranks.setIfInBounds entry.1 (some entry.2))
    (Array.replicate size none)

def ofStore (store : Store) : Outcome MoveTable := do
  let ids ← store.inputIds
  let pairs ← store.pairs
  let inputStarts := (pairs.map (·.p)).toArray.push store.stop
  let blank := Array.replicate store.list.length 0
  let size := store.arena.size
  let outputIds ← store.tree.firstIds store.arena (size + 1)
  let (indices,offsets) ← locate store inputStarts (rankOf size ids) outputIds 0 blank blank
  Checked.require (outputIds.length ≤ size)
  return {
    width := store.width
    n := store.stop
    inputStarts
    outputStarts := (pairs.map (·.q)).toArray
    indices
    offsets }

end MoveTable

end BalancedMove
