import BalancedMove.Arena.Basic
import BalancedMove.Width

/-! Doubly linked lists over the nodes of an arena. A list holds its two ends and its length; the
links are in the nodes, so several lists can share one arena as long as no node is in two. -/
namespace BalancedMove

structure LinkedList where
  head : Option NodeId := none
  tail : Option NodeId := none
  length : Nat := 0
deriving DecidableEq, Repr

namespace Arena

def succ (arena : Arena) (id : NodeId) : Checked (Option NodeId) := do
  let node ← arena.node id
  return node.succ

def pred (arena : Arena) (id : NodeId) : Checked (Option NodeId) := do
  let node ← arena.node id
  return node.pred

end Arena

namespace LinkedList

def isEmpty (list : LinkedList) : Bool := list.length == 0

/-- The number that stands for a missing end wherever ends are compared as numbers. -/
def absent : Nat := Width.w64.limit - 1

/-- A linked node is the head of a list or has a predecessor. -/
def contains (list : LinkedList) (arena : Arena) (id : NodeId) : Checked Bool :=
  if list.head.getD absent = id then .ok true else do
    let pred ← arena.pred id
    return pred.isSome

def firstIds (list : LinkedList) (arena : Arena) (limit : Nat) : Checked (List NodeId) :=
  Arena.follow arena.succ limit list.head

def ids (list : LinkedList) (arena : Arena) : Checked (List NodeId) :=
  arena.walk arena.succ list.head

def linkForward (list : LinkedList) (arena : Arena) (prev next : Option NodeId) :
    Checked (LinkedList × Arena) :=
  match prev with
  | none => .ok ({ list with head := next },arena)
  | some prev => do
    let arena ← arena.modify prev fun node => { node with succ := next }
    return (list,arena)

def linkBackward (list : LinkedList) (arena : Arena) (prev next : Option NodeId) :
    Checked (LinkedList × Arena) :=
  match next with
  | none => .ok ({ list with tail := prev },arena)
  | some next => do
    let arena ← arena.modify next fun node => { node with pred := prev }
    return (list,arena)

def linkBetween (list : LinkedList) (arena : Arena) (prev : Option NodeId) (id : NodeId)
    (next : Option NodeId) : Checked (LinkedList × Arena) := do
  let arena ← arena.modify id fun node => { node with pred := prev, succ := next }
  let (list,arena) ← linkForward list arena prev (some id)
  let (list,arena) ← linkBackward list arena (some id) next
  return ({ list with length := list.length + 1 },arena)

def pushBack (list : LinkedList) (arena : Arena) (id : NodeId) : Checked (LinkedList × Arena) :=
  linkBetween list arena list.tail id none

def pushFront (list : LinkedList) (arena : Arena) (id : NodeId) : Checked (LinkedList × Arena) :=
  linkBetween list arena none id list.head

def insertAfter (list : LinkedList) (arena : Arena) (id mark : NodeId) :
    Checked (LinkedList × Arena) := do
  let next ← arena.succ mark
  linkBetween list arena (some mark) id next

def insertBefore (list : LinkedList) (arena : Arena) (id mark : NodeId) :
    Checked (LinkedList × Arena) := do
  let prev ← arena.pred mark
  linkBetween list arena prev id (some mark)

def remove (list : LinkedList) (arena : Arena) (id : NodeId) : Checked (LinkedList × Arena) := do
  let node ← arena.node id
  let (list,arena) ← linkForward list arena node.pred node.succ
  let (list,arena) ← linkBackward list arena node.pred node.succ
  let arena ← arena.modify id fun node => { node with pred := none, succ := none }
  let length ← Checked.sub list.length 1
  return ({ list with length },arena)

def concat (list : LinkedList) (arena : Arena) (other : LinkedList) :
    Checked (LinkedList × LinkedList × Arena) :=
  if other.isEmpty then .ok (list,other,arena)
  else if list.isEmpty then .ok (other,{},arena)
  else do
    let tail ← Checked.found list.tail
    let head ← Checked.found other.head
    let arena ← arena.modify tail fun node => { node with succ := some head }
    let arena ← arena.modify head fun node => { node with pred := some tail }
    return ({ list with tail := other.tail, length := list.length + other.length },{},arena)

end LinkedList

end BalancedMove
