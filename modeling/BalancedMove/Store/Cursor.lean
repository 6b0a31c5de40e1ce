import BalancedMove.Store.Basic

/-! Cursors that step along one of the two orders of a store and stay where they are at its ends. -/
namespace BalancedMove

inductive Order where
  | input
  | output
deriving DecidableEq, Repr

inductive Direction where
  | forward
  | backward
deriving DecidableEq, Repr

structure Cursor where
  current : NodeId
  order : Order
deriving DecidableEq, Repr

namespace Cursor

def beside (cursor : Cursor) (store : Store) (direction : Direction) : Checked (Option NodeId) :=
  match cursor.order, direction with
  | .input, .forward => store.succ cursor.current
  | .input, .backward => store.pred cursor.current
  | .output, .forward => store.outputNext cursor.current
  | .output, .backward => store.outputPrev cursor.current

def canMove (cursor : Cursor) (store : Store) (direction : Direction) : Checked Bool := do
  let id ← cursor.beside store direction
  return id.isSome

def move (cursor : Cursor) (store : Store) (direction : Direction) :
    Checked (Option NodeId × Cursor) := do
  match ← cursor.beside store direction with
  | none => return (none,cursor)
  | some id => return (some id,{ cursor with current := id })

def moveTo (cursor : Cursor) (id : NodeId) : Cursor := { cursor with current := id }

end Cursor

end BalancedMove
