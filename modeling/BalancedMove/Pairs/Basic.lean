import BalancedMove.Fault

/-! Pairs of starts. A sequence of pairs in the order of `p` over the domain `[0, n)` moves
positions: each pair shifts its input interval, which reaches from `p` up to the start of the next
pair, onto the output interval of the same length that begins at `q`. Lengths are never stored. -/
namespace BalancedMove

structure Pair where
  p : Nat
  q : Nat
deriving DecidableEq, Repr, Inhabited

/-- A pair together with the length that the sequence around it gives to its intervals. -/
structure Interval extends Pair where
  length : Nat
deriving DecidableEq, Repr

def sortBy {α : Type} (key : α → Nat) (items : List α) : List α :=
  items.mergeSort fun x y => key x ≤ key y

namespace Pair

def precedes (u v : Pair) : Bool := u.p < v.p || (u.p == v.p && u.q ≤ v.q)

def sort (pairs : List Pair) : List Pair := pairs.mergeSort precedes

def largest? (pairs : List Pair) : Option Pair := (sort pairs).getLast?

end Pair

def nextStart (n : Nat) : List Pair → Nat
  | [] => n
  | next :: _ => next.p

def intervalLength (n : Nat) (pairs : List Pair) (i : Nat) : Checked Nat :=
  match pairs.drop i with
  | [] => .error .outOfRange
  | v :: rest => Checked.sub (nextStart n rest) v.p

def intervals (n : Nat) : List Pair → Checked (List Interval)
  | [] => .ok []
  | v :: rest => do
    let length ← Checked.sub (nextStart n rest) v.p
    let following ← intervals n rest
    return ⟨v,length⟩ :: following

end BalancedMove
