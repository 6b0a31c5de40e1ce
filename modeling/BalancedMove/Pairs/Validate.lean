import BalancedMove.Pairs.Basic
import BalancedMove.BuildError

/-! Acceptance of pairs as a permutation of `[0, n)`: sorted by `p` from 0 on, inside the domain,
and with output intervals that tile it. The first defect in this order is the one reported. The
tiling walk is stated for any arrangement of the intervals by `q`, so nothing depends on how equal
starts are arranged. -/
namespace BalancedMove

def firstOutside (n index : Nat) : List Pair → Option (Nat × Nat)
  | [] => none
  | v :: rest =>
    if n ≤ v.p then some (index,v.p)
    else if n ≤ v.q then some (index,v.q)
    else firstOutside n (index + 1) rest

def firstDescent (index : Nat) : List Pair → Option Nat
  | u :: v :: rest => if u.p < v.p then firstDescent (index + 1) (v :: rest) else some (index + 1)
  | _ => none

def tile (width : Width) (expected : Nat) : List Interval → Outcome Nat
  | [] => .ok expected
  | interval :: rest => do
    if interval.q = expected then
      let reached ← width.add expected interval.length
      tile width reached rest
    else reject (.notAPermutation (reported (min expected interval.q)))

def tilesDomain (width : Width) (n : Nat) (arranged : List Interval) : Outcome Unit := do
  let reached ← tile width 0 arranged
  Checked.require (reached == n)

def checkShape (n : Nat) (pairs : List Pair) : Outcome Unit :=
  if n = 0 then reject .emptyDomain
  else match pairs with
    | [] => reject .emptyInput
    | first :: _ =>
      if first.p ≠ 0 then reject (.firstPairNotAtZero (reported first.p))
      else match firstOutside n 0 pairs with
        | some (index,value) => reject (.positionOutOfRange index (reported value) (reported n))
        | none =>
          match firstDescent 0 pairs with
          | some index => reject (.unsortedPairs index)
          | none => .ok ()

def validate (width : Width) (n : Nat) (pairs : List Pair) : Outcome Unit := do
  checkShape n pairs
  let measured ← intervals n pairs
  tilesDomain width n (sortBy (·.q) measured)

end BalancedMove
