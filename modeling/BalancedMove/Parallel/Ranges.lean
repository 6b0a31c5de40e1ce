import BalancedMove.Search
import BalancedMove.Width

/-! Division of the domain `[0, n)` into ranges of nearly equal length, one for each worker. The
products are formed in 128 bits. -/
namespace BalancedMove

def boundary (n workers t : Nat) : Checked Nat := do
  let product ← Width.w128.mul n t
  if workers = 0 then .error .divisionByZero else return product / workers

/-- The boundaries from the `t`-th on. Each is checked before the next is formed. -/
def rangeBoundsFrom (n workers : Nat) : Nat → Nat → Checked (List Nat)
  | 0, _ => .ok []
  | more + 1, t => do
    let first ← boundary n workers t
    let rest ← rangeBoundsFrom n workers more (t + 1)
    return first :: rest

def rangeBounds (n workers : Nat) : Checked (List Nat) := rangeBoundsFrom n workers (workers + 1) 0

def rangeOf (bounds : Array Nat) (position : Nat) : Checked Nat := do
  let ranges ← Checked.sub bounds.size 1
  let found ← greatestAtMost ranges position fun t => Checked.found bounds[t]?
  return found.getD 0

end BalancedMove
