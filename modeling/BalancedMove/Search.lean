import BalancedMove.Fault

/-! Searches in a sequence that never decreases. `greatestAtMost` reads the sequence through a
look-up that may fail, and reads only below the given length; `partitionPoint` counts how many
leading elements satisfy a test that holds up to some place and fails from there on. -/
namespace BalancedMove

def scanWidth : Nat := 16

def narrow (get : Nat → Checked Nat) (key lo hi : Nat) : Checked (Nat × Nat) :=
  if wide : scanWidth < hi - lo then do
    let mid := lo + (hi - lo) / 2
    let value ← get mid
    if key < value then narrow get key lo mid else narrow get key (mid + 1) hi
  else .ok (lo,hi)
termination_by hi - lo
decreasing_by all_goals (simp only [scanWidth] at wide; omega)

def firstAbove (get : Nat → Checked Nat) (key lo hi : Nat) : Checked Nat :=
  if lo < hi then do
    let value ← get lo
    if key < value then return lo else firstAbove get key (lo + 1) hi
  else .ok hi
termination_by hi - lo

def greatestAtMost (length key : Nat) (get : Nat → Checked Nat) : Checked (Option Nat) := do
  let (lo,hi) ← narrow get key 0 length
  let above ← firstAbove get key lo hi
  return if above = 0 then none else some (above - 1)

def greatestIn (values : Array Nat) (key : Nat) : Checked (Option Nat) :=
  greatestAtMost values.size key fun i => Checked.found values[i]?

/-- One element of the `size` candidates from `base` on remains: the last one known to pass,
or the first one of all. -/
def partitionBase (holds : Nat → Bool) (base size : Nat) : Nat :=
  if 1 < size then
    let half := size / 2
    partitionBase holds (if holds (base + half) then base + half else base) (size - half)
  else base
termination_by size

def partitionPoint (size : Nat) (holds : Nat → Bool) : Nat :=
  if size = 0 then 0 else
    let base := partitionBase holds 0 size
    if holds base then base + 1 else base

end BalancedMove
