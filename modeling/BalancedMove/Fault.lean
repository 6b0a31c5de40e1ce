/-! Failures of a computation that reads an arena by index and counts within fixed widths.
Every step that could leave its range is written as a check, so that a caller may prove the check
never fires; no operation silently wraps, clamps or invents a value. -/
namespace BalancedMove

inductive Fault where
  | overflow
  | underflow
  | outOfRange
  | divisionByZero
  /-- a condition that the caller promises does not hold -/
  | violated
  /-- a walk along links takes more steps than there are nodes to visit -/
  | endless
deriving DecidableEq, Repr

abbrev Checked := Except Fault

namespace Checked

def sub (x y : Nat) : Checked Nat := if y ≤ x then .ok (x - y) else .error .underflow

def require (holds : Bool) : Checked Unit := if holds then .ok () else .error .violated

def found {α : Type} : Option α → Checked α
  | some value => .ok value
  | none => .error .outOfRange

def promised {α : Type} : Option α → Checked α
  | some value => .ok value
  | none => .error .violated

theorem sub_of_le {x y : Nat} (le : y ≤ x) : sub x y = .ok (x - y) := if_pos le

theorem found_success {α : Type} {value : Option α} {result : α}
    (ok : found value = .ok result) : value = some result := by
  cases value with
  | none => cases ok
  | some value => exact congrArg some (Except.ok.inj ok)

theorem bind_success {ε α β : Type} {first : Except ε α} {next : α → Except ε β} {result : β}
    (ok : (first >>= next) = .ok result) : ∃ value, first = .ok value ∧ next value = .ok result := by
  cases first with
  | error fault => cases ok
  | ok value => exact ⟨value,rfl,ok⟩

end Checked

end BalancedMove
