import BalancedMove.Width

/-! Reasons for refusing a construction, and their wording. A refusal is an answer about the
arguments; a `Fault` beside it would be a defect of the construction itself. -/
namespace BalancedMove

inductive BuildError where
  | emptyInput
  | emptyDomain
  | firstPairNotAtZero (p : Nat)
  | unsortedPairs (index : Nat)
  | positionOutOfRange (index value n : Nat)
  /-- the output intervals leave a gap or overlap at this position -/
  | notAPermutation (position : Nat)
  | balancingParameter (a : Nat)
  | workerCount (workers max : Nat)
  | lengthBound
  | positionOverflow
  | workerFailed (worker : Nat)
deriving DecidableEq, Repr

namespace BuildError

def message : BuildError → String
  | emptyInput => "no run pairs given (k = 0)"
  | emptyDomain => "domain size n must be positive"
  | firstPairNotAtZero p => s!"the first pair must start at position 0, found {p}"
  | unsortedPairs index => s!"pairs are not strictly increasing by p at index {index}"
  | positionOutOfRange index value n => s!"pair {index} holds position {value} outside [0, {n})"
  | notAPermutation position =>
    s!"output intervals do not partition the domain (gap or overlap at {position})"
  | balancingParameter a => s!"balancing parameter a = {a} must be at least 2"
  | workerCount workers max => s!"worker count {workers} must lie in [1, {max}]"
  | lengthBound => "length bound l_max must be positive"
  | positionOverflow => "a position or index does not fit the position type"
  | workerFailed worker => s!"worker thread {worker} panicked"

end BuildError

def reported (position : Nat) : Nat := Width.w64.saturate position

inductive Failure where
  | rejected (cause : BuildError)
  | fault (fault : Fault)
deriving DecidableEq, Repr

abbrev Outcome := Except Failure

instance : MonadLift Checked Outcome where
  monadLift
    | .ok value => .ok value
    | .error fault => .error (.fault fault)

@[simp] theorem lift_ok {α : Type} (value : α) :
    (liftM (.ok value : Checked α) : Outcome α) = .ok value := rfl

def reject {α : Type} (cause : BuildError) : Outcome α := .error (.rejected cause)

end BalancedMove
