import BalancedMove.Proofs.Balance.Preservation
import BalancedMove.Proofs.MoveTable.OfPairs
import BalancedMove.Proofs.Pairs.Verdict

/-! A construction with one worker always answers. It refuses its arguments or gives a table: no walk
goes on for ever, no sum leaves its width, no difference is negative and no index names nothing, since
each of these would be a fault. -/
namespace BalancedMove

open Sequence Store Balancer

namespace Construction

variable {construction : Construction} {cores : Nat}

theorem buildCounted_refused {cause : BuildError}
    (refused : validate construction.width construction.n construction.pairs = reject cause ∨
      validate construction.width construction.n construction.pairs = .ok () ∧
        construction.parameters.validate cores construction.n = reject cause) :
    construction.buildCounted cores = reject cause := by
  rcases refused with pairs | ⟨accepted,parameters⟩
  · rw [buildCounted,pairs]
    rfl
  · rw [buildCounted,accepted,Checked.ok_bind,parameters]
    rfl

theorem enough_of_parameters (fine : construction.parameters.validate cores construction.n = .ok ()) :
    2 ≤ construction.parameters.a := by
  by_contra few
  rw [BalanceParameters.validate,if_pos (Nat.lt_of_not_le few)] at fine
  cases fine

/-- The store is loaded, balanced and encoded, each with a result. The table has a row for each pair and
for each split, and no more rows than there are positions. -/
def Completes (construction : Construction) (cores : Nat) : Prop :=
  ∃ store after counts table,
    Store.load construction.width construction.n construction.pairs = .ok store ∧
    store.balance construction.parameters.a = .ok (after,counts) ∧
    MoveTable.ofStore after = .ok table ∧
    construction.buildCounted cores = .ok (table,counts) ∧
    table.size = construction.pairs.length + counts.splits ∧ table.size ≤ construction.n

theorem completes (small : construction.n < construction.width.limit)
    (few : Addressable construction.pairs.length) (single : construction.parameters.workers = 1)
    (accepted : validate construction.width construction.n construction.pairs = .ok ())
    (fine : construction.parameters.validate cores construction.n = .ok ()) :
    construction.Completes cores := by
  have enough := enough_of_parameters fine
  obtain ⟨alone⟩ := exists_alone small few enough accepted
  have rows := alone.encodes.size
  have length : alone.newInputs.length = construction.pairs.length + alone.number := by
    rw [alone.same.length_eq,alone.progress.run.length_outputs,← alone.whole.same.length_eq,
      ← alone.given,List.length_map]
  refine ⟨alone.store,_,{ splits := alone.number },alone.table,alone.loaded,alone.balanced,
    alone.encoded,?_,?_,?_⟩
  · rw [buildCounted_alone single accepted fine]
    exact alone.built
  · rw [rows,List.length_map,length]
  · rw [rows]
    exact alone.valid.length_le

end Construction

/-- With one worker, a construction answers with the refusal of its pairs, or else with that of its
parameters, or else with a table. -/
theorem buildCounted_total {construction : Construction} {cores : Nat}
    (small : construction.n < construction.width.limit)
    (few : Addressable construction.pairs.length) (single : construction.parameters.workers = 1) :
    (∃ cause, validate construction.width construction.n construction.pairs = reject cause ∧
      construction.buildCounted cores = reject cause) ∨
    (validate construction.width construction.n construction.pairs = .ok () ∧
      ∃ cause, construction.parameters.validate cores construction.n = reject cause ∧
        construction.buildCounted cores = reject cause) ∨
    (validate construction.width construction.n construction.pairs = .ok () ∧
      construction.parameters.validate cores construction.n = .ok () ∧ construction.Completes cores) := by
  rcases validate_decided small construction.pairs with ⟨_,accepted⟩ | ⟨cause,refused⟩
  · refine Or.inr ?_
    rcases parameters_decided construction.parameters cores construction.n with
      ⟨_,fine⟩ | ⟨cause,refused⟩
    · exact Or.inr ⟨accepted,fine,Construction.completes small few single accepted fine⟩
    · exact Or.inl ⟨accepted,cause,refused,
        Construction.buildCounted_refused (Or.inr ⟨accepted,refused⟩)⟩
  · exact Or.inl ⟨cause,refused,Construction.buildCounted_refused (Or.inl refused)⟩

def widest : Construction where
  width := .w8
  n := 255
  pairs := [⟨0,55⟩,⟨200,0⟩]
  parameters := { a := 2 ^ 64 - 1, workers := 1 }

theorem widest_buildCounted_total : widest.n + 1 = widest.width.limit ∧
    widest.parameters.a = heavyCount widest.parameters.a ∧ widest.Completes 1 := by
  have accepted : validate widest.width widest.n widest.pairs = .ok () :=
    (validate_iff (by decide)).mpr (by decide)
  have fine : widest.parameters.validate 1 widest.n = .ok () := by decide
  refine ⟨by decide,by decide,?_⟩
  rcases @buildCounted_total widest 1 (by decide) (by decide) rfl with
    ⟨_,refused,_⟩ | ⟨_,_,refused,_⟩ | ⟨_,_,done⟩
  · rw [accepted] at refused
    cases refused
  · rw [fine] at refused
    cases refused
  · exact done

end BalancedMove
