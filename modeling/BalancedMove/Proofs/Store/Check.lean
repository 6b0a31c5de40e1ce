import BalancedMove.Proofs.Store.Whole
import BalancedMove.Store.Check

/-! The self-check of a store. The tree is sound by its own lemma, whatever keys it holds; what is left
is whether the list increases and whether a record of both orders has intervals of one length. Sound
records pass. -/
namespace BalancedMove.Store

open Sequence

def Agrees (stop : Nat) (inputs outputs : List Record) (r : Record) : Prop :=
  r ∈ outputs → endOf Record.p stop inputs r + r.q = endOf Record.q stop outputs r + r.p

instance (stop : Nat) (inputs outputs : List Record) (r : Record) :
    Decidable (Agrees stop inputs outputs r) :=
  inferInstanceAs (Decidable (r ∈ outputs →
    endOf Record.p stop inputs r + r.q = endOf Record.q stop outputs r + r.p))

variable {store : Store} {n : Nat} {inputs outputs : List Record}

section Verdict

variable (holds : store.Holds inputs outputs)
  (untreed : ∀ r ∈ inputs, r ∉ outputs → store.inTree r.id = .ok false)
  (below : ∀ r ∈ inputs, r.p < store.stop) (outside : ∀ r ∈ outputs, r.q < store.stop)
  (ordered : outputs.Pairwise fun r s => r.q ≤ s.q)

include holds untreed below outside ordered

theorem lengthAgrees_eq (sorted : Increasing Record.p inputs) {left right : List Record} {r : Record}
    (place : inputs = left ++ r :: right) : store.lengthAgrees r.id (right.map Record.id) =
      .ok (decide (Agrees store.stop inputs outputs r)) := by
  have listed : r ∈ inputs := by
    rw [place]
    simp
  by_cases shown : r ∈ outputs
  · have absent : r ∉ left := by
      intro inside
      have nodup := holds.inputs_nodup
      rw [place] at nodup
      exact (List.nodup_append.mp nodup).2.2 r inside r (by simp) rfl
    have input : store.startOf (right.map Record.id) = .ok (endOf Record.p store.stop inputs r) := by
      rw [place,endOf_split absent]
      cases right with
      | nil => rfl
      | cons next right =>
        have known : next ∈ inputs := by
          rw [place]
          simp
        exact holds.p (Or.inl known)
    have inputLow : r.p ≤ endOf Record.p store.stop inputs r :=
      le_endOf (Increasing.weaken sorted) below listed
    have outputLow : r.q ≤ endOf Record.q store.stop outputs r := le_endOf ordered outside shown
    simp only [lengthAgrees,holds.inTree_of_mem shown,input,holds.p (Or.inl listed),
      holds.outputEnd shown,holds.q (Or.inr shown),Checked.ok_bind,Checked.sub_of_le inputLow,
      Checked.sub_of_le outputLow]
    simp only [Bool.not_true,Bool.false_eq_true,if_false,Checked.pure_ok,Except.ok.injEq]
    rw [Bool.eq_iff_iff,beq_iff_eq,decide_eq_true_eq]
    simp only [Agrees,shown,true_implies]
    omega
  · simp [lengthAgrees,untreed r listed shown,Agrees,shown]

theorem lengthsAgree_eq (sorted : Increasing Record.p inputs) {left right : List Record}
    (place : inputs = left ++ right) : store.lengthsAgree (right.map Record.id) =
      .ok (decide (∀ r ∈ right, Agrees store.stop inputs outputs r)) := by
  induction right generalizing left with
  | nil => simp [lengthsAgree]
  | cons r right ih =>
    have own := lengthAgrees_eq holds untreed below outside ordered sorted place
    have rest := @ih (left ++ [r]) (by simpa using place)
    rw [List.map_cons,lengthsAgree,own,Checked.ok_bind]
    by_cases agrees : Agrees store.stop inputs outputs r
    · simp [agrees,rest]
    · simp [agrees]

/-- The self-check never faults, and what it answers depends on the two sequences alone. -/
theorem check_eq : store.check = .ok (decide (Increasing Record.p inputs ∧
    ∀ r ∈ inputs, Agrees store.stop inputs outputs r)) := by
  have tree := holds.tree.check holds.keyed (holds.key_pairwise ordered)
  have rises : adjacent (fun u v : Pair => u.p < v.p) (inputs.map Record.pair) =
      decide (Increasing Record.p inputs) := by
    rw [Bool.eq_iff_iff,decide_eq_true_eq]
    constructor
    · intro adjoins
      have pairwise := AvlTree.pairwise_of_adjacent (fun u v w first second => by
        simp only [decide_eq_true_eq] at *
        omega) adjoins
      exact (List.pairwise_map.mp pairwise).imp fun less => of_decide_eq_true less
    · intro sorted
      refine AvlTree.adjacent_of_pairwise (List.pairwise_map.mpr (sorted.imp ?_))
      exact fun less => decide_eq_true less
  by_cases sorted : Increasing Record.p inputs
  · have lengths := @lengthsAgree_eq _ _ _ holds untreed below outside ordered sorted [] inputs rfl
    simp [check,tree,holds.pairs,rises,sorted,holds.inputIds,lengths]
  · simp [check,tree,holds.pairs,rises,sorted]

end Verdict

theorem Sound.check_accepts (sound : Sound n store.start store.stop inputs outputs)
    (holds : store.Holds inputs outputs)
    (untreed : ∀ r ∈ inputs, r ∉ outputs → store.inTree r.id = .ok false) :
    store.check = .ok true := by
  rw [check_eq holds untreed sound.inputBelow sound.outputBelow
    (Increasing.weaken sound.outputSorted),decide_eq_true ⟨sound.inputSorted,sound.agree⟩]

theorem check_accepts (holds : store.Holds inputs outputs) (tidy : store.Tidy outputs)
    (sound : Sound n store.start store.stop inputs outputs) : store.check = .ok true :=
  sound.check_accepts holds fun _ listed absent => tidy.inTree_of_not_mem holds listed absent

theorem Whole.check_accepts (whole : store.Whole inputs outputs) : store.check = .ok true := by
  have sound : Sound store.stop store.start store.stop inputs outputs := by
    rw [whole.origin]
    exact whole.sound
  exact sound.check_accepts whole.holds fun r listed absent =>
    absurd (whole.same.mem_iff.mp listed) absent

end BalancedMove.Store
