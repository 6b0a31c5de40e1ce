import BalancedMove.Proofs.Balance.Bound

/-! How far a store grows. An output interval is loaded if it holds at least `a` input starts. A split
leaves `a` starts in front and at least `a` behind, where one loaded interval was, and starts that come
later only add to an interval. So the splits are fewer than the loaded intervals, and each of these has
taken `a` starts of its own. -/
namespace BalancedMove

open Sequence Balancer

namespace Store

def loaded (a stop : Nat) (inputs outputs : List Record) : Nat :=
  outputs.countP fun r => a ≤ startsIn stop inputs outputs r

/-- A store that had `base` output intervals at first has gained none, or fewer than are loaded. -/
def Backed (base a stop : Nat) (inputs outputs : List Record) : Prop :=
  outputs.length = base ∨ outputs.length < base + loaded a stop inputs outputs

variable {a n start stop base number : Nat} {old new : Record}
variable {inputs outputs newInputs newOutputs : List Record}

theorem Backed.refl (a stop : Nat) (inputs outputs : List Record) :
    Backed outputs.length a stop inputs outputs := Or.inl rfl

theorem Sound.total_startsIn_le (sound : Sound n start stop inputs outputs) :
    total (startsIn stop inputs outputs) outputs ≤ inputs.length := by
  have all := sound.outputSorted.total_count sound.outputBelow Record.p inputs
  unfold startsIn
  rw [all]
  exact count_le_length _ _

theorem Sound.loaded_le (sound : Sound n start stop inputs outputs) (a : Nat) :
    a * loaded a stop inputs outputs ≤ inputs.length :=
  Nat.le_trans (mul_countP_le_total (startsIn stop inputs outputs) a outputs)
    sound.total_startsIn_le

theorem loaded_mono (sub : inputs.Sublist newInputs) :
    loaded a stop inputs outputs ≤ loaded a stop newInputs outputs := by
  refine List.countP_mono_left fun r _ holds => ?_
  have more : startsIn stop inputs outputs r ≤ startsIn stop newInputs outputs r := sub.countP_le
  simp only [decide_eq_true_eq] at holds ⊢
  exact Nat.le_trans holds more

theorem Split.loaded_pos (split : Split a stop inputs outputs old new) :
    0 < loaded a stop inputs outputs := by
  have heavy := split.heavy
  refine List.countP_pos_iff.mpr ⟨old,split.member,?_⟩
  simp only [decide_eq_true_eq]
  omega

/-- No interval loses its load by a split, and the rear half is one more loaded interval. -/
theorem Split.loaded_succ (sound : Sound n start stop inputs outputs)
    (split : Split a stop inputs outputs old new) : loaded a stop inputs outputs + 1 ≤
      loaded a stop (placed old new inputs) (putBehind old new outputs) := by
  have off := split.toOffshoot
  have front := split.startsIn_front sound
  have rear := split.startsIn_rear sound
  have heavy := split.heavy
  have kept : ∀ r ∈ outputs, a ≤ startsIn stop inputs outputs r →
      a ≤ startsIn stop (placed old new inputs) (putBehind old new outputs) r := by
    intro r member holds
    by_cases same : r = old
    · subst r
      omega
    · have other := @startsIn_other n start stop inputs outputs old new sound off r member same
      omega
  have gained : a ≤ startsIn stop (placed old new inputs) (putBehind old new outputs) new := by
    omega
  rw [loaded,loaded,(putBehind_perm off.member).countP_eq,List.countP_cons]
  simp only [gained,decide_true,if_true]
  exact Nat.add_le_add_right
    (List.countP_mono_left fun r member => by simpa using kept r member) 1

theorem Split.backed (sound : Sound n start stop inputs outputs)
    (split : Split a stop inputs outputs old new) (backed : Backed base a stop inputs outputs) :
    Backed base a stop (placed old new inputs) (putBehind old new outputs) := by
  have positive := split.loaded_pos
  have gained := split.loaded_succ sound
  unfold Backed at backed ⊢
  rw [length_putBehind split.member]
  omega

theorem Splits.backed (splits : Splits a stop number inputs outputs newInputs newOutputs)
    (sound : Sound n start stop inputs outputs) (backed : Backed base a stop inputs outputs) :
    Backed base a stop newInputs newOutputs := by
  induction splits with
  | none => exact backed
  | more split _ ih => exact ih (sound.split split.toOffshoot) (split.backed sound backed)

theorem Backed.mono (backed : Backed base a stop inputs outputs) (sub : inputs.Sublist newInputs) :
    Backed base a stop newInputs outputs := by
  have more : loaded a stop inputs outputs ≤ loaded a stop newInputs outputs := loaded_mono sub
  unfold Backed at backed ⊢
  omega

/-- Every output interval that was gained, and one more, stands for `a` input starts. -/
theorem Backed.bound (backed : Backed base a stop inputs outputs)
    (sound : Sound n start stop inputs outputs) (grown : outputs.length = base + number) :
    number = 0 ∨ a * (number + 1) ≤ inputs.length := by
  rcases backed with none | few
  · exact Or.inl (by omega)
  · right
    have held := sound.loaded_le a
    have more : number + 1 ≤ loaded a stop inputs outputs := by omega
    exact Nat.le_trans (Nat.mul_le_mul_left a more) held

end Store

/-- The splits cost `a` starts each and `a` starts once, of which each split brings one. -/
theorem splits_le {a splits nodes : Nat} (enough : 2 ≤ a)
    (paid : splits = 0 ∨ a * (splits + 1) ≤ nodes + splits) :
    (splits = 0 ∨ splits * (a - 1) + a ≤ nodes) ∧ nodes + splits ≤ 2 * nodes := by
  rcases paid with rfl | paid
  · exact ⟨Or.inl rfl,by omega⟩
  · obtain ⟨b,rfl⟩ : ∃ b, a = b + 1 := ⟨a - 1,by omega⟩
    have cost : (b + 1) * (splits + 1) = splits * b + splits + b + 1 := by ring
    have least : splits * 1 ≤ splits * b := Nat.mul_le_mul_left splits (by omega)
    refine ⟨Or.inr ?_,?_⟩
    · rw [Nat.add_sub_cancel]
      omega
    · omega

section Whole

variable {store : Store} {inputs outputs newInputs newOutputs : List Record} {a number : Nat}

theorem Store.Whole.length_inputs (whole : store.Whole inputs outputs)
    (run : Splits a store.stop number inputs outputs newInputs newOutputs) :
    newInputs.length = inputs.length + number := by
  rw [(run.perm whole.same).length_eq,run.length_outputs,whole.same.length_eq]

theorem Store.Whole.number_le (whole : store.Whole inputs outputs) (enough : 2 ≤ a)
    (run : Splits a store.stop number inputs outputs newInputs newOutputs) :
    (number = 0 ∨ number * (a - 1) + a ≤ inputs.length) ∧
      inputs.length + number ≤ 2 * inputs.length := by
  have backed := run.backed whole.sound (.refl a store.stop inputs outputs)
  have paid := backed.bound (run.sound whole.sound) run.length_outputs
  rw [whole.length_inputs run] at paid
  exact splits_le enough paid

end Whole

/-- Balancing with one store splits so seldom that it never doubles the number of intervals. -/
theorem balance_grows {store : Store} {inputs outputs : List Record} {a : Nat}
    (whole : store.Whole inputs outputs) (few : Addressable inputs.length) (enough : 2 ≤ a) :
    ∃ after counts listed shown, store.balance a = .ok (after,counts) ∧
      (counts.splits = 0 ∨ counts.splits * (a - 1) + a ≤ inputs.length) ∧
      after.inputIds = .ok listed ∧ after.outputIds = .ok shown ∧
      listed.length = inputs.length + counts.splits ∧ shown.length = listed.length ∧
      listed.length ≤ 2 * inputs.length := by
  obtain ⟨after,number,newInputs,newOutputs,balanced,steady,progress,same,_⟩ :=
    whole.balance_eq enough few
  have length : newInputs.length = inputs.length + number := whole.length_inputs progress.run
  obtain ⟨bound,double⟩ := whole.number_le enough progress.run
  refine ⟨after.store,_,_,_,balanced,bound,steady.holds.inputIds,steady.holds.outputIds,?_,?_,?_⟩
  · rw [List.length_map,length]
  · rw [List.length_map,List.length_map,same.length_eq]
  · rw [List.length_map,length]
    exact double

theorem comb_balance_grows :
    ∃ store after counts listed shown, Store.load .w8 8 comb = .ok store ∧
      store.balance 2 = .ok (after,counts) ∧ (counts.splits = 0 ∨ counts.splits + 2 ≤ 5) ∧
      after.inputIds = .ok listed ∧ after.outputIds = .ok shown ∧
      listed.length = 5 + counts.splits ∧ shown.length = listed.length ∧ listed.length ≤ 10 := by
  obtain ⟨store,inputs,outputs,loaded,whole,_,_,given⟩ := Store.load_whole (by decide) comb_accepted
  have five : inputs.length = 5 := by
    rw [← List.length_map (f := Record.pair),given]
    rfl
  have few : Addressable inputs.length := by
    rw [five]
    decide
  obtain ⟨after,counts,listed,shown,balanced,bound,listing,showing,length,same,double⟩ :=
    balance_grows (a := 2) whole few (by decide)
  rw [five] at bound length double
  rw [Nat.mul_one] at bound
  exact ⟨store,after,counts,listed,shown,loaded,balanced,bound,listing,showing,length,same,double⟩

end BalancedMove
