import BalancedMove.Proofs.Balance.Oracle

/-! Splits of output intervals, on the two sequences alone. A split cuts a heavy interval in front of
the start that has `a` starts of the interval in front of it, and its own input start joins the list
if the pair it comes from is in the list. Runs of splits keep soundness and keep every record. -/
namespace BalancedMove.Store

open Sequence

def placed (old new : Record) (inputs : List Record) : List Record :=
  if old ∈ inputs then putBehind old new inputs else inputs

structure Split (a stop : Nat) (inputs outputs : List Record) (old new : Record) : Prop extends
    Offshoot stop outputs old new where
  begins : ∃ s ∈ inputs, s.p = new.q
  front : count Record.p inputs old.q new.q = a
  heavy : 2 * a ≤ startsIn stop inputs outputs old
  plain : new.cut = false

inductive Splits (a stop : Nat) : Nat → (inputs outputs newInputs newOutputs : List Record) → Prop
  | none (inputs outputs : List Record) : Splits a stop 0 inputs outputs inputs outputs
  | more {number : Nat} {inputs outputs newInputs newOutputs : List Record} {old new : Record} :
      Split a stop inputs outputs old new →
      Splits a stop number (placed old new inputs) (putBehind old new outputs) newInputs newOutputs →
      Splits a stop (number + 1) inputs outputs newInputs newOutputs

variable {a n start stop number : Nat} {inputs outputs newInputs newOutputs : List Record}
variable {old new : Record}

section Placing

theorem mem_placed {r : Record} : r ∈ placed old new inputs ↔ old ∈ inputs ∧ r = new ∨ r ∈ inputs := by
  unfold placed
  split
  next member =>
    rw [mem_putBehind member]
    simp [member]
  next absent => simp [absent]

theorem sublist_placed : inputs.Sublist (placed old new inputs) := by
  unfold placed
  split
  · exact sublist_putBehind inputs
  · exact List.Sublist.refl inputs

theorem Sound.split (sound : Sound n start stop inputs outputs)
    (off : Offshoot stop outputs old new) :
    Sound n start stop (placed old new inputs) (putBehind old new outputs) := by
  unfold placed
  split
  next member => exact sound.splitInside off member
  next absent => exact sound.splitOutside off absent

theorem count_placed (sound : Sound n start stop inputs outputs)
    (off : Offshoot stop outputs old new) {low high : Nat} (above : start ≤ low)
    (below : high ≤ stop) : count Record.p (placed old new inputs) low high =
      count Record.p inputs low high + if low ≤ new.p ∧ new.p < high then 1 else 0 := by
  unfold placed
  split
  next member => exact count_putBehind member low high
  next absent =>
    have leaves := off.leaves sound absent
    rw [if_neg (by omega),Nat.add_zero]

end Placing

section Loads

theorem startsIn_other (sound : Sound n start stop inputs outputs)
    (off : Offshoot stop outputs old new) {r : Record} (member : r ∈ outputs) (isOld : r ≠ old) :
    startsIn stop (placed old new inputs) (putBehind old new outputs) r =
      startsIn stop inputs outputs r +
        if r.q ≤ new.p ∧ new.p < endOf Record.q stop outputs r then 1 else 0 := by
  have shown : r ∈ putBehind old new outputs := (mem_putBehind off.member).mpr (Or.inr member)
  have isNew : r ≠ new := fun same => off.fresh sound (same ▸ member)
  unfold startsIn
  rw [off.endOf_eq sound shown,if_neg isOld,if_neg isNew]
  exact count_placed sound off (sound.outputRange r member).1 (sound.outputIsEnd member).inside

theorem Split.startsIn_front (sound : Sound n start stop inputs outputs)
    (split : Split a stop inputs outputs old new) :
    startsIn stop (placed old new inputs) (putBehind old new outputs) old =
      a + if old.q ≤ new.p ∧ new.p < new.q then 1 else 0 := by
  have off := split.toOffshoot
  have shown : old ∈ putBehind old new outputs := (mem_putBehind off.member).mpr (Or.inr off.member)
  have ends := (sound.outputIsEnd off.member).inside
  have below := off.below
  unfold startsIn
  rw [off.endOf_eq sound shown,if_pos rfl,
    count_placed sound off (sound.outputRange old off.member).1 (by omega),split.front]

theorem Split.startsIn_rear (sound : Sound n start stop inputs outputs)
    (split : Split a stop inputs outputs old new) :
    startsIn stop (placed old new inputs) (putBehind old new outputs) new + a =
      startsIn stop inputs outputs old +
        if new.q ≤ new.p ∧ new.p < endOf Record.q stop outputs old then 1 else 0 := by
  have off := split.toOffshoot
  have shown : new ∈ putBehind old new outputs := (mem_putBehind off.member).mpr (Or.inl rfl)
  have ends := (sound.outputIsEnd off.member).inside
  have above := off.above
  have below := off.below
  have range := (sound.outputRange old off.member).1
  unfold startsIn
  rw [off.endOf_eq sound shown,if_neg off.ne,if_pos rfl,count_placed sound off (by omega) ends,
    count_split Record.p inputs (Nat.le_of_lt above) (Nat.le_of_lt below),split.front]
  omega

end Loads

section Runs

theorem Splits.sound (splits : Splits a stop number inputs outputs newInputs newOutputs)
    (sound : Sound n start stop inputs outputs) : Sound n start stop newInputs newOutputs := by
  induction splits with
  | none => exact sound
  | more split _ ih => exact ih (sound.split split.toOffshoot)

theorem Splits.append {more : Nat} {lastInputs lastOutputs : List Record}
    (first : Splits a stop number inputs outputs newInputs newOutputs)
    (second : Splits a stop more newInputs newOutputs lastInputs lastOutputs) :
    Splits a stop (number + more) inputs outputs lastInputs lastOutputs := by
  induction first with
  | none => simpa using second
  | more split _ ih =>
    rw [Nat.add_right_comm]
    exact .more split (ih second)

theorem Splits.inputs_sublist (splits : Splits a stop number inputs outputs newInputs newOutputs) :
    inputs.Sublist newInputs := by
  induction splits with
  | none => exact List.Sublist.refl _
  | more _ _ ih => exact sublist_placed.trans ih

theorem Splits.outputs_sublist (splits : Splits a stop number inputs outputs newInputs newOutputs) :
    outputs.Sublist newOutputs := by
  induction splits with
  | none => exact List.Sublist.refl _
  | more _ _ ih => exact (sublist_putBehind _).trans ih

theorem Splits.length_outputs
    (splits : Splits a stop number inputs outputs newInputs newOutputs) :
    newOutputs.length = outputs.length + number := by
  induction splits with
  | none => rfl
  | more split _ ih =>
    rw [ih,length_putBehind split.member]
    omega

theorem Splits.none_of_light (splits : Splits a stop number inputs outputs newInputs newOutputs)
    (light : ∀ r ∈ outputs, startsIn stop inputs outputs r < 2 * a) : number = 0 := by
  cases splits with
  | none => rfl
  | @more _ _ _ _ _ old _ split _ =>
    have heavy := split.heavy
    have few := light old split.member
    omega

theorem Splits.plain (splits : Splits a stop number inputs outputs newInputs newOutputs)
    (plain : ∀ r ∈ inputs, r.cut = false) : ∀ r ∈ newInputs, r.cut = false := by
  induction splits with
  | none => exact plain
  | more split _ ih =>
    refine ih fun r member => ?_
    rcases mem_placed.mp member with ⟨_,rfl⟩ | before
    · exact split.plain
    · exact plain r before

theorem Splits.unshown (splits : Splits a stop number inputs outputs newInputs newOutputs)
    {r : Record} (listed : r ∈ newInputs) (absent : r ∉ newOutputs) : r ∈ inputs ∧ r ∉ outputs := by
  induction splits with
  | none => exact ⟨listed,absent⟩
  | more split _ ih =>
    obtain ⟨member,outside⟩ := ih listed absent
    rw [mem_putBehind split.member,not_or] at outside
    rcases mem_placed.mp member with ⟨_,same⟩ | inside
    · exact absurd same outside.1
    · exact ⟨inside,outside.2⟩

theorem Splits.perm (splits : Splits a stop number inputs outputs newInputs newOutputs)
    (same : inputs.Perm outputs) : newInputs.Perm newOutputs := by
  induction splits with
  | none => exact same
  | @more _ inputs outputs _ _ old new split _ ih =>
    have member : old ∈ inputs := same.mem_iff.mpr split.member
    apply ih
    rw [placed,if_pos member]
    exact (putBehind_perm member).trans ((same.cons new).trans (putBehind_perm split.member).symm)

end Runs

end BalancedMove.Store
