import BalancedMove.Proofs.Store.View

/-! What the two sequences of a store over the range `[start, stop)` of a domain `[0, n)` promise.
Both increase and begin with the range. A record of both has intervals of one length; a record of the
tree alone moves its output interval to somewhere outside the range. A split and a start that comes
from outside keep these promises. -/
namespace BalancedMove.Store

open Sequence

structure Sound (n start stop : Nat) (inputs outputs : List Record) : Prop where
  inputSorted : Increasing Record.p inputs
  outputSorted : Increasing Record.q outputs
  inputRange : ∀ r ∈ inputs, start ≤ r.p ∧ r.p < stop
  outputRange : ∀ r ∈ outputs, start ≤ r.q ∧ r.q < stop
  inputFirst : inputs.head?.map Record.p = some start
  outputFirst : outputs.head?.map Record.q = some start
  agree : ∀ r ∈ inputs, r ∈ outputs →
    endOf Record.p stop inputs r + r.q = endOf Record.q stop outputs r + r.p
  away : ∀ r ∈ outputs, r ∉ inputs →
    r.p + endOf Record.q stop outputs r ≤ start + r.q ∨ stop ≤ r.p
  within : ∀ r ∈ outputs, r.p + endOf Record.q stop outputs r ≤ n + r.q

/-- A record that may be split off `old`: its output start lies inside the interval of `old`, and it
moves positions as far as `old` does. -/
structure Offshoot (stop : Nat) (outputs : List Record) (old new : Record) : Prop where
  member : old ∈ outputs
  above : old.q < new.q
  below : new.q < endOf Record.q stop outputs old
  shifted : new.p + old.q = old.p + new.q

variable {n start stop : Nat} {inputs outputs : List Record} {old new mark : Record}

section Bounds

theorem Sound.inputBelow (sound : Sound n start stop inputs outputs) :
    ∀ r ∈ inputs, r.p < stop := fun r member => (sound.inputRange r member).2

theorem Sound.outputBelow (sound : Sound n start stop inputs outputs) :
    ∀ r ∈ outputs, r.q < stop := fun r member => (sound.outputRange r member).2

theorem Sound.inputIsEnd (sound : Sound n start stop inputs outputs) {r : Record}
    (member : r ∈ inputs) : IsEnd Record.p stop inputs r.p (endOf Record.p stop inputs r) :=
  sound.inputSorted.isEnd sound.inputBelow member

theorem Sound.outputIsEnd (sound : Sound n start stop inputs outputs) {r : Record}
    (member : r ∈ outputs) : IsEnd Record.q stop outputs r.q (endOf Record.q stop outputs r) :=
  sound.outputSorted.isEnd sound.outputBelow member

theorem Sound.outputCovered (sound : Sound n start stop inputs outputs) {position : Nat}
    (low : start ≤ position) (high : position < stop) :
    ∃ r ∈ outputs, r.q ≤ position ∧ position < endOf Record.q stop outputs r := by
  obtain ⟨first,head,begins⟩ := Option.map_eq_some_iff.mp sound.outputFirst
  exact sound.outputSorted.covered sound.outputBelow head (by omega) high

theorem Sound.length_inputs_le (sound : Sound n start stop inputs outputs) :
    inputs.length ≤ stop - start :=
  sound.inputSorted.length_le (fun r member => (sound.inputRange r member).1) fun r member =>
    (sound.inputRange r member).2

theorem Sound.length_outputs_le (sound : Sound n start stop inputs outputs) :
    outputs.length ≤ stop - start :=
  sound.outputSorted.length_le (fun r member => (sound.outputRange r member).1) fun r member =>
    (sound.outputRange r member).2

end Bounds

section Splits

theorem Offshoot.fresh (sound : Sound n start stop inputs outputs)
    (off : Offshoot stop outputs old new) : new ∉ outputs := by
  intro member
  have far := (sound.outputIsEnd off.member).free new member off.above
  exact absurd off.below (by omega)

theorem Offshoot.ne (off : Offshoot stop outputs old new) : new ≠ old := by
  intro same
  have above := off.above
  rw [same] at above
  omega

theorem Offshoot.lands (sound : Sound n start stop inputs outputs)
    (off : Offshoot stop outputs old new) (member : old ∈ inputs) :
    old.p < new.p ∧ new.p < endOf Record.p stop inputs old := by
  have above := off.above
  have below := off.below
  have shifted := off.shifted
  have agree := sound.agree old member off.member
  omega

theorem Offshoot.stays (sound : Sound n start stop inputs outputs)
    (off : Offshoot stop outputs old new) (member : old ∈ inputs) :
    start ≤ new.p ∧ new.p < stop := by
  have lands := off.lands sound member
  have range := sound.inputRange old member
  have ends := (sound.inputIsEnd member).inside
  omega

theorem Offshoot.leaves (sound : Sound n start stop inputs outputs)
    (off : Offshoot stop outputs old new) (absent : old ∉ inputs) :
    ¬ (start ≤ new.p ∧ new.p < stop) := by
  have above := off.above
  have below := off.below
  have shifted := off.shifted
  have away := sound.away old off.member absent
  omega

theorem Offshoot.unlisted (sound : Sound n start stop inputs outputs)
    (off : Offshoot stop outputs old new) : new ∉ inputs := by
  intro listed
  by_cases member : old ∈ inputs
  · have lands := off.lands sound member
    have far := (sound.inputIsEnd member).free new listed lands.1
    omega
  · exact off.leaves sound member (sound.inputRange new listed)

theorem Offshoot.endOf_eq (sound : Sound n start stop inputs outputs)
    (off : Offshoot stop outputs old new) {r : Record} (member : r ∈ putBehind old new outputs) :
    endOf Record.q stop (putBehind old new outputs) r =
      if r = old then new.q
      else if r = new then endOf Record.q stop outputs old
      else endOf Record.q stop outputs r :=
  sound.outputSorted.endOf_putBehind sound.outputBelow off.member off.above off.below member

theorem Offshoot.outputRange (sound : Sound n start stop inputs outputs)
    (off : Offshoot stop outputs old new) :
    ∀ r ∈ putBehind old new outputs, start ≤ r.q ∧ r.q < stop := by
  intro r inside
  rcases (mem_putBehind off.member).mp inside with rfl | inside
  · have range := sound.outputRange old off.member
    have ends := (sound.outputIsEnd off.member).inside
    have above := off.above
    have below := off.below
    omega
  · exact sound.outputRange r inside

theorem Offshoot.within (sound : Sound n start stop inputs outputs)
    (off : Offshoot stop outputs old new) : ∀ r ∈ putBehind old new outputs,
      r.p + endOf Record.q stop (putBehind old new outputs) r ≤ n + r.q := by
  intro r inside
  have oldWithin := sound.within old off.member
  have below := off.below
  have shifted := off.shifted
  rw [off.endOf_eq sound inside]
  split
  next same =>
    subst r
    omega
  next differ =>
    split
    next same =>
      subst r
      omega
    next other =>
      exact sound.within r (((mem_putBehind off.member).mp inside).resolve_left other)

theorem Sound.splitInside (sound : Sound n start stop inputs outputs)
    (off : Offshoot stop outputs old new) (member : old ∈ inputs) :
    Sound n start stop (putBehind old new inputs) (putBehind old new outputs) := by
  have lands := off.lands sound member
  have stays := off.stays sound member
  have shifted := off.shifted
  refine ⟨sound.inputSorted.putBehind sound.inputBelow member lands.1 lands.2,
    sound.outputSorted.putBehind sound.outputBelow off.member off.above off.below,
    ?_,off.outputRange sound,?_,?_,?_,?_,off.within sound⟩
  · intro r inside
    rcases (mem_putBehind member).mp inside with rfl | inside
    · exact stays
    · exact sound.inputRange r inside
  · rw [head?_putBehind]
    exact sound.inputFirst
  · rw [head?_putBehind]
    exact sound.outputFirst
  · intro r listed shown
    rw [off.endOf_eq sound shown,sound.inputSorted.endOf_putBehind sound.inputBelow member lands.1
      lands.2 listed]
    have agree := sound.agree old member off.member
    by_cases isOld : r = old
    · subst r
      rw [if_pos rfl,if_pos rfl]
      omega
    · by_cases isNew : r = new
      · subst r
        rw [if_neg isOld,if_neg isOld,if_pos rfl,if_pos rfl]
        omega
      · rw [if_neg isOld,if_neg isOld,if_neg isNew,if_neg isNew]
        exact sound.agree r (((mem_putBehind member).mp listed).resolve_left isNew)
          (((mem_putBehind off.member).mp shown).resolve_left isNew)
  · intro r shown unlisted
    have isNew : r ≠ new := fun same => unlisted ((mem_putBehind member).mpr (Or.inl same))
    have absent : r ∉ inputs := fun inside => unlisted ((mem_putBehind member).mpr (Or.inr inside))
    have isOld : r ≠ old := fun same => absent (same ▸ member)
    rw [off.endOf_eq sound shown,if_neg isOld,if_neg isNew]
    exact sound.away r (((mem_putBehind off.member).mp shown).resolve_left isNew) absent

theorem Sound.splitOutside (sound : Sound n start stop inputs outputs)
    (off : Offshoot stop outputs old new) (absent : old ∉ inputs) :
    Sound n start stop inputs (putBehind old new outputs) := by
  have shifted := off.shifted
  have above := off.above
  have below := off.below
  refine ⟨sound.inputSorted,
    sound.outputSorted.putBehind sound.outputBelow off.member off.above off.below,
    sound.inputRange,off.outputRange sound,sound.inputFirst,?_,?_,?_,off.within sound⟩
  · rw [head?_putBehind]
    exact sound.outputFirst
  · intro r listed shown
    have isNew : r ≠ new := fun same => off.unlisted sound (same ▸ listed)
    have isOld : r ≠ old := fun same => absent (same ▸ listed)
    rw [off.endOf_eq sound shown,if_neg isOld,if_neg isNew]
    exact sound.agree r listed (((mem_putBehind off.member).mp shown).resolve_left isNew)
  · intro r shown unlisted
    have away := sound.away old off.member absent
    rw [off.endOf_eq sound shown]
    split
    next same =>
      subst r
      omega
    next isOld =>
      split
      next same =>
        subst r
        omega
      next isNew =>
        exact sound.away r (((mem_putBehind off.member).mp shown).resolve_left isNew) unlisted

end Splits

theorem Sound.receive (sound : Sound n start stop inputs outputs) (member : mark ∈ inputs)
    (foreign : mark ∉ outputs) (unknown : new ∉ outputs) (low : mark.p < new.p)
    (high : new.p < endOf Record.p stop inputs mark) :
    Sound n start stop (putBehind mark new inputs) outputs := by
  have ends := (sound.inputIsEnd member).inside
  have range := sound.inputRange mark member
  refine ⟨sound.inputSorted.putBehind sound.inputBelow member low high,sound.outputSorted,?_,
    sound.outputRange,?_,sound.outputFirst,?_,?_,sound.within⟩
  · intro r inside
    rcases (mem_putBehind member).mp inside with rfl | inside
    · omega
    · exact sound.inputRange r inside
  · rw [head?_putBehind]
    exact sound.inputFirst
  · intro r listed shown
    have isMark : r ≠ mark := fun same => foreign (same ▸ shown)
    have isNew : r ≠ new := fun same => unknown (same ▸ shown)
    rw [sound.inputSorted.endOf_putBehind sound.inputBelow member low high listed,if_neg isMark,
      if_neg isNew]
    exact sound.agree r (((mem_putBehind member).mp listed).resolve_left isNew) shown
  · intro r shown unlisted
    exact sound.away r shown fun inside => unlisted ((mem_putBehind member).mpr (Or.inr inside))

end BalancedMove.Store
