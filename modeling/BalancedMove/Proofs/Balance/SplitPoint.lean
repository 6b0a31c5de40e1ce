import BalancedMove.Proofs.Balance.Bound

/-! What the search for a split point promises. A tally stands on one of the input starts of a range and
numbers it. From wherever it stands, either the range turns out to hold less than `2a` starts, or the
answer is the start that has `a` others in front of it. -/
namespace BalancedMove

open Sequence Store

/-- The number of the tally is the place of its node among these starts, counted from one. -/
def Tally.On (starts : List Record) (tally : Tally) : Prop :=
  0 < tally.count ∧ ∃ r, starts[tally.count - 1]? = some r ∧ r.id = tally.last

section Thresholds

variable {nodes a : Nat}

theorem Addressable.heavyCount_eq (few : Addressable nodes) (within : 2 * a ≤ nodes) :
    heavyCount a = 2 * a := by
  have most := heavyCount_le a
  rcases few.room a with exact | beyond <;> omega

theorem Addressable.lt_heavyCount (few : Addressable nodes) {number : Nat} (within : number ≤ nodes)
    (light : number < 2 * a) : number < heavyCount a := by
  rcases few.room a with exact | beyond <;> omega

end Thresholds

namespace Store

variable {store : Store} {inputs outputs starts : List Record} {low stop a : Nat}

theorem tally_on_iff (sorted : Increasing Record.p inputs) {tally : Tally} :
    tally.On (inRange Record.p inputs low stop) ↔
      ∃ r ∈ inputs, (low ≤ r.p ∧ r.p < stop) ∧ tally = tallyAt inputs low r := by
  obtain ⟨last,number⟩ := tally
  constructor
  · rintro ⟨positive,r,place,rfl⟩
    obtain ⟨⟨member,within⟩,front⟩ := sorted.inRange_getElem?.mp place
    refine ⟨r,member,within,?_⟩
    simp only at positive front
    rw [tallyAt,Tally.mk.injEq]
    exact ⟨rfl,by omega⟩
  · rintro ⟨r,member,within,same⟩
    rw [same]
    exact ⟨Nat.succ_pos _,r,sorted.inRange_getElem?.mpr ⟨⟨member,within⟩,rfl⟩,rfl⟩

section Promises

variable (sorted : Increasing Record.p inputs) (few : Addressable inputs.length) (positive : 0 < a)

include sorted few positive

theorem splitPoint_promise (lists : store.Lists inputs)
    (range : inRange Record.p inputs low stop = starts) {tally : Tally} (on : tally.On starts) :
    ∃ answer after, store.splitPoint a stop tally = .ok (answer,after) ∧ after.On starts ∧
      (starts.length < 2 * a → answer = none ∧ after.count = starts.length) ∧
      (2 * a ≤ starts.length → ∃ split, starts[a]? = some split ∧ answer = some split.id ∧
        after.count = max tally.count (2 * a)) := by
  subst range
  have within : count Record.p inputs low stop ≤ inputs.length := count_le_length low stop
  obtain ⟨r,member,⟨above,inside⟩,rfl⟩ := (tally_on_iff sorted).mp on
  rw [length_inRange]
  by_cases light : count Record.p inputs low stop < 2 * a
  · obtain ⟨last,listed,answer,_,lastInside,counted⟩ :=
      splitPoint_light lists sorted member above inside (few.lt_heavyCount within light)
    have on : (tallyAt inputs low last).On (inRange Record.p inputs low stop) :=
      (tally_on_iff sorted).mpr ⟨last,listed,⟨by omega,lastInside⟩,rfl⟩
    exact ⟨none,_,answer,on,fun _ => ⟨rfl,counted⟩,fun heavy => absurd light (Nat.not_lt.mpr heavy)⟩
  · have exact := few.heavyCount_eq (show 2 * a ≤ inputs.length by omega)
    obtain ⟨split,splitListed,last,listed,answer,splitAbove,_,_,lastInside,front,counted⟩ :=
      splitPoint_heavy (a := a) lists sorted member above inside (by omega) (by omega)
    have on : (tallyAt inputs low last).On (inRange Record.p inputs low stop) :=
      (tally_on_iff sorted).mpr ⟨last,listed,⟨by omega,lastInside⟩,rfl⟩
    have place : (inRange Record.p inputs low stop)[a]? = some split :=
      sorted.inRange_getElem?.mpr ⟨⟨splitListed,splitAbove,by omega⟩,front⟩
    rw [exact] at counted
    exact ⟨some split.id,_,answer,on,fun less => absurd less light,
      fun _ => ⟨split,place,rfl,counted⟩⟩

theorem splitPointAround_promise (holds : store.Holds inputs outputs)
    (ordered : outputs.Pairwise fun s t => s.q ≤ t.q) {r interval : Record} (shown : interval ∈ outputs)
    (range : inRange Record.p inputs interval.q (endOf Record.q store.stop outputs interval) = starts)
    (member : r ∈ starts) :
    store.greatestAtMost r.p = .ok (some interval.id) ∧
      (starts.length < 2 * a → store.splitPointAround a r.id = .ok none) ∧
      (2 * a ≤ starts.length → ∃ split, starts[a]? = some split ∧
        store.splitPointAround a r.id = .ok (some (split.id,interval.id))) := by
  subst range
  obtain ⟨listed,above,inside⟩ := mem_inRange.mp member
  have within : startsIn store.stop inputs outputs interval ≤ inputs.length := startsIn_le
  have room : heavyCount a ≤ startsIn store.stop inputs outputs interval → a < heavyCount a := by
    intro heavy
    rcases few.room a with exact | beyond <;> omega
  refine ⟨holds.greatestAtMost ordered shown above inside,?_⟩
  rw [length_inRange,← startsIn]
  rcases splitPointAround_eq holds sorted ordered listed shown above inside room with
    ⟨answer,light⟩ | ⟨split,splitListed,answer,splitAbove,splitInside,front,heavy⟩
  · have most := heavyCount_le a
    exact ⟨fun _ => answer,fun heavy => absurd light (by omega)⟩
  · have place := sorted.inRange_getElem?.mpr ⟨⟨splitListed,splitAbove,splitInside⟩,front⟩
    refine ⟨fun light => ?_,fun _ => ⟨split,place,answer⟩⟩
    exact absurd (few.lt_heavyCount within light) (Nat.not_lt.mpr heavy)

end Promises

end Store

/-- The search decides whether a range is heavy from any of its starts, and so does the search around an
input start for the output interval in which it lies. -/
theorem splitPoint_contract {a : Nat} (positive : 0 < a) :
    (∀ {store : Store} {inputs starts : List Record} {low stop : Nat} {tally : Tally},
      store.Lists inputs → Increasing Record.p inputs → Addressable inputs.length →
      inRange Record.p inputs low stop = starts → tally.On starts →
      ∃ answer after, store.splitPoint a stop tally = .ok (answer,after) ∧ after.On starts ∧
        (starts.length < 2 * a → answer = none ∧ after.count = starts.length) ∧
        (2 * a ≤ starts.length → ∃ split, starts[a]? = some split ∧ answer = some split.id ∧
          after.count = max tally.count (2 * a))) ∧
    ∀ {store : Store} {inputs outputs starts : List Record} {r interval : Record},
      store.Holds inputs outputs → Increasing Record.p inputs → Addressable inputs.length →
      (outputs.Pairwise fun s t => s.q ≤ t.q) → interval ∈ outputs →
      inRange Record.p inputs interval.q (endOf Record.q store.stop outputs interval) = starts →
      r ∈ starts →
      store.greatestAtMost r.p = .ok (some interval.id) ∧
        (starts.length < 2 * a → store.splitPointAround a r.id = .ok none) ∧
        (2 * a ≤ starts.length → ∃ split, starts[a]? = some split ∧
          store.splitPointAround a r.id = .ok (some (split.id,interval.id))) := by
  constructor
  · intro store inputs starts low stop tally lists sorted few range on
    exact splitPoint_promise sorted few positive lists range on
  · intro store inputs outputs starts r interval holds sorted few ordered shown range member
    exact splitPointAround_promise sorted few positive holds ordered shown range member

/-- In the comb, the interval of the last record holds four starts. -/
theorem comb_splitPoint_contract :
    ∃ store, Store.load .w8 8 comb = .ok store ∧
      store.splitPoint 2 4 ⟨0,1⟩ = .ok (some 2,⟨3,4⟩) ∧ store.splitPoint 3 4 ⟨1,2⟩ = .ok (none,⟨3,4⟩) ∧
      store.splitPointAround 2 3 = .ok (some (2,4)) ∧ store.splitPointAround 3 3 = .ok none := by
  obtain ⟨store,outputs,loaded,whole,_,stop,_⟩ := load_numbered (by decide) comb_accepted
  have few : Addressable (numbered 0 comb).length := by decide
  have sorted := whole.sound.inputSorted
  let last : Record := { id := 4, pair := ⟨4,0⟩ }
  have listed : last ∈ numbered 0 comb := by decide
  have shown := whole.same.mem_iff.mp listed
  have ends : endOf Record.q store.stop outputs last = 4 := by
    rw [← whole.sound.interval listed shown,stop]
    decide
  have range : inRange Record.p (numbered 0 comb) 0 4 = numbered 0 (comb.take 4) := by decide
  have around : inRange Record.p (numbered 0 comb) last.q
      (endOf Record.q store.stop outputs last) = numbered 0 (comb.take 4) := by
    rw [ends]
    exact range
  have inside : (⟨3,⟨3,7⟩,none,false⟩ : Record) ∈ numbered 0 (comb.take 4) := by decide
  obtain ⟨two,twoAround⟩ := splitPoint_contract (a := 2) (by decide)
  obtain ⟨three,threeAround⟩ := splitPoint_contract (a := 3) (by decide)
  refine ⟨store,loaded,?_,?_,?_,?_⟩
  · obtain ⟨answer,⟨id,number⟩,found,⟨_,r,place,rfl⟩,_,heavy⟩ :=
      @two store _ _ 0 4 ⟨0,1⟩ whole.holds.lists sorted few range
        ⟨by decide,⟨0,⟨0,4⟩,none,false⟩,by decide,rfl⟩
    obtain ⟨split,isSplit,rfl,rfl⟩ := heavy (by decide)
    obtain rfl : ⟨2,⟨2,6⟩,none,false⟩ = split := Option.some.inj isSplit
    obtain rfl : ⟨3,⟨3,7⟩,none,false⟩ = r := Option.some.inj place
    exact found
  · obtain ⟨answer,⟨id,number⟩,found,⟨_,r,place,rfl⟩,light,_⟩ :=
      @three store _ _ 0 4 ⟨1,2⟩ whole.holds.lists sorted few range
        ⟨by decide,⟨1,⟨1,5⟩,none,false⟩,by decide,rfl⟩
    obtain ⟨rfl,rfl⟩ := light (by decide)
    obtain rfl : ⟨3,⟨3,7⟩,none,false⟩ = r := Option.some.inj place
    exact found
  · obtain ⟨_,_,heavy⟩ := twoAround whole.holds sorted few whole.ordered shown around inside
    obtain ⟨split,isSplit,found⟩ := heavy (by decide)
    obtain rfl : ⟨2,⟨2,6⟩,none,false⟩ = split := Option.some.inj isSplit
    exact found
  · exact (threeAround whole.holds sorted few whole.ordered shown around inside).2.1 (by decide)

end BalancedMove
