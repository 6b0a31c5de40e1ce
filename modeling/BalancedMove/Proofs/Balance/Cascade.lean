import BalancedMove.Proofs.Balance.Split

/-! Cascades of splits. In front of `swept` every interval but the one to be split is light, and no
interval reaches beyond `swept`. A split may make one other interval heavy by one start; it is then the
one to be split next. A start in the interval just split makes neither half heavy, since both halves
of an interval of at most `2a` starts have about `a` of them. -/
namespace BalancedMove.Balancer

open Sequence Store

/-- Behind the sweep no interval is heavy, and none reaches across. -/
def Clear (setting : Setting) (swept : Nat) (inputs outputs : List Record) : Prop :=
  ∀ r ∈ outputs, r.q < swept → startsIn setting.stop inputs outputs r < 2 * setting.a ∧
    endOf Record.q setting.stop outputs r ≤ swept

/-- A heavy interval with its split point, while everything else in front of `swept` is light. -/
structure Ready (setting : Setting) (swept : Nat) (inputs outputs : List Record)
    (split old : Record) : Prop where
  begins : split ∈ inputs
  member : old ∈ outputs
  above : old.q < split.p
  below : split.p < endOf Record.q setting.stop outputs old
  front : count Record.p inputs old.q split.p = setting.a
  heavy : heavyCount setting.a ≤ startsIn setting.stop inputs outputs old
  light : ∀ r ∈ outputs, r.q < swept → r ≠ old →
    startsIn setting.stop inputs outputs r < 2 * setting.a ∧
      endOf Record.q setting.stop outputs r ≤ swept
  reached : old.q < swept
  rear : split.p = swept ∨ startsIn setting.stop inputs outputs old ≤ 2 * setting.a ∧
    endOf Record.q setting.stop outputs old ≤ swept

variable {setting : Setting} {swept counted : Nat} {inputs outputs : List Record}
variable {split old new r : Record}

section Step

/-- The intervals in front of `swept` after a split: only the one in which the new start lies can have
more starts than are allowed, and then by one, unless it was the one just split. -/
theorem Ready.after (sound : Sound setting.n setting.start setting.stop inputs outputs)
    (ready : Ready setting swept inputs outputs split old)
    (done : Split setting.a setting.stop inputs outputs old new) (cut : new.q = split.p)
    (member : r ∈ putBehind old new outputs) (inFront : r.q < swept) :
    endOf Record.q setting.stop (putBehind old new outputs) r ≤ swept ∧
      startsIn setting.stop (placed old new inputs) (putBehind old new outputs) r ≤ 2 * setting.a ∧
      ((r.q ≤ new.p ∧ new.p < endOf Record.q setting.stop (putBehind old new outputs) r →
          old.q ≤ new.p ∧ new.p < endOf Record.q setting.stop outputs old) →
        startsIn setting.stop (placed old new inputs) (putBehind old new outputs) r <
          2 * setting.a) := by
  have enough := setting.enough
  have off := done.toOffshoot
  have ends := off.endOf_eq sound member
  have below := ready.below
  have rear := ready.rear
  -- the front half, the rear half and the other intervals gain starts in different ways
  by_cases isOld : r = old
  · subst r
    rw [if_pos rfl] at ends
    have starts := done.startsIn_front sound
    split at starts <;> omega
  · rw [if_neg isOld] at ends
    by_cases isNew : r = new
    · subst r
      rw [if_pos rfl] at ends
      have starts := done.startsIn_rear sound
      split at starts <;> omega
    · rw [if_neg isNew] at ends
      have shown : r ∈ outputs := ((mem_putBehind off.member).mp member).resolve_left isNew
      have light := ready.light r shown inFront isOld
      have starts := startsIn_other sound off shown isOld
      rw [ends]
      refine ⟨light.2,?_,?_⟩
      · split at starts <;> omega
      · intro only
        split at starts
        next inside =>
          have inOld := only inside
          exact absurd (sound.outputSorted.apart sound.outputBelow shown off.member inside.1
            inside.2 inOld.1 inOld.2) isOld
        next => omega

theorem Ready.clear (sound : Sound setting.n setting.start setting.stop inputs outputs)
    (ready : Ready setting swept inputs outputs split old)
    (done : Split setting.a setting.stop inputs outputs old new) (cut : new.q = split.p)
    (calm : ∀ r ∈ putBehind old new outputs, r.q < swept → r.q ≤ new.p →
      new.p < endOf Record.q setting.stop (putBehind old new outputs) r →
      old.q ≤ new.p ∧ new.p < endOf Record.q setting.stop outputs old) :
    Clear setting swept (placed old new inputs) (putBehind old new outputs) := by
  intro r member inFront
  obtain ⟨ends,_,light⟩ := ready.after sound done cut member inFront
  exact ⟨light fun inside => calm r member inFront inside.1 inside.2,ends⟩

theorem Ready.clear_outside (sound : Sound setting.n setting.start setting.stop inputs outputs)
    (ready : Ready setting swept inputs outputs split old)
    (done : Split setting.a setting.stop inputs outputs old new) (cut : new.q = split.p)
    (absent : old ∉ inputs) :
    Clear setting swept (placed old new inputs) (putBehind old new outputs) := by
  refine ready.clear sound done cut ?_
  intro r member _ low high
  have after := sound.split done.toOffshoot
  have leaves := done.toOffshoot.leaves sound absent
  have range := after.outputRange r member
  have ends := (after.outputIsEnd member).inside
  omega

theorem Ready.clear_ahead (sound : Sound setting.n setting.start setting.stop inputs outputs)
    (ready : Ready setting swept inputs outputs split old)
    (done : Split setting.a setting.stop inputs outputs old new) (cut : new.q = split.p)
    (ahead : swept ≤ new.p) :
    Clear setting swept (placed old new inputs) (putBehind old new outputs) := by
  refine ready.clear sound done cut ?_
  intro r member inFront _ high
  have ends := (ready.after sound done cut member inFront).1
  omega

theorem Ready.clear_returning (sound : Sound setting.n setting.start setting.stop inputs outputs)
    (ready : Ready setting swept inputs outputs split old)
    (done : Split setting.a setting.stop inputs outputs old new) (cut : new.q = split.p)
    (returns : old.q ≤ new.p ∧ new.p < endOf Record.q setting.stop outputs old) :
    Clear setting swept (placed old new inputs) (putBehind old new outputs) :=
  ready.clear sound done cut fun _ _ _ _ _ => returns

variable {interval : Record}

theorem Ready.clear_light (sound : Sound setting.n setting.start setting.stop inputs outputs)
    (ready : Ready setting swept inputs outputs split old)
    (done : Split setting.a setting.stop inputs outputs old new) (cut : new.q = split.p)
    (shown : interval ∈ putBehind old new outputs) (low : interval.q ≤ new.p)
    (high : new.p < endOf Record.q setting.stop (putBehind old new outputs) interval)
    (light : startsIn setting.stop (placed old new inputs) (putBehind old new outputs) interval <
      heavyCount setting.a) :
    Clear setting swept (placed old new inputs) (putBehind old new outputs) := by
  intro r member inFront
  have sorted := (sound.split done.toOffshoot).outputSorted
  have below := (sound.split done.toOffshoot).outputBelow
  have least := heavyCount_le setting.a
  obtain ⟨ends,_,others⟩ := ready.after sound done cut member inFront
  refine ⟨?_,ends⟩
  by_cases same : r = interval
  · subst r
    omega
  · exact others fun inside =>
      absurd (sorted.apart below member shown inside.1 inside.2 low high) same

/-- A start in a light interval may make it heavy, and then it is the one to be split. -/
theorem Ready.next (sound : Sound setting.n setting.start setting.stop inputs outputs)
    (ready : Ready setting swept inputs outputs split old)
    (done : Split setting.a setting.stop inputs outputs old new) (cut : new.q = split.p)
    (behind : new.p < swept)
    (shown : interval ∈ putBehind old new outputs) (low : interval.q ≤ new.p)
    (high : new.p < endOf Record.q setting.stop (putBehind old new outputs) interval)
    {following : Record} (begins : following ∈ placed old new inputs)
    (below : following.p < endOf Record.q setting.stop (putBehind old new outputs) interval)
    (front : count Record.p (placed old new inputs) interval.q following.p = setting.a)
    (heavy : heavyCount setting.a ≤
      startsIn setting.stop (placed old new inputs) (putBehind old new outputs) interval) :
    Ready setting swept (placed old new inputs) (putBehind old new outputs) following interval := by
  have enough := setting.enough
  have sorted := (sound.split done.toOffshoot).outputSorted
  have bounds := (sound.split done.toOffshoot).outputBelow
  have own := ready.after sound done cut shown (by omega)
  refine ⟨begins,shown,?_,below,front,heavy,?_,by omega,Or.inr ⟨own.2.1,own.1⟩⟩
  · by_contra under
    have none : count Record.p (placed old new inputs) interval.q following.p = 0 :=
      count_eq_zero.mpr fun s _ _ => by omega
    omega
  · intro r member inFront differ
    obtain ⟨ends,_,others⟩ := ready.after sound done cut member inFront
    exact ⟨others fun inside =>
      absurd (sorted.apart bounds member shown inside.1 inside.2 low high) differ,ends⟩

/-- How a cascade changes the part behind `swept`: the intervals there are as they were, the first
split has left its rear half, and the count follows the starts that joined in front of `counted`. -/
structure Traced (setting : Setting) (swept counted : Nat) (split old new : Record)
    (tally newTally : Nat) (inputs outputs newInputs newOutputs : List Record) : Prop where
  behind : ∀ r ∈ outputs, swept ≤ r.q →
    endOf Record.q setting.stop newOutputs r = endOf Record.q setting.stop outputs r
  right : new ∈ newOutputs
  cut : new.q = split.p
  rear : split.p = swept →
    endOf Record.q setting.stop newOutputs new = endOf Record.q setting.stop outputs old
  counts : newTally + count Record.p inputs swept counted =
    tally + count Record.p newInputs swept counted

theorem Ready.traced (sound : Sound setting.n setting.start setting.stop inputs outputs)
    (ready : Ready setting swept inputs outputs split old)
    (done : Split setting.a setting.stop inputs outputs old new) (cut : new.q = split.p)
    (inside : counted ≤ setting.stop) (tally : Nat) :
    Traced setting swept counted split old new tally
      (tally + if swept ≤ new.p ∧ new.p < counted then 1 else 0) inputs outputs
      (placed old new inputs) (putBehind old new outputs) := by
  have off := done.toOffshoot
  have shown : new ∈ putBehind old new outputs := (mem_putBehind off.member).mpr (Or.inl rfl)
  have reached := ready.reached
  have range := (sound.outputRange old off.member).1
  refine ⟨?_,shown,cut,?_,?_⟩
  · intro r member ahead
    have isOld : r ≠ old := fun same => by
      rw [same] at ahead
      omega
    have isNew : r ≠ new := fun same => off.fresh sound (same ▸ member)
    rw [off.endOf_eq sound ((mem_putBehind off.member).mpr (Or.inr member)),if_neg isOld,
      if_neg isNew]
  · intro _
    rw [off.endOf_eq sound shown,if_neg off.ne,if_pos rfl]
  · rw [count_placed sound off (by omega) inside]
    omega

theorem Traced.trans {tally middleTally newTally number : Nat} {following interval second : Record}
    {middleInputs middleOutputs newInputs newOutputs : List Record}
    (first : Traced setting swept counted split old new tally middleTally inputs outputs
      middleInputs middleOutputs)
    (rest : Traced setting swept counted following interval second middleTally newTally
      middleInputs middleOutputs newInputs newOutputs)
    (early : outputs.Sublist middleOutputs)
    (run : Splits setting.a setting.stop number middleInputs middleOutputs newInputs newOutputs) :
    Traced setting swept counted split old new tally newTally inputs outputs newInputs
      newOutputs := by
  refine ⟨?_,run.outputs_sublist.subset first.right,first.cut,?_,?_⟩
  · intro r member ahead
    rw [rest.behind r (early.subset member) ahead,first.behind r member ahead]
  · intro here
    have ahead : swept ≤ new.q := by rw [first.cut,here]
    rw [rest.behind new first.right ahead,first.rear here]
  · have early := first.counts
    have late := rest.counts
    omega

end Step

variable {ρ : Type} [InputRouter ρ] {inv : ρ → List Record → List Record → Prop}
variable {balancer : Balancer ρ}

omit [InputRouter ρ] in
theorem Steady.around (steady : Steady setting inv balancer inputs outputs) {position : Record}
    (listed : position ∈ inputs) :
    ∃ interval ∈ outputs, interval.q ≤ position.p ∧
      position.p < endOf Record.q setting.stop outputs interval ∧
      (balancer.store.splitPointAround balancer.a position.id = .ok none ∧
          startsIn setting.stop inputs outputs interval < heavyCount setting.a ∨
        ∃ split ∈ inputs, balancer.store.splitPointAround balancer.a position.id =
            .ok (some (split.id,interval.id)) ∧
          split.p < endOf Record.q setting.stop outputs interval ∧
          count Record.p inputs interval.q split.p = setting.a ∧
          heavyCount setting.a ≤ startsIn setting.stop inputs outputs interval) := by
  have range := steady.sound.inputRange position listed
  obtain ⟨interval,shown,low,high⟩ := steady.sound.outputCovered range.1 range.2
  refine ⟨interval,shown,low,high,?_⟩
  rw [← steady.stop] at high
  have answer := splitPointAround_eq steady.holds steady.sound.inputSorted
    (Increasing.weaken steady.sound.outputSorted) listed shown low high
    fun heavy => steady.splittable (steady.stop ▸ heavy)
  rw [steady.stop] at answer
  rw [steady.param]
  rcases answer with light | ⟨split,begins,found,_,below,front,heavy⟩
  · exact Or.inl light
  · exact Or.inr ⟨split,begins,found,below,front,heavy⟩

theorem cascade_settles (routes : Routes setting inv) (inside : counted ≤ setting.stop)
    {fuel : Nat} {first : Option NodeId} {tally : Nat}
    (steady : Steady setting inv balancer inputs outputs)
    (ready : Ready setting swept inputs outputs split old)
    (enough : setting.stop - setting.start < outputs.length + fuel) :
    ∃ after number newInputs newOutputs new newTally,
      cascade swept counted fuel balancer first split.id old.id tally =
        .ok (after,first.getD new.id,newTally) ∧
      Steady setting inv after newInputs newOutputs ∧
      Progress setting number balancer after inputs outputs newInputs newOutputs ∧
      Clear setting swept newInputs newOutputs ∧
      Traced setting swept counted split old new tally newTally inputs outputs newInputs
        newOutputs := by
  -- every split adds a record, and there are no more records than positions
  induction fuel generalizing balancer first inputs outputs split old with
  | zero => exact absurd steady.sound.length_outputs_le (by omega)
  | succ fuel ih =>
    have sound := steady.sound
    have low : balancer.store.q old.id = .ok old.q := steady.holds.q (Or.inr ready.member)
    have high := steady.outputEnd ready.member
    obtain ⟨after,new,splitOk,cut,done,stands,progress⟩ := steady.split_eq routes ready.begins
      ready.member ready.above ready.below ready.front ready.heavy
    have shown : new ∈ putBehind old new outputs := (mem_putBehind ready.member).mpr (Or.inl rfl)
    have landed : after.store.p new.id = .ok new.p := stands.holds.p (Or.inr shown)
    have traced := ready.traced sound done cut inside tally
    -- the new start leaves the range, falls behind the sweep, returns to the interval just split,
    -- or lies in an interval in front, which is the next one to be split if it has become heavy
    by_cases member : old ∈ inputs
    · by_cases ahead : swept ≤ new.p
      · refine ⟨after,1,_,_,new,_,?_,stands,progress,ready.clear_ahead sound done cut ahead,traced⟩
        simp [cascade,low,high,splitOk,landed,member,ahead]
        split <;> rfl
      · simp only [ahead,false_and,if_false,Nat.add_zero] at traced
        by_cases returns : old.q ≤ new.p ∧ new.p < endOf Record.q setting.stop outputs old
        · refine ⟨after,1,_,_,new,_,?_,stands,progress,ready.clear_returning sound done cut returns,
            traced⟩
          simp [cascade,low,high,splitOk,landed,member,ahead,returns]
        · have listed : new ∈ placed old new inputs := mem_placed.mpr (Or.inl ⟨member,rfl⟩)
          obtain ⟨interval,present,intervalLow,intervalHigh,answer⟩ := stands.around listed
          rcases answer with ⟨none,light⟩ | ⟨following,begins,found,below,front,heavy⟩
          · refine ⟨after,1,_,_,new,_,?_,stands,progress,
              ready.clear_light sound done cut present intervalLow intervalHigh light,traced⟩
            simp [cascade,low,high,splitOk,landed,member,ahead,none]
          · have next := ready.next sound done cut (Nat.lt_of_not_le ahead) present intervalLow
              intervalHigh begins below front heavy
            obtain ⟨last,number,newInputs,newOutputs,second,newTally,rest,lastStands,lastProgress,
              clear,lastTraced⟩ := @ih _ _ _ _ _ (some (first.getD new.id)) stands next
                (by rw [length_putBehind ready.member]; omega)
            refine ⟨last,1 + number,newInputs,newOutputs,new,newTally,?_,lastStands,
              progress.trans lastProgress,clear,
              traced.trans lastTraced (sublist_putBehind outputs) lastProgress.run⟩
            simpa [cascade,low,high,splitOk,landed,member,ahead,returns,found] using rest
    · refine ⟨after,1,_,_,new,_,?_,stands,progress,ready.clear_outside sound done cut member,traced⟩
      have leaves := done.toOffshoot.leaves sound member
      have range := (sound.outputRange old ready.member).1
      have reached := ready.reached
      simp [cascade,low,high,splitOk,member]
      omega

end BalancedMove.Balancer
