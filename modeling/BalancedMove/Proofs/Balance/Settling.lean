import BalancedMove.Proofs.Balance.Bound

/-! What a cascade promises to the pass that starts it. In front of the interval that the pass holds
every interval is light; the cascade begins at the split point of that interval, and the tally has
counted the interval far enough to know that it is heavy. Then the rear half of the interval is what the
pass goes on with: in front of it every interval is light again, behind its start nothing is split, and
the tally less `a` numbers the same start in it. -/
namespace BalancedMove

open Sequence Store Balancer

theorem Balancer.Traced.unsplit {setting : Setting} {inputs outputs newInputs newOutputs : List Record}
    {interval split new last r : Record} {tally newTally number : Nat}
    (traced : Traced setting split.p last.p split interval new tally newTally inputs outputs newInputs
      newOutputs)
    (sound : Sound setting.n setting.start setting.stop inputs outputs)
    (run : Splits setting.a setting.stop number inputs outputs newInputs newOutputs)
    (shown : interval ∈ outputs) (above : interval.q < split.p)
    (below : split.p < endOf Record.q setting.stop outputs interval) (member : r ∈ newOutputs)
    (behind : split.p < r.q) :
    r ∈ outputs ∧ endOf Record.q setting.stop newOutputs r = endOf Record.q setting.stop outputs r := by
  have newSound := run.sound sound
  have range := newSound.outputRange r member
  obtain ⟨old,before,low,high⟩ := sound.outputCovered range.1 range.2
  have stays := run.outputs_sublist.subset before
  by_cases ahead : split.p ≤ old.q
  · have ends := traced.behind old before ahead
    have same := newSound.outputSorted.apart newSound.outputBelow member stays (Nat.le_refl r.q)
      (newSound.outputIsEnd member).above low (ends ▸ high)
    exact ⟨same ▸ before,same ▸ ends⟩
  · -- the old interval reaches across the split point, so its rear half would contain that of `r`
    have same := sound.outputSorted.apart sound.outputBelow before shown (Nat.le_of_not_le ahead)
      (Nat.lt_trans behind high) (Nat.le_of_lt above) below
    subst same
    have rear := traced.rear rfl
    have cut := traced.cut
    have twin := newSound.outputSorted.apart newSound.outputBelow member traced.right (Nat.le_refl r.q)
      (newSound.outputIsEnd member).above (by omega) (by omega)
    rw [twin,cut] at behind
    exact absurd behind (Nat.lt_irrefl _)

section Contract

variable {balancer : Balancer Local} {inputs outputs starts : List Record}
variable {interval split last : Record} {high tally : Nat}

/-- What settling a heavy interval answers, in a store that keeps every start where it is. -/
theorem settle_contract (whole : balancer.store.Whole inputs outputs) (few : Addressable inputs.length)
    (enough : 2 ≤ balancer.a) (shown : interval ∈ outputs)
    (light : ∀ r ∈ outputs, r.q < interval.q →
      startsIn balancer.store.stop inputs outputs r ≤ 2 * balancer.a - 1)
    (ends : endOf Record.q balancer.store.stop outputs interval = high)
    (range : inRange Record.p inputs interval.q high = starts)
    (splits : starts[balancer.a]? = some split) (counted : starts[tally - 1]? = some last)
    (heavy : 2 * balancer.a ≤ tally) :
    ∃ after right newInputs newOutputs newTally,
      balancer.settle split.p last.p split.id interval.id tally = .ok (after,right.id,newTally) ∧
      after.store.Whole newInputs newOutputs ∧ after.store.stop = balancer.store.stop ∧
      inputs.Sublist newInputs ∧ outputs.Sublist newOutputs ∧
      right ∈ newOutputs ∧ right.q = split.p ∧
      endOf Record.q balancer.store.stop newOutputs right = high ∧
      (∀ r ∈ newOutputs, r.q < split.p →
        startsIn balancer.store.stop newInputs newOutputs r ≤ 2 * balancer.a - 1) ∧
      (∀ r ∈ newOutputs, split.p < r.q → r ∈ outputs ∧
        endOf Record.q balancer.store.stop newOutputs r = endOf Record.q balancer.store.stop outputs r) ∧
      balancer.a < newTally ∧
      (inRange Record.p newInputs split.p high)[newTally - balancer.a - 1]? = some last := by
  subst ends
  subst range
  have steady := whole.stands enough few
  have sound : Sound balancer.store.stop 0 balancer.store.stop inputs outputs := steady.sound
  have sorted := sound.inputSorted
  obtain ⟨⟨begins,_,below⟩,front⟩ := sorted.inRange_getElem?.mp splits
  obtain ⟨⟨listed,low,inside⟩,place⟩ := sorted.inRange_getElem?.mp counted
  have many : tally - 1 < startsIn balancer.store.stop inputs outputs interval := by
    rw [startsIn,← length_inRange]
    exact (List.getElem?_eq_some_iff.mp counted).1
  have passing : Passing (whole.setting enough) inputs outputs interval last :=
    ⟨shown,listed,low,inside,fun r member inFront => by
      have own := light r member inFront
      change startsIn balancer.store.stop inputs outputs r < 2 * balancer.a
      omega⟩
  have heavier : heavyCount balancer.a ≤ startsIn balancer.store.stop inputs outputs interval := by
    have least := heavyCount_le balancer.a
    omega
  have ready : Ready (whole.setting enough) split.p inputs outputs split interval :=
    passing.ready steady.sound begins below front heavier
  have above := ready.above
  have order : split.p ≤ last.p := by
    by_contra inFront
    have fewer := count_split Record.p inputs low (Nat.le_of_not_le inFront)
    omega
  obtain ⟨after,number,newInputs,newOutputs,right,newTally,settled,stands,progress,clear,traced⟩ :=
    steady.settle_eq (domestic_routes local_domestic _)
      (show last.p ≤ balancer.store.stop from Nat.le_trans (Nat.le_of_lt inside)
        (sound.outputIsEnd shown).inside) ready tally
  obtain rfl : tally = count Record.p inputs interval.q last.p + 1 := by omega
  have numbers : newTally = balancer.a + (count Record.p newInputs right.q last.p + 1) :=
    traced.remaining above order front
  have newSorted := stands.sound.inputSorted
  have stays := progress.run.inputs_sublist.subset listed
  refine ⟨after,right,newInputs,newOutputs,newTally,settled,
    whole.balanced enough stands (progress.run.perm whole.same),stands.stop,progress.run.inputs_sublist,
    progress.run.outputs_sublist,traced.right,traced.cut,traced.rear rfl,?_,?_,by omega,?_⟩
  · intro r member inFront
    have own : startsIn balancer.store.stop newInputs newOutputs r < 2 * balancer.a :=
      (clear r member inFront).1
    omega
  · intro r member behind
    exact traced.unsplit steady.sound progress.run shown above below member behind
  · rw [newSorted.inRange_getElem?,← traced.cut]
    refine ⟨⟨stays,traced.cut ▸ order,inside⟩,?_⟩
    omega

/-- The interval at 12 is heavy, and the start that its split makes falls into the one at 0, which
holds three starts and becomes heavy by it. -/
def relay : List Pair := [⟨0,22⟩,⟨1,23⟩,⟨2,12⟩,⟨12,24⟩,⟨13,25⟩,⟨14,26⟩,⟨15,0⟩]

theorem relay_settle_contract :
    ∃ store outputs, Store.load .w8 27 relay = .ok store ∧ store.Whole (numbered 0 relay) outputs ∧
      ∃ after right newInputs newOutputs newTally,
        ({ store, router := Local.here, a := 2 } : Balancer Local).settle 14 15 5 2 4 =
          .ok (after,right.id,newTally) ∧
        after.store.Whole newInputs newOutputs ∧ after.store.stop = store.stop ∧
        (numbered 0 relay).Sublist newInputs ∧ outputs.Sublist newOutputs ∧
        right ∈ newOutputs ∧ right.q = 14 ∧ endOf Record.q store.stop newOutputs right = 22 ∧
        (∀ r ∈ newOutputs, r.q < 14 → startsIn store.stop newInputs newOutputs r ≤ 3) ∧
        (∀ r ∈ newOutputs, 14 < r.q → r ∈ outputs ∧
          endOf Record.q store.stop newOutputs r = endOf Record.q store.stop outputs r) ∧
        2 < newTally ∧
        (inRange Record.p newInputs 14 22)[newTally - 3]? = some ⟨6,⟨15,0⟩,none,false⟩ := by
  have accepted : validate .w8 27 relay = .ok () := (validate_iff (by decide)).mpr (by decide)
  obtain ⟨store,outputs,loaded,whole,_,stop,_⟩ := load_numbered (by decide) accepted
  have few : Addressable (numbered 0 relay).length := by decide
  have sound := whole.sound
  let first : Record := { id := 6, pair := ⟨15,0⟩ }
  let heavy : Record := { id := 2, pair := ⟨2,12⟩ }
  have shown : heavy ∈ outputs := whole.same.mem_iff.mp (by decide)
  have ends : endOf Record.q store.stop outputs heavy = 22 := by
    rw [← sound.interval (by decide) shown,stop]
    decide
  have range : inRange Record.p (numbered 0 relay) heavy.q 22 = (numbered 0 relay).drop 3 := by decide
  have light : ∀ r ∈ outputs, r.q < heavy.q →
      startsIn store.stop (numbered 0 relay) outputs r ≤ 2 * 2 - 1 := by
    intro r member inFront
    have only : ∀ r ∈ numbered 0 relay, r.q < heavy.q → r = first := by decide
    have listed := whole.same.mem_iff.mpr member
    obtain rfl := only r listed inFront
    rw [startsIn,← sound.interval listed member,stop]
    decide
  exact ⟨store,outputs,loaded,whole,@settle_contract { store, router := Local.here, a := 2 } _ _ _ _
    ⟨5,⟨14,26⟩,none,false⟩ ⟨6,⟨15,0⟩,none,false⟩ _ 4 whole few (Nat.le_refl 2) shown light ends
    range rfl rfl (Nat.le_refl 4)⟩

end Contract

end BalancedMove
