import BalancedMove.Proofs.Balance.Alone

/-! The bound that balancing is made for: no output interval holds `2a` input starts, neither in the
balanced store nor in the table that is built from it. -/
namespace BalancedMove

open Sequence Store Balancer

section Tables

variable {table : MoveTable} {n limit : Nat} {pairs : List Pair}

def Pair.degree (n : Nat) (pairs : List Pair) (v : Pair) : Nat :=
  count Pair.p pairs v.q (v.q + (endOf Pair.p n pairs v - v.p))

theorem MoveTable.Encodes.inDegree_le (encodes : table.Encodes n pairs) (valid : Valid n pairs)
    (small : n < table.width.limit) (light : ∀ v ∈ pairs, v.degree n pairs ≤ limit) :
    ∀ j < table.size, ∃ degree, table.inDegree j = .ok degree ∧ degree ≤ limit := by
  intro j inside
  rw [encodes.size] at inside
  have row : pairs[j]? = some pairs[j] := List.getElem?_eq_getElem inside
  exact ⟨_,encodes.inDegree_eq valid small row,light _ (List.getElem_mem inside)⟩

end Tables

section Stores

variable {store : Store} {inputs outputs : List Record} {setting : Setting}

theorem Balancer.Clear.reads (clear : Clear setting setting.stop inputs outputs)
    (holds : store.Holds inputs outputs) (stop : store.stop = setting.stop)
    (sound : Sound setting.n setting.start setting.stop inputs outputs) :
    ∃ pairs ids, store.pairs = .ok pairs ∧ store.outputIds = .ok ids ∧
      ∀ id ∈ ids, ∃ low high, store.q id = .ok low ∧ store.outputEnd id = .ok high ∧
        pairs.countP (fun v => low ≤ v.p && v.p < high) ≤ 2 * setting.a - 1 := by
  refine ⟨_,_,holds.pairs,holds.outputIds,?_⟩
  intro id member
  obtain ⟨r,shown,rfl⟩ := List.mem_map.mp member
  have light := (clear r shown (sound.outputBelow r shown)).1
  refine ⟨_,_,holds.q (Or.inr shown),holds.outputEnd shown,?_⟩
  have counted := @count_pairs inputs r.q (endOf Record.q setting.stop outputs r)
  unfold startsIn at light
  rw [stop]
  unfold count at counted light
  omega

theorem Balancer.Clear.degree_le (clear : Clear setting setting.stop inputs outputs)
    (sound : Sound setting.n setting.start setting.stop inputs outputs)
    (same : inputs.Perm outputs) : ∀ v ∈ inputs.map Record.pair,
      v.degree setting.stop (inputs.map Record.pair) ≤ 2 * setting.a - 1 := by
  intro v member
  obtain ⟨r,listed,rfl⟩ := List.mem_map.mp member
  have shown := same.mem_iff.mp listed
  have light := (clear r shown (sound.outputBelow r shown)).1
  have interval := sound.interval listed shown
  unfold Record.p Record.q at interval
  rw [Pair.degree,count_pairs,interval]
  unfold startsIn Record.q at light
  omega

end Stores

section Construction

theorem Construction.Alone.inDegree_le {construction : Construction}
    {enough : 2 ≤ construction.parameters.a} (alone : construction.Alone enough) :
    ∀ j < alone.table.size, ∃ degree, alone.table.inDegree j = .ok degree ∧
      degree ≤ 2 * construction.parameters.a - 1 := by
  have light := alone.clear.degree_le alone.steady.sound alone.same
  have stop : (alone.whole.setting enough).stop = construction.n := alone.stop
  rw [stop] at light
  exact alone.encodes.inDegree_le alone.valid alone.small light

/-- Balancing with one store leaves less than `2a` input starts in every output interval. -/
theorem balance_bounded {a : Nat} (enough : 2 ≤ a) :
    (∀ {store : Store} {inputs outputs : List Record}, store.Whole inputs outputs →
      Addressable inputs.length →
      ∃ after counts pairs ids, store.balance a = .ok (after,counts) ∧ after.pairs = .ok pairs ∧
        after.outputIds = .ok ids ∧ ∀ id ∈ ids, ∃ low high, after.q id = .ok low ∧
          after.outputEnd id = .ok high ∧
          pairs.countP (fun v => low ≤ v.p && v.p < high) ≤ 2 * a - 1) ∧
    ∀ {construction : Construction} {cores : Nat}, 0 < cores →
      construction.n < construction.width.limit →
      Addressable construction.pairs.length → construction.parameters = { a, workers := 1 } →
      validate construction.width construction.n construction.pairs = .ok () →
      ∃ table counts, construction.buildCounted cores = .ok (table,counts) ∧
        ∀ j < table.size, ∃ degree, table.inDegree j = .ok degree ∧ degree ≤ 2 * a - 1 := by
  constructor
  · intro store inputs outputs whole few
    obtain ⟨after,number,newInputs,newOutputs,balanced,steady,_,_,clear⟩ :=
      whole.balance_eq enough few
    obtain ⟨pairs,ids,facts⟩ := clear.reads steady.holds steady.stop steady.sound
    exact ⟨after.store,_,pairs,ids,balanced,facts⟩
  · rintro ⟨width,n,given,parameters⟩ cores machine small few rfl accepted
    obtain ⟨alone⟩ :=
      @Construction.exists_alone ⟨width,n,given,{ a, workers := 1 }⟩ small few enough accepted
    refine ⟨alone.table,{ splits := alone.number },?_,alone.inDegree_le⟩
    rw [Construction.buildCounted_alone rfl accepted (parameters_alone enough machine small accepted)]
    exact alone.built

/-- A comb of four intervals in front of a long one, which receives all their starts. -/
def comb : List Pair := [⟨0,4⟩,⟨1,5⟩,⟨2,6⟩,⟨3,7⟩,⟨4,0⟩]

theorem comb_accepted : validate .w8 8 comb = .ok () :=
  (validate_iff (by decide)).mpr (by decide)

theorem comb_balance_bounded :
    (∃ store after counts pairs ids, Store.load .w8 8 comb = .ok store ∧
      store.balance 2 = .ok (after,counts) ∧ after.pairs = .ok pairs ∧
      after.outputIds = .ok ids ∧ ∀ id ∈ ids, ∃ low high, after.q id = .ok low ∧
        after.outputEnd id = .ok high ∧
        pairs.countP (fun v => low ≤ v.p && v.p < high) ≤ 3) ∧
    ∃ table counts, ({ width := .w8, n := 8, pairs := comb, parameters := { a := 2, workers := 1 } } :
        Construction).buildCounted 1 = .ok (table,counts) ∧
      ∀ j < table.size, ∃ degree, table.inDegree j = .ok degree ∧ degree ≤ 3 := by
  have small : 8 < Width.w8.limit := by decide
  have few : Addressable comb.length := by decide
  obtain ⟨store,inputs,outputs,loaded,whole,_,_,given⟩ := load_whole small comb_accepted
  have length := few.records given
  constructor
  · obtain ⟨after,counts,pairs,ids,facts⟩ := (balance_bounded (a := 2) (by decide)).1 whole length
    exact ⟨store,after,counts,pairs,ids,loaded,facts⟩
  · exact (balance_bounded (a := 2) (by decide)).2 Nat.one_pos small few rfl comb_accepted

end Construction

end BalancedMove
