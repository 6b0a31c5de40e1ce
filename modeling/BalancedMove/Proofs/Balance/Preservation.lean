import BalancedMove.Construction
import BalancedMove.Proofs.Balance.Bound
import BalancedMove.Proofs.MoveTable.Map
import BalancedMove.Proofs.Store.Check

/-! What balancing with one store leaves as it was: the permutation that the pairs describe, the nodes
that there were, and everything that makes a whole store. -/
namespace BalancedMove

open Sequence Store Balancer

namespace Store

variable {a n number x : Nat} {inputs outputs newInputs newOutputs : List Record}
variable {old new : Record}

theorem Offshoot.refines (off : Offshoot n outputs old new) (sound : Sound n 0 n inputs outputs)
    (member : old ∈ inputs) :
    Refines n (inputs.map Record.pair) ((putBehind old new inputs).map Record.pair) := by
  have lands := off.lands sound member
  have shifted := off.shifted
  refine ⟨increasing_pairs.mpr (sound.splitInside off member).inputSorted,?_,?_⟩
  · exact fun v inside => ((sublist_putBehind inputs).map Record.pair).subset inside
  · intro u inside
    obtain ⟨r,present,rfl⟩ := List.mem_map.mp inside
    rcases (mem_putBehind member).mp present with rfl | known
    · refine ⟨old.pair,List.mem_map_of_mem member,Nat.le_of_lt lands.1,?_,?_⟩
      · rw [sound.pairEnd member]
        exact lands.2
      · change r.q + old.p = old.q + r.p
        omega
    · refine ⟨r.pair,List.mem_map_of_mem known,Nat.le_refl _,?_,rfl⟩
      rw [sound.pairEnd known]
      exact (sound.inputIsEnd known).above

theorem Splits.image_eq (splits : Splits a n number inputs outputs newInputs newOutputs)
    (sound : Sound n 0 n inputs outputs) (same : inputs.Perm outputs) (inside : x < n) :
    image (newInputs.map Record.pair) x = image (inputs.map Record.pair) x := by
  induction splits with
  | none => rfl
  | @more _ inputs outputs _ _ old new split rest ih =>
    have off := split.toOffshoot
    have member : old ∈ inputs := same.mem_iff.mpr off.member
    have place : placed old new inputs = putBehind old new inputs := if_pos member
    have first := (off.refines sound member).image_eq (sound.valid same) inside
    rw [← place] at first
    exact (ih (sound.split off) ((Splits.more split (.none _ _)).perm same)).trans first

/-- A store that went through a number of splits and is what it was in all other respects. -/
structure Preserved (before after : Store) (splits : Nat) : Prop where
  keeps : before.Keeps after
  nodes : ∃ listed shown, after.inputIds = .ok listed ∧ after.outputIds = .ok shown ∧
    listed.Nodup ∧ listed.Perm shown
  checked : after.check = .ok true
  pairs : ∃ given balanced, before.pairs = .ok given ∧ after.pairs = .ok balanced ∧
    validate after.width after.stop balanced = .ok () ∧ given.Sublist balanced ∧
    ∀ x < before.stop, image balanced x = image given x
  kept : ∀ id < before.arena.size, after.pair id = before.pair id
  grown : after.arena.size = before.arena.size + splits ∧
    after.list.length = before.list.length + splits

variable {store : Store}

theorem Whole.preserved (whole : store.Whole inputs outputs) (enough : 2 ≤ a)
    {after : Balancer Local}
    (steady : Steady (whole.setting enough) Complete after newInputs newOutputs)
    (progress : Progress (whole.setting enough) number { store, router := Local.here, a } after inputs
      outputs newInputs newOutputs) (same : newInputs.Perm newOutputs) :
    store.Preserved after.store number := by
  have newWhole := whole.balanced enough steady same
  have length : newInputs.length = inputs.length + number := by
    rw [same.length_eq,whole.same.length_eq]
    exact progress.run.length_outputs
  refine ⟨⟨steady.width,steady.start.trans whole.origin.symm,steady.stop⟩,?_,newWhole.check_accepts,
    ?_,?_,progress.size,?_⟩
  · exact ⟨_,_,steady.holds.inputIds,steady.holds.outputIds,steady.holds.list.distinct,
      same.map Record.id⟩
  · exact ⟨_,_,whole.holds.pairs,steady.holds.pairs,newWhole.accepted,
      progress.run.inputs_sublist.map Record.pair,
      fun x inside => progress.run.image_eq whole.sound whole.same inside⟩
  · exact fun id known => pair_congr (progress.frame id known)
  · rw [steady.holds.list.length,whole.holds.list.length,List.length_map,List.length_map,length]

end Store

namespace Construction

variable {construction : Construction}

theorem Alone.map_eq {enough : 2 ≤ construction.parameters.a} (alone : construction.Alone enough)
    {x : Nat} (inside : x < construction.n) :
    alone.table.map x = .ok (image construction.pairs x) := by
  have reached : x < alone.store.stop := alone.stop ▸ inside
  rw [alone.encodes.map_eq alone.valid alone.small inside,
    alone.progress.run.image_eq alone.whole.sound alone.whole.same reached,alone.given]

end Construction

/-- Balancing with one store loses no node and no pair, and moves no position elsewhere. -/
theorem balance_preserves {a : Nat} (enough : 2 ≤ a) :
    (∀ {store : Store} {inputs outputs : List Record}, store.Whole inputs outputs →
      Addressable inputs.length → ∃ after counts newInputs newOutputs,
        store.balance a = .ok (after,counts) ∧ after.Whole newInputs newOutputs ∧
        store.Preserved after counts.splits) ∧
    ∀ {construction : Construction} {cores : Nat}, 0 < cores →
      construction.n < construction.width.limit →
      Addressable construction.pairs.length → construction.parameters = { a, workers := 1 } →
      validate construction.width construction.n construction.pairs = .ok () →
      ∃ table counts, construction.buildCounted cores = .ok (table,counts) ∧
        ∀ x < construction.n, table.map x = .ok (image construction.pairs x) := by
  constructor
  · intro store inputs outputs whole few
    obtain ⟨after,number,newInputs,newOutputs,balanced,steady,progress,same,_⟩ :=
      whole.balance_eq enough few
    exact ⟨after.store,_,newInputs,newOutputs,balanced,whole.balanced enough steady same,
      whole.preserved enough steady progress same⟩
  · rintro ⟨width,n,given,parameters⟩ cores machine small few rfl accepted
    obtain ⟨alone⟩ :=
      @Construction.exists_alone ⟨width,n,given,{ a, workers := 1 }⟩ small few enough accepted
    refine ⟨alone.table,{ splits := alone.number },?_,fun x inside => alone.map_eq inside⟩
    rw [Construction.buildCounted_alone rfl accepted (parameters_alone enough machine small accepted)]
    exact alone.built

theorem comb_balance_preserves :
    (∃ store after counts newInputs newOutputs, Store.load .w8 8 comb = .ok store ∧
      store.balance 2 = .ok (after,counts) ∧ after.Whole newInputs newOutputs ∧
      store.Preserved after counts.splits) ∧
    ∃ table counts, ({ width := .w8, n := 8, pairs := comb, parameters := { a := 2, workers := 1 } } :
        Construction).buildCounted 1 = .ok (table,counts) ∧
      ∀ x < 8, table.map x = .ok (image comb x) := by
  have small : 8 < Width.w8.limit := by decide
  have few : Addressable comb.length := by decide
  obtain ⟨store,inputs,outputs,loaded,whole,_,_,given⟩ := load_whole small comb_accepted
  have length := few.records given
  constructor
  · obtain ⟨after,counts,newInputs,newOutputs,facts⟩ :=
      (balance_preserves (a := 2) (by decide)).1 whole length
    exact ⟨store,after,counts,newInputs,newOutputs,loaded,facts⟩
  · exact (balance_preserves (a := 2) (by decide)).2 Nat.one_pos small few rfl comb_accepted

end BalancedMove
