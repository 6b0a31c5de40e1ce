import BalancedMove.Proofs.Pairs.Valid
import BalancedMove.Proofs.Store.Operations
import BalancedMove.Proofs.Store.Sound

/-! Stores of a whole domain: list and tree hold the same records, and the pairs are accepted. Such
stores are sound, soundness gives acceptance back, and loading accepted pairs makes such a store. -/
namespace BalancedMove.Store

open Sequence

/-- A store over `[0, stop)` with the same records in both orders, whose pairs are accepted. -/
structure Whole (store : Store) (inputs outputs : List Record) : Prop where
  holds : store.Holds inputs outputs
  same : inputs.Perm outputs
  ordered : outputs.Pairwise fun r s => r.q ≤ s.q
  origin : store.start = 0
  small : store.stop < store.width.limit
  accepted : validate store.width store.stop (inputs.map Record.pair) = .ok ()

variable {store : Store} {n : Nat} {inputs outputs : List Record}

section Acceptance

theorem keys_p (k : Nat) : k ∈ inputs.map Record.p ↔ k ∈ (inputs.map Record.pair).map Pair.p := by
  simp [Record.p]

theorem keys_q (same : inputs.Perm outputs) (k : Nat) :
    k ∈ (inputs.map Record.pair).map Pair.q ↔ k ∈ outputs.map Record.q := by
  rw [List.map_map,(same.map _).mem_iff]
  rfl

theorem count_pairs (low high : Nat) : count Pair.p (inputs.map Record.pair) low high =
    count Record.p inputs low high := List.countP_map

theorem increasing_pairs : Increasing Pair.p (inputs.map Record.pair) ↔
    Increasing Record.p inputs := List.pairwise_map

theorem sound_of_valid (valid : Valid n (inputs.map Record.pair)) (same : inputs.Perm outputs)
    (ordered : outputs.Pairwise fun r s => r.q ≤ s.q) : Sound n 0 n inputs outputs := by
  have inputSorted := increasing_pairs.mp valid.sorted
  have inside : ∀ r ∈ inputs, r.p < n ∧ r.q < n :=
    fun r member => valid.inside r.pair (List.mem_map_of_mem member)
  have below : ∀ r ∈ inputs, r.p < n := fun r member => (inside r member).1
  have outside : ∀ r ∈ outputs, r.q < n := fun r member => (inside r (same.mem_iff.mpr member)).2
  have distinct : (outputs.map Record.q).Nodup := by
    have nodup := valid.distinct
    rw [List.map_map] at nodup
    exact (same.map Record.q).nodup_iff.mp nodup
  have outputSorted : Increasing Record.q outputs := increasing_of_le ordered distinct
  have lengths : ∀ r ∈ inputs,
      endOf Record.p n inputs r + r.q = endOf Record.q n outputs r + r.p := by
    intro r member
    have listed := List.mem_map_of_mem (f := Record.pair) member
    have input := (valid.sorted.isEnd valid.below listed).transfer fun k => (keys_p k).symm
    have output := (valid.tiled r.pair listed).transfer (keys_q same)
    have inputEnd := inputSorted.endOf_eq below member input
    have outputEnd := outputSorted.endOf_eq outside (same.mem_iff.mp member) output
    have above := input.above
    unfold Record.p Record.q at *
    omega
  refine ⟨inputSorted,outputSorted,fun r member => ⟨Nat.zero_le _,below r member⟩,
    fun r member => ⟨Nat.zero_le _,outside r member⟩,?_,?_,fun r member _ => lengths r member,?_,?_⟩
  · have first := valid.first
    rw [List.head?_map,Option.map_map] at first
    exact first
  · obtain ⟨v,member,zero⟩ := valid.origin
    obtain ⟨r,present,rfl⟩ := List.mem_map.mp member
    exact outputSorted.head_zero (same.mem_iff.mp present) zero
  · exact fun r shown absent => absurd (same.mem_iff.mpr shown) absent
  · intro r shown
    have member := same.mem_iff.mpr shown
    have ends := (inputSorted.isEnd below member).inside
    have agree := lengths r member
    omega

theorem Sound.pairEnd {start stop : Nat} {r : Record} (sound : Sound n start stop inputs outputs)
    (listed : r ∈ inputs) :
    endOf Pair.p stop (inputs.map Record.pair) r.pair = endOf Record.p stop inputs r := by
  refine (increasing_pairs.mpr sound.inputSorted).endOf_eq ?_ (List.mem_map_of_mem listed)
    ((sound.inputIsEnd listed).transfer keys_p)
  intro v inside
  obtain ⟨s,known,rfl⟩ := List.mem_map.mp inside
  exact sound.inputBelow s known

theorem Sound.interval {start stop : Nat} {r : Record} (sound : Sound n start stop inputs outputs)
    (listed : r ∈ inputs) (shown : r ∈ outputs) :
    r.q + (endOf Pair.p stop (inputs.map Record.pair) r.pair - r.p) =
      endOf Record.q stop outputs r := by
  have agree := sound.agree r listed shown
  have above := (sound.inputIsEnd listed).above
  rw [sound.pairEnd listed]
  omega

theorem Sound.valid (sound : Sound n 0 n inputs outputs) (same : inputs.Perm outputs) :
    Valid n (inputs.map Record.pair) := by
  refine ⟨?_,increasing_pairs.mpr sound.inputSorted,?_,?_,?_,?_⟩
  · rw [List.head?_map,Option.map_map]
    exact sound.inputFirst
  · intro v member
    obtain ⟨r,present,rfl⟩ := List.mem_map.mp member
    exact ⟨sound.inputBelow r present,sound.outputBelow r (same.mem_iff.mp present)⟩
  · obtain ⟨r,head,zero⟩ := Option.map_eq_some_iff.mp sound.outputFirst
    exact ⟨r.pair,List.mem_map_of_mem (same.mem_iff.mpr (List.mem_of_head? head)),zero⟩
  · rw [List.map_map]
    refine (same.map (Pair.q ∘ Record.pair)).nodup_iff.mpr ?_
    rw [List.Nodup,List.pairwise_map]
    exact sound.outputSorted.imp fun less => Nat.ne_of_lt less
  · intro v member
    obtain ⟨r,present,rfl⟩ := List.mem_map.mp member
    have shown := same.mem_iff.mp present
    have output := (sound.outputIsEnd shown).transfer fun k => (keys_q same k).symm
    exact (sound.interval present shown).symm ▸ output

theorem Whole.valid (whole : store.Whole inputs outputs) :
    Valid store.stop (inputs.map Record.pair) := (validate_iff whole.small).mp whole.accepted

theorem Whole.sound (whole : store.Whole inputs outputs) :
    Sound store.stop 0 store.stop inputs outputs :=
  sound_of_valid whole.valid whole.same whole.ordered

end Acceptance

section Loading

def numbered (base : Nat) (pairs : List Pair) : List Record :=
  (pairs.zipIdx base).map fun entry => { id := entry.2, pair := entry.1 }

theorem numbered_cons (base : Nat) (pair : Pair) (pairs : List Pair) :
    numbered base (pair :: pairs) = { id := base, pair } :: numbered (base + 1) pairs := rfl

theorem map_pair_numbered (base : Nat) (pairs : List Pair) :
    (numbered base pairs).map Record.pair = pairs := by
  induction pairs generalizing base with
  | nil => rfl
  | cons pair pairs ih => rw [numbered_cons,List.map_cons,ih]

theorem map_id_numbered (base : Nat) (pairs : List Pair) :
    (numbered base pairs).map Record.id = List.range' base pairs.length := by
  rw [numbered,List.map_map]
  exact List.zipIdx_map_snd base pairs

theorem numbered_plain (base : Nat) (pairs : List Pair) : ∀ r ∈ numbered base pairs, r.cut = false := by
  intro r member
  obtain ⟨entry,_,rfl⟩ := List.mem_map.mp member
  rfl

theorem pushPairs_eq (holds : store.Holds inputs outputs) (tidy : store.Tidy outputs)
    (pairs : List Pair) : ∃ after, store.pushPairs pairs = .ok after ∧
      after.Holds (inputs ++ numbered store.arena.size pairs) outputs ∧ after.Tidy outputs ∧
      store.Keeps after ∧ after.arena.size = store.arena.size + pairs.length := by
  induction pairs generalizing store inputs with
  | nil => exact ⟨store,rfl,by simpa [numbered] using holds,tidy,.refl store,rfl⟩
  | cons pair pairs ih =>
    let new : Record := { id := store.arena.size, pair }
    have unused : ∀ r ∈ inputs, r.id ≠ new.id := fun r member =>
      Nat.ne_of_lt (holds.lt_size (Or.inl member))
    obtain ⟨linked,pushed,linkedHolds,keeps,links⟩ := @Holds.pushBack _ _ _ new (holds.alloc pair)
      unused (store.label_alloc pair)
    obtain ⟨after,rest,afterHolds,afterTidy,afterKeeps,size⟩ := ih linkedHolds
      ((tidy.alloc pair).of_links links)
    have linkedSize : linked.arena.size = store.arena.size + 1 := by
      rw [links.size]
      exact store.size_alloc pair
    refine ⟨after,?_,?_,afterTidy,?_,?_⟩
    · have first : store.alloc pair = (new.id,store.withArena (store.arena.alloc pair).2) := rfl
      simp only [pushPairs,first,pushed,Checked.ok_bind,rest]
    · rw [linkedSize,List.append_assoc] at afterHolds
      exact afterHolds
    · exact (store.keeps_withArena _).trans (keeps.trans afterKeeps)
    · rw [size,linkedSize,List.length_cons]
      omega

def numberedByOutput (pairs : List Pair) : List Record :=
  (sortBy (fun entry : Pair × Nat => entry.1.q) pairs.zipIdx).map
    fun entry => { id := entry.2, pair := entry.1 }

theorem numberedByOutput_perm (pairs : List Pair) :
    (numbered 0 pairs).Perm (numberedByOutput pairs) := ((sortBy_perm _ _).map _).symm

theorem numberedByOutput_ordered (pairs : List Pair) :
    (numberedByOutput pairs).Pairwise fun r s => r.q ≤ s.q :=
  List.pairwise_map.mpr (sortBy_pairwise (fun entry : Pair × Nat => entry.1.q) _)

theorem outputOrder_eq (pairs : List Pair) :
    outputOrder pairs = (numberedByOutput pairs).map Record.id := by
  rw [outputOrder,numberedByOutput,List.map_map]
  rfl

theorem sound_numbered {pairs : List Pair} (valid : Valid n pairs) :
    Sound n 0 n (numbered 0 pairs) (numberedByOutput pairs) :=
  sound_of_valid ((map_pair_numbered 0 pairs).symm ▸ valid) (numberedByOutput_perm pairs)
    (numberedByOutput_ordered pairs)

theorem numberedByOutput_few {width : Width} {pairs : List Pair} (small : n < width.limit)
    (valid : Valid n pairs) : (numberedByOutput pairs).length ≤ Width.w128.limit := by
  have positions := (sound_numbered valid).length_outputs_le
  have wide := width.limit_le
  omega

theorem holds_empty {width : Width} {start stop : Nat} :
    ({ width, start, stop } : Store).Holds [] [] := by
  refine ⟨LinkedList.holds_empty _,AvlTree.holds_empty _,?_⟩
  intro r known
  rcases known with member | member <;> cases member

theorem tidy_empty {width : Width} {start stop : Nat} :
    ({ width, start, stop } : Store).Tidy [] := by
  intro id _ cell found
  cases found

theorem load_numbered {width : Width} {pairs : List Pair} (small : n < width.limit)
    (accepted : validate width n pairs = .ok ()) :
    ∃ store outputs, load width n pairs = .ok store ∧ store.Whole (numbered 0 pairs) outputs ∧
      store.width = width ∧ store.stop = n ∧ store.arena.size = pairs.length := by
  have valid := (validate_iff small).mp accepted
  obtain ⟨linked,pushed,holds,_,keeps,size⟩ := pushPairs_eq (@holds_empty width 0 n) tidy_empty pairs
  change linked.Holds (numbered 0 pairs) [] at holds
  have same := numberedByOutput_perm pairs
  obtain ⟨after,built,afterHolds,afterKeeps,cells⟩ := @Holds.buildTree _ _ _ holds
    (numberedByOutput pairs)
    (fun r member => holds.labelled r (Or.inl (same.mem_iff.mpr member)))
    ((same.map Record.id).nodup_iff.mp holds.list.distinct) (numberedByOutput_few small valid)
  have total := keeps.trans afterKeeps
  have stop : after.stop = n := total.stop
  refine ⟨after,_,?_,⟨afterHolds,same,numberedByOutput_ordered pairs,total.start,?_,?_⟩,
    total.width,stop,cells.size.trans (size.trans (Nat.zero_add _))⟩
  · rw [load,pushed,Checked.ok_bind,outputOrder_eq]
    exact built
  · rw [total.width,stop]
    exact small
  · rw [map_pair_numbered,total.width,stop]
    exact accepted

theorem load_whole {width : Width} {pairs : List Pair} (small : n < width.limit)
    (accepted : validate width n pairs = .ok ()) :
    ∃ store inputs outputs, load width n pairs = .ok store ∧ store.Whole inputs outputs ∧
      store.width = width ∧ store.stop = n ∧ inputs.map Record.pair = pairs := by
  obtain ⟨store,outputs,loaded,whole,width,stop,_⟩ := load_numbered small accepted
  exact ⟨store,_,outputs,loaded,whole,width,stop,map_pair_numbered 0 pairs⟩

end Loading

end BalancedMove.Store
