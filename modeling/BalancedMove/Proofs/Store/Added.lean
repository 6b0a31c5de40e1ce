import BalancedMove.Proofs.Store.Check

/-! Pairs added to an empty store one by one, with whatever disorder they come in. The tree sorts their
output starts, repeated ones included. The self-check compares lengths pair by pair and never looks
for the first output start, while acceptance tiles the domain from 0 on; they agree because the input
intervals fill the domain, so the output intervals cannot unless they begin at 0. -/
namespace BalancedMove.Store

open Sequence

variable {store : Store} {n : Nat} {inputs outputs : List Record} {pairs : List Pair}

theorem addPairs_eq (holds : store.Holds inputs outputs) (same : inputs.Perm outputs)
    (ordered : outputs.Pairwise fun r s => r.q ≤ s.q) (pairs : List Pair)
    (few : inputs.length + pairs.length ≤ Width.w128.limit) :
    ∃ after arranged, store.addPairs pairs = .ok after ∧
      after.Holds (inputs ++ numbered store.arena.size pairs) arranged ∧
      (inputs ++ numbered store.arena.size pairs).Perm arranged ∧
      (arranged.Pairwise fun r s => r.q ≤ s.q) ∧ store.Keeps after := by
  induction pairs generalizing store inputs outputs with
  | nil =>
    refine ⟨store,outputs,rfl,?_,?_,ordered,.refl store⟩
    · simpa [numbered] using holds
    · simpa [numbered] using same
  | cons pair pairs ih =>
    let new : Record := { id := store.arena.size, pair }
    rw [List.length_cons] at few
    have fresh : ∀ r, r ∈ inputs ∨ r ∈ outputs → r.id ≠ new.id := fun r known =>
      Nat.ne_of_lt (holds.lt_size known)
    obtain ⟨linked,pushed,linkedHolds,linkedKeeps,links⟩ := @Holds.pushBack _ _ _ new
      (holds.alloc pair) (fun r member => fresh r (Or.inl member)) (store.label_alloc pair)
    obtain ⟨treed,inserted,treedHolds,treedKeeps,cells⟩ := @Holds.treeInsert _ _ _ new linkedHolds
      ordered (fun r member => fresh r (Or.inr member))
      ((links.labels _).trans (store.label_alloc pair)) (by rw [← same.length_eq]; omega)
    have grown : (inputs ++ [new]).Perm (putByKey Record.q new outputs) :=
      (List.perm_append_singleton new inputs).trans
        ((same.cons new).trans (putByKey_perm Record.q new outputs).symm)
    obtain ⟨after,arranged,rest,afterHolds,afterSame,afterOrdered,afterKeeps⟩ := ih treedHolds grown
      (putByKey_pairwise ordered new) (by simp; omega)
    have treedSize : treed.arena.size = store.arena.size + 1 := by
      rw [cells.size,links.size]
      exact store.size_alloc pair
    rw [treedSize,List.append_assoc] at afterHolds afterSame
    refine ⟨after,arranged,?_,afterHolds,afterSame,afterOrdered,
      (store.keeps_withArena _).trans (linkedKeeps.trans (treedKeeps.trans afterKeeps))⟩
    have first : store.alloc pair = (new.id,store.withArena (store.arena.alloc pair).2) := rfl
    simp only [addPairs,first,pushed,inserted,Checked.ok_bind,rest]

/-- Records whose intervals agree in length are sound as soon as they fill the domain on the input side. -/
theorem sound_of_agrees (same : inputs.Perm outputs) (ordered : outputs.Pairwise fun r s => r.q ≤ s.q)
    (first : inputs.head?.map Record.p = some 0) (inside : ∀ r ∈ inputs, r.p < n ∧ r.q < n)
    (sorted : Increasing Record.p inputs) (agrees : ∀ r ∈ inputs, Agrees n inputs outputs r) :
    Sound n 0 n inputs outputs := by
  have below : ∀ r ∈ inputs, r.p < n := fun r member => (inside r member).1
  have outside : ∀ r ∈ outputs, r.q < n := fun r member => (inside r (same.mem_iff.mpr member)).2
  have distinct : outputs.Nodup := same.nodup_iff.mp sorted.nodup
  have known : ∀ r ∈ outputs, r.p < endOf Record.p n inputs r ∧
      endOf Record.p n inputs r + r.q = endOf Record.q n outputs r + r.p := by
    intro r shown
    have listed := same.mem_iff.mpr shown
    exact ⟨(sorted.isEnd below listed).above,agrees r listed shown⟩
  have gaps : ∀ r ∈ outputs, r.q < endOf Record.q n outputs r := by
    intro r shown
    have both := known r shown
    omega
  have outputSorted : Increasing Record.q outputs := increasing_of_gaps distinct ordered gaps
  -- the inputs fill the domain, hence so do the outputs, and the first of them begins at 0
  have filled : total (fun r => endOf Record.p n inputs r - r.p) inputs = n := by
    cases inputs with
    | nil => cases first
    | cons r rest =>
      have zero : r.p = 0 := by simpa using first
      have sum := total_gaps sorted.nodup (Increasing.weaken sorted) below
      omega
  have alike : ∀ r ∈ outputs, endOf Record.q n outputs r - r.q = endOf Record.p n inputs r - r.p := by
    intro r shown
    have both := known r shown
    omega
  have moved : total (fun r => endOf Record.q n outputs r - r.q) outputs = n := by
    rw [total_congr alike,← total_perm same]
    exact filled
  have outputFirst : outputs.head?.map Record.q = some 0 := by
    cases outputs with
    | nil =>
      obtain rfl := same.eq_nil
      cases first
    | cons r rest =>
      have sum := total_gaps distinct ordered outside
      simp only [List.head?_cons,Option.map_some,Option.some.injEq]
      omega
  refine ⟨sorted,outputSorted,fun r member => ⟨Nat.zero_le _,below r member⟩,
    fun r member => ⟨Nat.zero_le _,outside r member⟩,first,outputFirst,agrees,?_,?_⟩
  · exact fun r shown absent => absurd (same.mem_iff.mpr shown) absent
  · intro r shown
    have ends := (sorted.isEnd below (same.mem_iff.mpr shown)).inside
    have both := known r shown
    omega

/-- Whatever pairs are added, the self-check answers, and it passes exactly those that are accepted. -/
theorem check_iff_validate {width : Width} (small : n < width.limit)
    (first : pairs.head?.map Pair.p = some 0) (inside : ∀ v ∈ pairs, v.p < n ∧ v.q < n)
    (few : pairs.length ≤ Width.w128.limit) :
    ∃ store answer, ({ width, start := 0, stop := n } : Store).addPairs pairs = .ok store ∧
      store.check = .ok answer ∧ (answer = true ↔ validate width n pairs = .ok ()) := by
  obtain ⟨store,outputs,added,holds,same,ordered,keeps⟩ := addPairs_eq (@holds_empty width 0 n)
    (List.Perm.refl []) List.Pairwise.nil pairs (by simpa using few)
  change store.Holds (numbered 0 pairs) outputs at holds
  change (numbered 0 pairs).Perm outputs at same
  have stop : store.stop = n := keeps.stop
  have ranged : ∀ r ∈ numbered 0 pairs, r.p < n ∧ r.q < n := by
    intro r member
    have listed := List.mem_map_of_mem (f := Record.pair) member
    rw [map_pair_numbered] at listed
    exact inside r.pair listed
  have begins : (numbered 0 pairs).head?.map Record.p = some 0 := by
    rw [← map_pair_numbered 0 pairs,List.head?_map,Option.map_map] at first
    exact first
  have answer := check_eq holds (fun r listed absent => absurd (same.mem_iff.mp listed) absent)
    (fun r member => stop.symm ▸ (ranged r member).1)
    (fun r member => stop.symm ▸ (ranged r (same.mem_iff.mpr member)).2) ordered
  rw [stop] at answer
  refine ⟨store,_,added,answer,?_⟩
  rw [decide_eq_true_eq,validate_iff small]
  constructor
  · rintro ⟨sorted,agrees⟩
    have sound := sound_of_agrees same ordered begins ranged sorted agrees
    exact map_pair_numbered 0 pairs ▸ sound.valid same
  · intro valid
    rw [← map_pair_numbered 0 pairs] at valid
    have sound := sound_of_valid valid same ordered
    exact ⟨sound.inputSorted,sound.agree⟩

/-- Out of order by `q`, and two of them land on the same position. -/
def overlapping : List Pair := [⟨0,4⟩,⟨2,0⟩,⟨5,0⟩]

theorem overlapping_check : 8 < Width.w8.limit ∧ overlapping.head?.map Pair.p = some 0 ∧
    (∀ v ∈ overlapping, v.p < 8 ∧ v.q < 8) ∧ overlapping.length ≤ Width.w128.limit ∧
    ∃ store answer, ({ width := .w8, start := 0, stop := 8 } : Store).addPairs overlapping = .ok store ∧
      store.check = .ok answer ∧ (answer = true ↔ validate .w8 8 overlapping = .ok ()) := by
  have small : 8 < Width.w8.limit := by decide
  have inside : ∀ v ∈ overlapping, v.p < 8 ∧ v.q < 8 := by decide
  have few : overlapping.length ≤ Width.w128.limit := by decide
  exact ⟨small,rfl,inside,few,check_iff_validate small rfl inside few⟩

end BalancedMove.Store
