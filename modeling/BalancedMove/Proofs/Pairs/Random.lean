import BalancedMove.Pairs.Random
import BalancedMove.Proofs.Pairs.Valid
import BalancedMove.Proofs.Random.Draws
import Mathlib.Data.List.GetD

/-! Random pairs describe a permutation. As long as starts are missing, some start has not been drawn
yet; every one of them is drawn before the counter runs out, so the search ends. The runs are as long as
the cuts are apart and come to the size of the domain together, so laid out one behind the other in any
order they tile it. -/
namespace BalancedMove

open Sequence

variable {width : Width} {source : RandomSource} {n counter draw reached : Nat}
variable {starts runs : List Nat} {lengths outputs placed : Array Nat}

section Cutting

theorem insertStart_perm (start : Nat) (starts : List Nat) :
    (insertStart start starts).Perm (start :: starts) := by
  induction starts with
  | nil => exact List.Perm.refl _
  | cons first rest ih =>
    rw [insertStart]
    split
    · exact List.Perm.refl _
    · exact (ih.cons first).trans (List.Perm.swap start first rest)

theorem insertStart_increasing {start : Nat} (sorted : Increasing id starts) (fresh : start ∉ starts) :
    Increasing id (insertStart start starts) := by
  induction starts with
  | nil => exact List.pairwise_singleton _ _
  | cons first rest ih =>
    obtain ⟨differs,absent⟩ := List.ne_and_not_mem_of_not_mem_cons fresh
    rw [insertStart]
    split
    next less =>
      exact List.pairwise_cons.mpr ⟨fun other member => Nat.lt_of_lt_of_le less
        (sorted.head_le other member),sorted⟩
    next notLess =>
      refine List.pairwise_cons.mpr ⟨fun other member => ?_,ih sorted.tail absent⟩
      rcases List.mem_cons.mp ((insertStart_perm start rest).mem_iff.mp member) with rfl | behind
      · exact Nat.lt_of_le_of_ne (Nat.le_of_not_lt notLess) (Ne.symm differs)
      · exact (List.pairwise_cons.mp sorted).1 other behind

structure Cuts (n : Nat) (starts : List Nat) : Prop where
  origin : 0 ∈ starts
  sorted : Increasing id starts
  inside : ∀ start ∈ starts, start < n

/-- The starts after the draws with all counters below `counter`. -/
structure Drawn (source : RandomSource) (n counter : Nat) (starts : List Nat) : Prop
    extends Cuts n starts where
  seen : ∀ earlier < counter, ∀ draw,
    source.below (UInt64.ofNat earlier) (n - 1) = .ok draw → 1 + draw ∈ starts

theorem Drawn.again (drawn : Drawn source n counter starts)
    (ok : source.below (UInt64.ofNat counter) (n - 1) = .ok draw) (known : 1 + draw ∈ starts) :
    Drawn source n (counter + 1) starts := by
  refine { drawn with seen := fun earlier before other result => ?_ }
  rcases Nat.lt_succ_iff_lt_or_eq.mp before with less | rfl
  · exact drawn.seen earlier less other result
  · rw [← Except.ok.inj (ok.symm.trans result)]
    exact known

theorem Drawn.fresh (drawn : Drawn source n counter starts)
    (ok : source.below (UInt64.ofNat counter) (n - 1) = .ok draw) (new : 1 + draw ∉ starts) :
    Drawn source n (counter + 1) (insertStart (1 + draw) starts) := by
  have members : ∀ start, start ∈ insertStart (1 + draw) starts ↔ start = 1 + draw ∨ start ∈ starts :=
    fun start => (insertStart_perm _ _).mem_iff.trans List.mem_cons
  have kept : ∀ start ∈ starts, start ∈ insertStart (1 + draw) starts :=
    fun start member => (members start).mpr (Or.inr member)
  have inside : ∀ start ∈ insertStart (1 + draw) starts, start < n := by
    intro start member
    rcases (members start).mp member with rfl | old
    · have low := RandomSource.below_lt ok
      omega
    · exact drawn.inside start old
  have grown : Drawn source n counter (insertStart (1 + draw) starts) :=
    ⟨⟨kept 0 drawn.origin,insertStart_increasing drawn.sorted new,inside⟩,
      fun earlier before other result => kept _ (drawn.seen earlier before other result)⟩
  exact grown.again ok ((members _).mpr (Or.inl rfl))

/-- Once the counter has run through, nothing is left to cut at. -/
theorem Drawn.full (drawn : Drawn source n (Width.w64.limit - 1) starts)
    (half : 2 * n ≤ Width.w64.limit) : n ≤ starts.length := by
  have all : List.range n ⊆ starts := by
    intro start member
    have inside := List.mem_range.mp member
    cases start with
    | zero => exact drawn.origin
    | succ v =>
      have small : 2 * (n - 1) ≤ Width.w64.limit := by omega
      obtain ⟨counter,before,ok⟩ := source.exists_draw small (show v < n - 1 by omega)
      rw [Nat.add_comm]
      exact drawn.seen counter before v ok
  simpa using (List.nodup_range.subperm all).length_le

theorem drawStarts_cuts (half : 2 * n ≤ Width.w64.limit) {left missing : Nat}
    (drawn : Drawn source n counter starts) (ahead : counter + left = Width.w64.limit - 1)
    (room : starts.length + missing ≤ n) :
    ∃ result, drawStarts source n left missing starts = .ok result ∧ Cuts n result ∧
      result.length = starts.length + missing := by
  induction left generalizing counter missing starts with
  | zero =>
    cases missing with
    | zero => exact ⟨starts,by rw [drawStarts],drawn.toCuts,rfl⟩
    | succ missing =>
      have through : counter = Width.w64.limit - 1 := ahead
      have full := (through ▸ drawn).full half
      omega
  | succ left ih =>
    cases missing with
    | zero => exact ⟨starts,by rw [drawStarts],drawn.toCuts,rfl⟩
    | succ missing =>
      have nonempty : 0 < starts.length := List.length_pos_of_mem drawn.origin
      have here : Width.w64.limit - 1 - (left + 1) = counter := by omega
      obtain ⟨draw,ok⟩ : ∃ draw, source.below (UInt64.ofNat counter) (n - 1) = .ok draw :=
        ⟨_,RandomSource.below_eq (by omega)⟩
      have low := RandomSource.below_lt ok
      have sum : Width.w64.add 1 draw = .ok (1 + draw) := Width.add_of_lt (by omega)
      rw [drawStarts,here,ok,Checked.ok_bind,sum,Checked.ok_bind]
      by_cases known : 1 + draw ∈ starts
      · rw [if_pos (List.contains_iff_mem.mpr known)]
        exact ih (drawn.again ok known) (by omega) room
      · have count : (insertStart (1 + draw) starts).length + missing =
            starts.length + (missing + 1) := by
          rw [(insertStart_perm _ _).length_eq,List.length_cons]
          omega
        rw [if_neg fun found => known (List.contains_iff_mem.mp found),← count]
        exact ih (drawn.fresh ok known) (by omega) (count.trans_le room)

end Cutting

section Laying

theorem layOut_cons {run : Nat} {rest : List Nat}
    (ok : layOut lengths (run :: rest) reached outputs = .ok placed) : ∃ length,
      lengths[run]? = some length ∧
      layOut lengths rest (reached + length) (outputs.setIfInBounds run reached) = .ok placed := by
  rw [layOut] at ok
  obtain ⟨length,found,later⟩ := Checked.bind_success ok
  obtain ⟨next,sum,later⟩ := Checked.bind_success later
  obtain ⟨rfl,_⟩ := Width.add_success sum
  exact ⟨length,Checked.found_success found,later⟩

theorem layOut_ok (length : Nat → Nat) (measured : ∀ run ∈ runs, lengths[run]? = some (length run))
    (room : reached + total length runs < Width.w64.limit) (outputs : Array Nat) :
    ∃ placed, layOut lengths runs reached outputs = .ok placed := by
  induction runs generalizing reached outputs with
  | nil => exact ⟨outputs,rfl⟩
  | cons run rest ih =>
    rw [total] at room
    have sum : Width.w64.add reached (length run) = .ok (reached + length run) :=
      Width.add_of_lt (by omega)
    rw [layOut,measured run (by simp),Checked.found,Checked.ok_bind,sum,Checked.ok_bind]
    exact ih (fun other member => measured other (by simp [member])) (by omega) _

theorem layOut_size (ok : layOut lengths runs reached outputs = .ok placed) :
    placed.size = outputs.size := by
  induction runs generalizing reached outputs with
  | nil => rw [Except.ok.inj ok]
  | cons run rest ih =>
    obtain ⟨length,_,later⟩ := layOut_cons ok
    rw [ih later,Array.size_setIfInBounds]

theorem layOut_frame (ok : layOut lengths runs reached outputs = .ok placed) {i : Nat}
    (other : i ∉ runs) : placed[i]? = outputs[i]? := by
  induction runs generalizing reached outputs with
  | nil => rw [Except.ok.inj ok]
  | cons run rest ih =>
    obtain ⟨differs,absent⟩ := List.ne_and_not_mem_of_not_mem_cons other
    obtain ⟨length,_,later⟩ := layOut_cons ok
    rw [ih later absent,Array.getElem?_setIfInBounds_ne differs.symm]

theorem layOut_tiles (ok : layOut lengths runs reached outputs = .ok placed) (distinct : runs.Nodup)
    (known : ∀ run ∈ runs, run < outputs.size) (interval : Nat → Interval)
    (measured : ∀ run ∈ runs, lengths[run]? = some (interval run).length)
    (begins : ∀ run ∈ runs, placed[run]? = some (interval run).q) :
    Tiles (reached + total (fun run => (interval run).length) runs) reached (runs.map interval) := by
  induction runs generalizing reached outputs with
  | nil => rfl
  | cons run rest ih =>
    obtain ⟨absent,others⟩ := List.nodup_cons.mp distinct
    obtain ⟨length,found,later⟩ := layOut_cons ok
    obtain rfl := Option.some.inj (found.symm.trans (measured run (by simp)))
    have here : placed[run]? = some reached := by
      rw [layOut_frame later absent,Array.getElem?_setIfInBounds_self_of_lt (known run (by simp))]
    refine ⟨Option.some.inj ((begins run (by simp)).symm.trans here),?_⟩
    rw [total,← Nat.add_assoc]
    exact ih later others (fun other member => by simp [known other (by simp [member])])
      (fun other member => measured other (by simp [member]))
      fun other member => begins other (by simp [member])

end Laying

section Runs

variable {pairs : List Pair} {order : List Nat}

def runLength (n : Nat) (starts : List Nat) (start : Nat) : Nat := endOf id n starts start - start

theorem Cuts.head? (cuts : Cuts n starts) : starts.head? = some 0 := by
  obtain ⟨origin,sorted,_⟩ := cuts
  simpa using sorted.head_zero origin rfl

theorem Cuts.total_runLength (cuts : Cuts n starts) : total (runLength n starts) starts = n := by
  have first := cuts.head?
  obtain ⟨_,sorted,inside⟩ := cuts
  cases starts with
  | nil => cases first
  | cons start rest =>
    obtain rfl := Option.some.inj first
    have sum := total_gaps sorted.nodup (sorted.imp Nat.le_of_lt) inside
    exact (Nat.zero_add _).symm.trans sum

theorem Cuts.increasing (cuts : Cuts n starts) (firsts : pairs.map Pair.p = starts) :
    Increasing Pair.p pairs :=
  List.pairwise_map.mp (firsts ▸ cuts.sorted)

theorem Cuts.below (cuts : Cuts n starts) (firsts : pairs.map Pair.p = starts) :
    ∀ v ∈ pairs, v.p < n :=
  fun _ member => cuts.inside _ (firsts ▸ List.mem_map_of_mem member)

theorem Cuts.length_eq (cuts : Cuts n starts) (firsts : pairs.map Pair.p = starts) {v : Pair}
    (member : v ∈ pairs) : (intervalOf n pairs v).length = runLength n starts v.p := by
  rw [runLength,← firsts,(cuts.increasing firsts).endOf_map (cuts.below firsts) member]
  rfl

theorem Cuts.lengths_eq (cuts : Cuts n starts) (firsts : pairs.map Pair.p = starts) :
    (pairs.map (intervalOf n pairs)).map Interval.length = starts.map (runLength n starts) := by
  calc (pairs.map (intervalOf n pairs)).map Interval.length
      = pairs.map fun v => (intervalOf n pairs v).length := List.map_map
    _ = pairs.map fun v => runLength n starts v.p :=
      List.map_congr_left fun v member => cuts.length_eq firsts member
    _ = (pairs.map Pair.p).map (runLength n starts) := by rw [List.map_map]; rfl
    _ = starts.map (runLength n starts) := by rw [firsts]

theorem map_range_getD {α : Type} (items : List α) (default : α) :
    (List.range items.length).map (fun i => items.getD i default) = items := by
  refine List.ext_getElem (by simp) fun i _ inside => ?_
  simp [List.getElem?_eq_getElem inside]

theorem getElem?_eq_getD {α : Type} {items : List α} {i : Nat} (inside : i < items.length)
    (default : α) : items[i]? = some (items.getD i default) := by
  simp [List.getElem?_eq_getElem inside]

theorem zipWith_parts {firsts seconds : List Nat} (same : firsts.length = seconds.length) :
    (firsts.zipWith Pair.mk seconds).map Pair.p = firsts ∧
      (firsts.zipWith Pair.mk seconds).map Pair.q = seconds := by
  constructor
  · exact List.ext_getElem (by simp [same]) fun i _ _ => by simp
  · exact List.ext_getElem (by simp [same]) fun i _ _ => by simp

theorem Cuts.total_order (cuts : Cuts n starts) (same : order.Perm (List.range starts.length)) :
    total (fun run => runLength n starts (starts.getD run 0)) order = n := by
  calc total (fun run => runLength n starts (starts.getD run 0)) order
      = total (fun run => runLength n starts (starts.getD run 0)) (List.range starts.length) :=
        total_perm same
    _ = total (runLength n starts) ((List.range starts.length).map fun run => starts.getD run 0) :=
        (total_map _ _).symm
    _ = total (runLength n starts) starts := by rw [map_range_getD]
    _ = n := cuts.total_runLength

theorem picked_perm (same : order.Perm (List.range pairs.length)) :
    (order.map fun run => intervalOf n pairs (pairs.getD run default)).Perm
      (pairs.map (intervalOf n pairs)) := by
  have all := congrArg (List.map (intervalOf n pairs)) (map_range_getD pairs default)
  rw [List.map_map] at all
  exact (same.map _).trans (List.Perm.of_eq all)

theorem Cuts.shaped (cuts : Cuts n starts) (firsts : pairs.map Pair.p = starts)
    {arranged : List Interval} (same : arranged.Perm (pairs.map (intervalOf n pairs)))
    (tiles : Tiles n 0 arranged) : Shaped n pairs := by
  refine ⟨by rw [← List.head?_map,firsts,cuts.head?],fun v member => ?_,cuts.increasing firsts⟩
  have own := intervalOf_pos (cuts.increasing firsts) (cuts.below firsts) member
  have bounds := (tiles.bounds (same.mem_iff.mpr (List.mem_map_of_mem member))).2
  exact ⟨cuts.below firsts v member,Nat.lt_of_lt_of_le (Nat.lt_add_of_pos_right own) bounds⟩

theorem Cuts.valid_of_layOut (cuts : Cuts n starts) (small : n < width.limit)
    (same : order.Perm (List.range starts.length))
    (ok : layOut (starts.map (runLength n starts)).toArray order 0
      (Array.replicate starts.length 0) = .ok placed) (firsts : pairs.map Pair.p = starts)
    (seconds : pairs.map Pair.q = placed.toList) : validate width n pairs = .ok () := by
  have count : pairs.length = starts.length := by rw [← firsts,List.length_map]
  have known : ∀ run ∈ order, run < starts.length :=
    fun run member => List.mem_range.mp (same.mem_iff.mp member)
  have picked : ∀ run ∈ order, pairs[run]? = some (pairs.getD run default) :=
    fun run member => getElem?_eq_getD (count ▸ known run member) default
  let interval := fun run => intervalOf n pairs (pairs.getD run default)
  have lengths : ∀ run ∈ order, (interval run).length = runLength n starts (starts.getD run 0) := by
    intro run member
    have start : starts.getD run 0 = (pairs.getD run default).p := by
      rw [← firsts]
      exact List.getD_map pairs default Pair.p
    rw [start]
    exact cuts.length_eq firsts (List.mem_of_getElem? (picked run member))
  have begins : ∀ run ∈ order, placed[run]? = some (interval run).q := by
    intro run member
    rw [← Array.getElem?_toList,← seconds,List.getElem?_map,picked run member]
    rfl
  have tiles := layOut_tiles ok (same.nodup_iff.mpr List.nodup_range) (by simpa using known) interval
    (fun run member => by simp [lengths run member,known run member]) begins
  rw [Nat.zero_add,total_congr lengths,cuts.total_order same] at tiles
  have arranged := picked_perm (n := n) (count ▸ same)
  exact (cuts.shaped firsts arranged tiles).validate_of_tiles small arranged tiles

theorem Cuts.layOut_ok (cuts : Cuts n starts) (small : n < Width.w64.limit)
    (same : order.Perm (List.range starts.length)) (outputs : Array Nat) :
    ∃ placed, layOut (starts.map (runLength n starts)).toArray order 0 outputs = .ok placed := by
  refine BalancedMove.layOut_ok (fun run => runLength n starts (starts.getD run 0)) ?_ ?_ outputs
  · intro run member
    have known := List.mem_range.mp (same.mem_iff.mp member)
    simp [known]
  · rw [cuts.total_order same]
    omega

/-- Random pairs describe a permutation of the domain with as many runs as are asked for, if it has
positions for so many: the cuts are found before the counter runs out, and no sum leaves its width. -/
theorem randomPairs_valid (positive : 1 ≤ n) (bounded : n ≤ 2 ^ 63) (small : n < width.limit)
    (k seed : Nat) : ∃ pairs, randomPairs n k seed = .ok pairs ∧ pairs.length = max 1 (min k n) ∧
      validate width n pairs = .ok () := by
  have half : 2 * n ≤ Width.w64.limit := Nat.mul_le_mul_left 2 bounded
  have fits : Width.w64.saturate n = n := Nat.min_eq_left (by omega)
  let source : RandomSource := ⟨UInt64.ofNat seed⟩
  have initial : Drawn source n 0 [0] :=
    ⟨⟨by simp,List.pairwise_singleton _ _,by simpa using Nat.succ_le_iff.mp positive⟩,by simp⟩
  obtain ⟨starts,found,cuts,count⟩ := drawStarts_cuts half initial (Nat.zero_add _)
    (show 1 + (max (min k n) 1 - 1) ≤ n by omega)
  have size : starts.length = max (min k n) 1 := by
    rw [count,List.length_singleton]
    omega
  obtain ⟨order,shuffled,reordered⟩ := (source.fork 1).shuffle_perm (Array.range starts.length)
  have same : order.toList.Perm (List.range starts.length) := by simpa using reordered.toList
  have firsts : (starts.map fun p => (⟨p,0⟩ : Pair)).map Pair.p = starts :=
    List.map_map.trans (List.map_id starts)
  have measured := intervals_eq (cuts.increasing firsts) (cuts.below firsts)
  obtain ⟨placed,laid⟩ := cuts.layOut_ok (by omega) same (Array.replicate starts.length 0)
  have placedSize : placed.toList.length = starts.length := by simpa using layOut_size laid
  obtain ⟨p,q⟩ := zipWith_parts placedSize.symm
  refine ⟨starts.zipWith Pair.mk placed.toList,?_,?_,cuts.valid_of_layOut small same laid p q⟩
  · simp only [randomPairs,fits]
    rw [found,Checked.ok_bind,← size,shuffled,Checked.ok_bind,measured,Checked.ok_bind,
      cuts.lengths_eq firsts,laid]
    rfl
  · rw [List.length_zipWith,placedSize,Nat.min_self,size,Nat.max_comm]

/-- More runs are asked for than there are positions, so every position is drawn. -/
theorem scattered_valid : 1 ≤ 5 ∧ 5 ≤ 2 ^ 63 ∧ 5 < Width.w8.limit ∧
    ∃ pairs, randomPairs 5 9 7 = .ok pairs ∧ pairs.length = 5 ∧ validate .w8 5 pairs = .ok () :=
  ⟨by decide,by decide,by decide,randomPairs_valid (by decide) (by decide) (by decide) 9 7⟩

end Runs

end BalancedMove
