import BalancedMove.Proofs.Parallel.Pieces

/-! Cutting at arbitrary boundaries. Boundaries that increase from 0 to the end of the domain divide it
into ranges, and the pieces for these ranges cross none of them; so a second cutting finds nothing left
to cut. -/
namespace BalancedMove

open Sequence

section Boundaries

variable {width : Width} {n b : Nat} {bounds : Array Nat} {layout : Layout}

theorem Layout.mem_bounds : b ∈ layout.bounds ↔ ∃ t ≤ layout.workers, layout.bound t = b := by
  simp only [Layout.bounds,List.mem_toArray,List.mem_map,List.mem_range,Nat.lt_succ_iff]

theorem Layout.mem_inner_iff : b ∈ layout.inner ↔ b ∈ layout.bounds ∧ 0 < b ∧ b < layout.n := by
  rw [Layout.mem_inner,Layout.mem_bounds]
  constructor
  · rintro ⟨t,later,inside,rfl⟩
    have first := layout.increasing 0 (by omega)
    have front := @Layout.bound_mono layout (0 + 1) t later (by omega)
    have step := layout.increasing t inside
    have most := @Layout.bound_le layout (t + 1) inside
    exact ⟨⟨t,by omega,rfl⟩,by omega,by omega⟩
  · rintro ⟨⟨t,inside,rfl⟩,positive,below⟩
    refine ⟨t,Nat.pos_of_ne_zero ?_,Nat.lt_of_le_of_ne inside ?_,rfl⟩
    · rintro rfl
      rw [layout.first] at positive
      omega
    · rintro rfl
      rw [layout.last] at below
      omega

theorem Layout.exists_bounds (small : n < width.limit)
    (increasing : bounds.toList.Pairwise fun x y => x < y) (first : bounds[0]? = some 0)
    (last : bounds.back? = some n) :
    ∃ layout : Layout, layout.width = width ∧ layout.n = n ∧ layout.bounds = bounds := by
  have size : 0 < bounds.size := by
    rw [Array.getElem?_eq_some_iff] at first
    exact first.1
  have rest : bounds.size - 1 + 1 = bounds.size := by omega
  refine ⟨⟨width,n,2,bounds.size - 1,fun t => bounds.getD t 0,id,small,Nat.le_refl 2,?_,?_,?_⟩,rfl,rfl,?_⟩
  · simp [Array.getD_eq_getD_getElem?,first]
  · rw [Array.back?] at last
    simp [Array.getD_eq_getD_getElem?,last]
  · intro t inside
    have here : t < bounds.size := by omega
    have next : t + 1 < bounds.size := by omega
    have less := List.pairwise_iff_getElem.mp increasing t (t + 1) (by simpa using here)
      (by simpa using next) (Nat.lt_succ_self t)
    simpa [Array.getD,here,next] using less
  · apply Array.ext
    · simp [Layout.bounds,rest]
    · intro t _ inside
      simp [Layout.bounds,Array.getD,inside]

end Boundaries

variable {width : Width} {n : Nat} {pairs : List Pair} {layout : Layout}

theorem Aligned.uncrossed (aligned : Aligned layout pairs) (valid : Valid layout.n pairs) {u : Pair}
    (member : u ∈ pairs) {b : Nat} (inside : b ∈ layout.bounds) :
    ¬ (u.p < b ∧ b < endOf Pair.p layout.n pairs u) ∧
      ¬ (u.q < b ∧ b < u.q + (endOf Pair.p layout.n pairs u - u.p)) := by
  obtain ⟨t,most,rfl⟩ := Layout.mem_bounds.mp inside
  rcases Nat.lt_or_eq_of_le most with inner | rfl
  · have sides := aligned u member t inner
    omega
  · have input := (valid.sorted.isEnd valid.below member).inside
    have output := (valid.tiled u member).inside
    rw [layout.last]
    omega

theorem mem_cut_iff (valid : Valid layout.n pairs) {u : Pair} :
    u ∈ (layout.pieces pairs).map Piece.pair ↔ u ∈ pairs ∨ ∃ v ∈ pairs, ∃ x, 0 < x ∧
      x < endOf Pair.p layout.n pairs v - v.p ∧
      (v.p + x ∈ layout.bounds ∨ v.q + x ∈ layout.bounds) ∧ u = ⟨v.p + x,v.q + x⟩ := by
  have places : ∀ v ∈ pairs, ∀ x, x ∈ cutOffsets layout.inner (intervalOf layout.n pairs v) ↔
      0 < x ∧ x < endOf Pair.p layout.n pairs v - v.p ∧
        (v.p + x ∈ layout.bounds ∨ v.q + x ∈ layout.bounds) := by
    intro v member x
    have input := (valid.sorted.isEnd valid.below member).inside
    have output := (valid.tiled v member).inside
    rw [mem_cutOffsets,Layout.mem_inner_iff,Layout.mem_inner_iff]
    simp only [intervalOf]
    refine and_congr_right fun positive => and_congr_right fun short => or_congr ?_ ?_
    · exact and_iff_left ⟨by omega,by omega⟩
    · exact and_iff_left ⟨by omega,by omega⟩
  rw [mem_pieces_pair]
  constructor
  · rintro ⟨v,member,rfl | ⟨x,cut,rfl⟩⟩
    · exact Or.inl member
    · obtain ⟨positive,short,hits⟩ := (places v member x).mp cut
      exact Or.inr ⟨v,member,x,positive,short,hits,rfl⟩
  · rintro (member | ⟨v,member,x,positive,short,hits,rfl⟩)
    · exact ⟨u,member,Or.inl rfl⟩
    · exact ⟨v,member,Or.inr ⟨x,(places v member x).mpr ⟨positive,short,hits⟩,rfl⟩⟩

/-- Cutting accepted pairs at boundaries cuts there and nowhere else, and leaves nothing to be cut. -/
theorem cutAtBounds_settles (small : n < width.limit) (accepted : validate width n pairs = .ok ())
    {bounds : Array Nat} (increasing : bounds.toList.Pairwise fun x y => x < y)
    (first : bounds[0]? = some 0) (last : bounds.back? = some n) :
    ∃ cut, cutAtBounds width n bounds pairs = .ok cut ∧ validate width n cut = .ok () ∧
      (∀ x < n, image cut x = image pairs x) ∧ pairs.Sublist cut ∧
      (∀ u ∈ cut, ∀ b ∈ bounds, ¬ (u.p < b ∧ b < endOf Pair.p n cut u) ∧
        ¬ (u.q < b ∧ b < u.q + (endOf Pair.p n cut u - u.p))) ∧
      (∀ u, u ∈ cut ↔ u ∈ pairs ∨ ∃ v ∈ pairs, ∃ x, 0 < x ∧ x < endOf Pair.p n pairs v - v.p ∧
        (v.p + x ∈ bounds ∨ v.q + x ∈ bounds) ∧ u = ⟨v.p + x,v.q + x⟩) ∧
      cut.length ≤ pairs.length + 2 * (bounds.size - 2) ∧
      cutAtBounds width n bounds cut = .ok cut := by
  obtain ⟨layout,rfl,rfl,rfl⟩ := Layout.exists_bounds small increasing first last
  have valid := (validate_iff small).mp accepted
  have refines := pieces_refine valid
  have finer := refines.valid valid
  have aligned := pieces_aligned valid
  have again := cutAtBounds_eq (pieces_eq finer)
  rw [pieces_of_aligned aligned,map_pair_plain] at again
  refine ⟨_,cutAtBounds_eq (pieces_eq valid),(validate_iff small).mpr finer,
    fun x inside => refines.image_eq valid inside,refines.sublist valid.sorted,
    fun u member b inside => aligned.uncrossed finer member inside,fun u => mem_cut_iff valid,?_,again⟩
  rw [List.length_map,Layout.bounds_size]
  exact length_pieces_le valid

def halves : List Pair := [⟨0,4⟩,⟨4,0⟩]

/-- Each of the two boundaries inside cuts one half on the input side and the other on the output side. -/
theorem halves_settle : ∃ cut, cutAtBounds .w8 8 #[0,2,7,8] halves = .ok cut ∧
    validate .w8 8 cut = .ok () ∧ (∀ x < 8, image cut x = image halves x) ∧ halves.Sublist cut ∧
    (∀ u ∈ cut, ∀ b ∈ #[0,2,7,8], ¬ (u.p < b ∧ b < endOf Pair.p 8 cut u) ∧
      ¬ (u.q < b ∧ b < u.q + (endOf Pair.p 8 cut u - u.p))) ∧
    (∀ u, u ∈ cut ↔ u ∈ halves ∨ ∃ v ∈ halves, ∃ x, 0 < x ∧ x < endOf Pair.p 8 halves v - v.p ∧
      (v.p + x ∈ #[0,2,7,8] ∨ v.q + x ∈ #[0,2,7,8]) ∧ u = ⟨v.p + x,v.q + x⟩) ∧
    cut.length ≤ 6 ∧ cutAtBounds .w8 8 #[0,2,7,8] cut = .ok cut :=
  cutAtBounds_settles (by decide) ((validate_iff (by decide)).mpr (by decide)) (by decide) rfl rfl

end BalancedMove
