import BalancedMove.Parallel.Pieces
import BalancedMove.Proofs.Pairs.Refines
import BalancedMove.Proofs.Parallel.Ranges

/-! The pieces of pairs that are cut at the boundaries between ranges. They refine the pairs, no piece
crosses a boundary on either side, and each boundary makes at most one cut on each side. -/
namespace BalancedMove

open Sequence

section Offsets

/-- Erasing repetitions from a list that never decreases, `kept` being what has been kept in front of
`x`, last one first. -/
theorem eraseReps_loop {x : Nat} {rest kept : List Nat}
    (sorted : (x :: rest).Pairwise fun y z => y ≤ z) (falling : (x :: kept).Pairwise fun y z => z < y) :
    (List.eraseRepsBy.loop (· == ·) x rest kept).Pairwise (fun y z => y < z) ∧
      (∀ y, y ∈ List.eraseRepsBy.loop (· == ·) x rest kept ↔ y ∈ x :: kept ∨ y ∈ rest) ∧
      (List.eraseRepsBy.loop (· == ·) x rest kept).length ≤ kept.length + 1 + rest.length := by
  induction rest generalizing x kept with
  | nil =>
    simp only [List.eraseRepsBy.loop]
    refine ⟨List.pairwise_reverse.mpr falling,fun y => ?_,by simp⟩
    rw [List.mem_reverse]
    simp
  | cons next rest ih =>
    obtain ⟨head,tail⟩ := List.pairwise_cons.mp sorted
    simp only [List.eraseRepsBy.loop]
    split
    next equal =>
      obtain rfl : x = next := by simpa using equal
      obtain ⟨increasing,members,length⟩ := ih tail falling
      refine ⟨increasing,?_,by simp only [List.length_cons]; omega⟩
      intro y
      rw [members]
      simp only [List.mem_cons]
      tauto
    next differ =>
      have less : x < next := by
        have le := head next (by simp)
        have apart : x ≠ next := by simpa using differ
        omega
      have fallingNext : (next :: x :: kept).Pairwise fun y z => z < y := by
        refine List.pairwise_cons.mpr ⟨?_,falling⟩
        intro y member
        rcases List.mem_cons.mp member with rfl | inside
        · exact less
        · exact Nat.lt_trans ((List.pairwise_cons.mp falling).1 y inside) less
      obtain ⟨increasing,members,length⟩ := ih tail fallingNext
      refine ⟨increasing,?_,by simp only [List.length_cons] at length ⊢; omega⟩
      intro y
      rw [members]
      simp only [List.mem_cons]
      tauto

theorem eraseReps_sorted (items : List Nat) :
    ((items.mergeSort fun x y => x ≤ y).eraseReps).Pairwise (fun x y => x < y) ∧
      (∀ x, x ∈ (items.mergeSort fun x y => x ≤ y).eraseReps ↔ x ∈ items) ∧
      ((items.mergeSort fun x y => x ≤ y).eraseReps).length ≤ items.length := by
  have sorted : (items.mergeSort fun x y => x ≤ y).Pairwise fun x y => x ≤ y :=
    sortBy_pairwise (fun x : Nat => x) items
  have same : (items.mergeSort fun x y => x ≤ y).Perm items := List.mergeSort_perm _ _
  cases arranged : items.mergeSort fun x y => x ≤ y with
  | nil =>
    rw [arranged] at same
    rw [List.nil_perm.mp same]
    exact ⟨List.Pairwise.nil,fun x => Iff.rfl,Nat.le_refl _⟩
  | cons x rest =>
    rw [arranged] at sorted same
    obtain ⟨increasing,members,length⟩ := eraseReps_loop sorted (List.pairwise_singleton _ x)
    refine ⟨increasing,?_,?_⟩
    · intro y
      rw [← same.mem_iff]
      refine (members y).trans ?_
      simp
    · rw [← same.length_eq]
      refine Nat.le_trans length ?_
      simp
      omega

end Offsets

section Cutting

variable {width : Width} {n : Nat} {inner : List Nat} {interval : Interval}

def innerCuts (inner : List Nat) (start length : Nat) : List Nat :=
  (inner.filter fun b => start < b && b < start + length).map (· - start)

def cutOffsets (inner : List Nat) (interval : Interval) : List Nat :=
  ((innerCuts inner interval.p interval.length ++ innerCuts inner interval.q interval.length).mergeSort
    fun x y => x ≤ y).eraseReps

def piecesOf (inner : List Nat) (interval : Interval) : List Piece :=
  ⟨interval.toPair,false⟩ ::
    (cutOffsets inner interval).map fun o => ⟨⟨interval.p + o,interval.q + o⟩,true⟩

theorem mem_innerCuts {start length o : Nat} :
    o ∈ innerCuts inner start length ↔ 0 < o ∧ o < length ∧ start + o ∈ inner := by
  simp only [innerCuts,List.mem_map,List.mem_filter,Bool.and_eq_true,decide_eq_true_eq]
  constructor
  · rintro ⟨b,⟨member,low,high⟩,rfl⟩
    refine ⟨by omega,by omega,?_⟩
    rw [Nat.add_sub_cancel' (Nat.le_of_lt low)]
    exact member
  · rintro ⟨low,high,member⟩
    exact ⟨start + o,⟨member,by omega,by omega⟩,by omega⟩

theorem mem_cutOffsets {o : Nat} : o ∈ cutOffsets inner interval ↔
    0 < o ∧ o < interval.length ∧ (interval.p + o ∈ inner ∨ interval.q + o ∈ inner) := by
  rw [cutOffsets,(eraseReps_sorted _).2.1,List.mem_append,mem_innerCuts,mem_innerCuts]
  tauto

/-- The places of the cuts are known by their order and by what they are. -/
theorem cutOffsets_eq {offsets : List Nat} (sorted : offsets.Pairwise fun x y => x < y)
    (short : ∀ o ∈ offsets, o < interval.length) (same : ∀ o < interval.length,
      o ∈ offsets ↔ 0 < o ∧ (interval.p + o ∈ inner ∨ interval.q + o ∈ inner)) :
    cutOffsets inner interval = offsets := by
  have found := (eraseReps_sorted (innerCuts inner interval.p interval.length ++
    innerCuts inner interval.q interval.length)).1
  refine List.Perm.eq_of_pairwise (fun x y _ _ less more => absurd less (Nat.lt_asymm more)) found
    sorted ?_
  refine (List.perm_ext_iff_of_nodup (found.imp Nat.ne_of_lt) (sorted.imp Nat.ne_of_lt)).mpr ?_
  intro o
  have members := @mem_cutOffsets inner interval o
  rw [cutOffsets] at members
  rw [members]
  constructor
  · exact fun ⟨positive,below,hits⟩ => (same o below).mpr ⟨positive,hits⟩
  · intro member
    have below := short o member
    obtain ⟨positive,hits⟩ := (same o below).mp member
    exact ⟨positive,below,hits⟩

theorem length_cutOffsets_le : (cutOffsets inner interval).length ≤
    (innerCuts inner interval.p interval.length).length +
      (innerCuts inner interval.q interval.length).length := by
  have offsets := (eraseReps_sorted (innerCuts inner interval.p interval.length ++
    innerCuts inner interval.q interval.length)).2.2
  rwa [List.length_append] at offsets

theorem filter_of_falling {items : List Nat} {test : Nat → Bool}
    (falling : items.Pairwise fun x y => test y = true → test x = true) :
    items.take (items.countP test) = items.filter test ∧
      items.drop (items.countP test) = items.filter fun x => !test x := by
  induction items with
  | nil => exact ⟨rfl,rfl⟩
  | cons x rest ih =>
    obtain ⟨head,tail⟩ := List.pairwise_cons.mp falling
    obtain ⟨front,rear⟩ := ih tail
    by_cases passes : test x = true
    · simp [passes,front,rear]
    · have others : ∀ y ∈ rest, test y = false := fun y member => by
        rw [Bool.eq_false_iff]
        exact fun holds => passes (head y member holds)
      have none : rest.countP test = 0 := List.countP_eq_zero.mpr fun y member => by
        simp [others y member]
      have all : rest.filter (fun y => !test y) = rest :=
        List.filter_eq_self.mpr fun y member => by simp [others y member]
      have empty : rest.filter test = [] :=
        List.filter_eq_nil_iff.mpr fun y member => by simp [others y member]
      simp [passes,none,all,empty]

theorem falling_below (sorted : inner.Pairwise fun x y => x < y) (bound : Nat) :
    inner.Pairwise fun x y => decide (y < bound) = true → decide (x < bound) = true := by
  refine sorted.imp ?_
  intro x y less
  simp only [decide_eq_true_eq]
  omega

theorem slice_between (sorted : inner.Pairwise fun x y => x < y) {low high : Nat} (order : low ≤ high) :
    (inner.countP fun b => decide (b < low)) ≤ (inner.countP fun b => decide (b < high)) ∧
      (inner.drop (inner.countP fun b => decide (b < low))).take
          ((inner.countP fun b => decide (b < high)) - inner.countP fun b => decide (b < low)) =
        inner.filter fun b => low ≤ b && b < high := by
  have rear := (filter_of_falling (falling_below sorted low)).2
  have rest := (filter_of_falling ((falling_below sorted high).sublist
    (List.filter_sublist (p := fun b => !decide (b < low))))).1
  have lower : (inner.filter fun b => decide (b < low)).countP (fun b => decide (b < high)) =
      inner.countP fun b => decide (b < low) := by
    rw [List.countP_eq_length_filter (p := fun b => decide (b < low)),List.countP_eq_length]
    intro b member
    have below := (List.mem_filter.mp member).2
    simp only [decide_eq_true_eq] at below ⊢
    omega
  have total := inner.countP_eq_countP_filter_add (fun b => decide (b < high))
    (fun b => decide (b < low))
  refine ⟨by omega,?_⟩
  rw [rear,total,lower,Nat.add_sub_cancel_left,rest,List.filter_filter]
  apply List.filter_congr
  intro b _
  rw [Bool.eq_iff_iff]
  simp
  omega

theorem cutsIn_eq (sorted : inner.Pairwise fun x y => x < y) {start length : Nat}
    (positive : 0 < length) (fits : start + length < width.limit) :
    cutsIn width inner.toArray start length = .ok (innerCuts inner start length) := by
  have reached : width.add start length = .ok (start + length) := Width.add_of_lt fits
  have reads : ∀ i < inner.length, inner.toArray.getD i 0 = inner.getD i 0 := by
    intro i _
    simp
  have lowPoint : partitionPoint inner.length (fun i => decide (inner.toArray.getD i 0 ≤ start)) =
      inner.countP fun b => decide (b < start + 1) := by
    have point := @partitionPoint_countP inner (fun b => decide (b < start + 1))
      (fun i => inner.toArray.getD i 0) (falling_below sorted _) reads
    simpa only [Nat.lt_succ_iff] using point
  have highPoint : partitionPoint inner.length
      (fun i => decide (inner.toArray.getD i 0 < start + length)) =
      inner.countP fun b => decide (b < start + length) :=
    @partitionPoint_countP inner (fun b => decide (b < start + length))
      (fun i => inner.toArray.getD i 0) (falling_below sorted _) reads
  -- the boundaries behind the start, and of these the ones in front of the end
  obtain ⟨order,between⟩ := slice_between sorted (show start + 1 ≤ start + length by omega)
  unfold cutsIn
  by_cases empty : inner = []
  · subst inner
    rfl
  · have subtractions : (inner.filter fun b => start + 1 ≤ b && b < start + length).mapM
        (fun position => Checked.sub position start) = .ok (innerCuts inner start length) := by
      refine Checked.mapM_ok fun b member => Checked.sub_of_le ?_
      have inside := (List.mem_filter.mp member).2
      simp only [Bool.and_eq_true,decide_eq_true_eq] at inside
      omega
    have size : inner.toArray.isEmpty = false := by simpa using empty
    simp only [size,Bool.false_eq_true,if_false,reached,Checked.ok_bind,List.size_toArray,lowPoint,
      highPoint,Nat.not_lt.mpr order,List.toList_toArray,Array.toList_extract,List.extract_eq_take_drop,
      between]
    exact subtractions

theorem cutInterval_eq (sorted : inner.Pairwise fun x y => x < y) (positive : 0 < interval.length)
    (input : interval.p + interval.length ≤ n) (output : interval.q + interval.length ≤ n)
    (small : n < width.limit) :
    cutInterval width inner.toArray interval = .ok (piecesOf inner interval) := by
  have inputCuts : cutsIn width inner.toArray interval.p interval.length = _ :=
    cutsIn_eq sorted positive (by omega)
  have outputCuts : cutsIn width inner.toArray interval.q interval.length = _ :=
    cutsIn_eq sorted positive (by omega)
  have added : (cutOffsets inner interval).mapM (fun offset => do
      let p ← width.add interval.p offset
      let q ← width.add interval.q offset
      return ({ pair := ⟨p,q⟩, cut := true } : Piece)) =
      .ok ((cutOffsets inner interval).map fun o => ⟨⟨interval.p + o,interval.q + o⟩,true⟩) := by
    apply Checked.mapM_ok
    intro o member
    have inside := (mem_cutOffsets.mp member).2.1
    have p : width.add interval.p o = .ok (interval.p + o) := Width.add_of_lt (by omega)
    have q : width.add interval.q o = .ok (interval.q + o) := Width.add_of_lt (by omega)
    simp [p,q]
  unfold cutOffsets at added
  simp only [cutInterval,inputCuts,outputCuts,Checked.ok_bind,added]
  rfl

end Cutting

section Pieces

variable {layout : Layout} {pairs : List Pair}

def Layout.inner (layout : Layout) : List Nat :=
  (List.range' 1 (layout.workers - 1)).map layout.bound

def Layout.pieces (layout : Layout) (pairs : List Pair) : List Piece :=
  (pairs.map (intervalOf layout.n pairs)).flatMap (piecesOf layout.inner)

theorem Layout.workers_pos (layout : Layout) (positive : 0 < layout.n) : 0 < layout.workers := by
  have first := layout.first
  have last := layout.last
  rcases Nat.eq_zero_or_pos layout.workers with zero | some
  · rw [zero,first] at last
    omega
  · exact some

theorem Layout.inner_sorted (layout : Layout) : layout.inner.Pairwise fun x y => x < y := by
  rw [Layout.inner,List.pairwise_map]
  refine (List.pairwise_lt_range' (s := 1) (n := layout.workers - 1)).imp_of_mem ?_
  intro s t first second less
  rw [List.mem_range'_1] at first second
  have step := layout.increasing s (by omega)
  have order := @Layout.bound_mono layout (s + 1) t less (by omega)
  omega

theorem Layout.mem_inner {b : Nat} :
    b ∈ layout.inner ↔ ∃ t, 0 < t ∧ t < layout.workers ∧ layout.bound t = b := by
  simp only [Layout.inner,List.mem_map,List.mem_range'_1]
  constructor
  · rintro ⟨t,range,same⟩
    exact ⟨t,by omega,by omega,same⟩
  · rintro ⟨t,low,high,same⟩
    exact ⟨t,by omega,same⟩

theorem Layout.innerBounds_eq (positive : 0 < layout.workers) :
    innerBounds layout.bounds = .ok layout.inner.toArray := by
  have many : ¬ layout.bounds.size < 2 := by
    rw [Layout.bounds_size]
    omega
  rw [innerBounds,if_neg many,Layout.bounds_size]
  congr 1
  apply Array.ext'
  simp only [Layout.bounds,Array.toList_extract,List.extract_eq_take_drop,Layout.inner]
  rw [← List.map_drop,← List.map_take,List.range_eq_range',List.drop_range',
    List.take_range'_of_length_ge (by omega)]
  rfl

theorem pieces_eq (valid : Valid layout.n pairs) :
    pieces layout.width layout.n layout.bounds pairs = .ok (layout.pieces pairs) := by
  have positive := valid.positive
  have measured := intervals_eq valid.sorted valid.below
  have cut : (pairs.map (intervalOf layout.n pairs)).mapM
      (cutInterval layout.width layout.inner.toArray) =
      .ok ((pairs.map (intervalOf layout.n pairs)).map (piecesOf layout.inner)) := by
    apply Checked.mapM_ok
    intro interval present
    obtain ⟨v,known,rfl⟩ := List.mem_map.mp present
    have ends := valid.sorted.isEnd valid.below known
    have above := ends.above
    have bounded := ends.inside
    have output := (valid.tiled v known).inside
    have input : v.p + (endOf Pair.p layout.n pairs v - v.p) ≤ layout.n := by omega
    exact cutInterval_eq layout.inner_sorted (intervalOf_pos valid.sorted valid.below known) input
      output layout.small
  simp only [pieces,Layout.innerBounds_eq (layout.workers_pos positive),measured,Checked.ok_bind,cut,
    Layout.pieces,List.flatMap]
  rfl

theorem cutAtBounds_eq {width : Width} {n : Nat} {bounds : Array Nat} {cut : List Piece}
    (shared : pieces width n bounds pairs = .ok cut) :
    cutAtBounds width n bounds pairs = .ok (cut.map Piece.pair) := by
  rw [cutAtBounds,shared]
  rfl

def plainPieces (pairs : List Pair) : List Piece := pairs.map fun v => { pair := v, cut := false }

theorem map_pair_plain (pairs : List Pair) : (plainPieces pairs).map Piece.pair = pairs := by
  rw [plainPieces,List.map_map]
  exact List.map_id pairs

theorem pieces_uncut
    (uncut : ∀ v ∈ pairs, cutOffsets layout.inner (intervalOf layout.n pairs v) = []) :
    layout.pieces pairs = plainPieces pairs := by
  have singletons : plainPieces pairs = pairs.flatMap fun v => [{ pair := v, cut := false }] :=
    List.map_eq_flatMap
  rw [singletons,Layout.pieces,List.flatMap_map]
  refine List.flatMap_congr fun v member => ?_
  rw [piecesOf,uncut v member]
  rfl

theorem pieces_single (single : layout.workers = 1) : layout.pieces pairs = plainPieces pairs := by
  have none : layout.inner = [] := by simp [Layout.inner,single]
  refine pieces_uncut fun v _ => ?_
  rw [none]
  exact cutOffsets_eq .nil (by simp) (by simp)

/-- A piece is a pair of its own start or of a place where one side of a pair is cut. -/
theorem mem_pieces {piece : Piece} : piece ∈ layout.pieces pairs ↔
    ∃ v ∈ pairs, piece = ⟨v,false⟩ ∨ ∃ o ∈ cutOffsets layout.inner (intervalOf layout.n pairs v),
      piece = ⟨⟨v.p + o,v.q + o⟩,true⟩ := by
  simp only [Layout.pieces,List.mem_flatMap,List.mem_map,piecesOf,List.mem_cons]
  constructor
  · rintro ⟨_,⟨v,member,rfl⟩,same | ⟨o,inside,same⟩⟩
    · exact ⟨v,member,Or.inl same⟩
    · exact ⟨v,member,Or.inr ⟨o,inside,same.symm⟩⟩
  · rintro ⟨v,member,same | ⟨o,inside,same⟩⟩
    · exact ⟨_,⟨v,member,rfl⟩,Or.inl same⟩
    · exact ⟨_,⟨v,member,rfl⟩,Or.inr ⟨o,inside,same.symm⟩⟩

theorem mem_pieces_pair {u : Pair} : u ∈ (layout.pieces pairs).map Piece.pair ↔
    ∃ v ∈ pairs, u = v ∨ ∃ o ∈ cutOffsets layout.inner (intervalOf layout.n pairs v),
      u = ⟨v.p + o,v.q + o⟩ := by
  simp only [List.mem_map,mem_pieces]
  constructor
  · rintro ⟨_,⟨v,member,rfl | ⟨o,inside,rfl⟩⟩,rfl⟩
    · exact ⟨v,member,Or.inl rfl⟩
    · exact ⟨v,member,Or.inr ⟨o,inside,rfl⟩⟩
  · rintro ⟨v,member,rfl | ⟨o,inside,rfl⟩⟩
    · exact ⟨_,⟨u,member,Or.inl rfl⟩,rfl⟩
    · exact ⟨_,⟨v,member,Or.inr ⟨o,inside,rfl⟩⟩,rfl⟩

theorem pieces_sorted (valid : Valid layout.n pairs) :
    Increasing Pair.p ((layout.pieces pairs).map Piece.pair) := by
  rw [Increasing,List.pairwise_map,Layout.pieces,List.pairwise_flatMap]
  constructor
  · intro interval _
    have offsets := (eraseReps_sorted (innerCuts layout.inner interval.p interval.length ++
      innerCuts layout.inner interval.q interval.length)).1
    rw [piecesOf,List.pairwise_cons,List.pairwise_map]
    refine ⟨?_,offsets.imp fun less => Nat.add_lt_add_left less _⟩
    intro piece member
    obtain ⟨o,inside,rfl⟩ := List.mem_map.mp member
    exact Nat.lt_add_of_pos_right (mem_cutOffsets.mp inside).1
  · rw [List.pairwise_map]
    refine valid.sorted.imp_of_mem ?_
    intro v w first second less left leftMember right rightMember
    have ends := valid.sorted.isEnd valid.below first
    have gap := ends.free w second less
    have above := ends.above
    -- the pieces of `v` begin in front of its end, and those of `w` do not begin in front of `w`
    have leftBelow : left.pair.p < endOf Pair.p layout.n pairs v := by
      rcases List.mem_cons.mp leftMember with rfl | cut
      · exact above
      · obtain ⟨o,inside,rfl⟩ := List.mem_map.mp cut
        have short := (mem_cutOffsets.mp inside).2.1
        simp only [intervalOf] at short ⊢
        omega
    have rightAbove : w.p ≤ right.pair.p := by
      rcases List.mem_cons.mp rightMember with rfl | cut
      · exact Nat.le_refl _
      · obtain ⟨o,inside,rfl⟩ := List.mem_map.mp cut
        exact Nat.le_add_right _ _
    omega

theorem pieces_refine (valid : Valid layout.n pairs) :
    Refines layout.n pairs ((layout.pieces pairs).map Piece.pair) := by
  refine ⟨pieces_sorted valid,fun v member => mem_pieces_pair.mpr ⟨v,member,Or.inl rfl⟩,?_⟩
  intro u member
  obtain ⟨v,coarse,rfl | ⟨o,inside,rfl⟩⟩ := mem_pieces_pair.mp member
  · exact ⟨u,coarse,Nat.le_refl _,(valid.sorted.isEnd valid.below coarse).above,rfl⟩
  · have short := (mem_cutOffsets.mp inside).2.1
    simp only [intervalOf] at short
    refine ⟨v,coarse,Nat.le_add_right _ _,?_,?_⟩
    · simp only
      omega
    · simp only
      omega

def Aligned (layout : Layout) (pairs : List Pair) : Prop :=
  ∀ u ∈ pairs, ∀ t < layout.workers,
    (layout.bound t ≤ u.p ∨ endOf Pair.p layout.n pairs u ≤ layout.bound t) ∧
    (layout.bound t ≤ u.q ∨
      u.q + (endOf Pair.p layout.n pairs u - u.p) ≤ layout.bound t)

theorem pieces_aligned (valid : Valid layout.n pairs) :
    Aligned layout ((layout.pieces pairs).map Piece.pair) := by
  intro u member t inside
  have refines := pieces_refine valid
  have below := refines.below valid.sorted valid.below
  have own := refines.sorted.isEnd below member
  obtain ⟨v,coarse,low,high,shifted⟩ := refines.parts u member
  have limit := refines.end_le valid.sorted valid.below member coarse high
  -- a boundary inside the pair on one side makes a piece that would end `u` there
  have crossing : ∀ o, 0 < o → v.p + o < endOf Pair.p layout.n pairs v →
      (v.p + o = layout.bound t ∨ v.q + o = layout.bound t) → 0 < t →
      ¬ (u.p < v.p + o ∧ v.p + o < endOf Pair.p layout.n
        ((layout.pieces pairs).map Piece.pair) u) := by
    intro o positive short hits later crossed
    have cut : o ∈ cutOffsets layout.inner (intervalOf layout.n pairs v) := by
      refine mem_cutOffsets.mpr ⟨positive,?_,?_⟩
      · simp only [intervalOf]
        omega
      · rw [Layout.mem_inner,Layout.mem_inner]
        exact hits.imp (fun same => ⟨t,later,inside,same.symm⟩) fun same => ⟨t,later,inside,same.symm⟩
    have free := own.free _ (mem_pieces_pair.mpr ⟨v,coarse,Or.inr ⟨o,cut,rfl⟩⟩) crossed.1
    simp only at free
    omega
  rcases Nat.eq_zero_or_pos t with rfl | later
  · rw [layout.first]
    exact ⟨Or.inl (Nat.zero_le _),Or.inl (Nat.zero_le _)⟩
  · constructor
    · by_contra both
      have := crossing (layout.bound t - v.p) (by omega) (by omega) (Or.inl (by omega)) later
      omega
    · by_contra both
      have := crossing (layout.bound t - v.q) (by omega) (by omega) (Or.inr (by omega)) later
      omega

theorem pieces_of_aligned (aligned : Aligned layout pairs) :
    layout.pieces pairs = plainPieces pairs := by
  refine pieces_uncut fun v member => cutOffsets_eq .nil (by simp) fun o short => ?_
  simp only [intervalOf] at short ⊢
  simp only [List.not_mem_nil,false_iff,not_and]
  intro positive hits
  rw [Layout.mem_inner,Layout.mem_inner] at hits
  rcases hits with ⟨t,_,inside,same⟩ | ⟨t,_,inside,same⟩
  · have free := (aligned v member t inside).1
    omega
  · have free := (aligned v member t inside).2
    omega

theorem length_flatMap_le {α : Type} {items : List α} {f : α → List Piece} {g h : α → List Nat}
    (bound : ∀ x ∈ items, (f x).length ≤ 1 + (g x).length + (h x).length) :
    (items.flatMap f).length ≤
      items.length + (items.flatMap g).length + (items.flatMap h).length := by
  induction items with
  | nil => exact Nat.le_refl _
  | cons x rest ih =>
    have own := bound x (by simp)
    have others := ih fun y member => bound y (by simp [member])
    simp only [List.flatMap_cons,List.length_append,List.length_cons]
    omega

/-- Boundaries inside intervals that do not overlap are no more than all boundaries. -/
theorem length_cuts_le {α : Type} {items : List α} {low high : α → Nat} (distinct : items.Nodup)
    (apart : ∀ x ∈ items, ∀ y ∈ items, ∀ b, low x < b → b < high x → low y < b → b < high y →
      x = y) :
    (items.flatMap fun x => layout.inner.filter fun b => low x < b && b < high x).length ≤
      layout.workers - 1 := by
  have nodup : (items.flatMap fun x =>
      layout.inner.filter fun b => low x < b && b < high x).Nodup := by
    refine List.pairwise_flatMap.mpr ⟨?_,?_⟩
    · intro x _
      exact (layout.inner_sorted.imp Nat.ne_of_lt).filter _
    · refine distinct.imp_of_mem ?_
      intro x y first second differ b left c right same
      simp only [List.mem_filter,Bool.and_eq_true,decide_eq_true_eq] at left right
      subst c
      exact differ (apart x first y second b left.2.1 left.2.2 right.2.1 right.2.2)
  have sub : (items.flatMap fun x => layout.inner.filter fun b => low x < b && b < high x) ⊆
      layout.inner := by
    intro b member
    obtain ⟨x,_,inside⟩ := List.mem_flatMap.mp member
    exact (List.mem_filter.mp inside).1
  have length := (List.subperm_of_subset nodup sub).length_le
  simpa [Layout.inner] using length

theorem length_pieces_le (valid : Valid layout.n pairs) :
    (layout.pieces pairs).length ≤ pairs.length + 2 * (layout.workers - 1) := by
  have inputs := @length_cuts_le layout _ pairs Pair.p
    (fun v => v.p + (endOf Pair.p layout.n pairs v - v.p)) valid.sorted.nodup
    fun x first y second b lowX highX lowY highY =>
      valid.sorted.apart valid.below first second (Nat.le_of_lt lowX)
        (by omega) (Nat.le_of_lt lowY) (by omega)
  have outputs := @length_cuts_le layout _ pairs Pair.q
    (fun v => v.q + (endOf Pair.p layout.n pairs v - v.p)) valid.sorted.nodup
    fun x first y second b lowX highX lowY highY =>
      valid.apart first second (Nat.le_of_lt lowX) highX (Nat.le_of_lt lowY) highY
  have total := @length_flatMap_le _ pairs
    (fun v => piecesOf layout.inner (intervalOf layout.n pairs v))
    (fun v => layout.inner.filter fun b =>
      v.p < b && b < v.p + (endOf Pair.p layout.n pairs v - v.p))
    (fun v => layout.inner.filter fun b =>
      v.q < b && b < v.q + (endOf Pair.p layout.n pairs v - v.p)) ?_
  · rw [← List.flatMap_map] at total
    unfold Layout.pieces
    omega
  · intro v member
    have offsets := @length_cutOffsets_le layout.inner (intervalOf layout.n pairs v)
    rw [innerCuts,innerCuts,List.length_map,List.length_map] at offsets
    rw [piecesOf,List.length_cons,List.length_map,Nat.add_comm _ 1,Nat.add_assoc]
    exact Nat.add_le_add_left offsets 1

end Pieces

end BalancedMove
