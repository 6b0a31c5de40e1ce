import BalancedMove.Pairs.Validate
import BalancedMove.Proofs.Arena.Fields
import BalancedMove.Proofs.Sequence

/-! Pairs that describe a permutation. The conditions do not mention how the pairs are arranged by `q`:
each output interval is as long as the input interval of its pair, and where it ends another one begins
or the domain ends. Acceptance tests exactly these conditions. -/
namespace BalancedMove

open Sequence

structure Valid (n : Nat) (pairs : List Pair) : Prop where
  first : pairs.head?.map Pair.p = some 0
  sorted : Increasing Pair.p pairs
  inside : ∀ v ∈ pairs, v.p < n ∧ v.q < n
  origin : ∃ v ∈ pairs, v.q = 0
  distinct : (pairs.map Pair.q).Nodup
  tiled : ∀ v ∈ pairs, IsEnd Pair.q n pairs v.q (v.q + (endOf Pair.p n pairs v - v.p))

instance (n : Nat) (pairs : List Pair) : Decidable (Valid n pairs) :=
  decidable_of_iff (pairs.head?.map Pair.p = some 0 ∧ Increasing Pair.p pairs ∧
      (∀ v ∈ pairs, v.p < n ∧ v.q < n) ∧ (∃ v ∈ pairs, v.q = 0) ∧ (pairs.map Pair.q).Nodup ∧
      ∀ v ∈ pairs, IsEnd Pair.q n pairs v.q (v.q + (endOf Pair.p n pairs v - v.p)))
    ⟨fun ⟨first,sorted,inside,origin,distinct,tiled⟩ =>
      ⟨first,sorted,inside,origin,distinct,tiled⟩,
      fun valid => ⟨valid.first,valid.sorted,valid.inside,valid.origin,valid.distinct,valid.tiled⟩⟩

structure Shaped (n : Nat) (pairs : List Pair) : Prop where
  first : pairs.head?.map Pair.p = some 0
  inside : ∀ v ∈ pairs, v.p < n ∧ v.q < n
  sorted : Increasing Pair.p pairs

/-- Intervals that follow one another from `start` up to `stop`. -/
def Tiles (stop : Nat) : Nat → List Interval → Prop
  | start, [] => start = stop
  | start, interval :: rest => interval.q = start ∧ Tiles stop (start + interval.length) rest

def intervalOf (n : Nat) (pairs : List Pair) (v : Pair) : Interval :=
  ⟨v,endOf Pair.p n pairs v - v.p⟩

variable {width : Width} {n start stop : Nat} {pairs : List Pair} {arranged : List Interval}

section Intervals

theorem Shaped.below (shaped : Shaped n pairs) : ∀ v ∈ pairs, v.p < n :=
  fun v member => (shaped.inside v member).1

theorem Valid.shaped (valid : Valid n pairs) : Shaped n pairs :=
  ⟨valid.first,valid.inside,valid.sorted⟩

theorem Valid.below (valid : Valid n pairs) : ∀ v ∈ pairs, v.p < n := valid.shaped.below

theorem Valid.positive (valid : Valid n pairs) : 0 < n := by
  obtain ⟨v,member,_⟩ := valid.origin
  exact Nat.zero_lt_of_lt (valid.below v member)

theorem intervalOf_pos (sorted : Increasing Pair.p pairs) (below : ∀ v ∈ pairs, v.p < n) {v : Pair}
    (member : v ∈ pairs) : 0 < (intervalOf n pairs v).length := by
  have ends := (sorted.isEnd below member).above
  simp only [intervalOf]
  omega

theorem nextStart_eq (v : Pair) : nextStart n pairs = endOf Pair.p n (v :: pairs) v := by
  cases pairs <;> simp [nextStart,endOf]

theorem endOf_behind {u v : Pair} (sorted : Increasing Pair.p (u :: pairs)) (member : v ∈ pairs) :
    endOf Pair.p n (u :: pairs) v = endOf Pair.p n pairs v :=
  endOf_cons (List.nodup_cons.mp sorted.nodup).1 member

theorem intervals_eq (sorted : Increasing Pair.p pairs) (below : ∀ v ∈ pairs, v.p < n) :
    intervals n pairs = .ok (pairs.map (intervalOf n pairs)) := by
  induction pairs with
  | nil => rfl
  | cons v rest ih =>
    have ends := sorted.isEnd below (x := v) (by simp)
    have others : ∀ w ∈ rest, intervalOf n rest w = intervalOf n (v :: rest) w := by
      intro w member
      simp [intervalOf,endOf_behind sorted member]
    have length : Checked.sub (endOf Pair.p n (v :: rest) v) v.p =
        .ok (endOf Pair.p n (v :: rest) v - v.p) := Checked.sub_of_le (Nat.le_of_lt ends.above)
    have following := ih sorted.tail fun w member => below w (by simp [member])
    rw [List.map_congr_left others] at following
    rw [intervals,nextStart_eq v,length,Checked.ok_bind,following]
    rfl

end Intervals

section Tiling

theorem Tiles.start_le (tiles : Tiles stop start arranged) : start ≤ stop := by
  induction arranged generalizing start with
  | nil => exact Nat.le_of_eq tiles
  | cons interval rest ih => exact Nat.le_trans (Nat.le_add_right _ _) (ih tiles.2)

theorem Tiles.tile_eq (tiles : Tiles stop start arranged) (small : stop < width.limit) :
    tile width start arranged = .ok stop := by
  induction arranged generalizing start with
  | nil => exact congrArg Except.ok tiles
  | cons interval rest ih =>
    have reached : width.add start interval.length = .ok (start + interval.length) :=
      Width.add_of_lt (Nat.lt_of_le_of_lt tiles.2.start_le small)
    rw [tile,if_pos tiles.1,reached]
    exact ih tiles.2

theorem tiles_of_tile (ok : tile width start arranged = .ok stop) : Tiles stop start arranged := by
  induction arranged generalizing start with
  | nil => exact Except.ok.inj ok
  | cons interval rest ih =>
    rw [tile] at ok
    split at ok
    next begins =>
      refine ⟨begins,?_⟩
      cases reached : width.add start interval.length with
      | error fault =>
        rw [reached] at ok
        cases ok
      | ok next =>
        rw [reached] at ok
        obtain ⟨rfl,_⟩ := Width.add_success reached
        exact ih ok
    next => cases ok

theorem Tiles.bounds (tiles : Tiles stop start arranged) {interval : Interval}
    (member : interval ∈ arranged) :
    start ≤ interval.q ∧ interval.q + interval.length ≤ stop := by
  induction arranged generalizing start with
  | nil => cases member
  | cons first rest ih =>
    rcases List.mem_cons.mp member with rfl | member
    · have reach := tiles.2.start_le
      rw [tiles.1]
      exact ⟨Nat.le_refl _,reach⟩
    · have behind := ih tiles.2 member
      omega

theorem Tiles.increasing (tiles : Tiles stop start arranged)
    (positive : ∀ i ∈ arranged, 0 < i.length) :
    arranged.Pairwise fun i j => i.q + i.length ≤ j.q := by
  induction arranged generalizing start with
  | nil => exact List.Pairwise.nil
  | cons first rest ih =>
    refine List.pairwise_cons.mpr ⟨?_,ih tiles.2 fun i member => positive i (by simp [member])⟩
    intro i member
    have bounds := tiles.2.bounds member
    rw [tiles.1]
    exact bounds.1

theorem Tiles.free (tiles : Tiles stop start arranged) {i j : Interval} (first : i ∈ arranged)
    (second : j ∈ arranged) (above : i.q < j.q) : i.q + i.length ≤ j.q := by
  induction arranged generalizing start with
  | nil => cases first
  | cons interval rest ih =>
    rcases List.mem_cons.mp first with rfl | inner
    · rcases List.mem_cons.mp second with rfl | inside
      · omega
      · rw [tiles.1]
        exact (tiles.2.bounds inside).1
    · rcases List.mem_cons.mp second with rfl | inside
      · have low := (tiles.2.bounds inner).1
        have begins := tiles.1
        omega
      · exact ih tiles.2 inner inside

theorem Tiles.reaches (tiles : Tiles stop start arranged) {interval : Interval}
    (member : interval ∈ arranged) : interval.q + interval.length = stop ∨
      ∃ next ∈ arranged, next.q = interval.q + interval.length := by
  induction arranged generalizing start with
  | nil => cases member
  | cons first rest ih =>
    rcases List.mem_cons.mp member with rfl | member
    · cases rest with
      | nil =>
        have last := tiles.2
        rw [tiles.1]
        exact Or.inl last
      | cons next rest =>
        refine Or.inr ⟨next,by simp,?_⟩
        rw [tiles.1]
        exact tiles.2.1
    · rcases ih tiles.2 member with last | ⟨next,present,begins⟩
      · exact Or.inl last
      · exact Or.inr ⟨next,by simp [present],begins⟩

theorem tiles_of_ends (distinct : arranged.Nodup)
    (first : (arranged.head?.map fun i => i.q).getD stop = start)
    (ends : ∀ i ∈ arranged, endOf (fun j : Interval => j.q) stop arranged i = i.q + i.length) :
    Tiles stop start arranged := by
  induction arranged generalizing start with
  | nil => exact first.symm
  | cons interval rest ih =>
    have apart := (List.nodup_cons.mp distinct).1
    refine ⟨first,ih (List.nodup_cons.mp distinct).2 ?_ ?_⟩
    · have own := ends interval (by simp)
      simp only [endOf,if_pos] at own
      rw [own]
      exact congrArg (· + interval.length) first
    · intro i member
      have differ : interval ≠ i := fun same => apart (same ▸ member)
      have own := ends i (by simp [member])
      simpa [endOf,differ] using own

end Tiling

section Acceptance

theorem sortBy_perm {α : Type} (key : α → Nat) (items : List α) : (sortBy key items).Perm items :=
  List.mergeSort_perm _ _

theorem sortBy_pairwise {α : Type} (key : α → Nat) (items : List α) :
    (sortBy key items).Pairwise fun x y => key x ≤ key y := by
  have sorted := @List.pairwise_mergeSort α (fun x y => decide (key x ≤ key y))
    (fun x y z first second => by simp only [decide_eq_true_eq] at *; omega)
    (fun x y => by simp only [Bool.or_eq_true,decide_eq_true_eq]; omega) items
  exact sorted.imp fun le => by simpa using le

theorem increasing_of_le {α : Type} {key : α → Nat} {items : List α}
    (sorted : items.Pairwise fun x y => key x ≤ key y) (distinct : (items.map key).Nodup) :
    Increasing key items := by
  rw [List.Nodup,List.pairwise_map] at distinct
  exact (sorted.and distinct).imp fun both => by omega

theorem firstOutside_eq_none (index : Nat) :
    firstOutside n index pairs = none ↔ ∀ v ∈ pairs, v.p < n ∧ v.q < n := by
  induction pairs generalizing index with
  | nil => simp [firstOutside]
  | cons v rest ih =>
    simp only [firstOutside,List.forall_mem_cons]
    split
    · simp; omega
    · split
      · simp; omega
      · rw [ih]
        constructor
        · exact fun others => ⟨by omega,others⟩
        · exact fun all => all.2

theorem firstDescent_eq_none (index : Nat) :
    firstDescent index pairs = none ↔ Increasing Pair.p pairs := by
  induction pairs generalizing index with
  | nil => simp [firstDescent,Increasing]
  | cons u rest ih =>
    cases rest with
    | nil => simp [firstDescent,Increasing]
    | cons v rest =>
      simp only [firstDescent]
      split
      next less =>
        rw [ih]
        constructor
        · intro sorted
          refine List.pairwise_cons.mpr ⟨?_,sorted⟩
          exact fun w member => Nat.lt_of_lt_of_le less (sorted.head_le w member)
        · exact Increasing.tail
      next notLess =>
        simp only [reduceCtorEq,false_iff]
        exact fun sorted => notLess ((List.pairwise_cons.mp sorted).1 v (by simp))

theorem shaped_iff : Shaped n pairs ↔ pairs.head?.map Pair.p = some 0 ∧
    (∀ v ∈ pairs, v.p < n ∧ v.q < n) ∧ Increasing Pair.p pairs :=
  ⟨fun shaped => ⟨shaped.first,shaped.inside,shaped.sorted⟩,
    fun ⟨first,inside,sorted⟩ => ⟨first,inside,sorted⟩⟩

theorem checkShape_iff : checkShape n pairs = .ok () ↔ Shaped n pairs := by
  rw [shaped_iff,← firstOutside_eq_none 0,← firstDescent_eq_none 0]
  cases pairs with
  | nil =>
    unfold checkShape
    split <;> simp [reject]
  | cons v rest =>
    by_cases empty : n = 0
    · subst n
      simp [checkShape,reject,firstOutside]
    · by_cases zero : v.p = 0
      · cases outside : firstOutside n 0 (v :: rest) with
        | some defect => simp [checkShape,reject,empty,zero,outside]
        | none =>
          cases descent : firstDescent 0 (v :: rest) with
          | some index => simp [checkShape,reject,empty,zero,outside,descent]
          | none => simp [checkShape,empty,zero,outside,descent]
      · simp [checkShape,reject,empty,zero]

def arrangement (n : Nat) (pairs : List Pair) : List Interval :=
  sortBy (fun i => i.q) (pairs.map (intervalOf n pairs))

theorem mem_arrangement {i : Interval} :
    i ∈ arrangement n pairs ↔ ∃ v ∈ pairs, intervalOf n pairs v = i := by
  rw [arrangement,(sortBy_perm _ _).mem_iff,List.mem_map]

theorem arrangement_keys (k : Nat) : k ∈ pairs.map Pair.q ↔
    k ∈ (arrangement n pairs).map fun i => i.q := by
  simp only [List.mem_map,mem_arrangement]
  constructor
  · rintro ⟨v,member,rfl⟩
    exact ⟨_,⟨v,member,rfl⟩,rfl⟩
  · rintro ⟨_,⟨v,member,rfl⟩,rfl⟩
    exact ⟨v,member,rfl⟩

theorem arrangement_nodup :
    ((arrangement n pairs).map fun i => i.q).Nodup ↔ (pairs.map Pair.q).Nodup := by
  rw [arrangement,((sortBy_perm _ _).map _).nodup_iff,List.map_map]
  rfl

theorem Valid.tiles (valid : Valid n pairs) : Tiles n 0 (arrangement n pairs) := by
  have distinct := (arrangement_nodup (n := n)).mpr valid.distinct
  have sorted : Increasing (fun i : Interval => i.q) (arrangement n pairs) :=
    increasing_of_le (sortBy_pairwise _ _) distinct
  have below : ∀ i ∈ arrangement n pairs, i.q < n := by
    intro i member
    obtain ⟨v,present,rfl⟩ := mem_arrangement.mp member
    exact (valid.inside v present).2
  refine tiles_of_ends sorted.nodup ?_ ?_
  · obtain ⟨v,member,zero⟩ := valid.origin
    have present : intervalOf n pairs v ∈ arrangement n pairs :=
      mem_arrangement.mpr ⟨v,member,rfl⟩
    rw [sorted.head_zero present zero]
    rfl
  · intro i member
    obtain ⟨v,present,rfl⟩ := mem_arrangement.mp member
    exact sorted.endOf_eq below member ((valid.tiled v present).transfer arrangement_keys)

theorem Shaped.lengths_pos (shaped : Shaped n pairs)
    (same : arranged.Perm (pairs.map (intervalOf n pairs))) : ∀ i ∈ arranged, 0 < i.length := by
  intro i member
  obtain ⟨v,present,rfl⟩ := List.mem_map.mp (same.mem_iff.mp member)
  exact intervalOf_pos shaped.sorted shaped.below present

theorem valid_of_tiles (shaped : Shaped n pairs) (tiles : Tiles n 0 (arrangement n pairs)) :
    Valid n pairs := by
  have positive : ∀ i ∈ arrangement n pairs, 0 < i.length := shaped.lengths_pos (sortBy_perm _ _)
  obtain ⟨first,inside,sorted⟩ := shaped
  have apart := tiles.increasing positive
  have known : ∀ v ∈ pairs, intervalOf n pairs v ∈ arrangement n pairs :=
    fun v member => mem_arrangement.mpr ⟨v,member,rfl⟩
  refine ⟨first,sorted,inside,?_,?_,?_⟩
  · cases shape : arrangement n pairs with
    | nil =>
      cases pairs with
      | nil => cases first
      | cons v rest =>
        have member := known v (by simp)
        rw [shape] at member
        cases member
    | cons i rest =>
      obtain ⟨v,member,same⟩ := mem_arrangement.mp
        (show i ∈ arrangement n pairs by rw [shape]; simp)
      rw [shape] at tiles
      refine ⟨v,member,?_⟩
      rw [← tiles.1,← same]
      rfl
  · refine (arrangement_nodup (n := n)).mp ?_
    rw [List.Nodup,List.pairwise_map]
    refine apart.imp_of_mem ?_
    intro i j member _ le
    have := positive i member
    omega
  · intro v member
    have own := positive _ (known v member)
    refine ⟨?_,(tiles.bounds (known v member)).2,?_,?_⟩
    · exact Nat.lt_add_of_pos_right own
    · intro w present above
      exact tiles.free (known v member) (known w present) above
    · rcases tiles.reaches (known v member) with last | ⟨next,present,begins⟩
      · exact Or.inl last
      · obtain ⟨w,inPairs,rfl⟩ := mem_arrangement.mp present
        exact Or.inr ⟨w,inPairs,begins⟩

theorem validate_eq (shaped : Shaped n pairs) :
    validate width n pairs = tilesDomain width n (arrangement n pairs) := by
  rw [validate,checkShape_iff.mpr shaped,intervals_eq shaped.sorted shaped.below]
  rfl

theorem tilesDomain_iff (small : n < width.limit) :
    tilesDomain width n arranged = .ok () ↔ Tiles n 0 arranged := by
  constructor
  · intro ok
    unfold tilesDomain at ok
    cases reached : tile width 0 arranged with
    | error failure =>
      rw [reached] at ok
      cases ok
    | ok stop =>
      rw [reached] at ok
      by_cases same : stop = n
      · subst n
        exact tiles_of_tile reached
      · simp [Checked.require,same] at ok
  · intro tiles
    rw [tilesDomain,tiles.tile_eq small]
    simp [Checked.require]

/-- Acceptance by any arrangement of the intervals that tiles the domain. -/
theorem Shaped.validate_of_tiles (shaped : Shaped n pairs) (small : n < width.limit)
    (same : arranged.Perm (pairs.map (intervalOf n pairs))) (tiles : Tiles n 0 arranged) :
    validate width n pairs = .ok () := by
  have positive := shaped.lengths_pos same
  have increasing : Increasing (fun i : Interval => i.q) arranged :=
    (tiles.increasing positive).imp_of_mem fun first _ le =>
      Nat.lt_of_lt_of_le (Nat.lt_add_of_pos_right (positive _ first)) le
  have agree : arrangement n pairs = arranged := by
    have reordered := (sortBy_perm (fun i : Interval => i.q) _).trans same.symm
    refine List.Perm.eq_of_pairwise ?_ (sortBy_pairwise _ _) (increasing.imp Nat.le_of_lt) reordered
    intro i j first second le ge
    exact increasing.eq_of_key (reordered.mem_iff.mp first) second (Nat.le_antisymm le ge)
  rw [validate_eq shaped,tilesDomain_iff small,agree]
  exact tiles

theorem validate_iff (small : n < width.limit) :
    validate width n pairs = .ok () ↔ Valid n pairs := by
  constructor
  · intro ok
    cases shape : checkShape n pairs with
    | error failure =>
      rw [validate,shape] at ok
      cases ok
    | ok _ =>
      have shaped := checkShape_iff.mp shape
      rw [validate_eq shaped,tilesDomain_iff small] at ok
      exact valid_of_tiles shaped ok
  · intro valid
    rw [validate_eq valid.shaped,tilesDomain_iff small]
    exact valid.tiles

end Acceptance

end BalancedMove
