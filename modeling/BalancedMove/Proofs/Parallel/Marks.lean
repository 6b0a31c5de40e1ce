import BalancedMove.Proofs.Parallel.Joining

/-! Joining under any marks. A mark permits a joining and never forces one, so the pairs that remain
describe the permutation of the pieces, wherever the marks stand. An interval to which nothing was
joined is what it was and has lost starts at most; one that has grown was light when it grew last,
counted with starts that were joined away afterwards. -/
namespace BalancedMove

open Sequence

variable {width : Width} {n a : Nat} {starts joined after : List Nat} {last : Pair}
variable {pairs rest kept : List Pair}

theorem reach_joined {v : Pair} (sorted : Increasing Pair.p (last :: v :: rest))
    (below : ∀ u ∈ v :: rest, u.p < n) (continues : last.q + v.p = v.q + last.p) :
    last.q + (nextStart n rest - last.p) = v.q + (nextStart n rest - v.p) := by
  have less := (List.pairwise_cons.mp sorted).1 v (by simp)
  have ends := (sorted.tail.isEnd below (x := v) (by simp)).above
  rw [← nextStart_eq v] at ends
  omega

theorem Joins.untouched_or_light (joins : Joins n a starts joined last rest kept after)
    (sorted : Increasing Pair.p (last :: rest)) (below : ∀ v ∈ rest, v.p < n) : ∀ v ∈ last :: kept,
      endOf Pair.p n (last :: kept) v = endOf Pair.p n (last :: rest) v ∨
      count id (remaining starts after) v.q
        (v.q + (endOf Pair.p n (last :: kept) v - v.p)) < 2 * a := by
  induction joins with
  | done => exact fun _ _ => Or.inl rfl
  | @join joined last v rest kept after continues light following ih =>
    have shorter : Increasing Pair.p (last :: rest) := sorted.sublist (by simp)
    have others := ih shorter fun u member => below u (by simp [member])
    have subset := following.sublist.subset
    intro u member
    rcases others u member with same | few
    · rcases List.mem_cons.mp member with rfl | behind
      · -- nothing is joined to `u` behind `v`, so it is as light as it was found to be then
        right
        rw [same,← nextStart_eq u,reach_joined sorted below continues]
        exact Nat.lt_of_le_of_lt (count_remaining_le following.grows _ _) light
      · left
        rw [same,endOf_behind sorted (List.mem_cons_of_mem _ (subset behind)),
          endOf_behind sorted.tail (subset behind),endOf_behind shorter (subset behind)]
    · exact Or.inr few
  | @keep joined last v rest kept after following ih =>
    have keptSorted : Increasing Pair.p (last :: v :: kept) :=
      sorted.sublist ((following.sublist.cons_cons v).cons_cons last)
    intro u member
    rcases List.mem_cons.mp member with rfl | inside
    · left
      rw [← nextStart_eq u,← nextStart_eq u]
      rfl
    · have known := (following.sublist.cons_cons v).subset inside
      rw [endOf_behind keptSorted inside,endOf_behind sorted known]
      exact ih sorted.tail (fun w present => below w (by simp [present])) u inside

theorem mark_marks {cut : List Bool} (same : cut.length = pairs.length) :
    ∃ pieces, mark pairs cut = .ok pieces ∧ pieces.map Piece.pair = pairs ∧
      ∀ (i : Nat) (v : Pair), pairs[i]? = some v → cut[i]? = some false →
        (⟨v,false⟩ : Piece) ∈ pieces := by
  refine ⟨pairs.zipWith (fun pair cut => { pair, cut }) cut,?_,?_,?_⟩
  · simp [mark,Checked.require,same]
  · have first := List.map_fst_zip (Nat.le_of_eq same.symm)
    rw [List.zip_eq_zipWith,List.map_zipWith] at first
    rw [List.map_zipWith]
    exact first
  · intro i v place plain
    refine List.mem_of_getElem? (i := i) ?_
    rw [List.getElem?_zipWith,place,plain]

/-- Joining is safe under any marks, and with any limit. -/
theorem joinPieces_marked (small : n < width.limit) (accepted : validate width n pairs = .ok ())
    {cut : List Bool} (same : cut.length = pairs.length) (a : Nat) :
    ∃ pieces kept, mark pairs cut = .ok pieces ∧ joinPieces width n a pieces = .ok kept ∧
      kept.Sublist pairs ∧ kept.head? = pairs.head? ∧
      (∀ (i : Nat) (v : Pair), pairs[i]? = some v → cut[i]? = some false → v ∈ kept) ∧
      validate width n kept = .ok () ∧ (∀ x < n, image kept x = image pairs x) ∧
      ∀ v ∈ kept, endOf Pair.p n kept v = endOf Pair.p n pairs v ∧
        v.degree n kept ≤ v.degree n pairs ∨ v.degree n kept < 2 * a := by
  obtain ⟨pieces,marked,rfl,unmarked⟩ := mark_marks same
  have valid := (validate_iff small).mp accepted
  cases pieces with
  | nil => cases valid.first
  | cons first rest =>
    obtain ⟨kept,after,joined,joins,uncut⟩ := joinPieces_joins small valid a
    obtain ⟨b,few,ahead⟩ := Valid.exists_ahead valid a
    have sublist : (first.pair :: kept).Sublist (first.pair :: rest.map Piece.pair) :=
      joins.sublist.cons_cons _
    have keptValid := joins.valid valid
    have left := (joins.weaken few).remaining_eq ahead
    refine ⟨_,first.pair :: kept,marked,joined,sublist,rfl,?_,(validate_iff small).mpr keptValid,?_,?_⟩
    · exact fun i v place plain => uncut _ (unmarked i v place plain) rfl
    · exact fun x inside => ((joins.refines valid).image_eq keptValid inside).symm
    · intro v member
      rcases joins.untouched_or_light valid.sorted (fun u known => valid.below u (by simp [known])) v
        member with whole | light
      · refine Or.inl ⟨whole,?_⟩
        rw [Pair.degree,Pair.degree,whole]
        exact sublist.countP_le
      · rw [left,count_starts] at light
        exact Or.inr light

/-- Two stretches that move together, each of them in pieces. -/
def stretches : List Pair := [⟨0,4⟩,⟨1,5⟩,⟨2,6⟩,⟨4,0⟩,⟨5,1⟩,⟨6,2⟩,⟨7,3⟩]

def stretchMarks : List Bool := [true,true,true,false,true,true,false]

theorem stretches_marked : ∃ pieces kept, mark stretches stretchMarks = .ok pieces ∧
    joinPieces .w8 8 2 pieces = .ok kept ∧ kept.Sublist stretches ∧ kept.head? = some ⟨0,4⟩ ∧
    (∀ (i : Nat) (v : Pair), stretches[i]? = some v → stretchMarks[i]? = some false → v ∈ kept) ∧
    validate .w8 8 kept = .ok () ∧ (∀ x < 8, image kept x = image stretches x) ∧
    ∀ v ∈ kept, endOf Pair.p 8 kept v = endOf Pair.p 8 stretches v ∧
      v.degree 8 kept ≤ v.degree 8 stretches ∨ v.degree 8 kept < 4 :=
  joinPieces_marked (by decide) ((validate_iff (by decide)).mpr (by decide)) (by decide) 2

/-- The first piece stays in spite of its mark, and the third would make the interval in front heavy. -/
example : (mark stretches stretchMarks >>= joinPieces .w8 8 2) =
    .ok [⟨0,4⟩,⟨2,6⟩,⟨4,0⟩,⟨7,3⟩] := by
  decide +kernel

end BalancedMove
