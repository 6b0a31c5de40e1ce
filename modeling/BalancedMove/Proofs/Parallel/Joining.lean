import BalancedMove.Parallel.Joining
import BalancedMove.Proofs.Balance.Bound
import BalancedMove.Proofs.Pairs.Refines

/-! Joining at the marks. A piece is joined only if the grown interval, counted without its own start,
stays light; every later joining takes further starts away, so the interval stays light up to the end.
The pairs that remain describe the same permutation. -/
namespace BalancedMove

open Sequence

def remaining (starts joined : List Nat) : List Nat := starts.filter fun start => start ∉ joined

/-- How a walk over the pairs behind the one kept last joins them or keeps them; `joined` and `after`
are the starts joined away in front of it and behind it. -/
inductive Joins (n a : Nat) (starts : List Nat) :
    List Nat → Pair → List Pair → List Pair → List Nat → Prop
  | done {joined last} : Joins n a starts joined last [] [] joined
  | join {joined last v rest kept after} (continues : last.q + v.p = v.q + last.p)
      (light : count id (remaining starts (v.p :: joined)) last.q
        (v.q + (nextStart n rest - v.p)) < 2 * a)
      (following : Joins n a starts (v.p :: joined) last rest kept after) :
      Joins n a starts joined last (v :: rest) kept after
  | keep {joined last v rest kept after} (following : Joins n a starts joined v rest kept after) :
      Joins n a starts joined last (v :: rest) (v :: kept) after

/-- What holds in front of a walk: the intervals still to come are light among all starts, and that of
the pair kept last among the remaining ones. -/
structure Ahead (n a : Nat) (starts joined : List Nat) (last : Pair) (rest : List Pair) : Prop where
  sorted : Increasing Pair.p (last :: rest)
  below : ∀ v ∈ last :: rest, v.p < n
  known : ∀ start ∈ joined, start ∈ starts
  distinct : joined.Nodup
  fresh : ∀ v ∈ rest, v.p ∈ starts ∧ v.p ∉ joined
  reach : last.q + (nextStart n rest - last.p) ≤ n
  within : ∀ v ∈ rest, v.q + (endOf Pair.p n rest v - v.p) ≤ n
  lastLight : count id (remaining starts joined) last.q
    (last.q + (nextStart n rest - last.p)) < 2 * a
  light : ∀ v ∈ rest, count id starts v.q (v.q + (endOf Pair.p n rest v - v.p)) < 2 * a

variable {width : Width} {n a limit low high : Nat} {starts joined after : List Nat} {last v : Pair}
variable {rest kept : List Pair}

section Counting

theorem count_starts (pairs : List Pair) (low high : Nat) :
    count id (pairs.map Pair.p) low high = count Pair.p pairs low high := List.countP_map

theorem count_remaining (sorted : Increasing id starts) (known : ∀ start ∈ joined, start ∈ starts)
    (distinct : joined.Nodup) (low high : Nat) : count id starts low high =
      count id joined low high + count id (remaining starts joined) low high := by
  have parts : starts.Perm (joined ++ remaining starts joined) := by
    refine (List.perm_ext_iff_of_nodup sorted.nodup ?_).mpr fun start => ?_
    · refine List.nodup_append'.mpr ⟨distinct,sorted.nodup.filter _,?_⟩
      intro start member left
      simp [remaining,member] at left
    · by_cases member : start ∈ joined
      · simp [remaining,member,known start member]
      · simp [remaining,member]
  rw [count_perm parts,count,List.countP_append]
  rfl

theorem count_remaining_le (grows : ∀ start ∈ joined, start ∈ after) (low high : Nat) :
    count id (remaining starts after) low high ≤ count id (remaining starts joined) low high := by
  refine List.Sublist.countP_le ?_
  refine List.monotone_filter_right starts fun start left => ?_
  simp only [decide_eq_true_eq] at left ⊢
  exact fun member => left (grows start member)

theorem countBelow_eq (sorted : Increasing id starts) (bound : Nat) :
    partitionPoint starts.toArray.size (fun i => starts.toArray.getD i 0 < bound) =
      count id starts 0 bound := by
  have counted := @partitionPoint_countP starts (fun start => decide (start < bound))
    (fun i => starts.toArray.getD i 0) ?_ ?_
  · rw [List.size_toArray,counted,count]
    simp
  · refine sorted.imp ?_
    intro x y less
    simp only [id,decide_eq_true_eq] at less ⊢
    omega
  · intro i inside
    simp [Array.getD_eq_getD_getElem?,List.getD_eq_getElem?_getD]

theorem startsWithin_eq (sorted : Increasing id starts) (known : ∀ start ∈ joined, start ∈ starts)
    (distinct : joined.Nodup) (order : low ≤ high) : startsWithin starts.toArray joined low high =
      .ok (count id (remaining starts joined) low high) := by
  have parts := count_split id starts (Nat.zero_le low) order
  have without := count_remaining sorted known distinct low high
  have own : (joined.filter fun start => low ≤ start && start < high).length =
      count id joined low high := List.countP_eq_length_filter.symm
  simp only [startsWithin,countBelow_eq sorted,own]
  rw [Checked.sub_of_le (by omega),Checked.ok_bind,Checked.sub_of_le (by omega)]
  congr 1
  omega

theorem joinsLight_eq (sorted : Increasing id starts) (known : ∀ start ∈ joined, start ∈ starts)
    (distinct : joined.Nodup) (member : v.p ∈ starts) (fresh : v.p ∉ joined) (order : last.q ≤ high) :
    joinsLight a starts.toArray joined last v high =
      .ok (decide (count id (remaining starts (v.p :: joined)) last.q high < heavyCount a)) := by
  have before := count_remaining sorted known distinct last.q high
  have behind := @count_remaining starts (v.p :: joined) sorted
    (fun start inside => by
      rcases List.mem_cons.mp inside with rfl | inside
      · exact member
      · exact known start inside)
    (List.nodup_cons.mpr ⟨fresh,distinct⟩) last.q high
  rw [count_cons] at behind
  change _ = _ + (if last.q ≤ v.p ∧ v.p < high then 1 else 0) + _ at behind
  simp only [joinsLight,startsWithin_eq sorted known distinct order,Checked.ok_bind]
  rw [Checked.sub_of_le (by omega),Checked.ok_bind,Checked.pure_ok]
  congr 3
  omega

end Counting

section Walk

theorem Ahead.next (ahead : Ahead n a starts joined last (v :: rest)) :
    last.p < v.p ∧ v.p < nextStart n rest := by
  have less := (List.pairwise_cons.mp ahead.sorted).1 v (by simp)
  have ends := ahead.sorted.tail.isEnd (fun u member => ahead.below u (by simp [member]))
    (x := v) (by simp)
  rw [nextStart_eq v]
  exact ⟨less,ends.above⟩

theorem Ahead.join (ahead : Ahead n a starts joined last (v :: rest))
    (continues : last.q + v.p = v.q + last.p)
    (light : count id (remaining starts (v.p :: joined)) last.q
      (v.q + (nextStart n rest - v.p)) < 2 * a) : Ahead n a starts (v.p :: joined) last rest := by
  have next := ahead.next
  have grown : last.q + (nextStart n rest - last.p) = v.q + (nextStart n rest - v.p) := by omega
  have sorted := ahead.sorted.tail
  have behind : ∀ u ∈ rest, endOf Pair.p n (v :: rest) u = endOf Pair.p n rest u :=
    fun u member => endOf_behind sorted member
  refine ⟨ahead.sorted.sublist (by simp),fun u member => ahead.below u ?_,?_,?_,?_,?_,?_,?_,?_⟩
  · rcases List.mem_cons.mp member with rfl | member <;> simp [*]
  · intro start member
    rcases List.mem_cons.mp member with rfl | member
    · exact (ahead.fresh v (by simp)).1
    · exact ahead.known start member
  · exact List.nodup_cons.mpr ⟨(ahead.fresh v (by simp)).2,ahead.distinct⟩
  · intro u member
    obtain ⟨isStart,absent⟩ := ahead.fresh u (by simp [member])
    refine ⟨isStart,fun inside => ?_⟩
    rcases List.mem_cons.mp inside with same | inside
    · have less := (List.pairwise_cons.mp sorted).1 u member
      omega
    · exact absent inside
  · have within := ahead.within v (by simp)
    rw [← nextStart_eq v] at within
    omega
  · intro u member
    rw [← behind u member]
    exact ahead.within u (by simp [member])
  · rw [grown]
    exact light
  · intro u member
    rw [← behind u member]
    exact ahead.light u (by simp [member])

theorem Ahead.keep (ahead : Ahead n a starts joined last (v :: rest)) :
    Ahead n a starts joined v rest := by
  have sorted := ahead.sorted.tail
  have behind : ∀ u ∈ rest, endOf Pair.p n (v :: rest) u = endOf Pair.p n rest u :=
    fun u member => endOf_behind sorted member
  have within := ahead.within v (by simp)
  have light := ahead.light v (by simp)
  rw [← nextStart_eq v] at within light
  have fewer : ∀ low high, count id (remaining starts joined) low high ≤ count id starts low high :=
    fun _ _ => List.Sublist.countP_le List.filter_sublist
  refine ⟨sorted,fun u member => ahead.below u (List.mem_cons_of_mem _ member),ahead.known,
    ahead.distinct,fun u member => ahead.fresh u (List.mem_cons_of_mem _ member),within,?_,
    Nat.lt_of_le_of_lt (fewer _ _) light,?_⟩
  · intro u member
    rw [← behind u member]
    exact ahead.within u (by simp [member])
  · intro u member
    rw [← behind u member]
    exact ahead.light u (by simp [member])

def Joinable (n limit : Nat) (starts joined : List Nat) (last : Pair) (piece : Piece)
    (rest : List Pair) : Prop :=
  piece.cut = true ∧ last.q + piece.pair.p = piece.pair.q + last.p ∧
    count id (remaining starts (piece.pair.p :: joined)) last.q
      (piece.pair.q + (nextStart n rest - piece.pair.p)) < heavyCount limit

instance (n limit : Nat) (starts joined : List Nat) (last : Pair) (piece : Piece)
    (rest : List Pair) : Decidable (Joinable n limit starts joined last piece rest) :=
  inferInstanceAs (Decidable (_ ∧ _ ∧ _))

theorem joinable_eq {piece : Piece} (small : n < width.limit) (sorted : Increasing id starts)
    (ahead : Ahead n a starts joined last (piece.pair :: rest)) :
    joinable width limit starts.toArray joined last (piece.pair.p - last.p) piece
      (nextStart n rest) = .ok (decide (Joinable n limit starts joined last piece rest)) := by
  have next := ahead.next
  have reach : last.q + (piece.pair.p - last.p) ≤ n := ahead.reach
  have within := ahead.within piece.pair (by simp)
  rw [← nextStart_eq piece.pair] at within
  obtain ⟨isStart,absent⟩ := ahead.fresh piece.pair (by simp)
  have continued : width.add last.q (piece.pair.p - last.p) =
      .ok (last.q + (piece.pair.p - last.p)) := Width.add_of_lt (Nat.lt_of_le_of_lt reach small)
  have high : width.add piece.pair.q (nextStart n rest - piece.pair.p) =
      .ok (piece.pair.q + (nextStart n rest - piece.pair.p)) :=
    Width.add_of_lt (Nat.lt_of_le_of_lt within small)
  unfold joinable Joinable
  split
  next uncut =>
    have plain : piece.cut = false := by simpa using uncut
    simp [plain]
  next marked =>
    have cut : piece.cut = true := by simpa using marked
    rw [continued,Checked.ok_bind]
    by_cases continues : last.q + (piece.pair.p - last.p) = piece.pair.q
    · have order : last.q ≤ piece.pair.q + (nextStart n rest - piece.pair.p) := by omega
      have light := @joinsLight_eq limit _ starts joined last piece.pair sorted ahead.known
        ahead.distinct isStart absent order
      have same : last.q + piece.pair.p = piece.pair.q + last.p := by omega
      simp only [continues,ne_eq,not_true_eq_false,if_false,Checked.sub_of_le (Nat.le_of_lt next.2),
        Checked.ok_bind,high,cut,same,true_and]
      exact light
    · have differ : last.q + piece.pair.p ≠ piece.pair.q + last.p := by omega
      simp [continues,differ]

theorem joinFrom_cons {piece : Piece} {pieces : List Piece} (small : n < width.limit)
    (sorted : Increasing id starts)
    (ahead : Ahead n a starts joined last ((piece :: pieces).map Piece.pair)) :
    joinFrom width n limit starts.toArray joined last (piece :: pieces) =
      if Joinable n limit starts joined last piece (pieces.map Piece.pair) then
        joinFrom width n limit starts.toArray (piece.pair.p :: joined) last pieces
      else do
        let kept ← joinFrom width n limit starts.toArray joined piece.pair pieces
        return piece.pair :: kept := by
  have stop : (pieces.head?.map (·.pair.p)).getD n = nextStart n (pieces.map Piece.pair) := by
    cases pieces <;> rfl
  have offset := Checked.sub_of_le (Nat.le_of_lt ahead.next.1)
  have tested := @joinable_eq width n a limit starts joined last _ piece small sorted ahead
  simp only [joinFrom,offset,stop,Checked.ok_bind,tested,decide_eq_true_eq]

/-- The walk joins within its own limit, even where more starts than that are allowed in front of it. -/
theorem joinFrom_joins {pieces : List Piece} (small : n < width.limit) (few : limit ≤ a)
    (sorted : Increasing id starts)
    (ahead : Ahead n a starts joined last (pieces.map Piece.pair)) : ∃ kept after,
      joinFrom width n limit starts.toArray joined last pieces = .ok kept ∧
      Joins n limit starts joined last (pieces.map Piece.pair) kept after := by
  induction pieces generalizing joined last with
  | nil => exact ⟨[],joined,rfl,.done⟩
  | cons piece rest ih =>
    rw [joinFrom_cons small sorted ahead]
    by_cases join : Joinable n limit starts joined last piece (rest.map Piece.pair)
    · have ⟨_,continues,standing⟩ := join
      have most := Store.heavyCount_le limit
      have light : count id (remaining starts (piece.pair.p :: joined)) last.q
          (piece.pair.q + (nextStart n (rest.map Piece.pair) - piece.pair.p)) < 2 * limit := by omega
      obtain ⟨kept,after,walked,joins⟩ := ih (ahead.join continues (by omega))
      exact ⟨kept,after,by rw [if_pos join]; exact walked,.join continues light joins⟩
    · obtain ⟨kept,after,walked,joins⟩ := ih ahead.keep
      exact ⟨piece.pair :: kept,after,by rw [if_neg join,walked]; rfl,.keep joins⟩

theorem joinFrom_keeps {pieces : List Piece} {array : Array Nat}
    (walked : joinFrom width n limit array joined last pieces = .ok kept) :
    ∀ piece ∈ pieces, piece.cut = false → piece.pair ∈ kept := by
  induction pieces generalizing joined last kept with
  | nil => exact fun _ member => by cases member
  | cons first rest ih =>
    rw [joinFrom] at walked
    obtain ⟨offset,_,walked⟩ := Checked.bind_success walked
    obtain ⟨join,tested,walked⟩ := Checked.bind_success walked
    cases join with
    | true =>
      intro piece member uncut
      rcases List.mem_cons.mp member with rfl | behind
      · -- the test passes for pieces with a mark only
        rw [joinable,uncut] at tested
        cases tested
      · exact ih walked piece behind uncut
    | false =>
      obtain ⟨others,rear,same⟩ := Checked.bind_success walked
      obtain rfl : first.pair :: others = kept := Except.ok.inj same
      intro piece member uncut
      rcases List.mem_cons.mp member with rfl | behind
      · exact List.mem_cons_self
      · exact List.mem_cons_of_mem _ (ih rear piece behind uncut)

end Walk

section Outcome

theorem Joins.sublist (joins : Joins n a starts joined last rest kept after) :
    kept.Sublist rest := by
  induction joins with
  | done => exact List.Sublist.slnil
  | join _ _ _ ih => exact ih.cons _
  | keep _ ih => exact ih.cons_cons _

theorem Joins.weaken (joins : Joins n limit starts joined last rest kept after) (few : limit ≤ a) :
    Joins n a starts joined last rest kept after := by
  induction joins with
  | done => exact .done
  | join continues light _ ih => exact .join continues (by omega) ih
  | keep _ ih => exact .keep ih

theorem Joins.grows (joins : Joins n a starts joined last rest kept after) :
    ∀ start ∈ joined, start ∈ after := by
  induction joins with
  | done => exact fun _ member => member
  | join _ _ _ ih => exact fun start member => ih start (List.mem_cons_of_mem _ member)
  | keep _ ih => exact ih

theorem Joins.comes (joins : Joins n a starts joined last rest kept after) :
    ∀ start ∈ after, start ∈ joined ∨ start ∈ rest.map Pair.p := by
  induction joins with
  | done => exact fun _ member => Or.inl member
  | join _ _ _ ih =>
    intro start member
    rcases ih start member with inside | behind
    · rcases List.mem_cons.mp inside with rfl | inside
      · exact Or.inr (by simp)
      · exact Or.inl inside
    · exact Or.inr (List.mem_cons_of_mem _ behind)
  | keep _ ih => exact fun start member => (ih start member).imp_right (List.mem_cons_of_mem _)

theorem Joins.kept_starts (joins : Joins n a starts joined last rest kept after)
    (ahead : Ahead n a starts joined last rest) :
    kept.map Pair.p = remaining (rest.map Pair.p) after := by
  induction joins with
  | done => rfl
  | @join joined last v rest kept after continues light following ih =>
    have gone : v.p ∈ after := following.grows v.p (by simp)
    rw [ih (ahead.join continues light)]
    simp [remaining,gone]
  | @keep joined last v rest kept after following ih =>
    have stays : v.p ∉ after := by
      intro member
      rcases following.comes v.p member with before | behind
      · exact (ahead.fresh v (by simp)).2 before
      · obtain ⟨u,inRest,same⟩ := List.mem_map.mp behind
        have less := (List.pairwise_cons.mp ahead.sorted.tail).1 u inRest
        omega
    rw [List.map_cons,ih ahead.keep]
    simp [remaining,stays]

theorem lt_nextStart {x : Nat} (inside : x < n) (behind : ∀ v ∈ kept, x < v.p) :
    x < nextStart n kept := by
  cases kept with
  | nil => exact inside
  | cons v kept => exact behind v (by simp)

theorem Joins.parts (joins : Joins n a starts joined last rest kept after)
    (sorted : Increasing Pair.p (last :: rest)) (below : ∀ v ∈ last :: rest, v.p < n) :
    ∀ u ∈ last :: rest, ∃ v ∈ last :: kept, v.p ≤ u.p ∧ u.p < endOf Pair.p n (last :: kept) v ∧
      u.q + v.p = v.q + u.p := by
  induction joins with
  | @done joined last =>
    intro u member
    obtain rfl := List.mem_singleton.mp member
    exact ⟨u,by simp,Nat.le_refl _,by simpa [endOf] using below u (by simp),rfl⟩
  | @join joined last v rest kept after continues light following ih =>
    obtain ⟨least,tail⟩ := List.pairwise_cons.mp sorted
    have others := ih (sorted.sublist (by simp)) fun u member => below u (by
      rcases List.mem_cons.mp member with rfl | member <;> simp [*])
    intro u member
    rcases List.mem_cons.mp member with rfl | inside
    · exact others u (by simp)
    · rcases List.mem_cons.mp inside with rfl | behind
      · refine ⟨last,by simp,Nat.le_of_lt (least u (by simp)),?_,by omega⟩
        rw [← nextStart_eq last]
        exact lt_nextStart (below u (by simp)) fun w present =>
          (List.pairwise_cons.mp tail).1 w (following.sublist.subset present)
      · exact others u (List.mem_cons_of_mem _ behind)
  | @keep joined last v rest kept after following ih =>
    have others := ih sorted.tail fun u member => below u (List.mem_cons_of_mem _ member)
    have keptSorted : Increasing Pair.p (last :: v :: kept) :=
      sorted.sublist ((following.sublist.cons_cons v).cons_cons last)
    intro u member
    rcases List.mem_cons.mp member with rfl | inside
    · refine ⟨u,by simp,Nat.le_refl _,?_,rfl⟩
      rw [← nextStart_eq u]
      exact (List.pairwise_cons.mp sorted).1 v (by simp)
    · obtain ⟨w,present,low,high,shifted⟩ := others u inside
      refine ⟨w,List.mem_cons_of_mem _ present,low,?_,shifted⟩
      rw [endOf_behind keptSorted present]
      exact high

theorem Joins.light (joins : Joins n a starts joined last rest kept after)
    (ahead : Ahead n a starts joined last rest) : ∀ v ∈ last :: kept,
      count id (remaining starts after) v.q
        (v.q + (endOf Pair.p n (last :: kept) v - v.p)) < 2 * a := by
  induction joins with
  | @done joined last =>
    intro v member
    obtain rfl := List.mem_singleton.mp member
    rw [← nextStart_eq v]
    exact ahead.lastLight
  | join continues light _ ih => exact ih (ahead.join continues light)
  | @keep joined last v rest kept after following ih =>
    have keptSorted : Increasing Pair.p (last :: v :: kept) :=
      ahead.sorted.sublist ((following.sublist.cons_cons v).cons_cons last)
    intro u member
    rcases List.mem_cons.mp member with rfl | inside
    · rw [← nextStart_eq u]
      exact Nat.lt_of_le_of_lt (count_remaining_le following.grows _ _) ahead.lastLight
    · rw [endOf_behind keptSorted inside]
      exact ih ahead.keep u inside

theorem Valid.ahead (valid : Valid n (last :: rest))
    (light : ∀ v ∈ last :: rest, v.degree n (last :: rest) < 2 * a) :
    Ahead n a ((last :: rest).map Pair.p) [] last rest := by
  have sorted := valid.sorted
  have behind : ∀ u ∈ rest, endOf Pair.p n (last :: rest) u = endOf Pair.p n rest u :=
    fun u member => endOf_behind sorted member
  have all : remaining ((last :: rest).map Pair.p) [] = (last :: rest).map Pair.p := by
    simp [remaining]
  refine ⟨sorted,valid.below,by simp,List.nodup_nil,?_,?_,?_,?_,?_⟩
  · exact fun v member => ⟨List.mem_map_of_mem (by simp [member]),by simp⟩
  · rw [nextStart_eq last]
    exact (valid.tiled _ (by simp)).inside
  · intro v member
    rw [← behind v member]
    exact (valid.tiled v (by simp [member])).inside
  · rw [all,count_starts,nextStart_eq last]
    exact light _ (by simp)
  · intro v member
    rw [count_starts,← behind v member]
    exact light v (by simp [member])

theorem Joins.remaining_eq (joins : Joins n a starts [] last rest kept after)
    (ahead : Ahead n a starts [] last rest) :
    remaining ((last :: rest).map Pair.p) after = (last :: kept).map Pair.p := by
  have stays : last.p ∉ after := by
    intro member
    rcases joins.comes _ member with inside | inside
    · cases inside
    · obtain ⟨u,inRest,same⟩ := List.mem_map.mp inside
      have less := (List.pairwise_cons.mp ahead.sorted).1 u inRest
      omega
  rw [@List.map_cons _ _ Pair.p last kept,joins.kept_starts ahead]
  simp [remaining,stays]

theorem Valid.exists_ahead (valid : Valid n (last :: rest)) (limit : Nat) :
    ∃ a, limit ≤ a ∧ Ahead n a ((last :: rest).map Pair.p) [] last rest := by
  refine ⟨limit + (last :: rest).length + 1,by omega,valid.ahead fun v _ => ?_⟩
  have few : v.degree n (last :: rest) ≤ (last :: rest).length := count_le_length _ _
  omega

theorem Joins.refines (joins : Joins n a starts joined last rest kept after)
    (valid : Valid n (last :: rest)) : Refines n (last :: kept) (last :: rest) :=
  ⟨valid.sorted,fun _ member => (joins.sublist.cons_cons last).subset member,
    joins.parts valid.sorted valid.below⟩

theorem Joins.valid (joins : Joins n a starts joined last rest kept after)
    (valid : Valid n (last :: rest)) : Valid n (last :: kept) :=
  (joins.refines valid).valid_coarse valid (valid.sorted.sublist (joins.sublist.cons_cons last))

theorem joinPieces_joins {first : Piece} {pieces : List Piece} (small : n < width.limit)
    (valid : Valid n (first.pair :: pieces.map Piece.pair)) (limit : Nat) :
    ∃ kept after, joinPieces width n limit (first :: pieces) = .ok (first.pair :: kept) ∧
      Joins n limit ((first.pair :: pieces.map Piece.pair).map Pair.p) [] first.pair
        (pieces.map Piece.pair) kept after ∧
      ∀ piece ∈ first :: pieces, piece.cut = false → piece.pair ∈ first.pair :: kept := by
  obtain ⟨a,few,ahead⟩ := valid.exists_ahead limit
  obtain ⟨kept,after,walked,joins⟩ :=
    joinFrom_joins small few (List.pairwise_map.mpr valid.sorted) ahead
  refine ⟨kept,after,?_,joins,?_⟩
  · have starts : ((first :: pieces).map (·.pair.p)) =
        (first.pair :: pieces.map Piece.pair).map Pair.p := by simp [Function.comp_def]
    rw [joinPieces,starts,walked]
    rfl
  · intro piece member uncut
    rcases List.mem_cons.mp member with rfl | behind
    · exact List.mem_cons_self
    · exact List.mem_cons_of_mem _ (joinFrom_keeps walked piece behind uncut)

/-- Joining pieces that are light enough gives pairs that are light enough, which move every position as
the pieces do and have all the pairs without a mark. -/
theorem joinPieces_light {pieces : List Piece} (small : n < width.limit)
    (valid : Valid n (pieces.map Piece.pair))
    (light : ∀ v ∈ pieces.map Piece.pair, v.degree n (pieces.map Piece.pair) < 2 * a) :
    ∃ kept, joinPieces width n a pieces = .ok kept ∧
      Refines n kept (pieces.map Piece.pair) ∧ Valid n kept ∧
      ∀ v ∈ kept, v.degree n kept < 2 * a := by
  cases pieces with
  | nil => cases valid.first
  | cons first rest =>
    rw [List.map_cons] at valid light
    obtain ⟨kept,after,joined,joins,_⟩ := joinPieces_joins small valid a
    have ahead := valid.ahead light
    refine ⟨first.pair :: kept,joined,joins.refines valid,joins.valid valid,?_⟩
    intro v member
    have below := joins.light ahead v member
    rw [joins.remaining_eq ahead,count_starts] at below
    exact below

theorem joinPieces_refines {pieces : List Piece} (small : n < width.limit)
    (valid : Valid n (pieces.map Piece.pair)) (limit : Nat) :
    ∃ kept, joinPieces width n limit pieces = .ok kept ∧
      Refines n kept (pieces.map Piece.pair) ∧ Valid n kept ∧
      ∀ piece ∈ pieces, piece.cut = false → piece.pair ∈ kept := by
  cases pieces with
  | nil => cases valid.first
  | cons first rest =>
    rw [List.map_cons] at valid
    obtain ⟨kept,after,joined,joins,uncut⟩ := joinPieces_joins small valid limit
    exact ⟨first.pair :: kept,joined,joins.refines valid,joins.valid valid,uncut⟩

end Outcome

end BalancedMove
