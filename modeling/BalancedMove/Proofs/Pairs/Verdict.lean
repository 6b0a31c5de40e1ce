import BalancedMove.Balance.Parameters
import BalancedMove.Proofs.Pairs.Refines
import Mathlib.Data.Set.Function
import Mathlib.Order.Interval.Set.Defs

/-! Verdicts on arguments. Acceptance either passes or names the first thing that is wrong with its
arguments; none of its own steps fails. The walk along the output intervals adds up their lengths, which
come to the size of the domain, so no sum leaves the width. Where the walk stops, it has come to the first
position that does not lie in exactly one output interval, and there is such a position unless the pairs
describe a permutation. In which order the walk meets intervals with equal starts does not matter. -/
namespace BalancedMove

open Sequence

/-- An answer about the arguments: a value or a refusal, and no fault. -/
def Outcome.Decided {α : Type} (outcome : Outcome α) : Prop :=
  (∃ value, outcome = .ok value) ∨ ∃ cause, outcome = reject cause

def coverage (intervals : List Interval) (y : Nat) : Nat :=
  intervals.countP fun i => i.q ≤ y && y < i.q + i.length

structure Uneven (intervals : List Interval) (y : Nat) : Prop where
  here : coverage intervals y ≠ 1
  front : ∀ z < y, coverage intervals z = 1

/-- What the arguments of an acceptance deserve: one defect after the other is ruled out. -/
inductive Verdict (n : Nat) (pairs : List Pair) : Outcome Unit → Prop
  | emptyDomain (empty : n = 0) : Verdict n pairs (reject .emptyDomain)
  | emptyInput (domain : 0 < n) (empty : pairs = []) : Verdict n pairs (reject .emptyInput)
  | late (domain : 0 < n) {v : Pair} (first : pairs.head? = some v) (behind : 0 < v.p) :
      Verdict n pairs (reject (.firstPairNotAtZero (reported v.p)))
  | outside (domain : 0 < n) (first : pairs.head?.map Pair.p = some 0) {left right : List Pair}
      {v : Pair} (place : pairs = left ++ v :: right) (front : ∀ u ∈ left, u.p < n ∧ u.q < n)
      (here : n ≤ v.p ∨ n ≤ v.q) : Verdict n pairs (reject (.positionOutOfRange left.length
        (reported (if n ≤ v.p then v.p else v.q)) (reported n)))
  | unsorted (domain : 0 < n) (first : pairs.head?.map Pair.p = some 0)
      (inside : ∀ v ∈ pairs, v.p < n ∧ v.q < n) {left right : List Pair} {u v : Pair}
      (place : pairs = left ++ u :: v :: right) (front : Increasing Pair.p (left ++ [u]))
      (here : v.p ≤ u.p) : Verdict n pairs (reject (.unsortedPairs (left.length + 1)))
  | accepted (shaped : Shaped n pairs)
      (bijective : Set.BijOn (image pairs) (Set.Iio n) (Set.Iio n)) : Verdict n pairs (.ok ())
  | uneven (shaped : Shaped n pairs)
      (broken : ¬ Set.BijOn (image pairs) (Set.Iio n) (Set.Iio n)) {y : Nat} (inside : y < n)
      (first : Uneven (pairs.map (intervalOf n pairs)) y) :
      Verdict n pairs (reject (.notAPermutation (reported y)))

/-- A way to arrange intervals by `q`, with equal starts in any order. -/
def Arranges (arrange : List Interval → List Interval) : Prop :=
  ∀ intervals, (arrange intervals).Perm intervals ∧
    (arrange intervals).Pairwise fun i j => i.q ≤ j.q

def validateBy (arrange : List Interval → List Interval) (width : Width) (n : Nat)
    (pairs : List Pair) : Outcome Unit := do
  checkShape n pairs
  let measured ← intervals n pairs
  tilesDomain width n (arrange measured)

variable {width : Width} {n start stop expected y : Nat} {pairs : List Pair}
variable {arranged front rest : List Interval}

section Coverage

theorem coverage_append (front rest : List Interval) (y : Nat) :
    coverage (front ++ rest) y = coverage front y + coverage rest y := List.countP_append

theorem coverage_perm (same : front.Perm rest) (y : Nat) : coverage front y = coverage rest y :=
  same.countP_eq _

theorem coverage_zero (free : ∀ i ∈ arranged, i.q ≤ y → i.q + i.length ≤ y) :
    coverage arranged y = 0 := by
  refine List.countP_eq_zero.mpr fun i member holds => ?_
  simp only [Bool.and_eq_true,decide_eq_true_eq] at holds
  exact absurd (free i member holds.1) (by omega)

theorem coverage_pos {i : Interval} (member : i ∈ arranged) (low : i.q ≤ y)
    (high : y < i.q + i.length) : 0 < coverage arranged y :=
  List.countP_pos_iff.mpr ⟨i,member,by simp [low,high]⟩

theorem Tiles.coverage_eq (tiles : Tiles stop start arranged) (y : Nat) :
    coverage arranged y = if start ≤ y ∧ y < stop then 1 else 0 := by
  induction arranged generalizing start with
  | nil =>
    have ends : start = stop := tiles
    rw [if_neg (by omega)]
    rfl
  | cons i rest ih =>
    obtain ⟨begins,behind⟩ := tiles
    have reach := behind.start_le
    have others := ih behind
    have own : coverage (i :: rest) y =
        coverage rest y + if i.q ≤ y ∧ y < i.q + i.length then 1 else 0 := by
      simp [coverage,List.countP_cons]
    rw [own,others]
    split <;> split <;> split <;> omega

theorem Tiles.snoc {i : Interval} (tiles : Tiles expected start front) (begins : i.q = expected) :
    Tiles (expected + i.length) start (front ++ [i]) := by
  induction front generalizing start with
  | nil =>
    have ends : start = expected := tiles
    exact ⟨begins.trans ends.symm,by rw [ends]; rfl⟩
  | cons j front ih => exact ⟨tiles.1,ih tiles.2⟩

theorem Uneven.unique {intervals : List Interval} {z : Nat} (first : Uneven intervals y)
    (second : Uneven intervals z) : y = z := by
  rcases Nat.lt_trichotomy y z with less | same | more
  · exact absurd (second.front y less) first.here
  · exact same
  · exact absurd (first.front z more) second.here

end Coverage

section Walk

/-- Where an interval does not begin at the end of the tiles in front of it, the first position with a
gap or an overlap is the smaller of the two. -/
theorem Tiles.uneven {i : Interval} (tiles : Tiles expected 0 front)
    (ordered : ∀ j ∈ rest, i.q ≤ j.q) (positive : 0 < i.length) (differs : i.q ≠ expected) :
    Uneven (front ++ i :: rest) (min expected i.q) := by
  have rear : ∀ z < i.q, coverage (i :: rest) z = 0 := by
    intro z less
    refine coverage_zero fun j member low => ?_
    have least : i.q ≤ j.q := by
      rcases List.mem_cons.mp member with rfl | behind
      · exact Nat.le_refl _
      · exact ordered j behind
    omega
  constructor
  · rw [coverage_append,tiles.coverage_eq]
    rcases Nat.lt_or_gt_of_ne differs with overlap | gap
    · have again : 0 < coverage (i :: rest) i.q :=
        coverage_pos (by simp) (Nat.le_refl _) (Nat.lt_add_of_pos_right positive)
      rw [Nat.min_eq_right (Nat.le_of_lt overlap),if_pos ⟨Nat.zero_le _,overlap⟩]
      omega
    · rw [Nat.min_eq_left (Nat.le_of_lt gap),rear expected gap,if_neg (by omega)]
      exact Nat.zero_ne_one
  · intro z less
    rw [coverage_append,tiles.coverage_eq,rear z (by omega),if_pos (by omega)]

theorem tile_walk (tiles : Tiles expected 0 front) (sorted : rest.Pairwise fun i j => i.q ≤ j.q)
    (positive : ∀ i ∈ rest, 0 < i.length)
    (room : expected + total Interval.length rest < width.limit) :
    (tile width expected rest = .ok (expected + total Interval.length rest) ∧
      Tiles (expected + total Interval.length rest) 0 (front ++ rest)) ∨
    ∃ y, tile width expected rest = reject (.notAPermutation (reported y)) ∧
      Uneven (front ++ rest) y ∧ ∃ i ∈ rest, y ≤ i.q := by
  induction rest generalizing expected front with
  | nil => exact Or.inl ⟨rfl,by simpa [total] using tiles⟩
  | cons i rest ih =>
    obtain ⟨head,tail⟩ := List.pairwise_cons.mp sorted
    rw [total] at room ⊢
    by_cases begins : i.q = expected
    · have reached : width.add expected i.length = .ok (expected + i.length) :=
        Width.add_of_lt (by omega)
      have walked := @ih (expected + i.length) (front ++ [i]) (tiles.snoc begins) tail
        (fun j member => positive j (by simp [member])) (by omega)
      rw [List.append_assoc,Nat.add_assoc] at walked
      rw [tile,if_pos begins,reached]
      rcases walked with ended | ⟨y,refused,uneven,j,member,le⟩
      · exact Or.inl ended
      · exact Or.inr ⟨y,refused,uneven,j,by simp [member],le⟩
    · refine Or.inr ⟨min expected i.q,?_,tiles.uneven head (positive i (by simp)) begins,i,by simp,
        Nat.min_le_right _ _⟩
      rw [tile,if_neg begins]

end Walk

section Lengths

theorem Shaped.total_lengths (shaped : Shaped n pairs) :
    total Interval.length (pairs.map (intervalOf n pairs)) = n := by
  have first := shaped.first
  cases pairs with
  | nil => cases first
  | cons v rest =>
    have sum := total_gaps shaped.sorted.nodup (shaped.sorted.imp Nat.le_of_lt) shaped.below
    have zero : v.p = 0 := by simpa using first
    rw [total_map]
    simp only [intervalOf]
    omega

theorem Shaped.tilesDomain_eq (shaped : Shaped n pairs) (small : n < width.limit)
    (same : arranged.Perm (pairs.map (intervalOf n pairs)))
    (sorted : arranged.Pairwise fun i j => i.q ≤ j.q) :
    (tilesDomain width n arranged = .ok () ∧ Tiles n 0 arranged) ∨
    ∃ y < n, tilesDomain width n arranged = reject (.notAPermutation (reported y)) ∧
      Uneven (pairs.map (intervalOf n pairs)) y := by
  have lengths : total Interval.length arranged = n := (total_perm same).trans shaped.total_lengths
  have known : ∀ i ∈ arranged, 0 < i.length ∧ i.q < n := by
    intro i member
    obtain ⟨v,present,rfl⟩ := List.mem_map.mp (same.mem_iff.mp member)
    exact ⟨intervalOf_pos shaped.sorted shaped.below present,(shaped.inside v present).2⟩
  have walked := @tile_walk width 0 [] arranged rfl sorted (fun i member => (known i member).1)
    (by omega)
  rw [List.nil_append,lengths,Nat.zero_add] at walked
  rw [tilesDomain]
  rcases walked with ⟨ended,tiles⟩ | ⟨y,refused,uneven,i,member,le⟩
  · rw [ended]
    exact Or.inl ⟨by simp [Checked.require],tiles⟩
  · rw [refused]
    refine Or.inr ⟨y,Nat.lt_of_le_of_lt le (known i member).2,rfl,?_,fun z less => ?_⟩
    · exact coverage_perm same y ▸ uneven.here
    · exact coverage_perm same z ▸ uneven.front z less

end Lengths

section Bijection

theorem countP_le_one {α : Type} {items : List α} {test : α → Bool} (distinct : items.Nodup)
    (sole : ∀ x ∈ items, ∀ y ∈ items, test x = true → test y = true → x = y) :
    items.countP test ≤ 1 := by
  induction items with
  | nil => exact Nat.zero_le _
  | cons x rest ih =>
    obtain ⟨absent,others⟩ := List.nodup_cons.mp distinct
    rw [List.countP_cons]
    split
    next passes =>
      have none : rest.countP test = 0 := List.countP_eq_zero.mpr fun y member again =>
        absent (sole x (by simp) y (by simp [member]) passes again ▸ member)
      omega
    next => exact ih others fun y first z second => sole y (by simp [first]) z (by simp [second])

theorem Valid.bijOn (valid : Valid n pairs) : Set.BijOn (image pairs) (Set.Iio n) (Set.Iio n) := by
  refine ⟨fun x inside => valid.image_lt inside,
    fun x left y right equal => valid.image_injective left right equal,fun y inside => ?_⟩
  obtain ⟨u,member,low,high⟩ := valid.outputCovered inside
  have ends := valid.sorted.isEnd valid.below member
  have above := ends.above
  have limit := ends.inside
  refine ⟨u.p + (y - u.q),show _ < n by omega,?_⟩
  rw [image_eq valid.sorted valid.below member (Nat.le_add_right _ _) (by omega)]
  omega

theorem Shaped.coverage_eq (shaped : Shaped n pairs)
    (bijective : Set.BijOn (image pairs) (Set.Iio n) (Set.Iio n)) (inside : y < n) :
    coverage (pairs.map (intervalOf n pairs)) y = 1 := by
  -- the position that the interval of a pair moves onto `y`
  have source : ∀ v ∈ pairs, v.q ≤ y → y < v.q + (intervalOf n pairs v).length →
      v.p + (y - v.q) < endOf Pair.p n pairs v ∧ v.p + (y - v.q) < n ∧
        image pairs (v.p + (y - v.q)) = y := by
    intro v member low high
    have ends := shaped.sorted.isEnd shaped.below member
    have limit := ends.inside
    have reach : v.p + (y - v.q) < endOf Pair.p n pairs v := by
      simp only [intervalOf] at high
      omega
    have moved := image_eq shaped.sorted shaped.below member (Nat.le_add_right _ _) reach
    exact ⟨reach,by omega,by omega⟩
  have most : coverage (pairs.map (intervalOf n pairs)) y ≤ 1 := by
    rw [coverage,List.countP_map]
    refine countP_le_one shaped.sorted.nodup fun u first v second holds again => ?_
    simp only [Function.comp_apply,Bool.and_eq_true,decide_eq_true_eq] at holds again
    obtain ⟨uReach,uInside,uMoved⟩ := source u first holds.1 holds.2
    obtain ⟨vReach,vInside,vMoved⟩ := source v second again.1 again.2
    have same := bijective.injOn uInside vInside (uMoved.trans vMoved.symm)
    exact shaped.sorted.apart shaped.below first second (Nat.le_add_right _ _) uReach
      (same ▸ Nat.le_add_right _ _) (same ▸ vReach)
  obtain ⟨x,within,moved⟩ := bijective.surjOn inside
  obtain ⟨u,member,low,high,shifted⟩ := shaped.moved within
  have least := coverage_pos (List.mem_map_of_mem (f := intervalOf n pairs) member)
    (show u.q ≤ y by omega) (by simp only [intervalOf]; omega)
  omega

end Bijection

section Defects

theorem firstOutside_eq {left right : List Pair} {v : Pair}
    (front : ∀ u ∈ left, u.p < n ∧ u.q < n) (here : n ≤ v.p ∨ n ≤ v.q) (index : Nat) :
    firstOutside n index (left ++ v :: right) =
      some (index + left.length,if n ≤ v.p then v.p else v.q) := by
  induction left generalizing index with
  | nil =>
    rw [List.nil_append,firstOutside]
    split
    · rfl
    · rw [if_pos (by omega)]
      rfl
  | cons u left ih =>
    have own := front u (by simp)
    rw [List.cons_append,firstOutside,if_neg (by omega),if_neg (by omega),
      ih (fun w member => front w (by simp [member])),List.length_cons]
    simp only [Nat.add_assoc,Nat.add_comm 1]

theorem firstDescent_eq {left right : List Pair} {u v : Pair}
    (front : Increasing Pair.p (left ++ [u])) (here : v.p ≤ u.p) (index : Nat) :
    firstDescent index (left ++ u :: v :: right) = some (index + (left.length + 1)) := by
  induction left generalizing index with
  | nil =>
    rw [List.nil_append,firstDescent,if_neg (by omega)]
    rfl
  | cons w left ih =>
    obtain ⟨head,tail⟩ := List.pairwise_cons.mp front
    have step : firstDescent index (w :: (left ++ u :: v :: right)) =
        firstDescent (index + 1) (left ++ u :: v :: right) := by
      cases left with
      | nil => exact if_pos (head u (by simp))
      | cons x left => exact if_pos (head x (by simp))
    rw [List.cons_append,step,ih tail,List.length_cons]
    congr 1
    omega

theorem exists_outside (leaves : ¬ ∀ v ∈ pairs, v.p < n ∧ v.q < n) : ∃ left v right,
    pairs = left ++ v :: right ∧ (∀ u ∈ left, u.p < n ∧ u.q < n) ∧ (n ≤ v.p ∨ n ≤ v.q) := by
  induction pairs with
  | nil => exact absurd (by simp) leaves
  | cons v rest ih =>
    by_cases own : v.p < n ∧ v.q < n
    · obtain ⟨left,w,right,rfl,front,here⟩ := ih fun others => leaves fun w member => by
        rcases List.mem_cons.mp member with rfl | behind
        · exact own
        · exact others w behind
      refine ⟨v :: left,w,right,rfl,fun u member => ?_,here⟩
      rcases List.mem_cons.mp member with rfl | inside
      · exact own
      · exact front u inside
    · exact ⟨[],v,rest,rfl,by simp,by omega⟩

theorem exists_descent (falls : ¬ Increasing Pair.p pairs) : ∃ left u v right,
    pairs = left ++ u :: v :: right ∧ Increasing Pair.p (left ++ [u]) ∧ v.p ≤ u.p := by
  induction pairs with
  | nil => exact absurd List.Pairwise.nil falls
  | cons u rest ih =>
    cases rest with
    | nil => exact absurd (List.pairwise_singleton _ u) falls
    | cons v rest =>
      by_cases less : u.p < v.p
      · have behind : ¬ Increasing Pair.p (v :: rest) := fun sorted => falls
          (List.pairwise_cons.mpr ⟨fun w member => Nat.lt_of_lt_of_le less (sorted.head_le w member),
            sorted⟩)
        obtain ⟨left,x,y,right,place,front,here⟩ := ih behind
        have least : ∀ w ∈ left ++ [x], v.p ≤ w.p := by
          cases left with
          | nil =>
            obtain ⟨rfl,_⟩ := List.cons.inj place
            simp
          | cons z left =>
            obtain ⟨rfl,_⟩ := List.cons.inj place
            exact front.head_le
        exact ⟨u :: left,x,y,right,by rw [place]; rfl,List.pairwise_cons.mpr
          ⟨fun w member => Nat.lt_of_lt_of_le less (least w member),front⟩,here⟩
      · exact ⟨[],u,v,rest,rfl,List.pairwise_singleton _ u,by omega⟩

end Defects

section Acceptance

theorem arranges_sortBy : Arranges (sortBy fun i => i.q) :=
  fun items => ⟨sortBy_perm _ items,sortBy_pairwise _ items⟩

theorem validateBy_eq (arrange : List Interval → List Interval) (shaped : Shaped n pairs) :
    validateBy arrange width n pairs =
      tilesDomain width n (arrange (pairs.map (intervalOf n pairs))) := by
  rw [validateBy,checkShape_iff.mpr shaped,intervals_eq shaped.sorted shaped.below]
  rfl

theorem validateBy_refused {cause : BuildError} (arrange : List Interval → List Interval)
    (refused : checkShape n pairs = reject cause) : validateBy arrange width n pairs = reject cause := by
  rw [validateBy,refused]
  rfl

theorem Verdict.answer {outcome : Outcome Unit} (verdict : Verdict n pairs outcome)
    (small : n < width.limit) {arrange : List Interval → List Interval} (arranges : Arranges arrange) :
    validateBy arrange width n pairs = outcome := by
  obtain ⟨same,sorted⟩ := arranges (pairs.map (intervalOf n pairs))
  -- all but the last two are decided before the intervals are arranged
  cases verdict with
  | emptyDomain empty => exact validateBy_refused arrange (if_pos empty)
  | emptyInput domain empty =>
    refine validateBy_refused arrange ?_
    rw [empty]
    exact if_neg (Nat.ne_of_gt domain)
  | late domain first behind =>
    refine validateBy_refused arrange ?_
    obtain ⟨rest,rfl⟩ := List.head?_eq_some_iff.mp first
    exact (if_neg (Nat.ne_of_gt domain)).trans (if_pos (Nat.ne_of_gt behind))
  | @outside domain first left right v place front here =>
    refine validateBy_refused arrange ?_
    obtain ⟨u,head,zero⟩ := Option.map_eq_some_iff.mp first
    obtain ⟨rest,shape⟩ := List.head?_eq_some_iff.mp head
    have found := @firstOutside_eq n left right v front here 0
    rw [← place,Nat.zero_add] at found
    rw [shape] at found ⊢
    simp only [checkShape,if_neg (Nat.ne_of_gt domain),zero,ne_eq,not_true_eq_false,if_false,found]
  | @unsorted domain first inside left right u v place front here =>
    refine validateBy_refused arrange ?_
    obtain ⟨w,head,zero⟩ := Option.map_eq_some_iff.mp first
    obtain ⟨rest,shape⟩ := List.head?_eq_some_iff.mp head
    have none := (firstOutside_eq_none 0).mpr inside
    have found := @firstDescent_eq left right u v front here 0
    rw [← place,Nat.zero_add] at found
    rw [shape] at none found ⊢
    simp only [checkShape,if_neg (Nat.ne_of_gt domain),zero,ne_eq,not_true_eq_false,if_false,none,
      found]
  | accepted shaped bijective =>
    rw [validateBy_eq arrange shaped]
    rcases shaped.tilesDomain_eq small same sorted with ⟨ok,_⟩ | ⟨y,inside,_,uneven⟩
    · exact ok
    · exact absurd (shaped.coverage_eq bijective inside) uneven.here
  | @uneven shaped broken y inside first =>
    rw [validateBy_eq arrange shaped]
    rcases shaped.tilesDomain_eq small same sorted with ⟨_,tiles⟩ | ⟨z,_,refused,uneven⟩
    · have once := tiles.coverage_eq y
      rw [coverage_perm same,if_pos ⟨Nat.zero_le y,inside⟩] at once
      exact absurd once first.here
    · rw [refused,uneven.unique first]

theorem exists_verdict (small : n < width.limit) (pairs : List Pair) :
    ∃ outcome, Verdict n pairs outcome := by
  rcases Nat.eq_zero_or_pos n with empty | domain
  · exact ⟨_,.emptyDomain empty⟩
  cases first : pairs.head? with
  | none => exact ⟨_,.emptyInput domain (List.head?_eq_none_iff.mp first)⟩
  | some v =>
    rcases Nat.eq_zero_or_pos v.p with zero | behind
    · have begins : pairs.head?.map Pair.p = some 0 := by rw [first,Option.map_some,zero]
      by_cases inside : ∀ v ∈ pairs, v.p < n ∧ v.q < n
      · by_cases sorted : Increasing Pair.p pairs
        · have shaped : Shaped n pairs := ⟨begins,inside,sorted⟩
          by_cases bijective : Set.BijOn (image pairs) (Set.Iio n) (Set.Iio n)
          · exact ⟨_,.accepted shaped bijective⟩
          · rcases shaped.tilesDomain_eq small (sortBy_perm _ _) (sortBy_pairwise _ _) with
              ⟨_,tiles⟩ | ⟨y,within,_,uneven⟩
            · exact absurd (valid_of_tiles shaped tiles).bijOn bijective
            · exact ⟨_,.uneven shaped bijective within uneven⟩
        · obtain ⟨left,u,v,right,place,front,here⟩ := exists_descent sorted
          exact ⟨_,.unsorted domain begins inside place front here⟩
      · obtain ⟨left,v,right,place,front,here⟩ := exists_outside inside
        exact ⟨_,.outside domain begins place front here⟩
    · exact ⟨_,.late domain first behind⟩

theorem Verdict.decided {outcome : Outcome Unit} (verdict : Verdict n pairs outcome) :
    outcome.Decided := by
  cases verdict with
  | accepted => exact Or.inl ⟨(),rfl⟩
  | _ => exact Or.inr ⟨_,rfl⟩

theorem validate_decided (small : n < width.limit) (pairs : List Pair) :
    (validate width n pairs).Decided := by
  obtain ⟨outcome,verdict⟩ := exists_verdict small pairs
  have answer : validate width n pairs = outcome := verdict.answer small arranges_sortBy
  exact answer ▸ verdict.decided

/-- Acceptance gives its arguments the verdict that they deserve, and no other, however intervals with
equal starts are arranged. -/
theorem validate_verdict (small : n < width.limit) (pairs : List Pair) (outcome : Outcome Unit) :
    (validate width n pairs = outcome ↔ Verdict n pairs outcome) ∧
      ∀ arrange, Arranges arrange →
        (validateBy arrange width n pairs = outcome ↔ Verdict n pairs outcome) := by
  have all : ∀ arrange, Arranges arrange →
      (validateBy arrange width n pairs = outcome ↔ Verdict n pairs outcome) := by
    intro arrange arranges
    refine ⟨?_,fun verdict => verdict.answer small arranges⟩
    rintro rfl
    obtain ⟨other,verdict⟩ := exists_verdict small pairs
    rw [verdict.answer small arranges]
    exact verdict
  exact ⟨all _ arranges_sortBy,all⟩

/-- Output intervals with a gap at 3, behind which two begin at the same position. -/
def gapped : List Pair := [⟨0,0⟩,⟨3,4⟩,⟨5,4⟩]

theorem gapped_verdict : validate .w8 8 gapped = reject (.notAPermutation 3) ∧
    ∀ arrange, Arranges arrange → validateBy arrange .w8 8 gapped = reject (.notAPermutation 3) := by
  have small : 8 < Width.w8.limit := by decide
  have shaped : Shaped 8 gapped := ⟨rfl,by decide,by decide⟩
  have broken : ¬ Set.BijOn (image gapped) (Set.Iio 8) (Set.Iio 8) := fun bijective =>
    absurd (bijective.injOn (show 3 < 8 by decide) (show 5 < 8 by decide)
      (show image gapped 3 = image gapped 5 by decide)) (by decide)
  have verdict : Verdict 8 gapped (reject (.notAPermutation 3)) :=
    .uneven (y := 3) shaped broken (by decide) ⟨by decide,by decide⟩
  exact ⟨(validate_verdict small gapped _).1.mpr verdict,
    fun arrange arranges => ((validate_verdict small gapped _).2 arrange arranges).mpr verdict⟩

end Acceptance

theorem parameters_decided (parameters : BalanceParameters) (cores n : Nat) :
    (parameters.validate cores n).Decided := by
  unfold BalanceParameters.validate
  split
  · exact Or.inr ⟨_,rfl⟩
  · split
    · exact Or.inr ⟨_,rfl⟩
    · exact Or.inl ⟨(),rfl⟩

end BalancedMove
