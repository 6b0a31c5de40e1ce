import BalancedMove.Proofs.Pairs.Valid
import Mathlib.Data.List.Sort

/-! Finer sequences of pairs. Every pair of the finer sequence moves its interval as the coarser pair
around it does, and the coarser pairs are all kept; such a sequence describes the same permutation,
and if either of the two describes one, so does the other.
`image` is that permutation, read off any sequence of accepted pairs. -/
namespace BalancedMove

open Sequence

namespace Sequence

theorem Increasing.sublist_of_subset {α : Type} {key : α → Nat} {items others : List α}
    (sorted : Increasing key items) (larger : Increasing key others) (sub : items ⊆ others) :
    items.Sublist others := by
  have apart : Std.Antisymm fun x y : α => key x < key y :=
    ⟨fun _ _ less more => absurd less (Nat.lt_asymm more)⟩
  exact List.sublist_of_subperm_of_pairwise (List.subperm_of_subset sorted.nodup sub) sorted larger

end Sequence

def image (pairs : List Pair) (x : Nat) : Nat :=
  (((pairs.filter fun v => v.p ≤ x).getLast?).map fun v => v.q + (x - v.p)).getD 0

structure Refines (n : Nat) (pairs finer : List Pair) : Prop where
  sorted : Increasing Pair.p finer
  kept : ∀ v ∈ pairs, v ∈ finer
  parts : ∀ u ∈ finer, ∃ v ∈ pairs, v.p ≤ u.p ∧ u.p < endOf Pair.p n pairs v ∧
    u.q + v.p = v.q + u.p

variable {n x : Nat} {pairs finer : List Pair} {u v : Pair}

theorem image_eq (sorted : Increasing Pair.p pairs) (below : ∀ v ∈ pairs, v.p < n)
    (member : v ∈ pairs) (low : v.p ≤ x) (high : x < endOf Pair.p n pairs v) :
    image pairs x = v.q + (x - v.p) := by
  have ends := sorted.isEnd below member
  obtain ⟨left,right,rfl⟩ := List.append_of_mem member
  have before : left.filter (fun w => decide (w.p ≤ x)) = left := by
    apply List.filter_eq_self.mpr
    intro w inside
    have := sorted.before w inside
    simp
    omega
  have behind : right.filter (fun w => decide (w.p ≤ x)) = [] := by
    apply List.filter_eq_nil_iff.mpr
    intro w inside
    have := ends.free w (by simp [inside]) (sorted.behind w inside)
    simp
    omega
  simp [image,List.filter_append,before,behind,low]

theorem Valid.apart (valid : Valid n pairs) {y : Nat} (first : u ∈ pairs) (second : v ∈ pairs)
    (firstLow : u.q ≤ y) (firstHigh : y < u.q + (endOf Pair.p n pairs u - u.p)) (secondLow : v.q ≤ y)
    (secondHigh : y < v.q + (endOf Pair.p n pairs v - v.p)) : u = v := by
  have firstEnd := valid.tiled u first
  have secondEnd := valid.tiled v second
  have same : u.q = v.q := by
    rcases Nat.lt_trichotomy u.q v.q with less | same | more
    · have := firstEnd.free v second less
      omega
    · exact same
    · have := secondEnd.free u first more
      omega
  exact List.inj_on_of_nodup_map valid.distinct first second same

theorem Valid.outputCovered (valid : Valid n pairs) {y : Nat} (inside : y < n) :
    ∃ u ∈ pairs, u.q ≤ y ∧ y < u.q + (endOf Pair.p n pairs u - u.p) := by
  have same := sortBy_perm Pair.q pairs
  have sorted : Increasing Pair.q (sortBy Pair.q pairs) :=
    increasing_of_le (sortBy_pairwise Pair.q pairs) ((same.map Pair.q).nodup_iff.mpr valid.distinct)
  have below : ∀ u ∈ sortBy Pair.q pairs, u.q < n := fun u member =>
    (valid.inside u (same.mem_iff.mp member)).2
  obtain ⟨origin,known,zero⟩ := valid.origin
  obtain ⟨first,head,least⟩ :=
    Option.map_eq_some_iff.mp (sorted.head_zero (same.mem_iff.mpr known) zero)
  obtain ⟨u,member,low,high⟩ := sorted.covered below head (show first.q ≤ y by omega) inside
  have listed := same.mem_iff.mp member
  have ends := (valid.tiled u listed).transfer fun k => ((same.map Pair.q).mem_iff (a := k)).symm
  rw [sorted.endOf_eq below member ends] at high
  exact ⟨u,listed,low,high⟩

/-- The interval that a position lies in is moved as a whole. -/
theorem Shaped.moved (shaped : Shaped n pairs) (inside : x < n) : ∃ u ∈ pairs, u.p ≤ x ∧
    x < endOf Pair.p n pairs u ∧ image pairs x = u.q + (x - u.p) := by
  obtain ⟨first,head,zero⟩ := Option.map_eq_some_iff.mp shaped.first
  obtain ⟨u,member,low,high⟩ := shaped.sorted.covered shaped.below head (show first.p ≤ x by omega)
    inside
  exact ⟨u,member,low,high,image_eq shaped.sorted shaped.below member low high⟩

theorem Valid.moved (valid : Valid n pairs) (inside : x < n) : ∃ u ∈ pairs, u.p ≤ x ∧
    x < endOf Pair.p n pairs u ∧ image pairs x = u.q + (x - u.p) := valid.shaped.moved inside

theorem Valid.image_lt (valid : Valid n pairs) (inside : x < n) : image pairs x < n := by
  obtain ⟨u,member,low,high,same⟩ := valid.moved inside
  have ends := (valid.tiled u member).inside
  omega

theorem Valid.image_injective (valid : Valid n pairs) {y : Nat} (left : x < n) (right : y < n)
    (equal : image pairs x = image pairs y) : x = y := by
  obtain ⟨u,first,lowX,highX,sameX⟩ := valid.moved left
  obtain ⟨v,second,lowY,highY,sameY⟩ := valid.moved right
  obtain rfl := valid.apart first second (by omega : u.q ≤ image pairs x) (by omega) (by omega)
    (by omega)
  omega

theorem Valid.refines (valid : Valid n pairs) : Refines n pairs pairs := by
  refine ⟨valid.sorted,fun _ member => member,fun u member => ?_⟩
  have ends := valid.sorted.isEnd valid.below member
  exact ⟨u,member,Nat.le_refl _,ends.above,rfl⟩

theorem Refines.below (refines : Refines n pairs finer) (sorted : Increasing Pair.p pairs)
    (below : ∀ v ∈ pairs, v.p < n) : ∀ u ∈ finer, u.p < n := by
  intro u member
  obtain ⟨v,coarse,_,high,_⟩ := refines.parts u member
  have ends := (sorted.isEnd below coarse).inside
  omega

theorem Refines.sublist (refines : Refines n pairs finer) (sorted : Increasing Pair.p pairs) :
    pairs.Sublist finer := sorted.sublist_of_subset refines.sorted fun v => refines.kept v

theorem Refines.end_le (refines : Refines n pairs finer) (sorted : Increasing Pair.p pairs)
    (below : ∀ v ∈ pairs, v.p < n) (member : u ∈ finer) (coarse : v ∈ pairs)
    (high : u.p < endOf Pair.p n pairs v) :
    endOf Pair.p n finer u ≤ endOf Pair.p n pairs v := by
  have own := refines.sorted.isEnd (refines.below sorted below) member
  have ends := sorted.isEnd below coarse
  rcases ends.reached with last | ⟨w,next,same⟩
  · rw [last]
    exact own.inside
  · rw [← same]
    exact own.free w (refines.kept w next) (by omega)

section Finer

theorem Refines.valid (refines : Refines n pairs finer) (valid : Valid n pairs) :
    Valid n finer := by
  have below := refines.below valid.sorted valid.below
  -- a finer pair with the coarser one around it, both by input and by output
  have around : ∀ u ∈ finer, ∃ v ∈ pairs, v.p ≤ u.p ∧ u.p < endOf Pair.p n pairs v ∧
      u.q + v.p = v.q + u.p ∧ v.q ≤ u.q ∧ u.q < v.q + (endOf Pair.p n pairs v - v.p) := by
    intro u member
    obtain ⟨v,coarse,low,high,shifted⟩ := refines.parts u member
    exact ⟨v,coarse,low,high,shifted,by omega,by omega⟩
  refine ⟨?_,refines.sorted,?_,?_,?_,?_⟩
  · obtain ⟨v,head,zero⟩ := Option.map_eq_some_iff.mp valid.first
    exact refines.sorted.head_zero (refines.kept v (List.mem_of_head? head)) zero
  · intro u member
    obtain ⟨v,coarse,_,_,_,_,high⟩ := around u member
    have ends := (valid.tiled v coarse).inside
    exact ⟨below u member,by omega⟩
  · obtain ⟨v,member,zero⟩ := valid.origin
    exact ⟨v,refines.kept v member,zero⟩
  · have nodup := refines.sorted.nodup
    refine (List.nodup_map_iff_inj_on nodup).mpr ?_
    intro u first w second same
    obtain ⟨v,coarse,_,_,shifted,low,high⟩ := around u first
    obtain ⟨z,other,_,_,moved,otherLow,otherHigh⟩ := around w second
    obtain rfl := valid.apart coarse other low high (by omega) (by omega)
    exact refines.sorted.eq_of_key first second (by omega)
  · intro u member
    obtain ⟨v,coarse,low,high,shifted,outLow,outHigh⟩ := around u member
    have own := refines.sorted.isEnd below member
    have ends := valid.tiled v coarse
    have limit := refines.end_le valid.sorted valid.below member coarse high
    have above := own.above
    have bounded := ends.inside
    refine ⟨by omega,by omega,?_,?_⟩
    · intro w present behind
      obtain ⟨z,other,_,_,moved,otherLow,otherHigh⟩ := around w present
      by_cases inside : w.q < v.q + (endOf Pair.p n pairs v - v.p)
      · obtain rfl := valid.apart coarse other (by omega) inside otherLow otherHigh
        have := own.free w present (by omega)
        omega
      · omega
    · -- the finer interval ends where the next part begins, or with the coarser interval
      rcases own.reached with last | ⟨w,present,same⟩
      · have closing := (valid.sorted.isEnd valid.below coarse).inside
        rcases ends.reached with final | ⟨z,other,begins⟩
        · exact Or.inl (by omega)
        · exact Or.inr ⟨z,refines.kept z other,by omega⟩
      · by_cases inside : w.p < endOf Pair.p n pairs v
        · obtain ⟨z,other,zLow,zHigh,moved,_,_⟩ := around w present
          obtain rfl := valid.sorted.apart valid.below coarse other (by omega) inside zLow zHigh
          exact Or.inr ⟨w,present,by omega⟩
        · have reach : endOf Pair.p n finer u = endOf Pair.p n pairs v := by omega
          rcases ends.reached with final | ⟨z,other,begins⟩
          · exact Or.inl (by omega)
          · exact Or.inr ⟨z,refines.kept z other,by omega⟩

theorem Refines.image_eq (refines : Refines n pairs finer) (valid : Valid n pairs) (inside : x < n) :
    image finer x = image pairs x := by
  obtain ⟨u,member,low,high,same⟩ := (refines.valid valid).moved inside
  obtain ⟨v,coarse,vLow,vHigh,shifted⟩ := refines.parts u member
  have limit := refines.end_le valid.sorted valid.below member coarse vHigh
  rw [same,BalancedMove.image_eq valid.sorted valid.below coarse (by omega) (by omega)]
  omega

end Finer

section Coarser

variable (refines : Refines n pairs finer) (valid : Valid n finer) (sorted : Increasing Pair.p pairs)

include refines valid sorted

theorem Refines.image_coarse (member : v ∈ pairs) (low : v.p ≤ x)
    (high : x < endOf Pair.p n pairs v) : image finer x = v.q + (x - v.p) := by
  have below : ∀ v ∈ pairs, v.p < n := fun v member => valid.below v (refines.kept v member)
  have inside := (sorted.isEnd below member).inside
  obtain ⟨u,fine,uLow,uHigh,same⟩ := valid.moved (show x < n by omega)
  obtain ⟨w,coarse,wLow,wHigh,shifted⟩ := refines.parts u fine
  have limit := refines.end_le sorted below fine coarse wHigh
  obtain rfl := sorted.apart below coarse member (show w.p ≤ x by omega) (by omega) low high
  omega

theorem Refines.valid_coarse : Valid n pairs := by
  have below : ∀ v ∈ pairs, v.p < n := fun v member => valid.below v (refines.kept v member)
  refine ⟨?_,sorted,fun v member => valid.inside v (refines.kept v member),?_,?_,?_⟩
  · obtain ⟨u,head,zero⟩ := Option.map_eq_some_iff.mp valid.first
    obtain ⟨v,coarse,low,_,_⟩ := refines.parts u (List.mem_of_head? head)
    exact sorted.head_zero coarse (by omega)
  · obtain ⟨u,member,zero⟩ := valid.origin
    obtain ⟨v,coarse,low,_,shifted⟩ := refines.parts u member
    exact ⟨v,coarse,by omega⟩
  · refine (List.nodup_map_iff_inj_on sorted.nodup).mpr ?_
    intro u first v second same
    exact List.inj_on_of_nodup_map valid.distinct (refines.kept u first) (refines.kept v second) same
  · intro v member
    have ends := sorted.isEnd below member
    have above := ends.above
    have inside := ends.inside
    -- the piece at the rear of the interval ends where the interval ends
    obtain ⟨u,fine,uLow,uHigh,moved⟩ :=
      valid.moved (show endOf Pair.p n pairs v - 1 < n by omega)
    obtain ⟨w,coarse,wLow,wHigh,shifted⟩ := refines.parts u fine
    have limit := refines.end_le sorted below fine coarse wHigh
    obtain rfl := sorted.apart below coarse member (by omega : w.p ≤ endOf Pair.p n pairs v - 1)
      (by omega) (by omega) (by omega)
    have rear := valid.tiled u fine
    have most := rear.inside
    refine ⟨by omega,by omega,?_,?_⟩
    · intro z other behind
      by_contra early
      have here := refines.image_coarse valid sorted member
        (x := w.p + (z.q - w.q)) (by omega) (by omega)
      have own := refines.image_coarse valid sorted other (Nat.le_refl _)
        (sorted.isEnd below other).above
      have place := valid.image_injective (x := z.p) (y := w.p + (z.q - w.q)) (below z other)
        (by omega) (by omega)
      have free := ends.free z other (by omega)
      omega
    · rcases rear.reached with last | ⟨z,present,begins⟩
      · exact Or.inl (by omega)
      · obtain ⟨y,other,yLow,yHigh,same⟩ := refines.parts z present
        rcases Nat.lt_or_eq_of_le yLow with inner | starts
        · -- the position in front of `z` and the rear of the interval have one image
          have before := refines.image_coarse valid sorted other (x := z.p - 1) (by omega) (by omega)
          have behind := refines.image_coarse valid sorted member
            (x := endOf Pair.p n pairs w - 1) (by omega) (by omega)
          have zBelow := valid.below z present
          have place := valid.image_injective (x := z.p - 1) (y := endOf Pair.p n pairs w - 1)
            (by omega) (by omega) (by omega)
          rcases ends.reached with final | ⟨next,known,reached⟩
          · omega
          · have free := (sorted.isEnd below other).free next known (by omega)
            omega
        · exact Or.inr ⟨y,other,by omega⟩

end Coarser

end BalancedMove
