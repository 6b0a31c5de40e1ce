import BalancedMove.Proofs.Pairs.Refines

/-! Intervals cut to a length. Every piece of an interval begins a multiple of the bound behind its start
and moves positions as the whole interval does, so the pieces of accepted pairs describe the same
permutation. A piece ends where the next one begins or where its interval ends, whichever comes first. -/
namespace BalancedMove

open Sequence

namespace Interval

def pieceCount (bound length : Nat) : Nat := (length + bound - 1) / bound

def piece (bound : Nat) (v : Pair) (m : Nat) : Pair := ⟨v.p + m * bound,v.q + m * bound⟩

def pieces (bound : Nat) (interval : Interval) : List Pair :=
  (List.range (pieceCount bound interval.length)).map (piece bound interval.toPair)

end Interval

open BalancedMove.Interval

def cutPairs (bound n : Nat) (pairs : List Pair) : List Pair :=
  pairs.flatMap fun v => (intervalOf n pairs v).pieces bound

variable {bound n length m : Nat} {pairs : List Pair} {u v : Pair}

section Counting

theorem Interval.lt_pieceCount (positive : 0 < bound) :
    m < pieceCount bound length ↔ m * bound < length := by
  rw [pieceCount,← Nat.succ_le_iff,Nat.le_div_iff_mul_le positive,Nat.succ_mul]
  omega

theorem Interval.pieceCount_le (positive : 0 < bound) : pieceCount bound length ≤ length := by
  by_contra more
  have inside := (lt_pieceCount positive).mp (Nat.lt_of_not_le more)
  exact Nat.not_lt.mpr (Nat.le_mul_of_pos_right length positive) inside

theorem Interval.mem_pieces (positive : 0 < bound) {interval : Interval} : u ∈ interval.pieces bound ↔
    ∃ m, m * bound < interval.length ∧ piece bound interval.toPair m = u := by
  simp only [pieces,List.mem_map,List.mem_range,lt_pieceCount positive]

theorem mem_cutPairs (positive : 0 < bound) : u ∈ cutPairs bound n pairs ↔
    ∃ v ∈ pairs, ∃ m, m * bound < endOf Pair.p n pairs v - v.p ∧ piece bound v m = u := by
  simp only [cutPairs,List.mem_flatMap,Interval.mem_pieces positive,intervalOf]

end Counting

section Refinement

theorem cutPairs_sorted (positive : 0 < bound) (sorted : Increasing Pair.p pairs)
    (below : ∀ v ∈ pairs, v.p < n) : Increasing Pair.p (cutPairs bound n pairs) := by
  refine List.pairwise_flatMap.mpr ⟨fun v _ => ?_,sorted.imp_of_mem ?_⟩
  · refine List.pairwise_map.mpr (List.pairwise_lt_range.imp ?_)
    intro m k less
    exact Nat.add_lt_add_left (Nat.mul_lt_mul_of_pos_right less positive) v.p
  · intro v w first second less x front y behind
    obtain ⟨m,inside,rfl⟩ := (Interval.mem_pieces positive).mp front
    obtain ⟨k,_,rfl⟩ := (Interval.mem_pieces positive).mp behind
    have free := (sorted.isEnd below first).free w second less
    simp only [intervalOf,piece] at inside ⊢
    omega

theorem cutPairs_refines (positive : 0 < bound) (valid : Valid n pairs) :
    Refines n pairs (cutPairs bound n pairs) := by
  refine ⟨cutPairs_sorted positive valid.sorted valid.below,fun v member => ?_,fun u member => ?_⟩
  · have above := (valid.sorted.isEnd valid.below member).above
    exact (mem_cutPairs positive).mpr ⟨v,member,0,by omega,by simp [piece]⟩
  · obtain ⟨v,coarse,m,inside,rfl⟩ := (mem_cutPairs positive).mp member
    refine ⟨v,coarse,Nat.le_add_right _ _,?_,?_⟩
    · simp only [piece]
      omega
    · simp only [piece]
      omega

theorem cutPairs_short (positive : 0 < bound) (valid : Valid n pairs)
    (member : u ∈ cutPairs bound n pairs) :
    endOf Pair.p n (cutPairs bound n pairs) u ≤ u.p + bound := by
  have refines := cutPairs_refines positive valid
  have below := refines.below valid.sorted valid.below
  have own := refines.sorted.isEnd below member
  obtain ⟨v,coarse,m,inside,rfl⟩ := (mem_cutPairs positive).mp member
  have step : (m + 1) * bound = m * bound + bound := Nat.succ_mul m bound
  by_cases more : (m + 1) * bound < endOf Pair.p n pairs v - v.p
  · have next : piece bound v (m + 1) ∈ cutPairs bound n pairs :=
      (mem_cutPairs positive).mpr ⟨v,coarse,m + 1,more,rfl⟩
    have free := own.free _ next (by simp only [piece]; omega)
    simp only [piece] at free ⊢
    omega
  · have limit := refines.end_le valid.sorted valid.below member coarse (by simp only [piece]; omega)
    simp only [piece] at limit ⊢
    omega

end Refinement

end BalancedMove
