import BalancedMove.Proofs.MoveTable.InDegree
import BalancedMove.Proofs.Pairs.Refines

/-! The map of a table. The search among the starts of a table finds the row whose input interval holds
the position, and the map shifts the position as the pair of that row does. -/
namespace BalancedMove

open Sequence

namespace MoveTable

variable {table : MoveTable} {n x : Nat} {pairs left right : List Pair} {u : Pair}

theorem count_through (sorted : Increasing Pair.p (left ++ u :: right))
    (below : ∀ v ∈ left ++ u :: right, v.p < n) (low : u.p ≤ x)
    (high : x < endOf Pair.p n (left ++ u :: right) u) :
    count Pair.p (left ++ u :: right) 0 (x + 1) = left.length + 1 := by
  have ends := sorted.isEnd below (x := u) (by simp)
  have front : left.countP (fun v => 0 ≤ v.p && v.p < x + 1) = left.length := by
    apply List.countP_eq_length.mpr
    intro v inside
    have before := sorted.before v inside
    simp
    omega
  have rear : right.countP (fun v => 0 ≤ v.p && v.p < x + 1) = 0 := by
    apply List.countP_eq_zero.mpr
    intro v inside
    have behind := ends.free v (by simp [inside]) (sorted.behind v inside)
    simp
    omega
  have own : (decide (0 ≤ u.p) && decide (u.p < x + 1)) = true := by
    simp
    omega
  rw [count,List.countP_append,List.countP_cons,front,rear,if_pos own,Nat.zero_add]

theorem Encodes.countThrough (encodes : table.Encodes n pairs) (sorted : Increasing Pair.p pairs)
    (x : Nat) : table.countStarts (fun start => start ≤ x) = count Pair.p pairs 0 (x + 1) := by
  rw [← encodes.countStarts sorted]
  simp only [Nat.lt_succ_iff]

theorem Encodes.rowOf_eq (encodes : table.Encodes n (left ++ u :: right))
    (sorted : Increasing Pair.p (left ++ u :: right)) (below : ∀ v ∈ left ++ u :: right, v.p < n)
    (low : u.p ≤ x) (high : x < endOf Pair.p n (left ++ u :: right) u) :
    table.rowOf x = .ok left.length := by
  rw [rowOf,encodes.countThrough sorted,count_through sorted below low high]
  exact Checked.sub_of_le (Nat.le_add_left 1 _)

theorem Encodes.map_eq (encodes : table.Encodes n pairs) (valid : Valid n pairs)
    (small : n < table.width.limit) (inside : x < n) : table.map x = .ok (image pairs x) := by
  obtain ⟨u,member,low,high,moved⟩ := valid.moved inside
  have target := valid.image_lt inside
  obtain ⟨left,right,rfl⟩ := List.append_of_mem member
  have row : (left ++ u :: right)[left.length]? = some u := by simp
  have sum : table.width.add u.q (x - u.p) = .ok (u.q + (x - u.p)) := Width.add_of_lt (by omega)
  rw [moved,map,encodes.rowOf_eq valid.sorted valid.below low high]
  simp only [Checked.ok_bind,encodes.p row,Checked.sub_of_le low,encodes.q row,sum]

end MoveTable

end BalancedMove
