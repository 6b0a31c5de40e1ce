import BalancedMove.MoveTable.Basic
import BalancedMove.Proofs.Pairs.Valid
import BalancedMove.Proofs.Search

/-! Degrees in a table of accepted pairs. The starts of a table are those of its pairs, closed by the
size of the domain; the in-degree of a row is the number of input starts in its output interval. -/
namespace BalancedMove

open Sequence

structure MoveTable.Encodes (table : MoveTable) (n : Nat) (pairs : List Pair) : Prop where
  inputs : table.inputStarts = (pairs.map Pair.p).toArray.push n
  outputs : table.outputStarts = (pairs.map Pair.q).toArray

namespace MoveTable

variable {table : MoveTable} {n j : Nat} {pairs : List Pair} {v : Pair}

theorem Encodes.size (encodes : table.Encodes n pairs) : table.size = pairs.length := by
  simp [MoveTable.size,encodes.outputs]

theorem Encodes.q (encodes : table.Encodes n pairs) (row : pairs[j]? = some v) :
    table.q j = .ok v.q := by
  simp [MoveTable.q,encodes.outputs,row,Checked.found]

theorem Encodes.p (encodes : table.Encodes n pairs) (row : pairs[j]? = some v) :
    table.p j = .ok v.p := by
  obtain ⟨inside,_⟩ := List.getElem?_eq_some_iff.mp row
  have isRow : (pairs.map Pair.p)[j]? = some v.p := by simp [row]
  have short : j < (pairs.map Pair.p).toArray.size := by simpa using inside
  rw [MoveTable.p,encodes.inputs,Array.getElem?_push_lt short,← Array.getElem?_eq_getElem short,
    List.getElem?_toArray,isRow]
  rfl

theorem Encodes.next (encodes : table.Encodes n pairs) (sorted : Increasing Pair.p pairs)
    (row : pairs[j]? = some v) : table.p (j + 1) = .ok (endOf Pair.p n pairs v) := by
  obtain ⟨inside,isRow⟩ := List.getElem?_eq_some_iff.mp row
  have place : pairs.take j ++ v :: pairs.drop (j + 1) = pairs := by
    rw [← isRow,← List.drop_eq_getElem_cons inside,List.take_append_drop]
  have apart : v ∉ pairs.take j := by
    intro before
    rw [← place] at sorted
    exact Nat.lt_irrefl _ (sorted.before v before)
  have ends : endOf Pair.p n pairs v = ((pairs.drop (j + 1)).head?.map Pair.p).getD n := by
    conv => lhs; rw [← place]
    exact endOf_split apart
  rw [ends,List.head?_drop]
  cases next : pairs[j + 1]? with
  | some w => exact encodes.p next
  | none =>
    have last : j + 1 = pairs.length := by
      have := List.getElem?_eq_none_iff.mp next
      omega
    have size : (pairs.map Pair.p).toArray.size = j + 1 := by simp [last]
    rw [MoveTable.p,encodes.inputs,← size,Array.getElem?_push_size]
    rfl

theorem Encodes.length_eq (encodes : table.Encodes n pairs) (valid : Valid n pairs)
    (row : pairs[j]? = some v) : table.length j = .ok (endOf Pair.p n pairs v - v.p) := by
  have above := (valid.sorted.isEnd valid.below (List.mem_of_getElem? row)).above
  rw [MoveTable.length,encodes.next valid.sorted row,encodes.p row]
  exact Checked.sub_of_le (Nat.le_of_lt above)

theorem Encodes.countStarts (encodes : table.Encodes n pairs) (sorted : Increasing Pair.p pairs)
    (position : Nat) :
    table.countStarts (fun start => start < position) = count Pair.p pairs 0 position := by
  have counted := @partitionPoint_countP (pairs.map Pair.p) (fun start => decide (start < position))
    (fun i => table.inputStarts.getD i 0) ?_ ?_
  · rw [List.length_map] at counted
    rw [MoveTable.countStarts,encodes.size,counted,List.countP_map,count]
    simp [Function.comp_def]
  · rw [List.pairwise_map]
    refine sorted.imp ?_
    intro x y less
    simp only [decide_eq_true_eq]
    omega
  · intro i inside
    have short : i < (pairs.map Pair.p).toArray.size := by simpa using inside
    rw [encodes.inputs,Array.getD_eq_getD_getElem?,Array.getElem?_push_lt short,
      ← Array.getElem?_eq_getElem short,List.getElem?_toArray]
    rfl

theorem Encodes.inDegree_eq (encodes : table.Encodes n pairs) (valid : Valid n pairs)
    (small : n < table.width.limit) (row : pairs[j]? = some v) : table.inDegree j =
      .ok (count Pair.p pairs v.q (v.q + (endOf Pair.p n pairs v - v.p))) := by
  have member : v ∈ pairs := List.mem_of_getElem? row
  have ends := valid.tiled v member
  have high : table.width.add v.q (endOf Pair.p n pairs v - v.p) =
      .ok (v.q + (endOf Pair.p n pairs v - v.p)) := Width.add_of_lt (Nat.lt_of_le_of_lt ends.inside small)
  have parts := count_split Pair.p pairs (Nat.zero_le v.q) (Nat.le_of_lt ends.above)
  simp only [inDegree,encodes.q row,encodes.length_eq valid row,high,Checked.ok_bind,
    encodes.countStarts valid.sorted]
  rw [Checked.sub_of_le (by omega),parts,Nat.add_sub_cancel_left]

end MoveTable

end BalancedMove
