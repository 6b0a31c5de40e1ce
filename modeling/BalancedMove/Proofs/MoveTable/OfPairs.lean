import BalancedMove.MoveTable.OfPairs
import BalancedMove.Proofs.MoveTable.Rows

/-! Encoding of bare pairs. A valid sequence begins at 0, so the search in front of any output start
finds an input start, and there are no more pairs than positions. So the encoding succeeds. -/
namespace BalancedMove

open Sequence

variable {width : Width} {n q : Nat} {pairs : List Pair}

namespace MoveTable

theorem locateStart_eq (valid : Valid n pairs) (small : n < width.limit) (q : Nat) :
    locateStart width (pairs.map Pair.p).toArray q = .ok (rowAt pairs q,offsetAt pairs q) := by
  have size : (pairs.map Pair.p).toArray.size = pairs.length := by simp
  have reads : ∀ i < pairs.length,
      Checked.found (pairs.map Pair.p).toArray[i]? = .ok ((pairs.map Pair.p).getD i 0) := by
    intro i inside
    rw [List.getElem?_toArray,List.getD_eq_getElem?_getD,
      List.getElem?_eq_getElem (by rwa [List.length_map])]
    rfl
  have searched := greatestAtMost_eq reads (turns_starts valid q)
  have inside := rowAt_lt valid q
  have few := valid.length_le
  have indexed : index width (rowAt pairs q) = .ok (rowAt pairs q) := if_pos (by omega)
  have offset := Checked.sub_of_le (startAt_le valid q)
  rw [if_neg (Nat.succ_ne_zero _),Nat.add_sub_cancel] at searched
  rw [locateStart,greatestIn,size,searched,lift_ok,Checked.ok_bind]
  simp only [indexed,Checked.ok_bind,reads _ inside,lift_ok,offset]
  rfl

theorem ofPairs_eq (valid : Valid n pairs) (small : n < width.limit) :
    ofPairs width n pairs = .ok (tabulate width n pairs) := by
  have few := valid.length_le
  have counted : index width pairs.length = .ok pairs.length := if_pos (by omega)
  have all := @Checked.mapM_ok _ _ _ (fun pair : Pair => locateStart width (pairs.map Pair.p).toArray
    pair.q) (fun pair => (rowAt pairs pair.q,offsetAt pairs pair.q)) pairs
    fun pair _ => locateStart_eq valid small pair.q
  simp only [ofPairs,counted,Checked.ok_bind,all,List.map_map]
  rfl

theorem ofPairs_encodes (valid : Valid n pairs) (small : n < width.limit) :
    ∃ table, ofPairs width n pairs = .ok table ∧ table.width = width ∧ table.Encodes n pairs :=
  ⟨_,ofPairs_eq valid small,rfl,tabulate_encodes width n pairs⟩

end MoveTable

end BalancedMove
