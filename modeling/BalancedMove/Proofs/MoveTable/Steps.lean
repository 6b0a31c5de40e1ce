import BalancedMove.Proofs.MoveTable.Map
import BalancedMove.Proofs.MoveTable.OfStore

/-! Steps along a table. A move from a row leads into the row that its index names or to one of the next
few: each input start that is passed on the way inside the output interval is one row further. So no
step goes further than the in-degree of its row, and the in-degrees of all rows together come to the
number of rows. -/
namespace BalancedMove

open Sequence

theorem Tiles.total_count {stop start : Nat} {arranged : List Interval}
    (tiles : Tiles stop start arranged) {α : Type} (key : α → Nat) (items : List α) :
    total (fun i => count key items i.q (i.q + i.length)) arranged = count key items start stop := by
  induction arranged generalizing start with
  | nil =>
    have ends : start = stop := tiles
    subst ends
    exact (count_eq_zero.mpr fun _ _ => id).symm
  | cons i rest ih =>
    obtain ⟨begins,behind⟩ := tiles
    rw [total,ih behind,begins]
    exact (count_split key items (Nat.le_add_right _ _) behind.start_le).symm

namespace MoveTable

structure Row (table : MoveTable) (i : Nat) where
  p : Nat
  q : Nat
  idx : Nat
  offs : Nat
  length : Nat
  inDegree : Nat
  reads_p : table.p i = .ok p
  reads_q : table.q i = .ok q
  reads_idx : table.idx i = .ok idx
  reads_offs : table.offs i = .ok offs
  reads_length : table.length i = .ok length
  reads_inDegree : table.inDegree i = .ok inDegree

/-- What a table over `[0, n)` promises about single moves. -/
structure Steps (table : MoveTable) (n : Nat) (pairs : List Pair) : Prop where
  given : table.pairs = pairs
  size : table.size = pairs.length
  closed : table.inputStarts.size = table.size + 1
  increasing : table.inputStarts.toList.Pairwise (· < ·)
  first : table.inputStarts[0]? = some 0
  last : table.inputStarts[table.size]? = some n
  rows : ∀ i < table.size, Nonempty (table.Row i)
  located : ∀ i (row : table.Row i), ∃ target : table.Row row.idx,
    target.p + row.offs = row.q ∧ row.offs < target.length
  lands : ∀ i (row : table.Row i), ∀ o < row.length, ∃ k, ∃ target : table.Row k,
    table.map (row.p + o) = .ok (row.q + o) ∧ table.rowOf (row.q + o) = .ok k ∧
      target.p ≤ row.q + o ∧ row.q + o < target.p + target.length ∧
      k = row.idx + count Pair.p pairs (row.q + 1) (row.q + o + 1) ∧
      row.idx ≤ k ∧ k ≤ row.idx + row.inDegree
  degrees : ∃ degrees, (List.range table.size).mapM table.inDegree = .ok degrees ∧
    total id degrees = table.size

theorem Row.unique {table : MoveTable} {i : Nat} (first second : table.Row i) : first = second := by
  obtain ⟨p,q,idx,offs,length,degree,hp,hq,hidx,hoffs,hlength,hdegree⟩ := first
  obtain ⟨p',q',idx',offs',length',degree',hp',hq',hidx',hoffs',hlength',hdegree'⟩ := second
  obtain rfl := Except.ok.inj (hp.symm.trans hp')
  obtain rfl := Except.ok.inj (hq.symm.trans hq')
  obtain rfl := Except.ok.inj (hidx.symm.trans hidx')
  obtain rfl := Except.ok.inj (hoffs.symm.trans hoffs')
  obtain rfl := Except.ok.inj (hlength.symm.trans hlength')
  obtain rfl := Except.ok.inj (hdegree.symm.trans hdegree')
  rfl

variable {width : Width} {n i y : Nat} {pairs : List Pair} {u v : Pair}

section Rows

theorem rowAt_eq_count (pairs : List Pair) (y : Nat) :
    rowAt pairs y = count Pair.p pairs 0 (y + 1) - 1 := by
  simp only [rowAt,count,Nat.zero_le,decide_true,Bool.true_and,Nat.lt_succ_iff]

theorem exists_rowAt (valid : Valid n pairs) (inside : y < n) : ∃ u, pairs[rowAt pairs y]? = some u ∧
    u.p ≤ y ∧ y < endOf Pair.p n pairs u ∧ u.p + offsetAt pairs y = y ∧
      count Pair.p pairs 0 (y + 1) = rowAt pairs y + 1 := by
  obtain ⟨u,member,low,high,_⟩ := valid.moved inside
  obtain ⟨left,right,rfl⟩ := List.append_of_mem member
  have counted := count_through valid.sorted valid.below low high
  have place : rowAt (left ++ u :: right) y = left.length := by
    rw [rowAt_eq_count,counted,Nat.add_sub_cancel]
  have start : offsetAt (left ++ u :: right) y = y - u.p := by
    rw [offsetAt,place]
    simp
  exact ⟨u,by simp [place],low,high,by omega,by rw [place,counted]⟩

def rowOfPair (valid : Valid n pairs) (small : n < width.limit) (here : pairs[i]? = some v) :
    (tabulate width n pairs).Row i where
  p := v.p
  q := v.q
  idx := rowAt pairs v.q
  offs := offsetAt pairs v.q
  length := endOf Pair.p n pairs v - v.p
  inDegree := count Pair.p pairs v.q (v.q + (endOf Pair.p n pairs v - v.p))
  reads_p := (tabulate_encodes width n pairs).p here
  reads_q := (tabulate_encodes width n pairs).q here
  reads_idx := by simp [MoveTable.idx,tabulate,here,Checked.found]
  reads_offs := by simp [MoveTable.offs,tabulate,here,Checked.found]
  reads_length := (tabulate_encodes width n pairs).length_eq valid here
  reads_inDegree := (tabulate_encodes width n pairs).inDegree_eq valid small here

theorem Row.eq_rowOfPair (valid : Valid n pairs) (small : n < width.limit)
    (row : (tabulate width n pairs).Row i) :
    ∃ v, ∃ here : pairs[i]? = some v, row = rowOfPair valid small here := by
  have read := Checked.found_success row.reads_q
  obtain ⟨v,here,_⟩ : ∃ v, pairs[i]? = some v ∧ v.q = row.q := by simpa [tabulate] using read
  exact ⟨v,here,row.unique _⟩

end Rows

section Promises

theorem rowOfPair_located (valid : Valid n pairs) (small : n < width.limit)
    (here : pairs[i]? = some v) : ∃ target : (tabulate width n pairs).Row (rowOfPair valid small here).idx,
    target.p + (rowOfPair valid small here).offs = (rowOfPair valid small here).q ∧
      (rowOfPair valid small here).offs < target.length := by
  have inside := (valid.inside v (List.mem_of_getElem? here)).2
  obtain ⟨u,place,low,high,offset,_⟩ := exists_rowAt valid inside
  refine ⟨rowOfPair valid small place,offset,?_⟩
  simp only [rowOfPair]
  omega

theorem rowOfPair_lands (valid : Valid n pairs) (small : n < width.limit)
    (here : pairs[i]? = some v) {o : Nat} (inside : o < (rowOfPair valid small here).length) :
    ∃ k, ∃ target : (tabulate width n pairs).Row k,
      (tabulate width n pairs).map (v.p + o) = .ok (v.q + o) ∧
      (tabulate width n pairs).rowOf (v.q + o) = .ok k ∧
      target.p ≤ v.q + o ∧ v.q + o < target.p + target.length ∧
      k = rowAt pairs v.q + count Pair.p pairs (v.q + 1) (v.q + o + 1) ∧
      k ≤ rowAt pairs v.q + (rowOfPair valid small here).inDegree := by
  have encodes := tabulate_encodes width n pairs
  have member := List.mem_of_getElem? here
  have ends := (valid.sorted.isEnd valid.below member).inside
  have outputEnd := (valid.tiled v member).inside
  simp only [rowOfPair] at inside ⊢
  have mapped := encodes.map_eq valid small (show v.p + o < n by omega)
  rw [image_eq valid.sorted valid.below member (Nat.le_add_right _ _) (by omega),
    Nat.add_sub_cancel_left] at mapped
  obtain ⟨u,place,low,high,_,through⟩ := exists_rowAt valid (show v.q + o < n by omega)
  obtain ⟨_,_,_,_,_,start⟩ := exists_rowAt valid (show v.q < n by omega)
  have row : (tabulate width n pairs).rowOf (v.q + o) = .ok (rowAt pairs (v.q + o)) := by
    rw [rowOf,encodes.countThrough valid.sorted,through]
    exact Checked.sub_of_le (Nat.le_add_left 1 _)
  -- the starts passed on the way are those between the two positions
  have passed := count_split Pair.p pairs (Nat.zero_le (v.q + 1))
    (show v.q + 1 ≤ v.q + o + 1 by omega)
  have front := count_split Pair.p pairs (show v.q ≤ v.q + 1 by omega)
    (show v.q + 1 ≤ v.q + (endOf Pair.p n pairs v - v.p) by omega)
  have rear := count_split Pair.p pairs (show v.q + 1 ≤ v.q + o + 1 by omega)
    (show v.q + o + 1 ≤ v.q + (endOf Pair.p n pairs v - v.p) by omega)
  refine ⟨_,rowOfPair valid small place,mapped,row,low,?_,by omega,by omega⟩
  simp only [rowOfPair]
  omega

theorem tabulate_degrees (valid : Valid n pairs) (small : n < width.limit) : ∃ degrees,
    (List.range pairs.length).mapM (tabulate width n pairs).inDegree = .ok degrees ∧
      total id degrees = pairs.length := by
  let degree := fun v : Pair => count Pair.p pairs v.q (v.q + (endOf Pair.p n pairs v - v.p))
  have each : ∀ i ∈ List.range pairs.length, (tabulate width n pairs).inDegree i =
      .ok ((pairs[i]?.map degree).getD 0) := by
    intro i inside
    have here := List.getElem?_eq_getElem (List.mem_range.mp inside)
    rw [(rowOfPair valid small here).reads_inDegree,here]
    rfl
  have byPlace : total (fun i => (pairs[i]?.map degree).getD 0) (List.range pairs.length) =
      total degree pairs := total_range fun i v here => by rw [here]; rfl
  have byOutput : total degree pairs =
      total (fun i => count Pair.p pairs i.q (i.q + i.length)) (arrangement n pairs) := by
    rw [arrangement,total_perm (sortBy_perm _ _),total_map]
    rfl
  have all : count Pair.p pairs 0 n = pairs.length :=
    List.countP_eq_length.mpr fun v member => by simp [valid.below v member]
  refine ⟨_,Checked.mapM_ok each,?_⟩
  rw [total_map]
  exact byPlace.trans (byOutput.trans ((valid.tiles.total_count Pair.p pairs).trans all))

theorem tabulate_steps (valid : Valid n pairs) (small : n < width.limit) :
    (tabulate width n pairs).Steps n pairs := by
  have encodes := tabulate_encodes width n pairs
  have size : (tabulate width n pairs).size = pairs.length := encodes.size
  refine ⟨tabulate_pairs width n pairs,size,?_,?_,?_,?_,?_,?_,?_,?_⟩
  · rw [encodes.inputs,size]
    simp
  · rw [encodes.inputs]
    simp only [Array.toList_push]
    refine List.pairwise_append.mpr ⟨List.pairwise_map.mpr valid.sorted,List.pairwise_singleton _ n,?_⟩
    rintro _ member last isLast
    obtain ⟨v,present,rfl⟩ := List.mem_map.mp member
    rw [List.mem_singleton.mp isLast]
    exact valid.below v present
  · obtain ⟨v,head,zero⟩ := Option.map_eq_some_iff.mp valid.first
    have first := Checked.found_success (encodes.p (List.head?_eq_getElem? ▸ head))
    rwa [zero] at first
  · rw [encodes.inputs,size]
    simp
  · intro i inside
    exact ⟨rowOfPair valid small (List.getElem?_eq_getElem (size ▸ inside))⟩
  · intro i row
    obtain ⟨v,here,rfl⟩ := row.eq_rowOfPair valid small
    exact rowOfPair_located valid small here
  · intro i row o inside
    obtain ⟨v,here,rfl⟩ := row.eq_rowOfPair valid small
    obtain ⟨k,target,mapped,found,low,high,passed,most⟩ := rowOfPair_lands valid small here inside
    exact ⟨k,target,mapped,found,low,high,passed,passed ▸ Nat.le_add_right _ _,most⟩
  · rw [size]
    exact tabulate_degrees valid small

end Promises

/-- Both ways of encoding accepted pairs give a table along which every step is bounded. -/
theorem encodings_step (small : n < width.limit) (accepted : validate width n pairs = .ok ()) :
    (∃ table, ofPairs width n pairs = .ok table ∧ table.Steps n pairs) ∧
    ∀ {store : Store} {inputs outputs : List Record}, store.Whole inputs outputs →
      store.width = width → store.stop = n → store.pairs = .ok pairs →
      ∃ table, ofStore store = .ok table ∧ table.Steps n pairs := by
  have valid := (validate_iff small).mp accepted
  refine ⟨⟨_,ofPairs_eq valid small,tabulate_steps valid small⟩,?_⟩
  rintro store inputs outputs whole rfl rfl shown
  obtain rfl := Except.ok.inj (whole.holds.pairs.symm.trans shown)
  exact ⟨_,ofStore_eq whole,tabulate_steps valid small⟩

theorem rotation_step :
    (∃ table, ofPairs .w8 20 rotation = .ok table ∧ table.Steps 20 rotation) ∧
    ∃ store table, Store.load .w8 20 rotation = .ok store ∧ ofStore store = .ok table ∧
      table.Steps 20 rotation := by
  have steps := encodings_step (by decide) rotation_accepted
  obtain ⟨store,inputs,outputs,loaded,whole,width,stop,given⟩ :=
    Store.load_whole (by decide) rotation_accepted
  obtain ⟨table,encoded,stepwise⟩ := steps.2 whole width stop (given ▸ whole.holds.pairs)
  exact ⟨steps.1,store,table,loaded,encoded,stepwise⟩

end MoveTable

end BalancedMove
