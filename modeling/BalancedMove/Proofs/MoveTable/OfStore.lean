import BalancedMove.MoveTable.OfStore
import BalancedMove.Proofs.MoveTable.OfPairs
import BalancedMove.Proofs.Store.Whole

/-! Encoding of whole stores. The walk along the tree meets the output starts in increasing order, so
its index among the input starts only grows, and the closing entry stops it; every node of the tree has
a place in the list. So the encoding of a whole store succeeds, with the same table as that of its
pairs alone. -/
namespace BalancedMove.MoveTable

open Sequence Store

theorem rankOf_eq {size : Nat} {ids : List NodeId} (distinct : ids.Nodup)
    (inside : ∀ id ∈ ids, id < size) {id : NodeId} (member : id ∈ ids) :
    (rankOf size ids)[id]? = some (some (ids.idxOf id)) := by
  have entries : rankOf size ids =
      written (ids.zipIdx.map fun entry => (entry.1,some entry.2)) (Array.replicate size none) := by
    rw [written,List.foldl_map]
    rfl
  have keys : (ids.zipIdx.map fun entry => (entry.1,some entry.2)).map Prod.fst = ids := by
    rw [List.map_map]
    exact List.zipIdx_map_fst 0 ids
  have present : (id,some (ids.idxOf id)) ∈ ids.zipIdx.map fun entry => (entry.1,some entry.2) :=
    List.mem_map.mpr ⟨(id,ids.idxOf id),List.mem_zipIdx_iff_getElem?.mpr (List.getElem?_idxOf member),
      rfl⟩
  rw [entries]
  exact written_mem (by rw [keys]; exact distinct) present (by simpa using inside id member)

theorem idxOf_id {records : List Record} {r : Record} (distinct : (records.map Record.id).Nodup)
    (member : r ∈ records) : (records.map Record.id).idxOf r.id = records.idxOf r := by
  have place : (records.map Record.id)[records.idxOf r]? = some r.id := by
    rw [List.getElem?_map,List.getElem?_idxOf member]
    rfl
  obtain ⟨inside,here⟩ := List.getElem?_eq_some_iff.mp place
  rw [← here]
  exact distinct.idxOf_getElem _ inside

section Merging

variable {starts : Array Nat} {value : Nat → Nat} {length position i k fuel : Nat}

theorem advance_eq (reads : ∀ j < length, starts[j]? = some (value j))
    (turns : Turns value length position (k + 1)) (closed : k + 1 < length) (reached : i ≤ k)
    (enough : k < i + fuel) : advance starts position fuel i = .ok k := by
  induction fuel generalizing i with
  | zero => omega
  | succ fuel ih =>
    have next : Checked.found starts[i + 1]? = .ok (value (i + 1)) := by
      rw [reads (i + 1) (by omega)]
      rfl
    rw [advance,next,Checked.ok_bind]
    rcases Nat.lt_or_eq_of_le reached with less | rfl
    · rw [if_pos (turns.front (i + 1) (by omega))]
      exact ih less (by omega)
    · have beyond := turns.rear (i + 1) (Nat.le_refl _) closed
      rw [if_neg (Nat.not_le.mpr beyond)]
      rfl

variable {store : Store} {n : Nat} {pairs : List Pair} {records : List Record}
variable {ranks : Array (Option Nat)} {rank : Record → Nat}

theorem rowAt_mono {x y : Nat} (le : x ≤ y) : rowAt pairs x ≤ rowAt pairs y := by
  have more : pairs.countP (fun v => v.p ≤ x) ≤ pairs.countP (fun v => v.p ≤ y) :=
    List.countP_mono_left fun v _ below => by
      simp only [decide_eq_true_eq] at below ⊢
      omega
  unfold rowAt
  omega

/-- The walk along records in tree order writes for each of them what its pair asks for. -/
theorem locate_eq (valid : Valid n pairs) (small : n < store.width.limit)
    (sorted : records.Pairwise fun r s => r.q ≤ s.q)
    (known : ∀ r ∈ records, store.q r.id = .ok r.q) (inside : ∀ r ∈ records, r.q < n)
    (reached : ∀ r ∈ records, i ≤ rowAt pairs r.q) {indices offsets : Array Nat}
    (ranked : ∀ r ∈ records, ranks[r.id]? = some (some (rank r)) ∧ rank r < indices.size) :
    locate store ((pairs.map Pair.p).toArray.push n) ranks (records.map Record.id) i indices offsets =
      .ok (written (records.map fun r => (rank r,rowAt pairs r.q)) indices,
        written (records.map fun r => (rank r,offsetAt pairs r.q)) offsets) := by
  have closing : (pairs.map Pair.p).toArray.push n = (pairs.map Pair.p ++ [n]).toArray := by simp
  have few := valid.length_le
  rw [closing]
  -- output starts come in order, so the search for a row goes on where the last one ended
  induction records generalizing i indices offsets with
  | nil => rfl
  | cons r rest ih =>
    obtain ⟨head,tail⟩ := List.pairwise_cons.mp sorted
    obtain ⟨place,row⟩ := ranked r (by simp)
    have within := rowAt_lt valid r.q
    have size : (pairs.map Pair.p ++ [n]).length = pairs.length + 1 := by simp
    have reads : ∀ j < pairs.length + 1, (pairs.map Pair.p ++ [n]).toArray[j]? =
        some ((pairs.map Pair.p ++ [n]).getD j 0) := by
      intro j below
      rw [List.getElem?_toArray,List.getD_eq_getElem?_getD,
        List.getElem?_eq_getElem (size ▸ below)]
      rfl
    have found := @advance_eq _ _ _ r.q i (rowAt pairs r.q) (pairs.length + 1 + 1) reads
      (turns_closed valid (inside r (by simp))) (by omega) (reached r (by simp)) (by omega)
    have start : (pairs.map Pair.p ++ [n]).getD (rowAt pairs r.q) 0 =
        (pairs.map Pair.p).getD (rowAt pairs r.q) 0 := by
      rw [List.getD_eq_getElem?_getD,List.getElem?_append_left (by simpa using within),
        List.getD_eq_getElem?_getD]
    have offset : Checked.sub r.q ((pairs.map Pair.p).getD (rowAt pairs r.q) 0) =
        .ok (offsetAt pairs r.q) := Checked.sub_of_le (startAt_le valid r.q)
    have index : index store.width (rowAt pairs r.q) = .ok (rowAt pairs r.q) := if_pos (by omega)
    have others := @ih (rowAt pairs r.q) tail (fun s member => known s (by simp [member]))
      (fun s member => inside s (by simp [member]))
      (fun s member => rowAt_mono (head s member)) (indices.setIfInBounds (rank r) (rowAt pairs r.q))
      (offsets.setIfInBounds (rank r) (offsetAt pairs r.q))
      (fun s member => by simpa using ranked s (by simp [member]))
    rw [List.map_cons,locate,known r (by simp),lift_ok,Checked.ok_bind,List.size_toArray,size,found,
      lift_ok,Checked.ok_bind,place]
    simp only [Checked.found,lift_ok,Checked.ok_bind,index,Checked.require,row,decide_true,if_true,
      reads _ (Nat.lt_succ_of_lt within),start,offset,others]
    rfl

end Merging

section Tables

variable {store : Store} {inputs outputs : List Record}

theorem ofStore_eq (whole : store.Whole inputs outputs) :
    ofStore store = .ok (tabulate store.width store.stop (inputs.map Record.pair)) := by
  have sound := whole.sound
  have holds := whole.holds
  have fewShown := holds.tree.length_le
  rw [List.length_map] at fewShown
  have shown : store.tree.firstIds store.arena (store.arena.size + 1) =
      .ok (outputs.map Record.id) := by
    rw [holds.tree.firstIds,List.take_of_length_le (by rw [List.length_map]; omega)]
  have length : store.list.length = inputs.length := by
    rw [holds.list.length,List.length_map]
  have ranked : ∀ r ∈ outputs, (rankOf store.arena.size (inputs.map Record.id))[r.id]? =
      some (some (inputs.idxOf r)) ∧ inputs.idxOf r < (Array.replicate inputs.length 0).size := by
    intro r member
    have listed := whole.same.mem_iff.mpr member
    constructor
    · rw [← idxOf_id holds.list.distinct listed]
      refine rankOf_eq holds.list.distinct (fun id present => ?_) (List.mem_map_of_mem listed)
      obtain ⟨s,known,rfl⟩ := List.mem_map.mp present
      exact holds.lt_size (Or.inl known)
    · rw [Array.size_replicate]
      exact List.idxOf_lt_length_iff.mpr listed
  have located := @locate_eq 0 store store.stop (inputs.map Record.pair) outputs
    (rankOf store.arena.size (inputs.map Record.id)) (fun r => inputs.idxOf r) whole.valid whole.small
    whole.ordered (fun r member => holds.q (Or.inr member)) sound.outputBelow
    (fun r _ => Nat.zero_le _) (Array.replicate inputs.length 0) (Array.replicate inputs.length 0)
    ranked
  have all := fun value : Record → Nat => @written_all Record Nat _ inputs outputs whole.same
    holds.inputs_nodup value (Array.replicate inputs.length 0) Array.size_replicate
  simp only [ofStore,holds.inputIds,holds.pairs,lift_ok,Checked.ok_bind,shown,length]
  rw [located,all fun r => rowAt (inputs.map Record.pair) r.q,
    all fun r => offsetAt (inputs.map Record.pair) r.q]
  simp [Checked.require,fewShown,tabulate,Function.comp_def,Record.q]

theorem ofStore_encodes (whole : store.Whole inputs outputs) :
    ∃ table, ofStore store = .ok table ∧ table.width = store.width ∧
      table.Encodes store.stop (inputs.map Record.pair) :=
  ⟨_,ofStore_eq whole,rfl,tabulate_encodes _ _ _⟩

/-- The merge along both orders of a store and the searches for its pairs give one table. -/
theorem encodings_agree (whole : store.Whole inputs outputs) : ∃ pairs table,
    store.pairs = .ok pairs ∧ ofStore store = .ok table ∧
      ofPairs store.width store.stop pairs = .ok table :=
  ⟨_,_,whole.holds.pairs,ofStore_eq whole,ofPairs_eq whole.valid whole.small⟩

/-- Three runs, each moved to where another one ends. -/
def rotation : List Pair := [⟨0,13⟩,⟨7,0⟩,⟨14,7⟩]

theorem rotation_accepted : validate .w8 20 rotation = .ok () :=
  (validate_iff (by decide)).mpr (by decide)

theorem rotation_encodings : ∃ store table, Store.load .w8 20 rotation = .ok store ∧
    ofStore store = .ok table ∧ ofPairs .w8 20 rotation = .ok table ∧
    table.indices = #[1,0,1] ∧ table.offsets = #[6,0,0] := by
  obtain ⟨store,inputs,outputs,loaded,whole,width,stop,given⟩ :=
    load_whole (by decide) rotation_accepted
  obtain ⟨pairs,table,shown,merged,searched⟩ := encodings_agree whole
  obtain rfl : rotation = pairs := given ▸ Except.ok.inj (whole.holds.pairs.symm.trans shown)
  rw [width,stop] at searched
  obtain rfl := Except.ok.inj ((ofPairs_eq (by decide) (by decide)).symm.trans searched)
  exact ⟨store,_,loaded,merged,searched,by decide,by decide⟩

end Tables

end BalancedMove.MoveTable
