import BalancedMove.Construction
import BalancedMove.Proofs.MoveTable.Map
import BalancedMove.Proofs.MoveTable.OfStore
import BalancedMove.Proofs.Pairs.Lengths
import BalancedMove.Proofs.Store.Check

/-! Stores with bounded interval lengths. All nodes are in the tree at any time; a node is in the list of
the store, in the chain of the pair that is being cut, or still to be linked. A piece takes the rear part
off the output interval of the piece in front of it and no other, so a pair that is still to be linked
has all of its interval, whatever has been cut before it. -/
namespace BalancedMove

namespace Store

open Sequence BalancedMove.Interval

/-- A chain beside the list, and records that are in neither. The tree shows all of them. -/
structure Cutting (store : Store) (chain : LinkedList) (inputs pieces pending outputs : List Record) :
    Prop where
  holds : store.Holds inputs outputs
  chained : chain.Holds store.arena (pieces.map Record.id)
  same : (inputs ++ (pieces ++ pending)).Perm outputs
  ordered : Increasing Record.q outputs
  below : ∀ r ∈ outputs, r.q < store.stop

variable {store : Store} {chain : LinkedList} {inputs pieces pending outputs : List Record}
variable {old new r : Record} {bound n : Nat} {pairs : List Pair}

section Steps

theorem Cutting.distinct (cutting : Cutting store chain inputs pieces pending outputs) :
    ((inputs ++ (pieces ++ pending)).map Record.id).Nodup :=
  (cutting.same.map Record.id).nodup_iff.mpr cutting.holds.tree.distinct

theorem Cutting.isEnd (cutting : Cutting store chain inputs pieces pending outputs)
    (shown : r ∈ outputs) : IsEnd Record.q store.stop outputs r.q (endOf Record.q store.stop outputs r) :=
  cutting.ordered.isEnd cutting.below shown

theorem Cutting.pushOnto (cutting : Cutting store chain inputs pieces (new :: pending) outputs) :
    ∃ linked after, store.pushOnto chain new.id = .ok (linked,after) ∧
      Cutting after linked inputs (pieces ++ [new]) pending outputs ∧ store.Keeps after := by
  have distinct := cutting.distinct
  simp only [List.map_append,List.map_cons] at distinct
  obtain ⟨_,rest,apart⟩ := List.nodup_append.mp distinct
  have absent : new.id ∉ pieces.map Record.id := fun inside =>
    (List.nodup_append.mp rest).2.2 new.id inside new.id (by simp) rfl
  have shown : new ∈ outputs := cutting.same.mem_iff.mp (by simp)
  obtain ⟨linked,arena,pushed,chained,only,others⟩ :=
    cutting.chained.pushBack absent (cutting.holds.lt_size (Or.inr shown))
  have beside : ∀ id ∈ inputs.map Record.id, id ∉ pieces.map Record.id ++ [new.id] := by
    intro id listed inside
    refine apart id listed id ?_ rfl
    simp only [List.mem_append,List.mem_singleton] at inside
    simpa using inside.imp_right Or.inl
  have listed := cutting.holds.list.congr fun id inside => others id (beside id inside)
  refine ⟨linked,{ store with arena },?_,
    ⟨cutting.holds.relink listed only fun s inside => cutting.holds.labelled s (Or.inl inside),
      by simpa using chained,by simpa using cutting.same,cutting.ordered,cutting.below⟩,⟨rfl,rfl,rfl⟩⟩
  simp only [Store.pushOnto,pushed,Checked.ok_bind]
  rfl

theorem Cutting.insertBehind (cutting : Cutting store chain inputs pieces pending outputs)
    (small : store.stop < store.width.limit) (shown : old ∈ outputs) (pair : Pair) (low : old.q < pair.q)
    (high : pair.q < endOf Record.q store.stop outputs old) :
    ∃ after, (store.withArena (store.arena.alloc pair).2).insertBehind store.arena.size old.id =
        .ok after ∧
      Cutting after chain inputs pieces ({ id := store.arena.size, pair } :: pending)
        (putBehind old { id := store.arena.size, pair } outputs) ∧ store.Keeps after := by
  let new : Record := { id := store.arena.size, pair }
  have unused : ∀ s ∈ outputs, s.id ≠ new.id := fun s member =>
    Nat.ne_of_lt (cutting.holds.lt_size (Or.inr member))
  have few : outputs.length ≤ Width.w128.limit := by
    have positions := cutting.ordered.length_le (fun s _ => Nat.zero_le s.q) cutting.below
    have wide := store.width.limit_le
    omega
  obtain ⟨after,inserted,holds,keeps,only⟩ := @Holds.insertBehind _ _ _ old new
    (cutting.holds.alloc pair) shown unused (store.label_alloc pair) few
  have total := (store.keeps_withArena _).trans keeps
  refine ⟨after,inserted,⟨holds,cutting.chained.congr fun id linked => ?_,?_,?_,?_⟩,total⟩
  · have inside := cutting.chained.chained.lt_size id linked
    exact (only.links id).trans ((Arena.linksOf_alloc _ _ _).trans (if_neg (Nat.ne_of_lt inside)))
  · have first : (inputs ++ (pieces ++ new :: pending)).Perm
        (new :: (inputs ++ (pieces ++ pending))) := by
      rw [← List.append_assoc,← List.append_assoc]
      exact List.perm_middle
    exact first.trans ((cutting.same.cons new).trans (putBehind_perm shown).symm)
  · exact cutting.ordered.putBehind cutting.below shown low high
  · rw [total.stop]
    exact below_putBehind cutting.below shown
      (Nat.lt_of_lt_of_le high (cutting.isEnd shown).inside)

theorem Cutting.cut (cutting : Cutting store chain inputs pieces pending outputs)
    (small : store.stop < store.width.limit) (linked : old ∈ pieces) (pair : Pair) (low : old.q < pair.q)
    (high : pair.q < endOf Record.q store.stop outputs old) :
    ∃ grown longer after shown,
      (store.withArena (store.arena.alloc pair).2).insertBehind store.arena.size old.id = .ok grown ∧
      grown.pushOnto chain store.arena.size = .ok (longer,after) ∧
      Cutting after longer inputs (pieces ++ [{ id := store.arena.size, pair }]) pending shown ∧
      store.Keeps after ∧
      endOf Record.q store.stop shown { id := store.arena.size, pair } =
        endOf Record.q store.stop outputs old ∧
      ∀ s ∈ pending, endOf Record.q store.stop shown s = endOf Record.q store.stop outputs s := by
  let new : Record := { id := store.arena.size, pair }
  have shownOld : old ∈ outputs := cutting.same.mem_iff.mp (by simp [linked])
  have fresh : ∀ s ∈ outputs, s ≠ new := fun s known same =>
    absurd (congrArg Record.id same) (Nat.ne_of_lt (cutting.holds.lt_size (Or.inr known)))
  obtain ⟨grown,inserted,waiting,growth⟩ := cutting.insertBehind small shownOld pair low high
  obtain ⟨longer,after,pushed,longerCutting,push⟩ := waiting.pushOnto
  have above : old.q < new.q := low
  have changed := fun s (known : s ∈ putBehind old new outputs) =>
    cutting.ordered.endOf_putBehind cutting.below shownOld above high known
  refine ⟨grown,longer,after,_,inserted,pushed,longerCutting,growth.trans push,?_,fun s waits => ?_⟩
  · exact (changed new ((mem_putBehind shownOld).mpr (Or.inl rfl))).trans
      ((if_neg (fresh old shownOld).symm).trans (if_pos rfl))
  · have known : s ∈ outputs := cutting.same.mem_iff.mp (by simp [waits])
    have notOld : s ≠ old := by
      rintro rfl
      have apart := (List.nodup_append.mp (List.nodup_append.mp cutting.distinct.of_map).2.1).2.2
      exact apart s linked s waits rfl
    rw [changed s ((mem_putBehind shownOld).mpr (Or.inr known)),if_neg notOld,if_neg (fresh s known)]

theorem Cutting.append (cutting : Cutting store chain inputs pieces pending outputs) :
    ∃ after, store.append chain = .ok after ∧
      Cutting after {} (inputs ++ pieces) [] pending outputs ∧ store.Keeps after := by
  have distinct := cutting.distinct
  rw [List.map_append,List.map_append] at distinct
  have apart : (inputs.map Record.id).Disjoint (pieces.map Record.id) := fun id first second =>
    (List.nodup_append.mp distinct).2.2 id first id (by simp [second]) rfl
  obtain ⟨list,arena,moved,listed,only,_⟩ := cutting.holds.list.concat cutting.chained apart
  have known : ∀ s ∈ inputs ++ pieces, store.arena.labelOf s.id = some s.label := by
    intro s inside
    refine cutting.holds.labelled s (Or.inr (cutting.same.mem_iff.mp ?_))
    rw [← List.append_assoc]
    exact List.mem_append_left pending inside
  refine ⟨{ store with list, arena },onList_ok ?_,
    ⟨cutting.holds.relink (by simpa using listed) only known,LinkedList.holds_empty _,
      by simpa using cutting.same,cutting.ordered,cutting.below⟩,⟨rfl,rfl,rfl⟩⟩
  simp only [moved,Checked.ok_bind]
  rfl

end Steps

section Loops

variable {interval : Interval} {m fuel : Nat}

theorem cutPieces_last (inside : m * bound < interval.length)
    (short : interval.length ≤ (m + 1) * bound) {id : NodeId} :
    cutPieces bound (interval.p + interval.length) interval.toPair (fuel + 1) store chain id
      (interval.p + m * bound) = .ok (chain,store) := by
  rw [Nat.succ_mul] at short
  rw [cutPieces,Checked.sub_of_le (by omega),Checked.ok_bind,if_pos (by omega)]
  rfl

/-- No number of a further piece leaves the width, since the piece begins inside the interval. -/
theorem cutPieces_more (further : (m + 1) * bound < interval.length)
    (fitsInput : interval.p + interval.length < store.width.limit)
    (fitsOutput : interval.q + interval.length < store.width.limit) {id : NodeId}
    {grown after : Store} {longer : LinkedList}
    (inserted : (store.withArena (store.arena.alloc (piece bound interval.toPair (m + 1))).2).insertBehind
      store.arena.size id = .ok grown)
    (pushed : grown.pushOnto chain store.arena.size = .ok (longer,after)) :
    cutPieces bound (interval.p + interval.length) interval.toPair (fuel + 1) store chain id
        (interval.p + m * bound) =
      cutPieces bound (interval.p + interval.length) interval.toPair fuel after longer store.arena.size
        (interval.p + (m + 1) * bound) := by
  have step : interval.p + m * bound + bound = interval.p + (m + 1) * bound := by
    rw [Nat.succ_mul,Nat.add_assoc]
  have next : store.width.add (interval.p + m * bound) bound = .ok (interval.p + (m + 1) * bound) := by
    rw [Width.add_of_lt (by omega),step]
  have offset : Checked.sub (interval.p + (m + 1) * bound) interval.p = .ok ((m + 1) * bound) := by
    rw [Checked.sub_of_le (Nat.le_add_right _ _),Nat.add_sub_cancel_left]
  have target : store.width.add interval.q ((m + 1) * bound) =
      .ok (interval.q + (m + 1) * bound) := Width.add_of_lt (by omega)
  have allocated : store.alloc ⟨interval.p + (m + 1) * bound,interval.q + (m + 1) * bound⟩ =
      (store.arena.size,
        store.withArena (store.arena.alloc (piece bound interval.toPair (m + 1))).2) := rfl
  rw [cutPieces,Checked.sub_of_le (by omega),Checked.ok_bind,if_neg (by omega)]
  simp only [next,Checked.ok_bind,offset,target,allocated,inserted,pushed]

/-- The loop cuts off what is left of the pieces of a pair, and takes nothing from the records that
are still to be linked. -/
theorem cutPieces_eq (positive : 0 < bound) (small : store.stop < store.width.limit)
    (fits : interval.p + interval.length ≤ store.stop)
    (cutting : Cutting store chain inputs pieces pending outputs) (linked : old ∈ pieces)
    (isPiece : old.pair = piece bound interval.toPair m)
    (ends : endOf Record.q store.stop outputs old = interval.q + interval.length)
    (started : m < pieceCount bound interval.length)
    (enough : pieceCount bound interval.length ≤ m + fuel) :
    ∃ cutOff after more shown,
      cutPieces bound (interval.p + interval.length) interval.toPair fuel store chain old.id
        (interval.p + m * bound) = .ok (cutOff,after) ∧
      Cutting after cutOff inputs (pieces ++ more) pending shown ∧ store.Keeps after ∧
      more.map Record.pair = (List.range' (m + 1) (pieceCount bound interval.length - (m + 1))).map
        (piece bound interval.toPair) ∧
      ∀ s ∈ pending, endOf Record.q store.stop shown s = endOf Record.q store.stop outputs s := by
  induction fuel generalizing store chain pieces outputs old m with
  | zero => omega
  | succ fuel ih =>
    have inside := (lt_pieceCount positive).mp started
    -- the loop goes on as long as another piece begins inside the interval
    by_cases further : (m + 1) * bound < interval.length
    · have counted : m + 1 < pieceCount bound interval.length := (lt_pieceCount positive).mpr further
      have startQ : old.q = interval.q + m * bound := congrArg Pair.q isPiece
      have shownOld : old ∈ outputs := cutting.same.mem_iff.mp (by simp [linked])
      have reached := (cutting.isEnd shownOld).inside
      have low : old.q < (piece bound interval.toPair (m + 1)).q := by
        rw [startQ]
        exact Nat.add_lt_add_left (Nat.mul_lt_mul_of_pos_right (Nat.lt_succ_self m) positive) _
      have high : (piece bound interval.toPair (m + 1)).q < endOf Record.q store.stop outputs old := by
        rw [ends]
        exact Nat.add_lt_add_left further _
      obtain ⟨grown,longer,taken,arranged,inserted,pushed,cut,keeps,newEnd,others⟩ :=
        cutting.cut small linked (piece bound interval.toPair (m + 1)) low high
      rw [ends,← keeps.stop] at newEnd
      obtain ⟨cutOff,after,more,shown,rest,final,finalKeeps,cuts,uncut⟩ :=
        ih (by rw [keeps.stop,keeps.width]; exact small) (by rw [keeps.stop]; exact fits) cut
          (List.mem_append_right pieces (List.mem_singleton_self _)) rfl newEnd counted (by omega)
      refine ⟨cutOff,after,_ :: more,shown,?_,by simpa using final,keeps.trans finalKeeps,?_,?_⟩
      · rw [cutPieces_more further (by omega) (by omega) inserted pushed]
        exact rest
      · have count : pieceCount bound interval.length - (m + 1) =
            (pieceCount bound interval.length - (m + 1 + 1)) + 1 := by omega
        rw [List.map_cons,cuts,count,List.range'_succ,List.map_cons]
      · rw [keeps.stop] at uncut
        exact fun s waits => (uncut s waits).trans (others s waits)
    · have all : pieceCount bound interval.length - (m + 1) = 0 := by
        have := mt (lt_pieceCount positive).mp further
        omega
      refine ⟨chain,store,[],outputs,cutPieces_last inside (Nat.le_of_not_lt further),
        by simpa using cutting,.refl store,?_,fun s _ => rfl⟩
      rw [all]
      rfl

def recordOf (entry : Interval × NodeId) : Record := { id := entry.2, pair := entry.1.toPair }

structure Uncut (store : Store) (outputs : List Record) (entry : Interval × NodeId) : Prop where
  filled : 0 < entry.1.length
  fits : entry.1.p + entry.1.length ≤ store.stop
  ends : endOf Record.q store.stop outputs (recordOf entry) = entry.1.q + entry.1.length

variable {entry : Interval × NodeId} {entries : List (Interval × NodeId)}

theorem cutToLength_eq (positive : 0 < bound) (small : store.stop < store.width.limit)
    (cutting : Cutting store {} inputs [] (recordOf entry :: pending) outputs)
    (uncut : Uncut store outputs entry) :
    ∃ after more shown, cutToLength bound store entry.2 entry.1 = .ok after ∧
      Cutting after {} (inputs ++ more) [] pending shown ∧ store.Keeps after ∧
      more.map Record.pair = entry.1.pieces bound ∧
      ∀ s ∈ pending, endOf Record.q store.stop shown s = endOf Record.q store.stop outputs s := by
  obtain ⟨filled,fits,ends⟩ := uncut
  have some : 0 < pieceCount bound entry.1.length := (lt_pieceCount positive).mpr (by simpa using filled)
  have few : pieceCount bound entry.1.length ≤ 0 + (entry.1.length + 1) := by
    rw [Nat.zero_add]
    exact Nat.le_succ_of_le (pieceCount_le positive)
  have stop : store.width.add entry.1.p entry.1.length = .ok (entry.1.p + entry.1.length) :=
    Width.add_of_lt (Nat.lt_of_le_of_lt fits small)
  obtain ⟨chain,begun,pushed,first,push⟩ := cutting.pushOnto
  rw [← push.stop] at ends fits small
  rw [← push.width] at small
  have member : recordOf entry ∈ [] ++ [recordOf entry] := by simp
  have isPiece : (recordOf entry).pair = piece bound entry.1.toPair 0 := by simp [recordOf,piece]
  obtain ⟨cutOff,cut,more,shown,looped,done,loop,cuts,others⟩ :=
    cutPieces_eq positive small fits first member isPiece ends some few
  obtain ⟨after,moved,final,move⟩ := done.append
  refine ⟨after,recordOf entry :: more,shown,?_,by simpa using final,push.trans (loop.trans move),?_,?_⟩
  · have begins : store.pushOnto {} entry.2 = .ok (chain,begun) := pushed
    have ran : cutPieces bound (entry.1.p + entry.1.length) entry.1.toPair (entry.1.length + 1) begun
        chain entry.2 entry.1.p = .ok (cutOff,cut) := by simpa [recordOf] using looped
    simp only [cutToLength,stop,Checked.ok_bind,begins,ran,moved]
  · obtain ⟨rest,count⟩ := Nat.exists_eq_succ_of_ne_zero (Nat.ne_of_gt some)
    rw [List.map_cons,cuts,isPiece,Interval.pieces,List.range_eq_range',count,List.range'_succ]
    rfl
  · rw [push.stop] at others
    exact others

theorem cutAll_eq (positive : 0 < bound) (small : store.stop < store.width.limit)
    (cutting : Cutting store {} inputs [] (entries.map recordOf) outputs)
    (uncut : ∀ entry ∈ entries, Uncut store outputs entry) :
    ∃ after more shown,
      (entries.foldlM (fun store entry => cutToLength bound store entry.2 entry.1) store :
        Outcome Store) = .ok after ∧
      Cutting after {} (inputs ++ more) [] [] shown ∧ store.Keeps after ∧
      more.map Record.pair = entries.flatMap fun entry => entry.1.pieces bound := by
  induction entries generalizing store inputs outputs with
  | nil => exact ⟨store,[],outputs,rfl,by simpa using cutting,.refl store,rfl⟩
  | cons entry entries ih =>
    obtain ⟨begun,pieces,shown,first,begunCutting,begin,cuts,others⟩ :=
      cutToLength_eq positive small cutting (uncut entry (by simp))
    have left : ∀ later ∈ entries, Uncut begun shown later := by
      intro later member
      obtain ⟨filled,fits,ends⟩ := uncut later (by simp [member])
      have same := others (recordOf later) (List.mem_map_of_mem member)
      refine ⟨filled,?_,?_⟩
      · rw [begin.stop]
        exact fits
      · rw [begin.stop,same,ends]
    obtain ⟨after,more,final,rest,cutting,keeps,following⟩ :=
      ih (by rw [begin.stop,begin.width]; exact small) begunCutting left
    refine ⟨after,pieces ++ more,final,?_,by simpa using cutting,begin.trans keeps,?_⟩
    · rw [List.foldlM_cons,first,lift_ok,Checked.ok_bind]
      exact rest
    · rw [List.map_append,cuts,following,List.flatMap_cons]

end Loops

section Loading

theorem allocAll_eq (holds : store.Holds inputs outputs) {records : List Record}
    (known : ∀ s ∈ records, store.arena.labelOf s.id = some s.label) (pairs : List Pair) :
    (store.allocAll pairs).Holds inputs outputs ∧ store.Keeps (store.allocAll pairs) ∧
      ∀ s ∈ records ++ numbered store.arena.size pairs,
        (store.allocAll pairs).arena.labelOf s.id = some s.label := by
  -- the records of nodes allocated so far are carried along, since none of them is linked yet
  induction pairs generalizing store records with
  | nil => exact ⟨holds,.refl store,by simpa [numbered,allocAll] using known⟩
  | cons pair pairs ih =>
    have grown : ∀ s ∈ records ++ [{ id := store.arena.size, pair }],
        (store.withArena (store.arena.alloc pair).2).arena.labelOf s.id = some s.label := by
      intro s member
      rcases List.mem_append.mp member with before | isNew
      · have inside := Arena.lt_of_label (known s before)
        exact (Arena.labelOf_alloc _ _ _).trans
          ((if_neg (Nat.ne_of_lt inside)).trans (known s before))
      · obtain rfl := List.mem_singleton.mp isNew
        exact store.label_alloc pair
    obtain ⟨after,keeps,labels⟩ := ih (holds.alloc pair) grown
    refine ⟨after,(store.keeps_withArena _).trans keeps,fun s member => labels s ?_⟩
    rw [store.size_alloc pair]
    simpa [numbered_cons] using member

def measuredPairs (n : Nat) (pairs : List Pair) : List (Interval × NodeId) :=
  (pairs.map (intervalOf n pairs)).zipIdx

theorem map_recordOf (n : Nat) (pairs : List Pair) :
    (measuredPairs n pairs).map recordOf = numbered 0 pairs := by
  rw [measuredPairs,List.zipIdx_map,List.map_map]
  rfl

theorem flatMap_measuredPairs (bound n : Nat) (pairs : List Pair) :
    ((measuredPairs n pairs).flatMap fun entry => entry.1.pieces bound) = cutPairs bound n pairs := by
  have firsts : (measuredPairs n pairs).map Prod.fst = pairs.map (intervalOf n pairs) :=
    List.zipIdx_map_fst 0 _
  rw [← List.flatMap_map Prod.fst (Interval.pieces bound),firsts,List.flatMap_map,cutPairs]

theorem uncut_numbered (valid : Valid store.stop pairs) : ∀ entry ∈ measuredPairs store.stop pairs,
    Uncut store (numberedByOutput pairs) entry := by
  intro entry member
  have listed : recordOf entry ∈ numbered 0 pairs :=
    map_recordOf store.stop pairs ▸ List.mem_map_of_mem member
  rw [measuredPairs,List.zipIdx_map] at member
  obtain ⟨⟨v,i⟩,place,rfl⟩ := List.mem_map.mp member
  have known : v ∈ pairs := List.fst_mem_of_mem_zipIdx place
  have interval := (sound_numbered valid).interval listed ((numberedByOutput_perm pairs).mem_iff.mp listed)
  rw [map_pair_numbered] at interval
  have own := valid.sorted.isEnd valid.below known
  have above := own.above
  have inside := own.inside
  refine ⟨intervalOf_pos valid.sorted valid.below known,?_,interval.symm⟩
  simp only [Prod.map,intervalOf]
  omega

theorem exists_planted {width : Width} (small : n < width.limit) (valid : Valid n pairs) :
    ∃ planted, (allocAll { width, start := 0, stop := n } pairs).buildTree (outputOrder pairs) =
        .ok planted ∧
      Cutting planted {} [] [] (numbered 0 pairs) (numberedByOutput pairs) ∧
      ({ width, start := 0, stop := n } : Store).Keeps planted := by
  have sound := sound_numbered valid
  have same := numberedByOutput_perm pairs
  have distinct : ((numbered 0 pairs).map Record.id).Nodup := by
    rw [map_id_numbered]
    exact List.nodup_range'
  obtain ⟨holds,alloc,labels⟩ := @allocAll_eq _ _ _ (@holds_empty width 0 n) [] (by simp) pairs
  obtain ⟨planted,built,treeHolds,plant,_⟩ := @Holds.buildTree _ _ _ holds (numberedByOutput pairs)
    (fun s member => labels s (same.mem_iff.mpr member)) ((same.map Record.id).nodup_iff.mp distinct)
    (numberedByOutput_few small valid)
  have keeps := alloc.trans plant
  have below : ∀ s ∈ numberedByOutput pairs, s.q < planted.stop := by
    rw [keeps.stop]
    exact sound.outputBelow
  rw [← outputOrder_eq] at built
  exact ⟨planted,built,⟨treeHolds,LinkedList.holds_empty _,same,sound.outputSorted,below⟩,keeps⟩

theorem loadBounded_whole {width : Width} (small : n < width.limit)
    (accepted : validate width n pairs = .ok ()) (positive : 0 < bound) :
    ∃ store inputs outputs, loadBounded width n pairs bound = .ok store ∧ store.Whole inputs outputs ∧
      store.width = width ∧ store.stop = n ∧ inputs.map Record.pair = cutPairs bound n pairs := by
  have valid := (validate_iff small).mp accepted
  obtain ⟨planted,built,begun,keeps⟩ := exists_planted small valid
  obtain rfl : planted.stop = n := keeps.stop
  rw [← map_recordOf planted.stop] at begun
  obtain ⟨after,inputs,outputs,loaded,cutting,cut,pieces⟩ :=
    cutAll_eq positive (by rw [keeps.width]; exact small) begun (uncut_numbered valid)
  have total := keeps.trans cut
  have cuts : inputs.map Record.pair = cutPairs bound planted.stop pairs :=
    pieces.trans (flatMap_measuredPairs bound planted.stop pairs)
  refine ⟨after,inputs,outputs,?_,⟨cutting.holds,?_,Increasing.weaken cutting.ordered,?_,?_,?_⟩,
    total.width,cut.stop,cuts⟩
  · simp only [loadBounded,if_neg (Nat.ne_of_gt positive),built,lift_ok,Checked.ok_bind,
      intervals_eq valid.sorted valid.below]
    exact loaded
  · simpa using cutting.same
  · exact total.start
  · rw [total.width,cut.stop]
    exact small
  · rw [cuts,total.width,cut.stop]
    exact (validate_iff small).mpr ((cutPairs_refines positive valid).valid valid)

end Loading

end Store

namespace Construction

open Sequence Store

/-- What cutting to a length makes of accepted pairs: a store that shows all pieces in both orders, and
a table of it. -/
structure Bounded (construction : Construction) (bound : Nat) (store : Store) (table : MoveTable) :
    Prop where
  stored : Store.bounded construction.width construction.n construction.pairs bound = .ok store
  pieces : ∃ measured, intervals construction.n construction.pairs = .ok measured ∧
    store.pairs = .ok (measured.flatMap (Interval.pieces bound))
  nodes : ∃ listed shown, store.inputIds = .ok listed ∧ store.outputIds = .ok shown ∧
    listed.Nodup ∧ listed.Perm shown
  ordered : ∃ arranged, store.outputPairs = .ok arranged ∧ Increasing Pair.q arranged
  checked : store.tree.check store.arena = .ok true ∧ store.check = .ok true
  built : construction.buildBounded bound = .ok table
  short : ∀ i < table.size, ∃ length, table.length i = .ok length ∧ length ≤ bound
  mapped : ∀ x < construction.n, table.map x = .ok (image construction.pairs x)

variable {construction : Construction} {bound : Nat}

theorem length_short {table : MoveTable} {n i : Nat} {pairs : List Pair} (positive : 0 < bound)
    (valid : Valid n pairs) (encodes : table.Encodes n (cutPairs bound n pairs)) (inside : i < table.size) :
    ∃ length, table.length i = .ok length ∧ length ≤ bound := by
  rw [encodes.size] at inside
  have row := List.getElem?_eq_getElem inside
  have short := cutPairs_short positive valid (List.mem_of_getElem? row)
  exact ⟨_,encodes.length_eq ((cutPairs_refines positive valid).valid valid) row,by omega⟩

theorem exists_bounded (small : construction.n < construction.width.limit)
    (accepted : validate construction.width construction.n construction.pairs = .ok ())
    (positive : 0 < bound) : ∃ store table, construction.Bounded bound store table := by
  obtain ⟨width,n,pairs,parameters⟩ := construction
  have valid := (validate_iff small).mp accepted
  have refines := cutPairs_refines positive valid
  obtain ⟨store,inputs,outputs,loaded,whole,isWidth,stop,cuts⟩ := loadBounded_whole small accepted positive
  obtain ⟨table,encoded,tableWidth,encodes⟩ := MoveTable.ofStore_encodes whole
  subst stop
  rw [cuts] at encodes
  have stored : Store.bounded width store.stop pairs bound = .ok store := by
    rw [Store.bounded,accepted,Checked.ok_bind,loaded]
  have sorted := whole.sound.outputSorted
  refine ⟨store,table,stored,⟨_,intervals_eq valid.sorted valid.below,?_⟩,
    ⟨_,_,whole.holds.inputIds,whole.holds.outputIds,whole.holds.list.distinct,whole.same.map Record.id⟩,
    ⟨_,whole.holds.outputPairs,List.pairwise_map.mpr sorted⟩,⟨?_,whole.check_accepts⟩,?_,
    fun i inside => length_short positive valid encodes inside,fun x inside => ?_⟩
  · rw [whole.holds.pairs,cuts,List.flatMap_map,cutPairs]
  · exact whole.holds.tree.check whole.holds.keyed (whole.holds.key_pairwise (Increasing.weaken sorted))
  · rw [buildBounded,stored,Checked.ok_bind,encoded]
  · rw [encodes.map_eq (refines.valid valid) (by rw [tableWidth]; exact whole.small) inside,
      refines.image_eq valid inside]

/-- Accepted pairs can be cut to any length but zero. -/
theorem lengths_bounded (small : construction.n < construction.width.limit)
    (accepted : validate construction.width construction.n construction.pairs = .ok ()) :
    (∀ bound, 0 < bound → ∃ store table, construction.Bounded bound store table) ∧
      Store.bounded construction.width construction.n construction.pairs 0 = reject .lengthBound ∧
      construction.buildBounded 0 = reject .lengthBound := by
  have zero : Store.bounded construction.width construction.n construction.pairs 0 =
      reject .lengthBound := by
    rw [Store.bounded,accepted]
    rfl
  refine ⟨fun bound positive => exists_bounded small accepted positive,zero,?_⟩
  rw [buildBounded,zero]
  rfl

/-- Two runs that trade places in the largest domain of the width. The second one is two pieces long. -/
def trade : Construction := { width := .w8, n := 255, pairs := [⟨0,128⟩,⟨127,0⟩] }

theorem trade_bounded : (∃ store table, trade.Bounded 64 store table ∧
      store.pairs = .ok [⟨0,128⟩,⟨64,192⟩,⟨127,0⟩,⟨191,64⟩]) ∧
    trade.buildBounded 0 = reject .lengthBound := by
  have small : trade.n < trade.width.limit := by decide
  have accepted : validate trade.width trade.n trade.pairs = .ok () :=
    (validate_iff small).mpr (by decide)
  obtain ⟨bounded,_,rejected⟩ := lengths_bounded small accepted
  obtain ⟨store,table,result⟩ := bounded 64 (by decide)
  obtain ⟨measured,lengths,pairs⟩ := result.pieces
  obtain rfl := Except.ok.inj (lengths.symm.trans rfl)
  exact ⟨⟨store,table,result,pairs⟩,rejected⟩

end Construction

end BalancedMove
