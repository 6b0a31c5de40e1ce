import BalancedMove.Parallel.Assignment
import BalancedMove.Proofs.Balance.Alone
import BalancedMove.Proofs.Parallel.Pieces
import BalancedMove.Proofs.Parallel.Rounds

/-! The workers as they are assembled. Each piece is in the list of the owner of its input start and in
the tree of the owner of its output start, and the pieces that two workers share are numbered alike on
both sides. So the workers stand, each with its part of a permutation, and have told each other all. -/
namespace BalancedMove

open Sequence Store Balancer

section Numbers

variable {layout : Layout} {x t : Nat} {done rest pieces : List Piece} {piece : Piece}

def Layout.owner (layout : Layout) (x : Nat) : Nat :=
  match rangeOf layout.bounds x with
  | .ok t => t
  | .error _ => 0

theorem Layout.owner_eq (inside : t < layout.workers) (owns : layout.Owns t x) :
    layout.owner x = t := by
  rw [Layout.owner,Layout.rangeOf_eq inside owns]

theorem Layout.owner_owns (inside : x < layout.n) :
    layout.owner x < layout.workers ∧ layout.Owns (layout.owner x) x ∧
      rangeOf layout.bounds x = .ok (layout.owner x) := by
  obtain ⟨t,bounded,owns⟩ := Layout.owns_exists inside
  rw [Layout.owner_eq bounded owns]
  exact ⟨bounded,owns,Layout.rangeOf_eq bounded owns⟩

/-- The pieces with output start in one range and input start in another. -/
def sharedBy (layout : Layout) (pieces : List Piece) (src dst : Nat) : List Piece :=
  if src = dst then [] else pieces.filter fun piece =>
    layout.owner piece.pair.q == src && layout.owner piece.pair.p == dst

def listedBy (layout : Layout) (pieces : List Piece) (t : Nat) : List Piece :=
  pieces.filter fun piece => layout.owner piece.pair.p == t

def assignment (layout : Layout) (done : List Piece) (piece : Piece) : Assignment where
  piece := piece
  inputOwner := layout.owner piece.pair.p
  outputOwner := layout.owner piece.pair.q
  place := (listedBy layout done (layout.owner piece.pair.p)).length
  number := if layout.owner piece.pair.p = layout.owner piece.pair.q then none
    else some (sharedBy layout done (layout.owner piece.pair.q) (layout.owner piece.pair.p)).length

def assigned (layout : Layout) : List Piece → List Piece → List Assignment
  | _, [] => []
  | done, piece :: rest => assignment layout done piece :: assigned layout (done ++ [piece]) rest

structure Counted (layout : Layout) (done : List Piece) (numbering : Numbering) : Prop where
  places : ∀ t < layout.workers, numbering.places[t]? = some (listedBy layout done t).length
  numbers : ∀ src < layout.workers, ∃ row, numbering.numbers[src]? = some row ∧
    ∀ dst < layout.workers, row[dst]? = some (sharedBy layout done src dst).length

theorem listedBy_append : listedBy layout (done ++ rest) t =
    listedBy layout done t ++ listedBy layout rest t := List.filter_append _ _

theorem sharedBy_append {src dst : Nat} : sharedBy layout (done ++ rest) src dst =
    sharedBy layout done src dst ++ sharedBy layout rest src dst := by
  unfold sharedBy
  split
  · rfl
  · exact List.filter_append _ _

theorem counted_start : Counted layout [] (.start layout.workers) := by
  have none : ∀ src dst, sharedBy layout [] src dst = [] := fun src dst => by
    unfold sharedBy
    split <;> rfl
  refine ⟨?_,?_⟩
  · intro t inside
    simp [Numbering.start,inside,listedBy]
  · intro src sender
    refine ⟨Array.replicate layout.workers 0,by simp [Numbering.start,sender],?_⟩
    intro dst receiver
    simp [receiver,none]

theorem assign_eq {numbering : Numbering} (counted : Counted layout done numbering)
    (input : piece.pair.p < layout.n) (output : piece.pair.q < layout.n) :
    ∃ after, numbering.assign layout.bounds piece = .ok (assignment layout done piece,after) ∧
      Counted layout (done ++ [piece]) after := by
  obtain ⟨places,numbers⟩ := numbering
  obtain ⟨inside,_,inputOwner⟩ := Layout.owner_owns input
  obtain ⟨bounded,_,outputOwner⟩ := Layout.owner_owns output
  have place := counted.places _ inside
  obtain ⟨row,rowPlace,counts⟩ := counted.numbers _ bounded
  have number := counts _ inside
  have newPlaces : ∀ t < layout.workers,
      (places.modify (layout.owner piece.pair.p) (· + 1))[t]? =
        some (listedBy layout (done ++ [piece]) t).length := by
    intro t known
    have before := counted.places t known
    simp only at before
    rw [listedBy_append,Array.getElem?_modify]
    by_cases same : layout.owner piece.pair.p = t
    · simp [same,before,listedBy]
    · simp [same,before,listedBy]
  simp only at place rowPlace
  -- a piece that stays within one range gets a place and no number
  by_cases same : layout.owner piece.pair.p = layout.owner piece.pair.q
  · refine ⟨⟨places.modify (layout.owner piece.pair.p) (· + 1),numbers⟩,?_,newPlaces,?_⟩
    · rw [same] at place
      simp [Numbering.assign,inputOwner,outputOwner,place,Checked.found,same,assignment]
    · intro src sender
      obtain ⟨row,found,before⟩ := counted.numbers src sender
      refine ⟨row,found,fun dst receiver => ?_⟩
      rw [before dst receiver,sharedBy_append]
      by_cases own : src = dst
      · simp [sharedBy,own]
      · have apart : ¬ (layout.owner piece.pair.q = src ∧ layout.owner piece.pair.p = dst) :=
          fun both => own (both.1.symm.trans (same.symm.trans both.2))
        simp [sharedBy,own,apart]
  · refine ⟨⟨places.modify (layout.owner piece.pair.p) (· + 1),
      numbers.modify (layout.owner piece.pair.q) fun shared =>
        shared.modify (layout.owner piece.pair.p) (· + 1)⟩,?_,newPlaces,?_⟩
    · simp [Numbering.assign,inputOwner,outputOwner,place,rowPlace,number,Checked.found,same,
        assignment]
    · intro src sender
      obtain ⟨row,found,before⟩ := counted.numbers src sender
      simp only at found
      by_cases mine : layout.owner piece.pair.q = src
      · refine ⟨row.modify (layout.owner piece.pair.p) (· + 1),?_,fun dst receiver => ?_⟩
        · simp [Array.getElem?_modify,mine,found]
        · rw [Array.getElem?_modify,before dst receiver,sharedBy_append]
          by_cases here : layout.owner piece.pair.p = dst
          · have differ : src ≠ dst := fun equal => same (here.trans (equal.symm.trans mine.symm))
            simp [sharedBy,here,mine,differ]
          · by_cases own : src = dst <;> simp [sharedBy,here,own]
      · refine ⟨row,?_,fun dst receiver => ?_⟩
        · simp [Array.getElem?_modify,mine,found]
        · rw [before dst receiver,sharedBy_append]
          by_cases own : src = dst <;> simp [sharedBy,mine,own]

theorem assignAll_eq {numbering : Numbering} (counted : Counted layout done numbering)
    (inside : ∀ piece ∈ rest, piece.pair.p < layout.n ∧ piece.pair.q < layout.n) :
    ∃ after, Numbering.assignAll layout.bounds numbering rest =
        .ok (assigned layout done rest,after) ∧ Counted layout (done ++ rest) after := by
  induction rest generalizing done numbering with
  | nil =>
    refine ⟨numbering,rfl,?_⟩
    rwa [List.append_nil]
  | cons piece rest ih =>
    have own := inside piece (by simp)
    obtain ⟨middle,first,next⟩ := assign_eq counted own.1 own.2
    obtain ⟨after,others,last⟩ := ih next fun other member => inside other (by simp [member])
    refine ⟨after,?_,?_⟩
    · simp [Numbering.assignAll,first,others,assigned]
    · simpa using last

theorem map_piece_assigned (done rest : List Piece) :
    (assigned layout done rest).map Assignment.piece = rest := by
  induction rest generalizing done with
  | nil => rfl
  | cons piece rest ih => rw [assigned,List.map_cons,ih]; rfl

theorem mem_assigned {a : Assignment} (member : a ∈ assigned layout done rest) :
    ∃ before after, rest = before ++ a.piece :: after ∧
      a = assignment layout (done ++ before) a.piece := by
  induction rest generalizing done with
  | nil => cases member
  | cons piece rest ih =>
    rcases List.mem_cons.mp member with rfl | behind
    · exact ⟨[],rest,rfl,by rw [List.append_nil]; rfl⟩
    · obtain ⟨before,after,place,same⟩ := ih behind
      refine ⟨piece :: before,after,by rw [place,List.cons_append],?_⟩
      rw [same,List.append_assoc]
      rfl

theorem assigned_mem (member : piece ∈ rest) :
    ∃ a ∈ assigned layout done rest, a.piece = piece := by
  rw [← @map_piece_assigned layout done rest] at member
  exact List.mem_map.mp member

theorem map_place_assigned (t : Nat) (done rest : List Piece) :
    ((assigned layout done rest).filter fun a => a.inputOwner == t).map Assignment.place =
      List.range' (listedBy layout done t).length (listedBy layout rest t).length := by
  induction rest generalizing done with
  | nil => rfl
  | cons piece rest ih =>
    have later := ih (done ++ [piece])
    rw [listedBy_append] at later
    by_cases mine : layout.owner piece.pair.p = t
    · have own : listedBy layout [piece] t = [piece] := by simp [listedBy,mine]
      have grown : listedBy layout (piece :: rest) t = piece :: listedBy layout rest t := by
        simp [listedBy,mine]
      rw [own,List.length_append,List.length_singleton] at later
      rw [assigned,List.filter_cons_of_pos (by simp [assignment,mine]),List.map_cons,later,grown,
        List.length_cons,List.range'_succ]
      simp [assignment,mine]
    · have own : listedBy layout [piece] t = [] := by simp [listedBy,mine]
      have same : listedBy layout (piece :: rest) t = listedBy layout rest t := by
        simp [listedBy,mine]
      rw [own,List.append_nil] at later
      rw [assigned,List.filter_cons_of_neg (by simp [assignment,mine]),later,same]

end Numbers

section Lists

variable {store : Store} {inputs outputs : List Record} {t : Nat}

def inputRecord (a : Assignment) : Record where
  id := a.place
  pair := a.piece.pair
  cut := a.piece.cut

theorem addInput_eq {records : Array (Array NodeId)} {a : Assignment}
    (holds : store.Holds inputs outputs) (tidy : store.Tidy outputs)
    (next : a.place = store.arena.size) :
    ∃ after, addInput t (store,records) a = .ok (after,if a.outputOwner = t then records
        else records.modify a.outputOwner (·.push a.place)) ∧
      after.Holds (inputs ++ [inputRecord a]) outputs ∧ after.Tidy outputs ∧ store.Keeps after ∧
      after.arena.size = store.arena.size + 1 := by
  let new : Record := { id := store.arena.size, pair := a.piece.pair }
  have unused : ∀ r, r ∈ inputs ∨ r ∈ outputs → r.id ≠ new.id := fun r present =>
    Nat.ne_of_lt (holds.lt_size present)
  obtain ⟨linked,pushed,linkedHolds,keeps,links⟩ := @Holds.pushBack _ _ _ new
    (holds.alloc a.piece.pair) (fun r member => unused r (Or.inl member))
    (store.label_alloc a.piece.pair)
  have size : linked.arena.size = store.arena.size + 1 := links.size.trans (store.size_alloc _)
  let change : Node → Node := fun node => { node with cut := a.piece.cut }
  have changed : linked.setCut new.id a.piece.cut =
      .ok (linked.withArena (linked.arena.put new.id change)) := by
    refine modify_ok ?_ change
    rw [size]
    exact Nat.lt_succ_self _
  have labels := fun id => @Arena.labelOf_put linked.arena new.id change
    (fun label => { label with cut := a.piece.cut }) (fun _ => rfl) id
  refine ⟨linked.withArena (linked.arena.put new.id change),?_,?_,?_,?_,?_⟩
  · have first : store.alloc a.piece.pair = (new.id,store.withArena (store.arena.alloc _).2) := rfl
    simp only [addInput,first,pushed,changed,Checked.ok_bind,next]
    split <;> rfl
  · refine linkedHolds.relabel (fun _ => rfl) (fun _ => rfl) ?_ rfl ?_
    · simp [inputRecord,next,new]
    · intro r present
      rw [List.mem_append,List.mem_singleton] at present
      rcases present with (before | rfl) | shown
      · rw [labels,if_neg (unused r (Or.inl before))]
        exact linkedHolds.labelled r (Or.inl (List.mem_append_left _ before))
      · have here : (inputRecord a).id = new.id := next
        rw [labels,if_pos here,here,linkedHolds.labelled new (Or.inl (by simp))]
        rfl
      · rw [labels,if_neg (unused r (Or.inr shown))]
        exact linkedHolds.labelled r (Or.inr shown)
  · exact ((tidy.alloc a.piece.pair).of_links links).relabel (fun _ => rfl) rfl
  · exact (store.keeps_withArena _).trans (keeps.trans (linked.keeps_withArena _))
  · exact (Arena.size_put _ _ _).trans size

theorem addInputs_eq {items : List Assignment} {records : Array (Array NodeId)}
    (holds : store.Holds inputs outputs) (tidy : store.Tidy outputs)
    (places : items.map Assignment.place = List.range' store.arena.size items.length) :
    ∃ after newRecords, items.foldlM (addInput t) (store,records) = .ok (after,newRecords) ∧
      after.Holds (inputs ++ items.map inputRecord) outputs ∧ after.Tidy outputs ∧
      store.Keeps after ∧ after.arena.size = store.arena.size + items.length ∧
      ∀ (src : Nat) ids, records[src]? = some ids → newRecords[src]? = some (ids ++
        ((items.filter fun a => a.outputOwner == src && a.outputOwner != t).map
          Assignment.place).toArray) := by
  induction items generalizing store inputs records with
  | nil => exact ⟨store,records,rfl,by simpa using holds,tidy,.refl store,rfl,by simp⟩
  | cons a rest ih =>
    rw [List.map_cons,List.length_cons,List.range'_succ,List.cons.injEq] at places
    obtain ⟨middle,first,middleHolds,middleTidy,keeps,size⟩ :=
      @addInput_eq _ _ _ t records a holds tidy places.1
    obtain ⟨after,newRecords,others,last,lastTidy,lastKeeps,lastSize,all⟩ :=
      ih middleHolds middleTidy (by rw [size]; exact places.2)
    refine ⟨after,newRecords,?_,?_,lastTidy,keeps.trans lastKeeps,?_,?_⟩
    · rw [List.foldlM_cons,first]
      exact others
    · simpa using last
    · rw [lastSize,size,List.length_cons]
      omega
    · intro src ids found
      by_cases own : a.outputOwner = t
      · rw [if_pos own] at all
        simpa [own] using all src ids found
      · rw [if_neg own] at all
        by_cases here : a.outputOwner = src
        · have grown := all src (ids.push a.place) (by simp [Array.getElem?_modify,here,found])
          rw [grown]
          simp [here,here ▸ own]
        · have same := all src ids (by simp [Array.getElem?_modify,here,found])
          rw [same]
          simp [here]

end Lists

section Trees

variable {store : Store} {inputs outputs : List Record} {t next : Nat}

/-- The records of pieces in the tree of their output owner. Those that the list has not are new. -/
def outputRecords (t : Nat) : Nat → List Assignment → List Record
  | _, [] => []
  | next, a :: rest =>
    if a.inputOwner = t then inputRecord a :: outputRecords t next rest
    else { id := next, pair := a.piece.pair, twin := a.number } :: outputRecords t (next + 1) rest

theorem mem_outputRecords {items : List Assignment} {r : Record}
    (member : r ∈ outputRecords t next items) : ∃ a ∈ items, r.pair = a.piece.pair ∧
      (a.inputOwner = t ∧ r = inputRecord a ∨
        a.inputOwner ≠ t ∧ next ≤ r.id ∧ r.twin = a.number) := by
  induction items generalizing next with
  | nil => cases member
  | cons a rest ih =>
    unfold outputRecords at member
    split at member
    next mine =>
      rcases List.mem_cons.mp member with rfl | behind
      · exact ⟨a,by simp,rfl,Or.inl ⟨mine,rfl⟩⟩
      · obtain ⟨b,inside,facts⟩ := ih behind
        exact ⟨b,by simp [inside],facts⟩
    next foreign =>
      rcases List.mem_cons.mp member with rfl | behind
      · exact ⟨a,by simp,rfl,Or.inr ⟨foreign,Nat.le_refl _,rfl⟩⟩
      · obtain ⟨b,inside,pair,here | ⟨other,above,twin⟩⟩ := ih behind
        · exact ⟨b,by simp [inside],pair,Or.inl here⟩
        · exact ⟨b,by simp [inside],pair,Or.inr ⟨other,by omega,twin⟩⟩

theorem inputRecord_mem {items : List Assignment} {a : Assignment} (member : a ∈ items)
    (mine : a.inputOwner = t) : inputRecord a ∈ outputRecords t next items := by
  induction items generalizing next with
  | nil => cases member
  | cons b rest ih =>
    unfold outputRecords
    rcases List.mem_cons.mp member with rfl | behind
    · rw [if_pos mine]
      simp
    · split
      · exact List.mem_cons_of_mem _ (ih behind)
      · exact List.mem_cons_of_mem _ (ih behind)

theorem map_pair_outputRecords (items : List Assignment) :
    (outputRecords t next items).map Record.pair = items.map fun a => a.piece.pair := by
  induction items generalizing next with
  | nil => rfl
  | cons a rest ih =>
    unfold outputRecords
    split
    · rw [List.map_cons,ih,List.map_cons]
      rfl
    · rw [List.map_cons,ih,List.map_cons]

theorem nodup_outputRecords {items : List Assignment}
    (places : ∀ a ∈ items, a.inputOwner = t → a.place < next)
    (apart : items.Pairwise fun a b => a.inputOwner = t → b.inputOwner = t → a.place ≠ b.place) :
    ((outputRecords t next items).map Record.id).Nodup := by
  induction items generalizing next with
  | nil => exact List.nodup_nil
  | cons a rest ih =>
    obtain ⟨head,tail⟩ := List.pairwise_cons.mp apart
    unfold outputRecords
    split
    next mine =>
      rw [List.map_cons,List.nodup_cons]
      refine ⟨?_,ih (fun b member => places b (by simp [member])) tail⟩
      intro inside
      obtain ⟨r,member,same⟩ := List.mem_map.mp inside
      have own := places a (by simp) mine
      obtain ⟨b,present,_,⟨other,rfl⟩ | ⟨_,above,_⟩⟩ := mem_outputRecords member
      · exact head b present mine other same.symm
      · rw [same] at above
        exact absurd own (Nat.not_lt_of_le above)
    next foreign =>
      rw [List.map_cons,List.nodup_cons]
      refine ⟨?_,ih (fun b member mine => Nat.lt_succ_of_lt (places b (by simp [member]) mine)) tail⟩
      intro inside
      obtain ⟨r,member,same⟩ := List.mem_map.mp inside
      change r.id = next at same
      obtain ⟨b,present,_,⟨other,rfl⟩ | ⟨_,above,_⟩⟩ := mem_outputRecords member
      · have below := places b (by simp [present]) other
        exact absurd same (Nat.ne_of_lt below)
      · rw [same] at above
        exact absurd above (Nat.not_succ_le_self next)

theorem alloc_twin (holds : store.Holds inputs outputs) (tidy : store.Tidy outputs) (pair : Pair)
    (twin : Option Nat) : ∃ after,
      (store.withArena (store.arena.alloc pair).2).setTwin store.arena.size twin = .ok after ∧
      after.Holds inputs outputs ∧ after.Tidy outputs ∧ store.Keeps after ∧
      after.arena.size = store.arena.size + 1 ∧
      after.arena.labelOf store.arena.size = some ⟨pair,twin,false⟩ ∧
      ∀ id < store.arena.size, after.arena.labelOf id = store.arena.labelOf id := by
  let grown := store.withArena (store.arena.alloc pair).2
  let change : Node → Node := fun node => { node with twin := twin }
  have size : grown.arena.size = store.arena.size + 1 := store.size_alloc pair
  have changed : grown.setTwin store.arena.size twin =
      .ok (grown.withArena (grown.arena.put store.arena.size change)) := by
    refine modify_ok ?_ change
    rw [size]
    exact Nat.lt_succ_self _
  have labels := fun id => @Arena.labelOf_put grown.arena store.arena.size change
    (fun label => { label with twin := twin }) (fun _ => rfl) id
  have before := fun id => @Arena.labelOf_alloc store.arena pair id
  have kept : ∀ id < store.arena.size,
      (grown.arena.put store.arena.size change).labelOf id = store.arena.labelOf id := by
    intro id below
    rw [labels,if_neg (Nat.ne_of_lt below)]
    exact (before id).trans (if_neg (Nat.ne_of_lt below))
  refine ⟨_,changed,?_,(tidy.alloc pair).relabel (fun _ => rfl) rfl,?_,?_,?_,kept⟩
  · refine (holds.alloc pair).relabel (fun _ => rfl) (fun _ => rfl) rfl rfl fun r known => ?_
    rw [kept r.id (holds.lt_size known)]
    exact holds.labelled r known
  · exact (store.keeps_withArena _).trans (grown.keeps_withArena _)
  · exact (Arena.size_put _ _ _).trans size
  · refine (labels _).trans ((if_pos rfl).trans ?_)
    rw [show grown.arena.labelOf store.arena.size = _ from store.label_alloc pair]
    rfl

theorem addOutputs_eq {items : List Assignment} {ids : List NodeId}
    (holds : store.Holds inputs outputs) (tidy : store.Tidy outputs)
    (known : ∀ a ∈ items, a.inputOwner = t → inputRecord a ∈ inputs) :
    ∃ after newIds, items.foldlM (addOutput t) (store,ids) = .ok (after,newIds) ∧
      newIds.reverse = ids.reverse ++ (outputRecords t store.arena.size items).map Record.id ∧
      after.Holds inputs outputs ∧ after.Tidy outputs ∧ store.Keeps after ∧
      (∀ r ∈ outputRecords t store.arena.size items,
        after.arena.labelOf r.id = some r.label) ∧
      (∀ id < store.arena.size, after.arena.labelOf id = store.arena.labelOf id) ∧
      after.arena.size = store.arena.size + (items.filter fun a => a.inputOwner != t).length := by
  induction items generalizing store ids with
  | nil => exact ⟨store,ids,rfl,by simp [outputRecords],holds,tidy,.refl store,
      by simp [outputRecords],fun _ _ => rfl,rfl⟩
  | cons a rest ih =>
    have later : ∀ b ∈ rest, b.inputOwner = t → inputRecord b ∈ inputs :=
      fun b member => known b (by simp [member])
    -- the list has the record already, or a node is made that knows the record by its number
    by_cases mine : a.inputOwner = t
    · obtain ⟨after,newIds,others,order,last,lastTidy,keeps,labels,kept,lastSize⟩ :=
        @ih store (a.place :: ids) holds tidy later
      have step : addOutput t (store,ids) a = .ok (store,a.place :: ids) := by
        simp [addOutput,mine]
      refine ⟨after,newIds,?_,?_,last,lastTidy,keeps,?_,kept,?_⟩
      · rw [List.foldlM_cons,step]
        exact others
      · rw [order,outputRecords,if_pos mine]
        simp [inputRecord]
      · intro r member
        rw [outputRecords,if_pos mine] at member
        rcases List.mem_cons.mp member with rfl | behind
        · exact last.labelled _ (Or.inl (known a (by simp) mine))
        · exact labels r behind
      · rw [lastSize,List.filter_cons_of_neg (by simpa using mine)]
    · obtain ⟨middle,twinned,middleHolds,middleTidy,middleKeeps,size,label,same⟩ :=
        alloc_twin holds tidy a.piece.pair a.number
      obtain ⟨after,newIds,others,order,last,lastTidy,keeps,labels,kept,lastSize⟩ :=
        @ih middle (store.arena.size :: ids) middleHolds middleTidy later
      have step : addOutput t (store,ids) a = .ok (middle,store.arena.size :: ids) := by
        have first : store.alloc a.piece.pair =
          (store.arena.size,store.withArena (store.arena.alloc a.piece.pair).2) := rfl
        simp only [addOutput,mine,if_false,first,twinned,Checked.ok_bind]
        rfl
      refine ⟨after,newIds,?_,?_,last,lastTidy,middleKeeps.trans keeps,?_,?_,?_⟩
      · rw [List.foldlM_cons,step]
        exact others
      · rw [order,outputRecords,if_neg mine,size]
        simp
      · intro r member
        rw [outputRecords,if_neg mine] at member
        rcases List.mem_cons.mp member with rfl | behind
        · rw [kept _ (by rw [size]; exact Nat.lt_succ_self _)]
          exact label
        · rw [← size] at behind
          exact labels r behind
      · intro id below
        rw [kept id (by omega),same id below]
      · rw [lastSize,size,List.filter_cons_of_pos (by simpa using mine),List.length_cons]
        omega

end Trees

end BalancedMove
