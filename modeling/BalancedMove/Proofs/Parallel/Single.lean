import BalancedMove.Proofs.Balance.Routing
import BalancedMove.Proofs.MoveTable.OfStore
import BalancedMove.Proofs.Parallel.Unsplit

/-! A run with one worker. Nothing is cut, every piece is in the list and in the tree of the one worker,
and so the worker is assembled around the very store that the pairs are loaded into. It sends nothing,
and its router is a domestic one, so what it makes of the store is what balancing with one store makes of
it; and joining finds nothing to join. -/
namespace BalancedMove

open Sequence Store Balancer

section Assigning

variable {layout : Layout} {x : Nat} {pairs done rest : List Pair}

def soleAssignment (entry : Pair × Nat) : Assignment where
  piece := { pair := entry.1, cut := false }
  inputOwner := 0
  outputOwner := 0
  place := entry.2
  number := none

theorem Layout.owner_single (single : layout.workers = 1) (inside : x < layout.n) :
    layout.owner x = 0 := by
  have owned := (Layout.owner_owns inside).1
  omega

variable (single : layout.workers = 1)

include single

theorem listedBy_single (inside : ∀ v ∈ done, v.p < layout.n) :
    listedBy layout (plainPieces done) 0 = plainPieces done := by
  refine List.filter_eq_self.mpr fun piece member => ?_
  obtain ⟨v,known,rfl⟩ := List.mem_map.mp member
  rw [Layout.owner_single single (inside v known)]
  rfl

theorem assigned_single (front : ∀ v ∈ done, v.p < layout.n)
    (inside : ∀ v ∈ rest, v.p < layout.n ∧ v.q < layout.n) :
    assigned layout (plainPieces done) (plainPieces rest) =
      (rest.zipIdx done.length).map soleAssignment := by
  induction rest generalizing done with
  | nil => rfl
  | cons v rest ih =>
    obtain ⟨input,output⟩ := inside v (by simp)
    have later := @ih (done ++ [v]) (by
        intro u member
        rcases List.mem_append.mp member with before | last
        · exact front u before
        · rw [List.mem_singleton.mp last]
          exact input) fun u member => inside u (by simp [member])
    have grown : plainPieces (done ++ [v]) = plainPieces done ++ [{ pair := v, cut := false }] :=
      List.map_append
    have own : assignment layout (plainPieces done) { pair := v, cut := false } =
        soleAssignment (v,done.length) := by
      simp only [assignment,Layout.owner_single single input,Layout.owner_single single output,if_true,
        listedBy_single single front]
      simp [plainPieces,soleAssignment]
    rw [grown,List.length_append,List.length_singleton] at later
    have next : plainPieces (v :: rest) = { pair := v, cut := false } :: plainPieces rest := rfl
    rw [next,assigned,own,later,List.zipIdx_cons,List.map_cons]

end Assigning

section Loading

variable {store after : Store} {inputs outputs : List Record}

theorem setCut_plain {r : Record} (holds : store.Holds inputs outputs) (member : r ∈ inputs)
    (plain : r.cut = false) : store.setCut r.id false = .ok store := by
  obtain ⟨node,read,_,_,cut⟩ := holds.node (Or.inl member)
  have same : ({ node with cut := false } : Node) = node := by rw [← plain,← cut]
  rw [setCut,modify_ok (holds.lt_size (Or.inl member)),
    Arena.put_same (Arena.node_success.mp read) same]
  rfl

theorem addInputs_single {pairs : List Pair} {records : Array (Array NodeId)}
    (holds : store.Holds inputs outputs) (pushed : store.pushPairs pairs = .ok after) (base : Nat) :
    ((pairs.zipIdx base).map soleAssignment).foldlM (addInput 0) (store,records) =
      .ok (after,records) := by
  induction pairs generalizing store inputs base with
  | nil =>
    cases pushed
    rfl
  | cons pair pairs ih =>
    let new : Record := { id := store.arena.size, pair }
    have unused : ∀ r ∈ inputs, r.id ≠ new.id := fun r member =>
      Nat.ne_of_lt (holds.lt_size (Or.inl member))
    obtain ⟨linked,linkedOk,linkedHolds,_⟩ := @Holds.pushBack _ _ _ new (holds.alloc pair) unused
      (store.label_alloc pair)
    have first : store.alloc pair = (new.id,store.withArena (store.arena.alloc pair).2) := rfl
    have marked := setCut_plain linkedHolds (r := new) (by simp) rfl
    simp only [pushPairs,first,linkedOk,Checked.ok_bind] at pushed
    have step : addInput 0 (store,records) (soleAssignment (pair,base)) = .ok (linked,records) := by
      simp only [addInput,soleAssignment,first,linkedOk,Checked.ok_bind,marked]
      rfl
    rw [List.zipIdx_cons,List.map_cons,List.foldlM_cons,step]
    exact ih linkedHolds pushed (base + 1)

theorem addOutputs_single (entries : List (Pair × Nat)) (ids : List NodeId) :
    (entries.map soleAssignment).foldlM (addOutput 0) (store,ids) =
      .ok (store,(entries.map Prod.snd).reverse ++ ids) := by
  induction entries generalizing ids with
  | nil => rfl
  | cons entry rest ih =>
    have step : addOutput 0 (store,ids) (soleAssignment entry) = .ok (store,entry.2 :: ids) := rfl
    rw [List.map_cons,List.foldlM_cons,step]
    refine (ih (entry.2 :: ids)).trans ?_
    simp

theorem sortBy_sole (pairs : List Pair) :
    sortBy (fun a => a.piece.pair.q) (pairs.zipIdx.map soleAssignment) =
      (sortBy (fun entry => entry.1.q) pairs.zipIdx).map soleAssignment :=
  (@List.map_mergeSort _ _ _ _ soleAssignment pairs.zipIdx fun _ _ _ _ => rfl).symm

theorem filter_sole (entries : List (Pair × Nat)) :
    (entries.map soleAssignment).filter (fun a => a.inputOwner == 0) = entries.map soleAssignment ∧
      (entries.map soleAssignment).filter (fun a => a.outputOwner == 0) =
        entries.map soleAssignment := by
  constructor
  all_goals
    refine List.filter_eq_self.mpr fun a member => ?_
    obtain ⟨_,_,rfl⟩ := List.mem_map.mp member
    rfl

end Loading

section Encoding

variable {store : Store} {inputs outputs : List Record}

theorem Store.Whole.encoded_alike (whole : store.Whole inputs outputs)
    (plain : ∀ r ∈ inputs, r.cut = false) (a : Nat) :
    MoveTable.ofStores [store] a = MoveTable.ofStore store := by
  have marks : inputs.map (fun r => ({ pair := r.pair, cut := r.cut } : Piece)) =
      plainPieces (inputs.map Record.pair) := by
    rw [plainPieces,List.map_map]
    exact List.map_congr_left fun r member => by rw [plain r member]; rfl
  have read := storePieces_eq whole.holds
  rw [marks] at read
  have joined : Parallel.joinedPairs [store] a = .ok (inputs.map Record.pair) := by
    simp [Parallel.joinedPairs,read,joinPieces_plain whole.small whole.valid]
  rw [MoveTable.ofStore_eq whole,← MoveTable.ofPairs_eq whole.valid whole.small]
  simp [MoveTable.ofStores,joined]

end Encoding

section Running

theorem outgoing_domestic : Domestic Outgoing := by
  intro router store linked new old landed read range inserted
  simp [InputRouter.place,read,range,inserted]

variable {width : Width} {n a : Nat} {pairs : List Pair} {store after : Store}

variable {layout : Layout} (single : layout.workers = 1)

include single

theorem worker_single {numbering : Numbering} {row : Array Nat}
    (found : numbering.numbers[0]? = some row)
    (loaded : Store.load layout.width layout.n pairs = .ok store) :
    Worker.assemble layout.width layout.a layout.bounds numbering (pairs.zipIdx.map soleAssignment)
      ((sortBy (fun entry => entry.1.q) pairs.zipIdx).map soleAssignment) 0 = .ok
        ⟨0,⟨store,⟨layout.bounds,row,Array.replicate 1 #[]⟩,layout.a,0⟩,Array.replicate 1 #[],0,0⟩ := by
  obtain ⟨linked,pushed,built⟩ := Checked.bind_success loaded
  have start : layout.bounds[0]? = some 0 := by
    rw [Layout.bounds_get (Nat.zero_le _),layout.first]
  have stop : layout.bounds[1]? = some layout.n := by
    rw [Layout.bounds_get (by omega),← single,layout.last]
  have ranges := single ▸ @Layout.ranges_eq layout
  have inputs := @addInputs_single _ _ _ _ pairs (Array.replicate 1 #[]) holds_empty pushed 0
  have outputs := @addOutputs_single linked (sortBy (fun entry => entry.1.q) pairs.zipIdx) []
  rw [List.append_nil] at outputs
  unfold outputOrder at built
  simp only [Worker.assemble,start,stop,ranges,Checked.found,Checked.ok_bind,(filter_sole _).1,
    (filter_sole _).2,inputs,outputs,List.reverse_reverse,built,found,start_eq layout.enough]
  rfl

theorem assemble_single (inside : ∀ v ∈ pairs, v.p < layout.n ∧ v.q < layout.n)
    (loaded : Store.load layout.width layout.n pairs = .ok store) :
    ∃ row, assemble layout.width layout.a layout.bounds (plainPieces pairs) = .ok
      [⟨0,⟨store,⟨layout.bounds,row,Array.replicate 1 #[]⟩,layout.a,0⟩,Array.replicate 1 #[],0,0⟩] := by
  obtain ⟨numbering,assignedOk,counted⟩ := @assignAll_eq layout [] (plainPieces pairs) _ counted_start
    fun piece member => by
      obtain ⟨v,known,rfl⟩ := List.mem_map.mp member
      exact inside v known
  have entries : assigned layout [] (plainPieces pairs) = pairs.zipIdx.map soleAssignment :=
    @assigned_single layout [] pairs single (by simp) inside
  obtain ⟨row,found,_⟩ := counted.numbers 0 (by omega)
  have ranges := single ▸ @Layout.ranges_eq layout
  rw [single,entries] at assignedOk
  refine ⟨row,?_⟩
  simp only [assemble,ranges,Checked.ok_bind,assignedOk,sortBy_sole]
  rw [List.range_one,List.mapM_cons,worker_single single found loaded]
  rfl

omit single

theorem rounds_single {balancer swept : Balancer Outgoing} {records : Array (Array NodeId)}
    (ok : balancer.sweep = .ok swept) :
    Rounds.balance width [⟨0,balancer,records,0,0⟩] = .ok [⟨0,swept,records,0,0⟩] := by
  simp [Rounds.balance,guarded,Worker.sweep,ok,Rounds.run,Rounds.handOver,Worker.handOverAll,
    Rounds.messageCount]

theorem lineUp_single (small : n < width.limit) (enough : 2 ≤ a) (most : 1 ≤ n)
    (fits : n * 1 < Width.w128.limit) (accepted : validate width n pairs = .ok ())
    (loaded : Store.load width n pairs = .ok store) : ∃ router records,
      Parallel.lineUp width n a 1 pairs = .ok [⟨0,⟨store,router,a,0⟩,records,0,0⟩] := by
  have valid := (validate_iff small).mp accepted
  obtain ⟨layout,same⟩ : ∃ layout, layout =
    Layout.divide width n a 1 (image pairs) small enough (by decide) most := ⟨_,rfl⟩
  have single : layout.workers = 1 := by
    rw [same]
    rfl
  obtain ⟨row,assembled⟩ := @assemble_single pairs store layout single
    (by rw [same]; exact valid.inside) (by rw [same]; exact loaded)
  rw [← pieces_single single] at assembled
  have lined := lineUp_eq small enough (by decide) most fits valid same assembled
  subst same
  exact ⟨_,_,lined⟩

/-- With one worker, balancing gives the one store that balancing it alone gives, with the same number
of splits and without a message; and it is encoded alike. -/
theorem balance_single (small : n < width.limit) (enough : 2 ≤ a) (few : Addressable pairs.length)
    (accepted : validate width n pairs = .ok ()) : ∃ store after counts table,
      Store.ofPairs width n pairs = .ok store ∧ store.balance a = .ok (after,counts) ∧
      Parallel.balance width n pairs { a, workers := 1 } = .ok ([after],counts) ∧
      counts.rounds = 0 ∧ counts.messages = 0 ∧
      MoveTable.ofStore after = .ok table ∧ MoveTable.ofStores [after] a = .ok table := by
  have most : 1 ≤ n := ((validate_iff small).mp accepted).positive
  have wide := width.limit_le
  have fits : n * 1 < Width.w128.limit := by omega
  obtain ⟨store,outputs,loaded,whole,isWidth,isStop,_⟩ := load_numbered small accepted
  have length := few.records (map_pair_numbered 0 pairs)
  obtain ⟨after,number,newInputs,newOutputs,alike,newWhole,splits⟩ :=
    whole.swept_alike enough length
  obtain ⟨router,records,lined⟩ := lineUp_single small enough most fits accepted loaded
  have counted : number < Width.w64.limit := by
    have double := (whole.number_le enough splits).2
    unfold Addressable at length
    omega
  have sums : BalanceCounts.checkedTotal {}
      ([⟨0,⟨after,router,a,number⟩,records,0,0⟩].map Worker.counts) = .ok (BalanceCounts.total _) :=
    checkedTotal_eq (by simpa [total,Worker.counts] using counted)
      (show 0 < Width.w64.limit by decide)
  have together := balance_eq enough (by decide) (most_workers most fits) accepted lined
    (rounds_single (alike outgoing_domestic router)) sums
  have counts : BalanceCounts.total ([⟨0,⟨after,router,a,number⟩,records,0,0⟩].map Worker.counts) =
      { splits := number } := by
    simp [BalanceCounts.total,BalanceCounts.combine,Worker.counts]
  rw [counts] at together
  have alone : store.balance a = .ok (after,{ splits := number }) := by
    simp only [Store.balance,start_eq enough,Checked.ok_bind,alike local_domestic Local.here]
    rfl
  have given : Store.ofPairs width n pairs = .ok store := by
    rw [Store.ofPairs,accepted,Checked.ok_bind,loaded]
    rfl
  have encoded := MoveTable.ofStore_eq newWhole
  have plain := splits.plain (numbered_plain 0 pairs)
  exact ⟨store,after,_,_,given,alone,together,rfl,rfl,encoded,
    (newWhole.encoded_alike plain a).trans encoded⟩

theorem comb_balance_single : ∃ store after counts table,
    Store.ofPairs .w8 8 comb = .ok store ∧ store.balance 2 = .ok (after,counts) ∧
    Parallel.balance .w8 8 comb { a := 2, workers := 1 } = .ok ([after],counts) ∧
    counts.rounds = 0 ∧ counts.messages = 0 ∧
    MoveTable.ofStore after = .ok table ∧ MoveTable.ofStores [after] 2 = .ok table :=
  balance_single (by decide) (by decide) (by decide) comb_accepted

end Running

end BalancedMove
