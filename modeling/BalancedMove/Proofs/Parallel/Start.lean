import BalancedMove.Proofs.Parallel.Assignment

/-! The start of a parallel run. The pieces of accepted pairs cross no boundary, so each range begins
with a piece on either side, and in the store of a worker the intervals end where the pieces do. -/
namespace BalancedMove

open Sequence Store Balancer

structure Sharable (layout : Layout) (pieces : List Piece) : Prop where
  valid : Valid layout.n (pieces.map Piece.pair)
  aligned : Aligned layout (pieces.map Piece.pair)
  image : ∀ x < layout.n, layout.image x = BalancedMove.image (pieces.map Piece.pair) x
  room : ∀ t < layout.workers,
    2 * layout.a ≤ heavyCount layout.a ∨ (listedBy layout pieces t).length < heavyCount layout.a

section Geometry

variable {layout : Layout} {pairs : List Pair} {n t : Nat} {u : Pair}

theorem Aligned.input_le (aligned : Aligned layout pairs) (valid : Valid layout.n pairs)
    (member : u ∈ pairs) (inside : t < layout.workers) (owns : layout.Owns t u.p) :
    endOf Pair.p layout.n pairs u ≤ layout.bound (t + 1) := by
  by_cases last : t + 1 < layout.workers
  · have cut := (aligned u member (t + 1) last).1
    have above := owns.2
    omega
  · have equal : t + 1 = layout.workers := by omega
    rw [equal,layout.last]
    exact (valid.sorted.isEnd valid.below member).inside

theorem Aligned.output_le (aligned : Aligned layout pairs) (valid : Valid layout.n pairs)
    (member : u ∈ pairs) (inside : t < layout.workers) (owns : layout.Owns t u.q) :
    u.q + (endOf Pair.p layout.n pairs u - u.p) ≤ layout.bound (t + 1) := by
  by_cases last : t + 1 < layout.workers
  · have cut := (aligned u member (t + 1) last).2
    have above := owns.2
    omega
  · have equal : t + 1 = layout.workers := by omega
    rw [equal,layout.last]
    exact (valid.tiled u member).inside

theorem Aligned.inputFirst (aligned : Aligned layout pairs) (valid : Valid layout.n pairs)
    (inside : t < layout.workers) : ∃ u ∈ pairs, u.p = layout.bound t := by
  obtain ⟨first,head,zero⟩ := Option.map_eq_some_iff.mp valid.first
  have step := layout.increasing t inside
  have most := @Layout.bound_le layout (t + 1) inside
  obtain ⟨u,member,low,high⟩ := valid.sorted.covered valid.below head
    (show first.p ≤ layout.bound t by omega) (show layout.bound t < layout.n by omega)
  have cut := (aligned u member t inside).1
  exact ⟨u,member,by omega⟩

theorem Aligned.outputFirst (aligned : Aligned layout pairs) (valid : Valid layout.n pairs)
    (inside : t < layout.workers) : ∃ u ∈ pairs, u.q = layout.bound t := by
  have step := layout.increasing t inside
  have most := @Layout.bound_le layout (t + 1) inside
  obtain ⟨u,member,low,high⟩ := valid.outputCovered (show layout.bound t < layout.n by omega)
  have cut := (aligned u member t inside).2
  exact ⟨u,member,by omega⟩

end Geometry

section Shares

variable {layout : Layout} {pieces : List Piece} {t : Nat} {r : Record} {a : Assignment}

def inputsOf (layout : Layout) (pieces : List Piece) (t : Nat) : List Record :=
  ((assigned layout [] pieces).filter fun a => a.inputOwner == t).map inputRecord

def treeOf (layout : Layout) (pieces : List Piece) (t : Nat) : List Assignment :=
  (sortBy (fun a => a.piece.pair.q) (assigned layout [] pieces)).filter fun a => a.outputOwner == t

def outputsOf (layout : Layout) (pieces : List Piece) (t : Nat) : List Record :=
  outputRecords t (listedBy layout pieces t).length (treeOf layout pieces t)

theorem mem_treeOf : a ∈ treeOf layout pieces t ↔
    a ∈ assigned layout [] pieces ∧ a.outputOwner = t := by
  rw [treeOf,List.mem_filter,(sortBy_perm _ _).mem_iff]
  simp

theorem mem_inputsOf : r ∈ inputsOf layout pieces t ↔
    ∃ a ∈ assigned layout [] pieces, a.inputOwner = t ∧ r = inputRecord a := by
  simp only [inputsOf,List.mem_map,List.mem_filter,beq_iff_eq]
  constructor
  · rintro ⟨a,⟨member,mine⟩,same⟩
    exact ⟨a,member,mine,same.symm⟩
  · rintro ⟨a,member,mine,same⟩
    exact ⟨a,⟨member,mine⟩,same.symm⟩

theorem assigned_facts (member : a ∈ assigned layout [] pieces) :
    a.piece ∈ pieces ∧ a.inputOwner = layout.owner a.piece.pair.p ∧
      a.outputOwner = layout.owner a.piece.pair.q := by
  obtain ⟨before,after,place,same⟩ := mem_assigned member
  refine ⟨?_,?_,?_⟩
  · rw [place]
    simp
  · rw [same]
    rfl
  · rw [same]
    rfl

theorem inputsOf_pairs : (inputsOf layout pieces t).map Record.pair =
    (listedBy layout pieces t).map Piece.pair := by
  have members : ∀ a ∈ assigned layout [] pieces,
      (a.inputOwner == t) = (layout.owner a.piece.pair.p == t) := fun a member => by
    rw [(assigned_facts member).2.1]
  rw [inputsOf,List.filter_congr members,List.map_map]
  have parts := congrArg (List.filter fun piece => layout.owner piece.pair.p == t)
    (@map_piece_assigned layout [] pieces)
  rw [List.filter_map] at parts
  rw [listedBy,← parts,List.map_map]
  rfl

theorem inputsOf_facts (member : r ∈ inputsOf layout pieces t) :
    r.pair ∈ pieces.map Piece.pair ∧ layout.owner r.p = t ∧ r.twin = none := by
  obtain ⟨a,known,mine,rfl⟩ := mem_inputsOf.mp member
  obtain ⟨inside,input,_⟩ := assigned_facts known
  exact ⟨List.mem_map_of_mem inside,input.symm.trans mine,rfl⟩

theorem outputsOf_facts (member : r ∈ outputsOf layout pieces t) :
    r.pair ∈ pieces.map Piece.pair ∧ layout.owner r.q = t := by
  obtain ⟨a,known,pair,_⟩ := mem_outputRecords member
  obtain ⟨present,mine⟩ := mem_treeOf.mp known
  obtain ⟨inside,_,output⟩ := assigned_facts present
  rw [Record.q,pair]
  exact ⟨List.mem_map_of_mem inside,output.symm.trans mine⟩

theorem exists_input {u : Pair} (member : u ∈ pieces.map Piece.pair) (mine : layout.owner u.p = t) :
    ∃ r ∈ inputsOf layout pieces t, r.pair = u := by
  obtain ⟨piece,inside,rfl⟩ := List.mem_map.mp member
  have listed : piece.pair ∈ (listedBy layout pieces t).map Piece.pair :=
    List.mem_map_of_mem (List.mem_filter.mpr ⟨inside,by simpa using mine⟩)
  rw [← inputsOf_pairs] at listed
  exact List.mem_map.mp listed

theorem exists_output {u : Pair} (member : u ∈ pieces.map Piece.pair)
    (mine : layout.owner u.q = t) : ∃ r ∈ outputsOf layout pieces t, r.pair = u := by
  obtain ⟨piece,inside,rfl⟩ := List.mem_map.mp member
  obtain ⟨a,known,rfl⟩ := @assigned_mem layout [] pieces piece inside
  have shown : a.piece.pair ∈ (treeOf layout pieces t).map fun a => a.piece.pair :=
    List.mem_map.mpr ⟨a,mem_treeOf.mpr ⟨known,(assigned_facts known).2.2.trans mine⟩,rfl⟩
  rw [← @map_pair_outputRecords t (listedBy layout pieces t).length] at shown
  exact List.mem_map.mp shown

theorem listed_iff_owned (member : r ∈ outputsOf layout pieces t) :
    r ∈ inputsOf layout pieces t ↔ layout.owner r.p = t := by
  constructor
  · exact fun listed => (inputsOf_facts listed).2.1
  · intro mine
    obtain ⟨a,known,pair,⟨_,rfl⟩ | ⟨foreign,_⟩⟩ := mem_outputRecords member
    · obtain ⟨present,_⟩ := mem_treeOf.mp known
      exact mem_inputsOf.mpr ⟨a,present,(assigned_facts present).2.1.trans mine,rfl⟩
    · obtain ⟨present,_⟩ := mem_treeOf.mp known
      rw [Record.p,pair,← (assigned_facts present).2.1] at mine
      exact absurd mine foreign

variable (sharable : Sharable layout pieces)

include sharable

theorem Sharable.owns_input {u : Pair} (member : u ∈ pieces.map Piece.pair) :
    layout.owner u.p < layout.workers ∧ layout.Owns (layout.owner u.p) u.p :=
  have owned := Layout.owner_owns (sharable.valid.inside u member).1
  ⟨owned.1,owned.2.1⟩

theorem Sharable.owns_output {u : Pair} (member : u ∈ pieces.map Piece.pair) :
    layout.owner u.q < layout.workers ∧ layout.Owns (layout.owner u.q) u.q :=
  have owned := Layout.owner_owns (sharable.valid.inside u member).2
  ⟨owned.1,owned.2.1⟩

theorem Sharable.inputs_own (member : r ∈ inputsOf layout pieces t) : layout.Owns t r.p := by
  obtain ⟨known,mine,_⟩ := inputsOf_facts member
  exact mine ▸ (sharable.owns_input known).2

theorem Sharable.outputs_own (member : r ∈ outputsOf layout pieces t) : layout.Owns t r.q := by
  obtain ⟨known,mine⟩ := outputsOf_facts member
  exact mine ▸ (sharable.owns_output known).2

theorem Sharable.inputs_sorted (t : Nat) : Increasing Record.p (inputsOf layout pieces t) := by
  have sorted := sharable.valid.sorted
  apply increasing_pairs.mp
  rw [inputsOf_pairs,Increasing,List.pairwise_map]
  rw [Increasing,List.pairwise_map] at sorted
  exact sorted.filter _

theorem Sharable.outputs_sorted (t : Nat) : Increasing Record.q (outputsOf layout pieces t) := by
  have distinct : ((assigned layout [] pieces).map fun a => a.piece.pair.q).Nodup := by
    have nodup := sharable.valid.distinct
    rw [← @map_piece_assigned layout [] pieces,List.map_map,List.map_map] at nodup
    exact nodup
  have sorted : Increasing (fun a => a.piece.pair.q)
      (sortBy (fun a => a.piece.pair.q) (assigned layout [] pieces)) :=
    increasing_of_le (sortBy_pairwise _ _) (((sortBy_perm _ _).map _).nodup_iff.mpr distinct)
  have mine : Increasing (fun a => a.piece.pair.q) (treeOf layout pieces t) := sorted.filter _
  have pairs := @map_pair_outputRecords t (listedBy layout pieces t).length (treeOf layout pieces t)
  have moved : Increasing Pair.q ((outputsOf layout pieces t).map Record.pair) := by
    rw [outputsOf,pairs,Increasing,List.pairwise_map]
    exact mine
  rw [Increasing,List.pairwise_map] at moved
  exact moved

theorem Sharable.input_end (inside : t < layout.workers) (member : r ∈ inputsOf layout pieces t) :
    endOf Record.p (layout.bound (t + 1)) (inputsOf layout pieces t) r =
      endOf Pair.p layout.n (pieces.map Piece.pair) r.pair := by
  have valid := sharable.valid
  obtain ⟨known,_,_⟩ := inputsOf_facts member
  have owns := sharable.inputs_own member
  have below : ∀ s ∈ inputsOf layout pieces t, s.p < layout.bound (t + 1) :=
    fun s present => (sharable.inputs_own present).2
  refine (sharable.inputs_sorted t).endOf_eq below member ?_
  refine (valid.sorted.isEnd valid.below known).restrict
    (sharable.aligned.input_le valid known inside owns) (Layout.bound_le inside) ?_ ?_
  · exact fun s present => ⟨s.pair,(inputsOf_facts present).1,rfl⟩
  · intro u present above under
    change r.p < u.p at above
    have mine : layout.owner u.p = t := Layout.owner_eq inside ⟨by have := owns.1; omega,under⟩
    obtain ⟨s,listed,rfl⟩ := exists_input present mine
    exact ⟨s,listed,rfl⟩

theorem Sharable.output_end (inside : t < layout.workers)
    (member : r ∈ outputsOf layout pieces t) :
    endOf Record.q (layout.bound (t + 1)) (outputsOf layout pieces t) r =
      r.q + (endOf Pair.p layout.n (pieces.map Piece.pair) r.pair - r.p) := by
  have valid := sharable.valid
  obtain ⟨known,_⟩ := outputsOf_facts member
  have owns := sharable.outputs_own member
  have below : ∀ s ∈ outputsOf layout pieces t, s.q < layout.bound (t + 1) :=
    fun s present => (sharable.outputs_own present).2
  refine (sharable.outputs_sorted t).endOf_eq below member ?_
  refine (valid.tiled r.pair known).restrict
    (sharable.aligned.output_le valid known inside owns) (Layout.bound_le inside) ?_ ?_
  · exact fun s present => ⟨s.pair,(outputsOf_facts present).1,rfl⟩
  · intro u present above under
    change r.q < u.q at above
    have mine : layout.owner u.q = t := Layout.owner_eq inside ⟨by have := owns.1; omega,under⟩
    obtain ⟨s,listed,rfl⟩ := exists_output present mine
    exact ⟨s,listed,rfl⟩

theorem Sharable.sound (inside : t < layout.workers) :
    Sound layout.n (layout.bound t) (layout.bound (t + 1)) (inputsOf layout pieces t)
      (outputsOf layout pieces t) := by
  have valid := sharable.valid
  refine ⟨sharable.inputs_sorted t,sharable.outputs_sorted t,fun r member =>
    sharable.inputs_own member,fun r member => sharable.outputs_own member,?_,?_,?_,?_,?_⟩
  · obtain ⟨u,known,here⟩ := sharable.aligned.inputFirst valid inside
    have owns : layout.Owns t u.p := ⟨Nat.le_of_eq here.symm,here ▸ layout.increasing t inside⟩
    obtain ⟨r,listed,rfl⟩ := exists_input known (Layout.owner_eq inside owns)
    exact (sharable.inputs_sorted t).head_of_start
      (fun s member => (sharable.inputs_own member).1) listed here
  · obtain ⟨u,known,here⟩ := sharable.aligned.outputFirst valid inside
    have owns : layout.Owns t u.q := ⟨Nat.le_of_eq here.symm,here ▸ layout.increasing t inside⟩
    obtain ⟨r,shown,rfl⟩ := exists_output known (Layout.owner_eq inside owns)
    exact (sharable.outputs_sorted t).head_of_start
      (fun s member => (sharable.outputs_own member).1) shown here
  · intro r listed shown
    rw [sharable.input_end inside listed,sharable.output_end inside shown]
    have above := (valid.sorted.isEnd valid.below (inputsOf_facts listed).1).above
    change r.p < _ at above
    omega
  · intro r shown unlisted
    obtain ⟨known,_⟩ := outputsOf_facts shown
    have elsewhere : ¬ layout.Owns t r.p := fun owns =>
      unlisted ((listed_iff_owned shown).mpr (Layout.owner_eq inside owns))
    have above := (valid.sorted.isEnd valid.below known).above
    -- no boundary crosses the input interval, so all of it is elsewhere
    have cut := (sharable.aligned r.pair known t inside).1
    rw [sharable.output_end inside shown]
    change r.p < _ at above
    change layout.bound t ≤ r.p ∨ _ at cut
    unfold Layout.Owns at elsewhere
    omega
  · intro r shown
    obtain ⟨known,_⟩ := outputsOf_facts shown
    have ends := valid.sorted.isEnd valid.below known
    have above := ends.above
    have most := ends.inside
    rw [sharable.output_end inside shown]
    change r.p < _ at above
    omega

theorem Sharable.moves (inside : t < layout.workers) :
    Moves layout (layout.bound (t + 1)) (outputsOf layout pieces t) := by
  have valid := sharable.valid
  constructor
  · intro r shown y low high
    obtain ⟨known,_⟩ := outputsOf_facts shown
    have ends := valid.sorted.isEnd valid.below known
    have most := ends.inside
    rw [sharable.output_end inside shown] at high
    have moved := @image_eq _ (r.p + (y - r.q)) _ _ valid.sorted valid.below known
      (Nat.le_add_right _ _) (by omega)
    change _ = r.q + (r.p + (y - r.q) - r.p) at moved
    rw [sharable.image _ (by omega),moved]
    omega
  · intro r shown
    obtain ⟨known,_⟩ := outputsOf_facts shown
    obtain ⟨bounded,owns⟩ := sharable.owns_input known
    have limit := sharable.aligned.input_le valid known bounded owns
    have above := (valid.sorted.isEnd valid.below known).above
    rw [sharable.output_end inside shown]
    refine ⟨layout.owner r.p,bounded,owns.1,?_⟩
    change r.p < _ at above
    change _ ≤ layout.bound (layout.owner r.p + 1) at limit
    omega

end Shares

section Telling

variable {layout : Layout} {pieces : List Piece} {t src dst : Nat} {r : Record}

def sharedPairs (layout : Layout) (pieces : List Piece) (src dst : Nat) : List Pair :=
  (sharedBy layout pieces src dst).map Piece.pair

theorem mem_sharedPairs {u : Pair} : u ∈ sharedPairs layout pieces src dst ↔
    u ∈ pieces.map Piece.pair ∧ layout.owner u.q = src ∧ layout.owner u.p = dst ∧ src ≠ dst := by
  unfold sharedPairs sharedBy
  split
  next same => simp [same]
  next differ =>
    simp only [List.mem_map,List.mem_filter,Bool.and_eq_true,beq_iff_eq]
    constructor
    · rintro ⟨piece,⟨inside,output,input⟩,rfl⟩
      exact ⟨⟨piece,inside,rfl⟩,output,input,differ⟩
    · rintro ⟨⟨piece,inside,rfl⟩,output,input,_⟩
      exact ⟨piece,⟨inside,output,input⟩,rfl⟩

theorem outputsOf_numbered (member : r ∈ outputsOf layout pieces t)
    (absent : r ∉ inputsOf layout pieces t) : ∃ i, r.twin = some i ∧
      (sharedPairs layout pieces t (layout.owner r.p))[i]? = some r.pair := by
  have foreign : layout.owner r.p ≠ t := fun mine => absent ((listed_iff_owned member).mpr mine)
  obtain ⟨a,known,pair,⟨mine,same⟩ | ⟨_,_,twin⟩⟩ := mem_outputRecords member
  · obtain ⟨present,_⟩ := mem_treeOf.mp known
    exact absurd (mem_inputsOf.mpr ⟨a,present,mine,same⟩) absent
  · obtain ⟨present,mine⟩ := mem_treeOf.mp known
    have output := (assigned_facts present).2.2.symm.trans mine
    obtain ⟨before,after,place,number⟩ := mem_assigned present
    rw [Record.p,pair] at foreign ⊢
    refine ⟨(sharedBy layout before t (layout.owner a.piece.pair.p)).length,?_,?_⟩
    · rw [twin,number]
      simp only [assignment,List.nil_append,output,if_neg foreign]
    · have own : sharedBy layout [a.piece] t (layout.owner a.piece.pair.p) = [a.piece] := by
        simp [sharedBy,output,Ne.symm foreign]
      have split : pieces = before ++ ([a.piece] ++ after) := place
      rw [sharedPairs,split,sharedBy_append,sharedBy_append,own]
      simp

theorem sharedBy_records : (((assigned layout [] pieces).filter fun a => a.inputOwner == t).filter
    fun a => a.outputOwner == src && a.outputOwner != t).map (fun a => a.piece.pair) =
      sharedPairs layout pieces src t := by
  have members : ∀ a ∈ assigned layout [] pieces,
      ((a.outputOwner == src && a.outputOwner != t) && a.inputOwner == t) =
        ((layout.owner a.piece.pair.q == src && layout.owner a.piece.pair.q != t) &&
          layout.owner a.piece.pair.p == t) := fun a member => by
    obtain ⟨_,input,output⟩ := assigned_facts member
    rw [input,output]
  rw [List.filter_filter,List.filter_congr members]
  have parts := congrArg (List.filter fun piece => (layout.owner piece.pair.q == src &&
    layout.owner piece.pair.q != t) && layout.owner piece.pair.p == t)
    (@map_piece_assigned layout [] pieces)
  rw [List.filter_map] at parts
  have pairs := congrArg (List.map Piece.pair) parts
  rw [List.map_map] at pairs
  refine Eq.trans pairs ?_
  unfold sharedPairs sharedBy
  split
  next same =>
    subst src
    rw [List.map_nil,List.map_eq_nil_iff,List.filter_eq_nil_iff]
    intro piece _
    simp
  next differ =>
    congr 1
    refine List.filter_congr fun piece _ => ?_
    by_cases output : layout.owner piece.pair.q = src
    · simp [output,differ]
    · rw [beq_eq_false_iff_ne.mpr output]
      rfl

def emptyOutgoing (layout : Layout) (nextNumber : Array Nat) : Outgoing where
  bounds := layout.bounds
  nextNumber := nextNumber
  staged := Array.replicate layout.workers #[]

variable (sharable : Sharable layout pieces)

include sharable

theorem Sharable.shared_nodup : (sharedPairs layout pieces src dst).Nodup := by
  have nodup := sharable.valid.sorted.nodup
  unfold sharedPairs sharedBy
  split
  · exact List.nodup_nil
  · exact nodup.sublist (List.filter_sublist.map _)

theorem Sharable.shown {i : Nat} {v : Pair}
    (place : (sharedPairs layout pieces t dst)[i]? = some v) :
    ∃ r ∈ outputsOf layout pieces t, r ∉ inputsOf layout pieces t ∧ r.pair = v ∧
      r.twin = some i := by
  obtain ⟨known,output,input,differ⟩ := mem_sharedPairs.mp (List.mem_of_getElem? place)
  obtain ⟨r,shown,pair⟩ := exists_output known output
  have start : layout.owner r.p = dst := by rw [Record.p,pair,input]
  have absent : r ∉ inputsOf layout pieces t := fun listed =>
    differ ((inputsOf_facts listed).2.1.symm.trans start)
  obtain ⟨j,twin,there⟩ := outputsOf_numbered shown absent
  rw [start,pair] at there
  refine ⟨r,shown,absent,pair,?_⟩
  rw [twin]
  congr 1
  exact (List.getElem?_inj (List.getElem?_eq_some_iff.mp there).1 sharable.shared_nodup).mp
    (there.trans place.symm)

omit sharable in
theorem batch_emptyOutgoing (row : Array Nat) : (emptyOutgoing layout row).batch dst = [] := by
  simp [emptyOutgoing,Outgoing.batch,Array.getD_eq_getD_getElem?,Array.getElem?_replicate]
  split <;> rfl

omit sharable in
theorem shared_emptyOutgoing (row : Array Nat) (handed : Nat → List Pair) :
    (emptyOutgoing layout row).shared handed dst = handed dst := by
  rw [Outgoing.shared,batch_emptyOutgoing]
  simp

theorem Sharable.channels (inside : t < layout.workers) {numbering : Numbering}
    (counted : Counted layout pieces numbering) {row : Array Nat}
    (found : numbering.numbers[t]? = some row) :
    Channels layout t (sharedPairs layout pieces t) (outputsOf layout pieces t).length
      (emptyOutgoing layout row) (inputsOf layout pieces t) (outputsOf layout pieces t) := by
  refine ⟨rfl,by simp [emptyOutgoing],?_,sharable.moves inside,?_,?_,?_,?_,?_,?_⟩
  · intro r listed
    obtain ⟨known,_⟩ := inputsOf_facts listed
    have valid := sharable.valid
    have above := (valid.sorted.isEnd valid.below known).above
    have moved := @image_eq _ r.p _ _ valid.sorted valid.below known (Nat.le_refl _) above
    have below : r.p < layout.n := valid.below r.pair known
    rw [sharable.image _ below,moved]
    change r.q + (r.p - r.p) = r.q
    omega
  · exact fun r _ listed => (inputsOf_facts listed).2.2
  · intro r shown absent
    obtain ⟨i,twin,place⟩ := outputsOf_numbered shown absent
    obtain ⟨bounded,owns⟩ := sharable.owns_input (outputsOf_facts shown).1
    refine ⟨layout.owner r.p,bounded,i,owns,twin,?_⟩
    rw [shared_emptyOutgoing]
    exact place
  · intro d bounded i v place
    rw [shared_emptyOutgoing] at place
    obtain ⟨known,_,input,_⟩ := mem_sharedPairs.mp (List.mem_of_getElem? place)
    exact ⟨input ▸ (sharable.owns_input known).2,sharable.shown place⟩
  · intro d bounded
    obtain ⟨other,again,counts⟩ := counted.numbers t inside
    obtain rfl : row = other := Option.some.inj (found.symm.trans again)
    rw [shared_emptyOutgoing,sharedPairs,List.length_map]
    exact counts d bounded
  · intro d _
    rw [batch_emptyOutgoing]
    trivial
  · simp [Outgoing.backlog,emptyOutgoing]

theorem Sharable.outputs_distinct (t : Nat) :
    ((outputsOf layout pieces t).map Record.id).Nodup := by
  have distinct : (assigned layout [] pieces).Nodup := by
    have nodup := sharable.valid.distinct
    rw [← @map_piece_assigned layout [] pieces,List.map_map,List.map_map] at nodup
    exact nodup.of_map
  have shown : (treeOf layout pieces t).Nodup :=
    ((sortBy_perm _ _).nodup_iff.mpr distinct).filter _
  have places := @map_place_assigned layout t [] pieces
  have placesNodup := places ▸ List.nodup_range'
  have inList : ∀ a ∈ treeOf layout pieces t, a.inputOwner = t →
      a ∈ (assigned layout [] pieces).filter fun a => a.inputOwner == t := fun a member mine =>
    List.mem_filter.mpr ⟨(mem_treeOf.mp member).1,by simpa using mine⟩
  refine nodup_outputRecords ?_ (shown.imp_of_mem ?_)
  · intro a member mine
    have place := List.mem_map_of_mem (f := Assignment.place) (inList a member mine)
    rw [places,List.mem_range'_1] at place
    exact Nat.lt_of_lt_of_eq place.2 (Nat.zero_add _)
  · intro a b first second differ mine other same
    exact differ (List.inj_on_of_nodup_map placesNodup (inList a first mine) (inList b second other)
      same)

def emptyStore (layout : Layout) (t : Nat) : Store where
  width := layout.width
  start := layout.bound t
  stop := layout.bound (t + 1)

omit sharable in
theorem length_listed : ((assigned layout [] pieces).filter fun a => a.inputOwner == t).length =
    (listedBy layout pieces t).length := by
  have length := congrArg List.length (@map_place_assigned layout t [] pieces)
  rwa [List.length_map,List.length_range'] at length

theorem Sharable.length_guests (inside : t < layout.workers) : (inputsOf layout pieces t).length +
    ((treeOf layout pieces t).filter fun a => a.inputOwner != t).length =
      (outputsOf layout pieces t).length + (guests layout t (inputsOf layout pieces t)).length := by
  have owns : ∀ a ∈ assigned layout [] pieces,
      layout.Owns t (inputRecord a).q ↔ a.outputOwner = t := by
    intro a known
    obtain ⟨member,_,output⟩ := assigned_facts known
    obtain ⟨bounded,own⟩ := sharable.owns_output (List.mem_map_of_mem member)
    rw [output]
    exact ⟨fun other => Layout.owns_unique bounded inside own other,fun same => same ▸ own⟩
  have home : ((treeOf layout pieces t).filter fun a => a.inputOwner == t).Perm
      (((assigned layout [] pieces).filter fun a => a.inputOwner == t).filter
        fun a => a.outputOwner == t) := by
    rw [treeOf,List.filter_comm]
    exact ((sortBy_perm _ _).filter _).filter _
  have records := congrArg List.length
    (@map_pair_outputRecords t (listedBy layout pieces t).length (treeOf layout pieces t))
  have tree := List.length_eq_length_filter_add (l := treeOf layout pieces t) fun a =>
    a.inputOwner == t
  have list := List.length_eq_length_filter_add
    (l := (assigned layout [] pieces).filter fun a => a.inputOwner == t) fun a =>
      a.outputOwner == t
  rw [List.length_map,List.length_map] at records
  have strangers : ((assigned layout [] pieces).filter fun a => a.inputOwner == t).filter
      ((fun r => decide ¬ layout.Owns t r.q) ∘ inputRecord) =
      ((assigned layout [] pieces).filter fun a => a.inputOwner == t).filter
        fun a => !(a.outputOwner == t) :=
    List.filter_congr fun a member => by
      simp only [Function.comp_apply,owns a (List.mem_of_mem_filter member)]
      exact decide_not
  rw [guests,inputsOf,List.filter_map,List.length_map,List.length_map,outputsOf,records,strangers,tree,
    list,home.length_eq]
  exact Nat.add_right_comm _ _ _

theorem Sharable.builds (inside : t < layout.workers) : ∃ listed records grown ids built,
    ((assigned layout [] pieces).filter fun a => a.inputOwner == t).foldlM (addInput t)
      (emptyStore layout t,Array.replicate layout.workers #[]) = .ok (listed,records) ∧
    (treeOf layout pieces t).foldlM (addOutput t) (listed,[]) = .ok (grown,ids) ∧
    grown.buildTree ids.reverse = .ok built ∧ (emptyStore layout t).Keeps built ∧
    built.Holds (inputsOf layout pieces t) (outputsOf layout pieces t) ∧
    built.Tidy (outputsOf layout pieces t) ∧
    built.arena.size = (outputsOf layout pieces t).length +
      (guests layout t (inputsOf layout pieces t)).length ∧
    ∀ src < layout.workers, ∃ shared : List Record,
      records[src]? = some (shared.map Record.id).toArray ∧
        shared.map Record.pair = sharedPairs layout pieces src t ∧
        ∀ r ∈ shared, r ∈ inputsOf layout pieces t := by
  have places : ((assigned layout [] pieces).filter fun a => a.inputOwner == t).map
      Assignment.place = List.range' (emptyStore layout t).arena.size
        ((assigned layout [] pieces).filter fun a => a.inputOwner == t).length := by
    rw [length_listed]
    exact @map_place_assigned layout t [] pieces
  -- first the list, then the nodes of the tree, then the tree over them
  obtain ⟨listed,records,inputsOk,listHolds,listTidy,listKeeps,listSize,recordsOk⟩ :=
    @addInputs_eq (emptyStore layout t) [] [] t _ (Array.replicate layout.workers #[]) holds_empty
      tidy_empty places
  change listed.Holds (inputsOf layout pieces t) [] at listHolds
  have size : listed.arena.size = (listedBy layout pieces t).length := by
    rw [listSize,length_listed]
    exact Nat.zero_add _
  obtain ⟨grown,ids,outputsOk,order,grownHolds,grownTidy,grownKeeps,labels,_,grownSize⟩ :=
    @addOutputs_eq listed _ [] t (treeOf layout pieces t) [] listHolds listTidy
      fun a member mine => mem_inputsOf.mpr ⟨a,(mem_treeOf.mp member).1,mine,rfl⟩
  rw [size] at order labels
  change ids.reverse = [] ++ (outputsOf layout pieces t).map Record.id at order
  have few : (outputsOf layout pieces t).length ≤ Width.w128.limit := by
    have length := (sharable.sound inside).length_outputs_le
    have most := @Layout.bound_le layout (t + 1) inside
    have small := layout.small
    have wide := layout.width.limit_le
    omega
  obtain ⟨built,builtOk,holds,keeps,cells⟩ :=
    grownHolds.buildTree labels (sharable.outputs_distinct t) few
  refine ⟨listed,records,grown,ids,built,inputsOk,outputsOk,?_,
    listKeeps.trans (grownKeeps.trans keeps),holds,?_,?_,?_⟩
  · rw [order]
    exact builtOk
  · intro id outside cell present
    rw [cells.cells id outside] at present
    exact grownTidy id List.not_mem_nil cell present
  · rw [cells.size,grownSize,← sharable.length_guests inside,listSize,inputsOf,List.length_map]
    exact congrArg (· + _) (Nat.zero_add _)
  · intro src bounded
    have start : (Array.replicate layout.workers (#[] : Array NodeId))[src]? = some #[] := by
      simp [bounded]
    refine ⟨(((assigned layout [] pieces).filter fun a => a.inputOwner == t).filter fun a =>
      a.outputOwner == src && a.outputOwner != t).map inputRecord,?_,?_,?_⟩
    · rw [recordsOk src #[] start,List.map_map,Array.empty_append]
      rfl
    · rw [List.map_map]
      exact sharedBy_records
    · intro r member
      exact List.Sublist.subset (List.filter_sublist.map _) member

/-- A record of the list that is not in the tree is one that a sender has told of. -/
theorem Sharable.foreign (listed : r ∈ inputsOf layout pieces t)
    (absent : r ∉ outputsOf layout pieces t) :
    ∃ src < layout.workers, r.pair ∈ sharedPairs layout pieces src t := by
  obtain ⟨known,mine,_⟩ := inputsOf_facts listed
  obtain ⟨bounded,_⟩ := sharable.owns_output known
  refine ⟨layout.owner r.q,bounded,mem_sharedPairs.mpr ⟨known,rfl,mine,?_⟩⟩
  intro same
  obtain ⟨a,present,input,rfl⟩ := mem_inputsOf.mp listed
  have output := (assigned_facts present).2.2.trans same
  exact absent (inputRecord_mem (mem_treeOf.mpr ⟨present,output⟩) input)

theorem Sharable.assemble_stands (inside : t < layout.workers) {numbering : Numbering}
    (counted : Counted layout pieces numbering) :
    ∃ worker, Worker.assemble layout.width layout.a layout.bounds numbering
        (assigned layout [] pieces)
        (sortBy (fun a => a.piece.pair.q) (assigned layout [] pieces)) t = .ok worker ∧
      worker.Stands layout t inside (sharedPairs layout pieces t)
        (fun src => sharedPairs layout pieces src t) (outputsOf layout pieces t).length
        (inputsOf layout pieces t) (outputsOf layout pieces t) ∧ worker.rounds = 0 := by
  obtain ⟨row,found,_⟩ := counted.numbers t inside
  obtain ⟨listed,records,grown,ids,built,inputsRun,outputsRun,builtRun,keeps,holds,tidy,size,shared⟩ :=
    sharable.builds inside
  have room : 2 * layout.a ≤ heavyCount layout.a ∨
      (inputsOf layout pieces t).length < heavyCount layout.a := by
    rw [inputsOf,List.length_map,length_listed]
    exact sharable.room t inside
  have steady : Steady (layout.setting t inside)
      (Channels layout t (sharedPairs layout pieces t) (outputsOf layout pieces t).length)
      ⟨built,emptyOutgoing layout row,layout.a,0⟩ (inputsOf layout pieces t)
      (outputsOf layout pieces t) :=
    ⟨keeps.width,keeps.start,keeps.stop,rfl,holds,sharable.sound inside,room,
      sharable.channels inside counted found⟩
  refine ⟨⟨t,⟨built,emptyOutgoing layout row,layout.a,0⟩,records,0,0⟩,?_,
    ⟨rfl,steady,tidy,rfl,Nat.le_of_eq size,.refl _ _ _ _,shared,?_,fun r => sharable.foreign⟩,rfl⟩
  · have begun := Balancer.start_eq layout.enough built (emptyOutgoing layout row)
    unfold emptyStore at inputsRun
    unfold treeOf at outputsRun
    unfold emptyOutgoing at begun ⊢
    simp only [Worker.assemble,Layout.bounds_get (Nat.le_of_lt inside),Layout.bounds_get inside,
      Checked.found,Checked.ok_bind,Layout.ranges_eq,inputsRun,outputsRun,builtRun,found,begun]
    rfl
  · intro src _ v told
    obtain ⟨known,output,_,differ⟩ := mem_sharedPairs.mp told
    exact ⟨output ▸ (sharable.owns_output known).2,differ⟩

theorem Sharable.lineup : ∃ workers,
    assemble layout.width layout.a layout.bounds pieces = .ok workers ∧
      Lineup layout (sharedPairs layout pieces) (fun dst src => sharedPairs layout pieces src dst)
        (fun t => (outputsOf layout pieces t).length) workers ∧
      ∀ t (inside : t < layout.workers) worker, workers[t]? = some worker →
        worker.Stands layout t inside (sharedPairs layout pieces t)
          (fun src => sharedPairs layout pieces src t) (outputsOf layout pieces t).length
          (inputsOf layout pieces t) (outputsOf layout pieces t) := by
  obtain ⟨numbering,assignedOk,counted⟩ := assignAll_eq counted_start fun piece member =>
    sharable.valid.inside piece.pair (List.mem_map_of_mem member)
  rw [List.nil_append] at counted
  obtain ⟨workers,ok,length,all⟩ := @mapM_exists _ _ _ (Worker.assemble layout.width layout.a
      layout.bounds numbering (assigned layout [] pieces)
      (sortBy (fun a => a.piece.pair.q) (assigned layout [] pieces))) (List.range layout.workers)
    (fun t worker => (∀ inside : t < layout.workers,
      worker.Stands layout t inside (sharedPairs layout pieces t)
        (fun src => sharedPairs layout pieces src t) (outputsOf layout pieces t).length
        (inputsOf layout pieces t) (outputsOf layout pieces t)) ∧ worker.rounds = 0) (by
    intro i t place
    obtain ⟨bounded,rfl⟩ := List.getElem?_eq_some_iff.mp place
    rw [List.length_range] at bounded
    rw [List.getElem_range]
    obtain ⟨worker,ok,stands,none⟩ := sharable.assemble_stands bounded counted
    exact ⟨worker,ok,fun _ => stands,none⟩)
  have stands := fun t inside worker place => (all t worker place).1 inside
  refine ⟨workers,?_,⟨length.trans List.length_range,?_,?_,fun src _ dst _ _ => rfl⟩,stands⟩
  · simp only [assemble,Layout.ranges_eq,Checked.ok_bind,assignedOk]
    exact ok
  · exact fun t inside worker place => ⟨_,_,stands t inside worker place⟩
  · intro worker member
    obtain ⟨t,place⟩ := List.getElem?_of_mem member
    exact (all t worker place).2

theorem Sharable.total_outputs : total (fun t => (outputsOf layout pieces t).length)
    (List.range layout.workers) = pieces.length := by
  have bounded : ∀ piece ∈ pieces, layout.owner piece.pair.q < layout.workers := fun piece member =>
    (sharable.owns_output (List.mem_map_of_mem member)).1
  rw [← total_classes (fun piece => layout.owner piece.pair.q) bounded]
  refine total_congr fun t _ => ?_
  have members : ∀ a ∈ assigned layout [] pieces,
      (a.outputOwner == t) = (layout.owner a.piece.pair.q == t) := fun a member => by
    rw [(assigned_facts member).2.2]
  have records := congrArg List.length
    (@map_pair_outputRecords t (listedBy layout pieces t).length (treeOf layout pieces t))
  have parts := congrArg (List.filter fun piece => layout.owner piece.pair.q == t)
    (@map_piece_assigned layout [] pieces)
  rw [List.filter_map] at parts
  rw [List.length_map,List.length_map] at records
  rw [outputsOf,records,treeOf,((sortBy_perm _ _).filter _).length_eq,List.filter_congr members,
    ← parts,List.length_map]
  rfl

end Telling

end BalancedMove
