import BalancedMove.Proofs.MoveTable.Map
import BalancedMove.Proofs.Parallel.Bound
import BalancedMove.Proofs.Parallel.Total

/-! Preservation with several workers. The lists of all stores together move every position as the domain
does; the given pairs go into them without a mark and stay there, so joining keeps them. Hence the pairs
that are encoded describe the given permutation, whatever the number of workers. -/
namespace BalancedMove

open Sequence Store Balancer

section Lists

variable {layout : Layout} {told : Nat → Nat → List Pair} {inputs outputs : Nat → List Record}

theorem Agreeing.image_eq (agreeing : Agreeing layout told inputs outputs) (permutes : Permutes layout)
    (positive : 0 < layout.workers) {x : Nat} (inside : x < layout.n) :
    image (allInputs layout inputs) x = layout.image x := by
  obtain ⟨u,member,low,high,moved⟩ := (agreeing.valid permutes positive).moved inside
  obtain ⟨e,ends,within,moves⟩ := agreeing.outputInterval member
  have length := agreeing.lengths permutes member ends within moves
  have own := moves (u.q + (x - u.p)) (Nat.le_add_right _ _) (by omega)
  have place : u.p + (u.q + (x - u.p) - u.q) = x := by omega
  rw [place] at own
  exact moved.trans own.symm

end Lists

section Runs

variable {layout : Layout} {pairs : List Pair}

theorem mem_inputsOf_piece {pieces : List Piece} {piece : Piece} (member : piece ∈ pieces) :
    ∃ r ∈ inputsOf layout pieces (layout.owner piece.pair.p), r.pair = piece.pair ∧
      r.cut = piece.cut := by
  obtain ⟨a,known,rfl⟩ := @assigned_mem layout [] pieces piece member
  exact ⟨inputRecord a,mem_inputsOf.mpr ⟨a,known,(assigned_facts known).2.1,rfl⟩,rfl,rfl⟩

theorem Together.pieces_sub (together : Together layout pairs) (positive : 0 < layout.workers) :
    layout.pieces pairs ⊆ allPieces layout together.inputs := by
  intro piece member
  obtain ⟨course,begun,ended,lockstep⟩ := together.exists_course
  obtain ⟨log,final,runs,done⟩ := lockstep.ends positive .nil
  have tracks := lockstep.tracks positive runs
  obtain ⟨told,heard,consistent⟩ := (together.consistent begun).runs rfl runs
  have below := together.sharable.valid.below _ (List.mem_map_of_mem member)
  have owner := (Layout.owner_owns below).1
  obtain ⟨r,listed,pair,cut⟩ := @mem_inputsOf_piece layout _ _ member
  let t : Fin layout.workers := ⟨layout.owner piece.pair.p,owner⟩
  -- the schedule and the run in lockstep leave one store, which shows its list as pieces
  obtain ⟨inputs,_,stands,kept,_⟩ := (consistent.stands t owner).worker
  rw [(tracks.final done t).1] at stands
  have place : together.team[t.val]? = some (course.emptied course.last t) := by
    rw [ended]
    simp
  have shown := storePieces_eq stands.steady.holds
  have read := storePieces_eq (together.finished.stands t owner _ place).steady.holds
  have same := Except.ok.inj (shown.symm.trans read)
  refine mem_allPieces.mpr ⟨t,owner,?_⟩
  rw [← same]
  refine List.mem_map.mpr ⟨r,kept listed,?_⟩
  rw [pair,cut]

end Runs

/-- Stores that describe the permutation of `pairs`: joined with some limit they keep all the pairs, and
their table maps every position as the pairs do. -/
structure Parallel.Preserves (width : Width) (n : Nat) (pairs : List Pair) (stores : List Store)
    (limit : Nat) : Prop where
  joined : ∃ kept, Parallel.joinedPairs stores limit = .ok kept ∧ validate width n kept = .ok () ∧
    pairs.Sublist kept
  encoded : ∃ table, MoveTable.ofStores stores limit = .ok table ∧
    ∀ x < n, table.map x = .ok (image pairs x)

section Answers

variable {layout : Layout} {width : Width} {n a : Nat} {pairs : List Pair}

structure Together.Tabulated (together : Together layout pairs) (limit : Nat) (kept : List Pair)
    (table : MoveTable) : Prop where
  joined : Parallel.joinedPairs (together.team.map (·.balancer.store)) limit = .ok kept
  refines : Refines layout.n kept (allInputs layout together.inputs)
  valid : Valid layout.n kept
  sublist : pairs.Sublist kept
  encoded : MoveTable.ofStores (together.team.map (·.balancer.store)) limit = .ok table
  small : layout.n < table.width.limit
  encodes : table.Encodes layout.n kept

theorem Together.tabulated (together : Together layout pairs) (positive : 0 < layout.workers)
    (image : ∀ x < layout.n, layout.image x = BalancedMove.image pairs x) (limit : Nat) :
    ∃ kept table, together.Tabulated limit kept table := by
  have permutes := permutes_image together.valid image
  have all := together.finished.agreeing.valid permutes positive
  obtain ⟨last,isLast,lastWidth,stop,joinedAre⟩ := together.finished.joinedPieces positive
  rw [← map_pair_allPieces] at all
  obtain ⟨kept,joins,refines,keptValid,uncut⟩ := joinPieces_refines layout.small all limit
  obtain ⟨table,encoded,tableWidth,encodes⟩ := MoveTable.ofPairs_encodes keptValid layout.small
  have joinedOk := (joinedAre limit).trans joins
  refine ⟨kept,table,joinedOk,map_pair_allPieces ▸ refines,keptValid,?_,?_,tableWidth ▸ layout.small,
    encodes⟩
  · refine together.valid.sorted.sublist_of_subset keptValid.sorted fun v member => ?_
    have piece : (⟨v,false⟩ : Piece) ∈ layout.pieces pairs :=
      mem_pieces.mpr ⟨v,member,Or.inl rfl⟩
    exact uncut _ (together.pieces_sub positive piece) rfl
  · rw [MoveTable.ofStores,isLast]
    simp only [joinedOk,lift_ok,Checked.ok_bind,lastWidth,stop]
    exact encoded

theorem Together.preserves (together : Together layout pairs) (positive : 0 < layout.workers)
    (image : ∀ x < layout.n, layout.image x = BalancedMove.image pairs x) (limit : Nat) :
    Parallel.Preserves layout.width layout.n pairs (together.team.map (·.balancer.store)) limit := by
  obtain ⟨kept,table,tabulated⟩ := together.tabulated positive image limit
  have permutes := permutes_image together.valid image
  refine ⟨⟨kept,tabulated.joined,(validate_iff layout.small).mpr tabulated.valid,tabulated.sublist⟩,
    table,tabulated.encoded,fun x inside => ?_⟩
  have moved := together.finished.agreeing.image_eq permutes positive inside
  rw [tabulated.refines.image_eq tabulated.valid inside,image x inside] at moved
  rw [tabulated.encodes.map_eq tabulated.valid tabulated.small inside,moved]

structure Divisible (n workers : Nat) : Prop where
  positive : 0 < workers
  most : workers ≤ n
  fits : n * workers < Width.w128.limit

def Parallel.tabulate (width : Width) (n : Nat) (pairs : List Pair) (parameters : BalanceParameters)
    (limit : Nat) : Outcome MoveTable := do
  let (stores,_) ← Parallel.balance width n pairs parameters
  MoveTable.ofStores stores limit

/-- Balancing with several workers moves no position elsewhere and removes none of the given pairs, in
whichever way its stores are joined; so the tables for two numbers of workers agree. -/
theorem balance_joined_preserves (small : n < width.limit) (enough : 2 ≤ a)
    (few : Storable pairs.length) (accepted : validate width n pairs = .ok ()) :
    (∀ workers, Divisible n workers → ∃ stores counts,
      Parallel.balance width n pairs { a, workers } = .ok (stores,counts) ∧
        ∀ limit, Parallel.Preserves width n pairs stores limit) ∧
    ∀ first second limit other, Divisible n first → Divisible n second → ∃ left right,
      Parallel.tabulate width n pairs { a, workers := first } limit = .ok left ∧
        Parallel.tabulate width n pairs { a, workers := second } other = .ok right ∧
        ∀ x < n, left.map x = right.map x := by
  have each : ∀ workers, Divisible n workers → ∃ stores counts,
      Parallel.balance width n pairs { a, workers } = .ok (stores,counts) ∧
        ∀ limit, Parallel.Preserves width n pairs stores limit := by
    intro workers divisible
    obtain ⟨together⟩ := exists_together small enough divisible.positive divisible.most
      divisible.fits few accepted
    exact ⟨_,_,together.balanced,together.preserves divisible.positive fun x _ => rfl⟩
  have tables : ∀ workers limit, Divisible n workers → ∃ table,
      Parallel.tabulate width n pairs { a, workers } limit = .ok table ∧
        ∀ x < n, table.map x = .ok (image pairs x) := by
    intro workers limit divisible
    obtain ⟨stores,counts,balanced,preserves⟩ := each workers divisible
    obtain ⟨table,encoded,mapped⟩ := (preserves limit).encoded
    exact ⟨table,by rw [Parallel.tabulate,balanced]; exact encoded,mapped⟩
  refine ⟨each,fun first second limit other one two => ?_⟩
  obtain ⟨left,leftIs,leftMaps⟩ := tables first limit one
  obtain ⟨right,rightIs,rightMaps⟩ := tables second other two
  exact ⟨left,right,leftIs,rightIs,fun x inside => (leftMaps x inside).trans (rightMaps x inside).symm⟩

/-- Joined with a limit of 0, which joins nothing, and with the parameter of the balancing. -/
theorem comb_balance_joined_preserves :
    (∃ stores counts, Parallel.balance .w8 8 comb { a := 2, workers := 3 } = .ok (stores,counts) ∧
      Parallel.Preserves .w8 8 comb stores 0 ∧ Parallel.Preserves .w8 8 comb stores 2) ∧
    ∃ left right, Parallel.tabulate .w8 8 comb { a := 2, workers := 1 } 2 = .ok left ∧
      Parallel.tabulate .w8 8 comb { a := 2, workers := 8 } 0 = .ok right ∧
      ∀ x < 8, left.map x = right.map x := by
  have divisible : ∀ workers, 0 < workers → workers ≤ 8 → Divisible 8 workers := by
    intro workers positive most
    have limit : 64 < Width.w128.limit := by decide
    exact ⟨positive,most,by omega⟩
  obtain ⟨each,agree⟩ := @balance_joined_preserves .w8 8 2 comb (by decide) (by decide)
    (by decide) comb_accepted
  refine ⟨?_,agree 1 8 2 0 (divisible 1 (by decide) (by decide))
    (divisible 8 (by decide) (by decide))⟩
  obtain ⟨stores,counts,balanced,preserves⟩ := each 3 (divisible 3 (by decide) (by decide))
  exact ⟨stores,counts,balanced,preserves 0,preserves 2⟩

end Answers

end BalancedMove
