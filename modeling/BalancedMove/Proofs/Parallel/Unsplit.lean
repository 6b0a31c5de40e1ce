import BalancedMove.Proofs.Parallel.Growth
import BalancedMove.Proofs.Parallel.Undoing

/-! Runs without splits. If no output interval of a piece is heavy, no worker splits anything and no
message is sent. The lists then hold the pieces as they were handed out, so what is joined depends on the
number of workers by the cuts alone. -/
namespace BalancedMove

open Sequence Store Balancer

theorem uncut_pieces (layout : Layout) (pairs : List Pair) : uncut (layout.pieces pairs) = pairs := by
  have own : ∀ interval, ((piecesOf layout.inner interval).filter fun piece => !piece.cut) =
      [⟨interval.toPair,false⟩] := fun interval => by simp [piecesOf,List.filter_map]
  simp [uncut,Layout.pieces,List.filter_flatMap,own,List.flatMap_singleton',List.flatMap_map,
    List.map_flatMap,intervalOf]

section Workers

variable {layout : Layout} {t base : Nat} {inside : t < layout.workers}
variable {handed known : Nat → List Pair} {worker : Worker} {inputs outputs : List Record}

theorem Worker.Stands.silent (stands : worker.Stands layout t inside handed known base inputs outputs)
    (none : worker.balancer.splits = 0) (dst : Nat) : (worker.flush dst).1 = #[] := by
  have owed := stands.steady.routed.owed
  have grown := stands.grown
  have nothing : worker.balancer.router.backlog = 0 := by omega
  have empty := List.flatMap_eq_nil_iff.mp (List.eq_nil_of_length_eq_zero nothing)
  unfold flush
  split
  · rfl
  · change worker.balancer.router.staged.getD dst #[] = #[]
    rw [Array.getD_eq_getD_getElem?]
    cases place : worker.balancer.router.staged[dst]? with
    | none => rfl
    | some batch =>
      have member := Array.mem_toList_iff.mpr (Array.mem_of_getElem? place)
      exact Array.toList_eq_nil_iff.mp (empty batch member)

theorem Worker.sweep_unsplit (stands : worker.Stands layout t inside handed known base inputs outputs)
    (light : ∀ r ∈ outputs, startsIn (layout.bound (t + 1)) inputs outputs r < 2 * layout.a) :
    ∃ after newInputs newOutputs, worker.sweep = .ok after ∧
      after.Stands layout t inside handed known base newInputs newOutputs ∧
      after.balancer.splits = worker.balancer.splits := by
  obtain ⟨balancer,number,newInputs,newOutputs,swept,steady,progress,_⟩ :=
    sweep_balances (channels_routes handed (base + worker.messages)) stands.steady
  obtain rfl : number = 0 := progress.run.none_of_light light
  refine ⟨{ worker with balancer },newInputs,newOutputs,?_,stands.progress steady progress,
    progress.splits⟩
  simp [sweep,swept]

theorem Worker.splits_emptied (receivers : List Nat) (worker : Worker) :
    (receivers.foldl (fun worker dst => (worker.flush dst).2) worker).balancer.splits =
      worker.balancer.splits := by
  induction receivers generalizing worker with
  | nil => rfl
  | cons dst rest ih =>
    rw [List.foldl_cons,ih]
    unfold flush
    split <;> rfl

theorem run_quiet {workers : List Worker} (fuel : Nat)
    (none : ∀ worker ∈ workers, ∀ dst, (worker.flush dst).1 = #[]) :
    Rounds.run (fuel + 1) workers =
      .ok (workers.map fun worker => worker.emptied workers.length) := by
  have silence : Rounds.messageCount (Rounds.handOver workers).1 = 0 := by
    rw [handOver_eq,messageCount_map]
    exact total_zero fun worker member => total_zero fun dst _ => by rw [none worker member dst]; rfl
  rw [handOver_eq] at silence
  simp [Rounds.run,handOver_eq,silence]

end Workers

section Runs

variable {layout : Layout} {pairs : List Pair} {pieces : List Piece} {t : Nat}

theorem Sharable.startsIn_le (sharable : Sharable layout pieces) (inside : t < layout.workers)
    {r : Record} (shown : r ∈ outputsOf layout pieces t) :
    startsIn (layout.bound (t + 1)) (inputsOf layout pieces t) (outputsOf layout pieces t) r ≤
      r.pair.degree layout.n (pieces.map Piece.pair) := by
  have sub : ((inputsOf layout pieces t).map Record.pair).Sublist (pieces.map Piece.pair) := by
    rw [inputsOf_pairs]
    exact List.filter_sublist.map Piece.pair
  rw [startsIn,sharable.output_end inside shown,← count_pairs]
  exact sub.countP_le

variable (together : Together layout pairs)

theorem Together.unsplit (light : ∀ v ∈ (layout.pieces pairs).map Piece.pair,
      v.degree layout.n ((layout.pieces pairs).map Piece.pair) < 2 * layout.a) :
    (BalanceCounts.total (together.team.map Worker.counts)).splits = 0 := by
  obtain ⟨swept,ok,_,all⟩ := @mapM_exists _ _ _ (fun worker : Worker =>
      guarded worker.index worker.sweep) together.begun
    (fun _ after => after.balancer.splits = 0 ∧ ∀ dst, (after.flush dst).1 = #[]) (by
    intro t worker place
    have inside : t < layout.workers :=
      together.lineup.length ▸ (List.getElem?_eq_some_iff.mp place).1
    have stands := together.starts t inside worker place
    obtain ⟨after,_,_,swept,standing,same⟩ := Worker.sweep_unsplit stands fun r shown =>
      Nat.lt_of_le_of_lt (together.sharable.startsIn_le inside shown)
        (light _ (outputsOf_facts shown).1)
    have none : after.balancer.splits = 0 := by
      have grown := stands.grown
      omega
    exact ⟨after,by simp [guarded,swept],none,standing.silent none⟩)
  have each : ∀ worker ∈ swept, worker.balancer.splits = 0 ∧ ∀ dst, (worker.flush dst).1 = #[] := by
    intro worker member
    obtain ⟨t,place⟩ := List.getElem?_of_mem member
    exact all t worker place
  have run := together.run
  rw [Rounds.balance,ok] at run
  have quiet := run_quiet layout.width.limit fun worker member => (each worker member).2
  have team := Except.ok.inj (run.symm.trans quiet)
  rw [together.splits_eq,team,total_map]
  refine total_zero fun worker member => ?_
  rw [Worker.emptied,Worker.splits_emptied]
  exact (each worker member).1

variable (positive : 0 < layout.workers)
  (unsplit : (BalanceCounts.total (together.team.map Worker.counts)).splits = 0)

include positive unsplit

theorem Together.allPieces_eq : allPieces layout together.inputs = layout.pieces pairs := by
  have shared := increasing_pieces.mp (pieces_sorted together.valid)
  have listed : Increasing Pair.p (allInputs layout together.inputs) :=
    together.finished.agreeing.inputChain.increasing
  rw [← map_pair_allPieces] at listed
  have length := together.length_inputs
  rw [unsplit,Nat.add_zero,← map_pair_allPieces,List.length_map] at length
  have sub := shared.sublist_of_subset (increasing_pieces.mp listed) (together.pieces_sub positive)
  exact (sub.eq_of_length length.symm).symm

theorem Together.joinedPairs_eq (limit : Nat) :
    Parallel.joinedPairs (together.team.map (·.balancer.store)) limit =
      joinPieces layout.width layout.n limit (layout.pieces pairs) := by
  obtain ⟨_,_,_,_,joinedAre⟩ := together.finished.joinedPieces positive
  rw [joinedAre,together.allPieces_eq positive unsplit]

theorem Together.joins_iff (limit : Nat) :
    Parallel.joinedPairs (together.team.map (·.balancer.store)) limit = .ok pairs ↔
      Undoable layout.n limit (layout.pieces pairs) := by
  have refines := pieces_refine together.valid
  have undoes := @joinPieces_undoes layout.width layout.n limit (layout.pieces pairs) layout.small
    (refines.valid together.valid) (by rw [uncut_pieces]; exact refines)
  rw [uncut_pieces] at undoes
  rw [together.joinedPairs_eq positive unsplit,undoes]

end Runs

structure Parallel.Ran (width : Width) (n a workers : Nat) (pairs : List Pair) (cut : List Piece)
    (stores : List Store) (counts : BalanceCounts) : Prop where
  shared : ∃ bounds, rangeBounds n workers = .ok bounds ∧
    pieces width n bounds.toArray pairs = .ok cut
  balanced : Parallel.balance width n pairs { a, workers } = .ok (stores,counts)

section Answers

variable {width : Width} {n a workers : Nat} {pairs : List Pair}

theorem Parallel.Ran.unique {cut other : List Piece} {stores others : List Store}
    {counts same : BalanceCounts} (ran : Parallel.Ran width n a workers pairs cut stores counts)
    (again : Parallel.Ran width n a workers pairs other others same) :
    cut = other ∧ stores = others ∧ counts = same := by
  obtain ⟨bounds,ranges,shared⟩ := ran.shared
  obtain ⟨_,ranges',shared'⟩ := again.shared
  obtain rfl := Except.ok.inj (ranges.symm.trans ranges')
  have answers := Except.ok.inj (ran.balanced.symm.trans again.balanced)
  exact ⟨Except.ok.inj (shared.symm.trans shared'),congrArg Prod.fst answers,
    congrArg Prod.snd answers⟩

theorem Together.ran (small : n < width.limit) (enough : 2 ≤ a) (divisible : Divisible n workers)
    (accepted : validate width n pairs = .ok ()) (together : Together (Layout.divide width n a workers
      (image pairs) small enough divisible.positive divisible.most) pairs) :
    Parallel.Ran width n a workers pairs
      ((Layout.divide width n a workers (image pairs) small enough divisible.positive
        divisible.most).pieces pairs)
      (together.team.map (·.balancer.store))
      (BalanceCounts.total (together.team.map Worker.counts)) :=
  ⟨pieces_divide small enough divisible.positive divisible.most divisible.fits accepted,
    together.balanced⟩

theorem exists_unsplit (small : n < width.limit) (enough : 2 ≤ a) (few : Storable pairs.length)
    (accepted : validate width n pairs = .ok ()) (divisible : Divisible n workers) {cut : List Piece}
    (isCut : (Layout.divide width n a workers (image pairs) small enough divisible.positive
      divisible.most).pieces pairs = cut)
    (light : ∀ v ∈ cut.map Piece.pair, v.degree n (cut.map Piece.pair) < 2 * a) :
    ∃ stores counts, Parallel.Ran width n a workers pairs cut stores counts ∧ counts.splits = 0 ∧
      ∀ limit, Parallel.joinedPairs stores limit = joinPieces width n limit cut := by
  subst isCut
  obtain ⟨together⟩ := exists_together small enough divisible.positive divisible.most
    divisible.fits few accepted
  have unsplit := together.unsplit light
  exact ⟨_,_,together.ran small enough divisible accepted,unsplit,
    together.joinedPairs_eq divisible.positive unsplit⟩

/-- Where nothing is split, joining gives back the given pairs exactly if the cuts can be undone one
after the other. So the number of workers shows in nothing but the cuts. -/
theorem balance_unsplit (small : n < width.limit) (enough : 2 ≤ a) (few : Storable pairs.length)
    (accepted : validate width n pairs = .ok ()) :
    (∀ workers, Divisible n workers → ∃ cut stores counts,
      Parallel.Ran width n a workers pairs cut stores counts ∧
      (counts.splits = 0 → (Parallel.joinedPairs stores a = .ok pairs ↔ Undoable n a cut)) ∧
      (workers = 1 → Undoable n a cut)) ∧
    ∀ first second cut recut left right counts recounts, Divisible n first → Divisible n second →
      Parallel.Ran width n a first pairs cut left counts →
      Parallel.Ran width n a second pairs recut right recounts →
      counts.splits = 0 → recounts.splits = 0 → Undoable n a cut → Undoable n a recut →
      Parallel.joinedPairs left a = .ok pairs ∧
        Parallel.joinedPairs left a = Parallel.joinedPairs right a := by
  have each : ∀ workers, Divisible n workers → ∃ cut stores counts,
      Parallel.Ran width n a workers pairs cut stores counts ∧
      (counts.splits = 0 → (Parallel.joinedPairs stores a = .ok pairs ↔ Undoable n a cut)) ∧
      (workers = 1 → Undoable n a cut) := by
    intro workers divisible
    obtain ⟨together⟩ := exists_together small enough divisible.positive divisible.most
      divisible.fits few accepted
    refine ⟨_,_,_,together.ran small enough divisible accepted,
      fun unsplit => together.joins_iff divisible.positive unsplit a,fun single => ?_⟩
    rw [pieces_single single]
    exact undoable_uncut
  refine ⟨each,?_⟩
  intro first second cut recut left right counts recounts one two ran again unsplit resplit undo redo
  obtain ⟨_,_,_,facts,joins,_⟩ := each first one
  obtain ⟨rfl,rfl,rfl⟩ := ran.unique facts
  obtain ⟨_,_,_,refacts,rejoins,_⟩ := each second two
  obtain ⟨rfl,rfl,rfl⟩ := again.unique refacts
  have joined := (joins unsplit).mpr undo
  exact ⟨joined,joined.trans ((rejoins resplit).mpr redo).symm⟩

/-- Two long intervals that three workers cut in each other's place. -/
def wedge : List Pair := [⟨0,4⟩,⟨4,0⟩,⟨7,3⟩]

def wedgeCut : List Piece := [⟨⟨0,4⟩,false⟩,⟨⟨1,5⟩,true⟩,⟨⟨2,6⟩,true⟩,⟨⟨4,0⟩,false⟩,⟨⟨5,1⟩,true⟩,
  ⟨⟨6,2⟩,true⟩,⟨⟨7,3⟩,false⟩]

theorem wedge_accepted : validate .w8 8 wedge = .ok () :=
  (validate_iff (by decide)).mpr (by decide)

theorem wedge_divisible (positive : 0 < workers) (most : workers ≤ 3) : Divisible 8 workers := by
  have limit : 24 < Width.w128.limit := by decide
  exact ⟨positive,by omega,by omega⟩

theorem wedge_pieces (enough : 2 ≤ a) : (Layout.divide .w8 8 a 3 (image wedge) (by decide) enough
    (by decide) (by decide)).pieces wedge = wedgeCut := by
  have first : cutOffsets [2,5] ⟨⟨0,4⟩,4⟩ = [1,2] :=
    cutOffsets_eq (by decide) (by decide) (by decide)
  have second : cutOffsets [2,5] ⟨⟨4,0⟩,3⟩ = [1,2] :=
    cutOffsets_eq (by decide) (by decide) (by decide)
  have third : cutOffsets [2,5] ⟨⟨7,3⟩,1⟩ = [] := cutOffsets_eq (by decide) (by decide) (by decide)
  change piecesOf [2,5] ⟨⟨0,4⟩,4⟩ ++ (piecesOf [2,5] ⟨⟨4,0⟩,3⟩ ++ (piecesOf [2,5] ⟨⟨7,3⟩,1⟩ ++ [])) = _
  simp only [piecesOf,first,second,third]
  rfl

/-- With the parameter 3 all cuts of the three workers can be undone. -/
theorem wedge_unsplit : ∃ left right counts recounts,
    Parallel.Ran .w8 8 3 1 wedge (wedge.map fun v => { pair := v, cut := false }) left counts ∧
    Parallel.Ran .w8 8 3 3 wedge wedgeCut right recounts ∧
    Parallel.joinedPairs left 3 = .ok wedge ∧
    Parallel.joinedPairs left 3 = Parallel.joinedPairs right 3 := by
  have few : Storable wedge.length := by decide
  obtain ⟨left,counts,one,unsplit,_⟩ := exists_unsplit (a := 3) (by decide) (by decide) few
    wedge_accepted (@wedge_divisible 1 (by decide) (by decide)) (pieces_single rfl)
    (by decide)
  obtain ⟨right,recounts,three,resplit,_⟩ := exists_unsplit (a := 3) (by decide) (by decide) few
    wedge_accepted (@wedge_divisible 3 (by decide) (by decide)) (wedge_pieces (by decide))
    (by decide)
  exact ⟨left,right,counts,recounts,one,three,
    (balance_unsplit (by decide) (by decide) few wedge_accepted).2 1 3 _ _ left right counts recounts
      (wedge_divisible (by decide) (by decide)) (wedge_divisible (by decide) (by decide)) one three
      unsplit resplit undoable_uncut (by decide)⟩

/-- With the parameter 2 the cut at 5 of the output intervals stands in the way of the one at 6. -/
theorem wedge_joins_apart : ∃ left right counts recounts,
    Parallel.balance .w8 8 wedge { a := 2, workers := 1 } = .ok (left,counts) ∧ counts.splits = 0 ∧
    Parallel.balance .w8 8 wedge { a := 2, workers := 3 } = .ok (right,recounts) ∧
    recounts.splits = 0 ∧ Parallel.joinedPairs left 2 = .ok wedge ∧
    Parallel.joinedPairs right 2 = .ok [⟨0,4⟩,⟨2,6⟩,⟨4,0⟩,⟨7,3⟩] := by
  have few : Storable wedge.length := by decide
  obtain ⟨left,counts,one,unsplit,leftIs⟩ := exists_unsplit (a := 2) (by decide) (by decide) few
    wedge_accepted (@wedge_divisible 1 (by decide) (by decide)) (pieces_single rfl)
    (by decide)
  obtain ⟨right,recounts,three,resplit,rightIs⟩ := exists_unsplit (a := 2) (by decide) (by decide) few
    wedge_accepted (@wedge_divisible 3 (by decide) (by decide)) (wedge_pieces (by decide))
    (by decide)
  refine ⟨left,right,counts,recounts,one.balanced,unsplit,three.balanced,resplit,?_,?_⟩
  · rw [leftIs]
    decide
  · rw [rightIs]
    decide +kernel

end Answers

end BalancedMove
