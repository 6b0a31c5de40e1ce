import BalancedMove.Proofs.Parallel.Counts

/-! Balancing with several workers. The run ends; its stores pass their self-check and hold a valid
sequence of pairs between them, each pair once in a list and once in a tree, with twins numbered as
the messages were. -/
namespace BalancedMove

open Sequence Store Balancer

structure Delivered (width : Width) (n workers : Nat) (pairs : List Pair) (stores : List Store)
    (counts : BalanceCounts) : Prop where
  length : stores.length = workers
  ranges : ∀ (t : Nat) (store : Store), stores[t]? = some store → ∃ listed shown,
    Presents (n * t / workers) (n * (t + 1) / workers) store listed shown
  accepted : ∃ lists trees, stores.mapM Store.pairs = .ok lists ∧
    stores.mapM Store.outputPairs = .ok trees ∧ validate width n lists.flatten = .ok () ∧
    trees.flatten.Perm lists.flatten ∧ trees.flatten.Nodup ∧
    ∃ bounds cut, rangeBounds n workers = .ok bounds ∧
      cutAtBounds width n bounds.toArray pairs = .ok cut ∧
      lists.flatten.length = cut.length + counts.splits
  apart : ∀ store ∈ stores, ∃ ids listed, store.outputIds = .ok ids ∧ store.pairs = .ok listed ∧
    ∀ id ∈ ids, ∃ node, store.node id = .ok node ∧ (node.twin = none ↔ node.pair ∈ listed)
  numbered : ∀ store ∈ stores, ∀ dst < workers, ∃ m twins,
    store.twinsInto (n * dst / workers) (n * (dst + 1) / workers) = .ok twins ∧
      twins.Perm (List.range m)
  rounds : counts.rounds ≤ counts.messages
  messages : counts.messages ≤ counts.splits

section Runs

variable {width : Width} {n a workers : Nat} {pairs : List Pair} {layout : Layout}

theorem sharable_of_lists (valid : Valid layout.n pairs)
    (image : ∀ x < layout.n, layout.image x = BalancedMove.image pairs x)
    (few : ∀ t < layout.workers, Addressable (listedBy layout (layout.pieces pairs) t).length) :
    Sharable layout (layout.pieces pairs) := by
  have refines := pieces_refine valid
  refine ⟨refines.valid valid,pieces_aligned valid,?_,?_⟩
  · intro x inside
    rw [image x inside,refines.image_eq valid inside]
  · exact fun t inside => (few t inside).room layout.a

theorem permutes_image (valid : Valid layout.n pairs)
    (image : ∀ x < layout.n, layout.image x = BalancedMove.image pairs x) : Permutes layout := by
  constructor
  · intro x inside
    rw [image x inside]
    exact valid.image_lt inside
  · intro x left y right equal
    rw [image x left,image y right] at equal
    exact valid.image_injective left right equal

/-- The workers with their shares of the pairs, in front of their own passes. -/
def Parallel.lineUp (width : Width) (n a workers : Nat) (pairs : List Pair) :
    Outcome (List Worker) := do
  let bounds ← rangeBounds n workers
  let cut ← pieces width n bounds.toArray pairs
  assemble width a bounds.toArray cut

theorem lineUp_eq {begun : List Worker} (small : n < width.limit) (enough : 2 ≤ a)
    (positive : 0 < workers) (most : workers ≤ n) (fits : n * workers < Width.w128.limit)
    (valid : Valid n pairs)
    (isLayout : layout = Layout.divide width n a workers (image pairs) small enough positive most)
    (assembled : assemble layout.width layout.a layout.bounds (layout.pieces pairs) = .ok begun) :
    Parallel.lineUp width n a workers pairs = .ok begun := by
  subst isLayout
  have bounds := rangeBounds_eq positive fits
  have cut : pieces width n ((List.range (workers + 1)).map fun t => n * t / workers).toArray pairs =
    .ok _ := @pieces_eq (Layout.divide width n a workers (image pairs) small enough positive most)
      pairs valid
  have assembledOk : assemble width a
      ((List.range (workers + 1)).map fun t => n * t / workers).toArray _ = .ok begun := assembled
  simp only [Parallel.lineUp,bounds,lift_ok,Checked.ok_bind,cut]
  rw [assembledOk,lift_ok]

theorem balance_eq {begun team : List Worker} (enough : 2 ≤ a) (positive : 0 < workers)
    (most : workers ≤ Width.w64.saturate n) (accepted : validate width n pairs = .ok ())
    (assembled : Parallel.lineUp width n a workers pairs = .ok begun)
    (run : Rounds.balance width begun = .ok team)
    (sums : BalanceCounts.checkedTotal {} (team.map Worker.counts) =
      .ok (BalanceCounts.total (team.map Worker.counts))) :
    Parallel.balance width n pairs { a, workers } = .ok (team.map (·.balancer.store),
      BalanceCounts.total (team.map Worker.counts)) := by
  have inRange : ¬ (workers = 0 ∨ Width.w64.saturate n < workers) := by omega
  have capable : ¬ a < 2 := Nat.not_lt.mpr enough
  unfold Parallel.lineUp at assembled
  simp only [Parallel.balance,accepted,Parallel.balanceAccepted,inRange,capable,if_false,
    Checked.ok_bind]
  cases ranges : rangeBounds n workers with
  | error fault =>
    rw [ranges] at assembled
    cases assembled
  | ok bounds =>
    rw [ranges,lift_ok,Checked.ok_bind] at assembled
    cases cut : pieces width n bounds.toArray pairs with
    | error fault =>
      rw [cut] at assembled
      cases assembled
    | ok pieces =>
      rw [cut,lift_ok,Checked.ok_bind] at assembled
      simp only [lift_ok,Checked.ok_bind,cut]
      rw [assembled,Checked.ok_bind,run,Checked.ok_bind,sums]
      rfl

/-- A run with several workers, with the records that each store shows in front of it and behind it. -/
structure Together (layout : Layout) (pairs : List Pair) where
  begun : List Worker
  team : List Worker
  told : Nat → Nat → List Pair
  heard : Nat → Nat → List Pair
  inputs : Nat → List Record
  outputs : Nat → List Record
  last : Nat
  valid : Valid layout.n pairs
  sharable : Sharable layout (layout.pieces pairs)
  lined : Parallel.lineUp layout.width layout.n layout.a layout.workers pairs = .ok begun
  lineup : Lineup layout (sharedPairs layout (layout.pieces pairs))
    (fun dst src => sharedPairs layout (layout.pieces pairs) src dst)
    (fun t => (outputsOf layout (layout.pieces pairs) t).length) begun
  starts : ∀ t (inside : t < layout.workers) worker, begun[t]? = some worker →
    worker.Stands layout t inside (sharedPairs layout (layout.pieces pairs) t)
      (fun src => sharedPairs layout (layout.pieces pairs) src t)
      (outputsOf layout (layout.pieces pairs) t).length (inputsOf layout (layout.pieces pairs) t)
      (outputsOf layout (layout.pieces pairs) t)
  run : Rounds.balance layout.width begun = .ok team
  balanced : Parallel.balance layout.width layout.n pairs { a := layout.a, workers := layout.workers } =
    .ok (team.map (·.balancer.store),BalanceCounts.total (team.map Worker.counts))
  finished : Finished layout told heard
    (fun t => (outputsOf layout (layout.pieces pairs) t).length) team inputs outputs
  even : ∀ worker ∈ team, worker.rounds = last
  bound : last ≤ total Worker.messages team

theorem exists_together (small : n < width.limit) (enough : 2 ≤ a) (positive : 0 < workers)
    (most : workers ≤ n) (fits : n * workers < Width.w128.limit) (few : Storable pairs.length)
    (accepted : validate width n pairs = .ok ()) : Nonempty (Together
      (Layout.divide width n a workers (image pairs) small enough positive most) pairs) := by
  obtain ⟨layout,same⟩ : ∃ layout,
    layout = Layout.divide width n a workers (image pairs) small enough positive most := ⟨_,rfl⟩
  rw [← same]
  have valid : Valid layout.n pairs := by
    rw [same]
    exact (validate_iff small).mp accepted
  have sharable : Sharable layout (layout.pieces pairs) := by
    refine sharable_of_lists valid ?_ fun t _ => storable_lists fits few same valid t
    intro x _
    rw [same]
    rfl
  obtain ⟨begun,assembled,lineup,starts⟩ := sharable.lineup
  obtain ⟨team,told,heard,last,run,finish,synced,even,bound,drained⟩ :=
    @Lineup.settles _ _ _ _ _ lineup layout.width layout.small
  obtain ⟨inputs,outputs,finished⟩ := finish.finished synced drained
  have sums := finished.checkedTotal
    (finished.splits_lt fits few same valid sharable.total_outputs)
  have lined : Parallel.lineUp layout.width layout.n layout.a layout.workers pairs = .ok begun := by
    have start := lineUp_eq small enough positive most fits ((validate_iff small).mp accepted) same
      assembled
    subst same
    exact start
  refine ⟨⟨begun,team,told,heard,inputs,outputs,last,valid,sharable,lined,lineup,starts,run,?_,
    finished,even,bound⟩⟩
  subst same
  exact balance_eq enough positive (most_workers most fits) accepted lined run sums

theorem pieces_divide (small : n < width.limit) (enough : 2 ≤ a) (positive : 0 < workers)
    (most : workers ≤ n) (fits : n * workers < Width.w128.limit)
    (accepted : validate width n pairs = .ok ()) : ∃ bounds, rangeBounds n workers = .ok bounds ∧
      pieces width n bounds.toArray pairs = .ok
        ((Layout.divide width n a workers (image pairs) small enough positive most).pieces pairs) :=
  ⟨_,rangeBounds_eq positive fits,@pieces_eq
    (Layout.divide width n a workers (image pairs) small enough positive most) pairs
    ((validate_iff small).mp accepted)⟩

section Delivery

variable (together : Together layout pairs)

include together

theorem Together.splits_eq : (BalanceCounts.total (together.team.map Worker.counts)).splits =
    total (fun worker => worker.balancer.splits) together.team := by
  obtain ⟨splits,_⟩ := total_counts (together.team.map Worker.counts) {}
  rw [BalanceCounts.total,splits,total_map]
  exact Nat.zero_add _

theorem Together.length_inputs : (allInputs layout together.inputs).length =
    (layout.pieces pairs).length +
      (BalanceCounts.total (together.team.map Worker.counts)).splits := by
  rw [← together.finished.agreeing.perm.length_eq,together.finished.length_outputs,
    together.sharable.total_outputs,together.splits_eq]

theorem Together.counts_le {counts : BalanceCounts}
    (isCounts : counts = BalanceCounts.total (together.team.map Worker.counts)) :
    counts.rounds ≤ counts.messages ∧ counts.messages ≤ counts.splits ∧
      counts.splits ≤ layout.n := by
  obtain ⟨splits,messages,rounds⟩ := total_counts (together.team.map Worker.counts) {}
  rw [total_map,Nat.zero_add] at splits messages
  rw [isCounts,BalanceCounts.total,splits,messages]
  refine ⟨?_,?_,?_⟩
  · refine Nat.le_trans (rounds together.last (Nat.zero_le _) fun counts member => ?_) together.bound
    obtain ⟨worker,known,rfl⟩ := List.mem_map.mp member
    exact Nat.le_of_eq (together.even worker known)
  · exact together.finished.messages_le
  · exact total_positions together.finished.length fun t inside worker place =>
      (Worker.Calm.messages_le
        ⟨_,_,together.finished.stands t inside worker place,together.finished.clear t inside⟩).2

theorem Together.presents {t : Nat} {store : Store}
    (place : (together.team.map (·.balancer.store))[t]? = some store) : ∃ listed shown,
      Presents (layout.bound t) (layout.bound (t + 1)) store listed shown := by
  obtain ⟨inside,stop,start,_,holds,tidy⟩ := together.finished.store place
  exact ⟨_,_,together.finished.agreeing.presents inside start stop holds tidy⟩

theorem Together.apart {store : Store} (member : store ∈ together.team.map (·.balancer.store)) :
    ∃ ids listed, store.outputIds = .ok ids ∧ store.pairs = .ok listed ∧
      ∀ id ∈ ids, ∃ node, store.node id = .ok node ∧ (node.twin = none ↔ node.pair ∈ listed) := by
  obtain ⟨t,place⟩ := List.getElem?_of_mem member
  obtain ⟨inside,_,_,_,holds,_⟩ := together.finished.store place
  exact ⟨_,_,holds.outputIds,holds.pairs,together.finished.agreeing.node_twin inside holds⟩

theorem Together.numbered {store : Store} (member : store ∈ together.team.map (·.balancer.store))
    {dst : Nat} (bounded : dst < layout.workers) : ∃ m twins,
      store.twinsInto (layout.bound dst) (layout.bound (dst + 1)) = .ok twins ∧
        twins.Perm (List.range m) := by
  obtain ⟨t,place⟩ := List.getElem?_of_mem member
  obtain ⟨inside,_,_,_,holds,_⟩ := together.finished.store place
  exact ⟨_,together.finished.agreeing.twins inside bounded holds⟩

theorem Together.accepted (positive : 0 < layout.workers)
    (image : ∀ x < layout.n, layout.image x = BalancedMove.image pairs x) : ∃ lists trees,
      (together.team.map (·.balancer.store)).mapM Store.pairs = .ok lists ∧
      (together.team.map (·.balancer.store)).mapM Store.outputPairs = .ok trees ∧
      validate layout.width layout.n lists.flatten = .ok () ∧
      trees.flatten.Perm lists.flatten ∧ trees.flatten.Nodup ∧
      lists.flatten.length = (layout.pieces pairs).length +
        (BalanceCounts.total (together.team.map Worker.counts)).splits := by
  have agreeing := together.finished.agreeing
  have joinedLists : ((List.range layout.workers).map fun t =>
      (together.inputs t).map Record.pair).flatten = allInputs layout together.inputs :=
    List.flatMap_def.symm
  have joinedTrees : ((List.range layout.workers).map fun t =>
      (together.outputs t).map Record.pair).flatten = allInputs layout together.outputs :=
    List.flatMap_def.symm
  refine ⟨_,_,together.finished.lists,together.finished.trees,?_⟩
  rw [joinedLists,joinedTrees,validate_iff layout.small]
  exact ⟨agreeing.valid (permutes_image together.valid image) positive,agreeing.perm,
    agreeing.outputChain.increasing.nodup,together.length_inputs⟩

end Delivery

/-- A parallel run loses, doubles and misplaces nothing. -/
theorem balance_delivers (small : n < width.limit) (enough : 2 ≤ a) (positive : 0 < workers)
    (most : workers ≤ n) (fits : n * workers < Width.w128.limit) (few : Storable pairs.length)
    (accepted : validate width n pairs = .ok ()) :
    ∃ stores counts, Parallel.balance width n pairs { a, workers } = .ok (stores,counts) ∧
      Delivered width n workers pairs stores counts := by
  obtain ⟨together⟩ := exists_together small enough positive most fits few accepted
  obtain ⟨bounds,ranges,shared⟩ := pieces_divide small enough positive most fits accepted
  obtain ⟨lists,trees,listed,shown,valid,same,distinct,length⟩ :=
    together.accepted positive fun _ _ => rfl
  obtain ⟨rounds,messages,_⟩ := together.counts_le rfl
  refine ⟨_,_,together.balanced,?_,fun _ _ place => together.presents place,?_,
    fun _ member => together.apart member,fun _ member _ bounded => together.numbered member bounded,
    rounds,messages⟩
  · rw [List.length_map]
    exact together.finished.length
  · refine ⟨lists,trees,listed,shown,valid,same,distinct,bounds,_,ranges,cutAtBounds_eq shared,?_⟩
    rw [List.length_map]
    exact length

theorem comb_balance_delivers : ∃ stores counts,
    Parallel.balance .w8 8 comb { a := 2, workers := 2 } = .ok (stores,counts) ∧
      Delivered .w8 8 2 comb stores counts :=
  balance_delivers (by decide) (by decide) (by decide) (by decide) (by decide)
    (by decide) comb_accepted

end Runs

end BalancedMove
