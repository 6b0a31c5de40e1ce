import BalancedMove.Proofs.Parallel.Total

/-! Counters and memory. Lists, subtrees, starts, splits, messages and numbers of shared pairs are
counted by numbers of 64 bits. None of them exceeds the nodes of the arena beside it, and an arena never
holds more than twice the pairs, or the pieces, that the run began with. So as long as these fit the
memory, no counter leaves 64 bits, in whatever order the workers take their steps. -/
namespace BalancedMove

open Sequence Store Balancer

structure Store.Within (store : Store) (most : Nat) : Prop where
  listed : store.list.length ≤ most
  subtrees : ∀ ids, store.outputIds = .ok ids → ∀ id ∈ ids, ∃ node,
    store.node id = .ok node ∧ node.size ≤ most

theorem Store.Holds.within {store : Store} {inputs outputs : List Record}
    (holds : store.Holds inputs outputs) : store.Within store.arena.size := by
  refine ⟨?_,fun ids read id member => ?_⟩
  · rw [holds.list.length]
    exact holds.list.length_le
  · obtain rfl := Except.ok.inj (holds.outputIds.symm.trans read)
    obtain ⟨node,known,size⟩ := holds.tree.size_le member
    exact ⟨node,known,Nat.le_trans size holds.tree.length_le⟩

/-- A search counts no more starts than the arena has nodes, wherever it begins and however far it gets. -/
theorem Store.Holds.tally_le {store : Store} {inputs outputs : List Record} {r : Record} {low stop : Nat}
    (holds : store.Holds inputs outputs) (sorted : Increasing Record.p inputs) (member : r ∈ inputs)
    (above : low ≤ r.p) (inside : r.p < stop) (more : Nat) :
    ∃ tally, store.countOn stop more (tallyAt inputs low r) = .ok tally ∧
      tally.count ≤ store.arena.size := by
  obtain ⟨last,_,counted,_,_,number⟩ := countOn_tallies holds.lists sorted member above inside more
  have most : count Record.p inputs low stop ≤ inputs.length := count_le_length low stop
  have nodes := holds.list.length_le
  rw [List.length_map] at nodes
  refine ⟨_,counted,?_⟩
  rw [tallyAt_count,number]
  omega

/-- One worker splits no more often than the arena has nodes, which are never too many to number. -/
theorem balance_within {width : Width} {n a : Nat} {pairs : List Pair} (small : n < width.limit)
    (enough : 2 ≤ a) (few : Storable pairs.length) (accepted : validate width n pairs = .ok ()) :
    ∃ store after counts, Store.load width n pairs = .ok store ∧
      store.balance a = .ok (after,counts) ∧ after.Within after.arena.size ∧
      counts.splits ≤ after.arena.size ∧ after.arena.size < Width.w64.limit := by
  obtain ⟨store,outputs,loaded,whole,_,_,size⟩ := load_numbered small accepted
  have length := congrArg List.length (map_pair_numbered 0 pairs)
  rw [List.length_map] at length
  obtain ⟨after,number,_,_,balanced,steady,progress,_⟩ :=
    whole.balance_eq enough (length ▸ few.addressable)
  have double := (whole.number_le enough progress.run).2
  have grown := progress.size
  refine ⟨store,after.store,_,loaded,balanced,steady.holds.within,?_,?_⟩
  · change number ≤ _
    omega
  · unfold Storable at few
    simp only at grown
    omega

structure Worker.Within (worker : Worker) (workers most : Nat) : Prop where
  store : worker.balancer.store.Within most
  splits : worker.balancer.splits ≤ most
  messages : worker.messages ≤ most
  numbers : ∀ dst < workers, ∃ number,
    worker.balancer.router.nextNumber[dst]? = some number ∧ number ≤ most

theorem Worker.Stands.within {layout : Layout} {t base : Nat} {inside : t < layout.workers}
    {handed known : Nat → List Pair} {worker : Worker} {inputs outputs : List Record}
    (stands : worker.Stands layout t inside handed known base inputs outputs) :
    worker.Within layout.workers worker.balancer.store.arena.size := by
  have channels := stands.steady.routed
  have owed := channels.owed
  have grown := stands.grown
  have nodes := stands.steady.holds.tree.length_le
  rw [List.length_map] at nodes
  refine ⟨stands.steady.holds.within,by omega,by omega,fun dst receiver => ?_⟩
  exact ⟨_,channels.next dst receiver,Nat.le_trans (channels.length_le receiver) nodes⟩

section Schedules

variable {p : Nat} {layout : Layout} {pairs : List Pair}

theorem Exchange.Consistent.crew {base : Nat → Nat} {first : Nat → List Record}
    {handed known : Fin p → Nat → List Pair} {system : Exchange p}
    (consistent : system.Consistent layout base first handed known) (size : layout.workers = p) :
    ∃ told heard inputs outputs, Crew layout told heard base inputs outputs ∧
      ∀ (t : Fin p) (inside : t.val < layout.workers), (system.process t).worker.Stands layout t inside
        (handed t) (heard t) (base t) (inputs t) (outputs t) := by
  subst size
  have each : ∀ t < layout.workers, ∃ (told heard : Nat → List Pair) (inputs outputs : List Record),
      ∀ inside : t < layout.workers,
        told = (system.process ⟨t,inside⟩).worker.balancer.router.shared (handed ⟨t,inside⟩) ∧
        heard = known ⟨t,inside⟩ ∧ (system.process ⟨t,inside⟩).worker.Stands layout t inside
          (handed ⟨t,inside⟩) heard (base t) inputs outputs := by
    intro t inside
    obtain ⟨inputs,outputs,stands,_⟩ := (consistent.stands ⟨t,inside⟩ inside).worker
    exact ⟨(system.process ⟨t,inside⟩).worker.balancer.router.shared (handed ⟨t,inside⟩),
      known ⟨t,inside⟩,inputs,outputs,fun _ => ⟨rfl,rfl,stands⟩⟩
  choose! told heard inputs outputs facts using each
  refine ⟨told,heard,inputs,outputs,⟨fun t inside => ?_,fun src sender dst receiver differ => ?_⟩,
    fun t inside => (facts t inside inside).2.2⟩
  · obtain ⟨told,_,stands⟩ := facts t inside inside
    exact ⟨_,_,stands,fun dst _ => by rw [told]⟩
  · -- what was heard was handed over, and what is handed over counts as told
    have handed := consistent.told ⟨src,sender⟩ ⟨dst,receiver⟩ fun same =>
      differ (congrArg Fin.val same)
    rw [(facts src sender sender).1,(facts dst receiver receiver).2.1,Outgoing.shared,handed,
      List.append_assoc]
    exact List.subset_append_left _ _

theorem Course.Follows.round_le {course : Course p} {t : Fin p} {process : Process p}
    (follows : course.Follows t process) (fresh : (course.begun t).rounds = 0) :
    process.round ≤ course.last := by
  unfold Course.Follows at follows
  cases stage : process.stage with
  | sweeping =>
    simp only [stage] at follows
    rw [Process.round,follows.1,fresh]
    exact Nat.zero_le _
  | flushing receivers =>
    simp only [stage] at follows
    exact follows.inside
  | meeting again | waiting again generation =>
    cases again
    · simp only [stage] at follows
      exact follows.inside
    · simp only [stage] at follows
      exact follows.1.inside
  | reading =>
    simp only [stage] at follows
    exact follows.inside
  | receiving pending senders =>
    simp only [stage] at follows
    exact follows.inside
  | finished =>
    simp only [stage] at follows
    exact follows.1.inside

/-- The last round of the course is the last one of the run, and there are no more rounds than splits. -/
theorem Together.last_le (together : Together layout pairs) (positive : 0 < layout.workers)
    {course : Course layout.workers} (lockstep : course.Lockstep)
    (ended : together.team = List.ofFn (course.emptied course.last)) :
    course.last ≤ total (fun worker => worker.balancer.splits) together.team := by
  have same : course.last = together.last := by
    rw [← together.even (course.emptied course.last ⟨0,positive⟩) (by rw [ended]; simp),
      Course.emptied,Worker.rounds_handEach,lockstep.rounds course.last (Nat.le_refl _)]
  rw [same]
  exact Nat.le_trans together.bound together.finished.messages_le

variable {width : Width} {n a workers : Nat}

/-- No counter of a worker leaves 64 bits, in whatever order the workers take their steps. -/
theorem counters_fit (small : n < width.limit) (enough : 2 ≤ a) (positive : 0 < workers)
    (most : workers ≤ n) (fits : n * workers < Width.w128.limit) (few : Storable pairs.length)
    (accepted : validate width n pairs = .ok ()) {bounds : List Nat} {cut : List Pair}
    (ranges : rangeBounds n workers = .ok bounds)
    (shared : cutAtBounds width n bounds.toArray pairs = .ok cut) (roomy : Storable cut.length) :
    ∃ begun : Fin workers → Worker, Parallel.lineUp width n a workers pairs = .ok (List.ofFn begun) ∧
      ∀ log system, Runs (Exchange.start begun) log system → ∀ t,
        let worker := (system.process t).worker
        worker.Within workers worker.balancer.store.arena.size ∧
          worker.balancer.store.arena.size < Width.w64.limit ∧ worker.rounds < Width.w64.limit := by
  obtain ⟨together⟩ := exists_together small enough positive most fits few accepted
  obtain ⟨course,begun,ended,lockstep⟩ := together.exists_course
  obtain ⟨_,sameRanges,pieces⟩ := pieces_divide small enough positive most fits accepted
  obtain rfl := Except.ok.inj (sameRanges.symm.trans ranges)
  have isCut := Except.ok.inj ((cutAtBounds_eq pieces).symm.trans shared)
  refine ⟨course.begun,begun ▸ together.lined,fun log system runs t => ?_⟩
  obtain ⟨told,heard,consistent⟩ := (together.consistent begun).runs rfl runs
  obtain ⟨_,_,_,_,crew,stands⟩ := consistent.crew rfl
  refine ⟨(stands t t.isLt).within,?_,?_⟩
  · have nodes := crew.arena_le (stands t t.isLt)
    have double := crew.length_le
    rw [together.sharable.total_outputs] at double
    rw [← isCut,List.length_map] at roomy
    unfold Storable at roomy
    omega
  · have round := ((lockstep.tracks positive runs).follows t).round_le (lockstep.fresh t)
    have last := together.last_le positive lockstep ended
    have splits := together.finished.splits_lt fits few rfl together.valid
      together.sharable.total_outputs
    unfold Process.round at round
    omega

end Schedules

end BalancedMove
