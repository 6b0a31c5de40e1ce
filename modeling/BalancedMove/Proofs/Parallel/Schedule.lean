import BalancedMove.Proofs.Parallel.Balance
import BalancedMove.Proofs.Parallel.Duration
import BalancedMove.Proofs.Parallel.Lockstep

/-! All schedules agree. Whoever does not wait for the barrier has a step, and not everyone can wait for
it; what is read, received and left at the end is what the course says. So the answer of the run in
lockstep is the answer of every schedule. -/
namespace BalancedMove

open Sequence

variable {p : Nat}

section Progress

variable {course : Course p} {system : Exchange p} {log : List (Event p)} {t u : Fin p}
variable {process : Process p}
variable (tracks : course.Tracks system log) (here : system.process t = process)

theorem Process.met_le (process : Process p) (dst : Fin p) :
    process.met ≤ 2 * process.handed dst + 1 := by
  unfold Process.met Process.handed
  cases process.stage with
  | flushing receivers =>
    simp only [Stage.met,Stage.handed]
    omega
  | meeting again => cases again <;> simp only [Stage.met,Stage.handed] <;> omega
  | waiting again generation => cases again <;> simp only [Stage.met,Stage.handed] <;> omega
  | _ =>
    simp only [Stage.met,Stage.handed]
    omega

theorem Barrier.Admits.le {barrier : Barrier} (admits : barrier.Admits process) :
    barrier.generation ≤ process.met := by
  unfold Barrier.Admits at admits
  split at admits <;> omega

include tracks

theorem Course.Tracks.finished_met (here : system.process t = process)
    (stage : process.stage = .finished) : system.barrier.generation = 2 * course.last + 2 := by
  have follows := tracks.follows t
  have now := tracks.now here (by simp [stage])
  rw [here] at follows
  simp only [Course.Follows,stage] at follows
  rw [← now,Process.met,stage,follows.2]
  rfl

include here

theorem Course.Tracks.listens {receivers : List (Fin p)} (stage : process.stage = .flushing receivers) :
    (system.process u).stage ≠ .finished := by
  intro done
  have follows := tracks.follows t
  have now := tracks.now here (by simp [stage])
  have ended := tracks.finished_met rfl done
  rw [here] at follows
  simp only [Course.Follows,stage] at follows
  have inside := follows.inside
  simp only [Process.met,stage,Stage.met] at now
  omega

/-- Whoever receives finds a batch, for everyone has handed over in this round. -/
theorem Course.Tracks.waits {src : Fin p} {rest : List (Fin p)}
    (stage : process.stage = .receiving [] (src :: rest)) :
    ∃ batch later, system.queue src t = batch :: later := by
  have follows := tracks.follows t
  have now := tracks.now here (by simp [stage])
  have mine := tracks.queued.queues src t
  rw [here] at follows mine
  simp only [Course.Follows,stage] at follows
  have least := (tracks.meets.admits src).le
  have most := (system.process src).met_le t
  have begun := follows.begun
  cases queue : system.queue src t with
  | cons batch later => exact ⟨batch,later,rfl⟩
  | nil =>
    have lengths := congrArg List.length (mine (follows.others src (by simp)))
    simp [queue,Process.taken,Stage.awaits,stage] at lengths
    simp only [Process.met,stage,Stage.met] at now
    omega

theorem Course.Tracks.busy (lockstep : course.Lockstep) (unfinished : process.stage ≠ .finished)
    (idle : ∀ again generation, process.stage ≠ .waiting again generation) :
    ∃ event after, Step system event after := by
  have follows := tracks.follows t
  rw [here] at follows
  cases stage : process.stage with
  | sweeping =>
    simp only [Course.Follows,stage] at follows
    have swept := lockstep.swept t
    rw [← follows.1] at swept
    exact ⟨_,_,.sweep system t process _ here stage swept⟩
  | flushing receivers =>
    cases receivers with
    | nil => exact ⟨_,_,.add system t process here stage⟩
    | cons dst rest =>
      exact ⟨_,_,.flush system t dst process rest _ _ here stage (tracks.listens here stage) rfl⟩
  | meeting again => exact ⟨_,_,.arrive system t process again here stage⟩
  | waiting again generation => exact absurd stage (idle again generation)
  | reading => exact ⟨_,_,.read system t process here stage⟩
  | receiving pending senders =>
    cases pending with
    | nil =>
      cases senders with
      | nil => exact ⟨_,_,.turn system t process here stage⟩
      | cons src rest =>
        obtain ⟨batch,later,queue⟩ := tracks.waits here stage
        exact ⟨_,_,.receive system t src process rest batch later here stage queue⟩
    | cons entry pending =>
      obtain ⟨src,message⟩ := entry
      simp only [Course.Follows,stage] at follows
      have leads := follows.leads
      rw [Worker.linkEach,List.foldlM_cons] at leads
      obtain ⟨_,first,_⟩ := Checked.bind_success leads
      obtain ⟨worker,linked,_⟩ := Checked.bind_success first
      exact ⟨_,_,.link system t src process message pending senders worker here stage linked⟩
  | finished => exact absurd stage unfinished

omit tracks in
theorem released {again : Bool} {generation : Nat} (stage : process.stage = .waiting again generation)
    (past : generation ≠ system.barrier.generation) : ∃ event after, Step system event after := by
  cases again with
  | false => exact ⟨_,_,.leave system t process generation here stage past⟩
  | true =>
    by_cases same : process.total = process.seen
    · exact ⟨_,_,.finish system t process generation here stage past same⟩
    · exact ⟨_,_,.proceed system t process generation here stage past same⟩

omit here in
/-- As long as some process has not finished, some process has a step. -/
theorem Course.Tracks.goes_on (lockstep : course.Lockstep)
    (unfinished : (system.process t).stage ≠ .finished) : ∃ event after, Step system event after := by
  by_contra stuck
  have waits : ∀ u, (system.process u).stage ≠ .finished →
      ∃ again, (system.process u).stage = .waiting again system.barrier.generation := by
    intro u more
    by_contra free
    refine stuck (tracks.busy rfl lockstep more fun again generation stage => ?_)
    by_cases current : generation = system.barrier.generation
    · exact free ⟨again,current ▸ stage⟩
    · exact stuck (released rfl stage current)
  -- nobody has finished, for then the one that waits would be in a round behind the last
  have all : ∀ u, (system.process u).stage ≠ .finished := by
    intro u done
    have ended := tracks.finished_met rfl done
    obtain ⟨again,stage⟩ := waits t unfinished
    have follows := tracks.follows t
    have admits := tracks.meets.admits t
    simp only [Barrier.Admits,stage,Process.met] at admits
    cases again <;> simp only [Course.Follows,stage,Stage.met] at follows admits
    · have inside := follows.inside
      omega
    · omega
  have full : total (fun u => if (system.process u).met = system.barrier.generation + 1 then 1 else 0)
      (List.finRange p) = total (fun _ => 1) (List.finRange p) := by
    refine total_congr fun u _ => if_pos ?_
    obtain ⟨again,stage⟩ := waits u (all u)
    have admits := tracks.meets.admits u
    simp only [Barrier.Admits,stage] at admits
    exact admits.1
  have below := tracks.meets.below
  rw [tracks.meets.arrived,full,total_one,List.length_finRange] at below
  exact Nat.lt_irrefl _ below

end Progress

section Answers

/-- What every schedule has to show, whatever has happened so far. -/
structure Agrees (stores : List Store) (counts : BalanceCounts) (log : List (Event p))
    (system : Exchange p) : Prop where
  live : ∀ t, (system.process t).stage ≠ .finished → ∃ event after, Step system event after
  totals : ∀ t u round first second, .read t round first ∈ log → .read u round second ∈ log →
    first = second
  exits : ∀ t u first second, .ended t first ∈ log → .ended u second ∈ log → first = second
  beyond : ∀ t u last round amount, .ended t last ∈ log → .read u round amount ∈ log →
    round ≤ last
  paired : ∀ dst src round batch, .received dst src round batch ∈ log →
    .flushed src dst round batch ∈ log ∧
      ∀ other, .flushed src dst round other ∈ log → other = batch
  outboxes : (∀ t, (system.process t).stage = .finished) → ∀ t (batch : Batch),
    batch ∈ (system.process t).worker.balancer.router.staged → batch = #[]
  queues : (∀ t, (system.process t).stage = .finished) → ∀ src dst,
    ∀ batch ∈ system.queue src dst, batch = #[]
  answer : (∀ t, (system.process t).stage = .finished) →
    stores = List.ofFn (fun t => (system.process t).worker.balancer.store) ∧
    counts = BalanceCounts.total (List.ofFn fun t => (system.process t).worker.counts)

variable {course : Course p} {system : Exchange p} {log : List (Event p)}

theorem Course.Lockstep.ends (lockstep : course.Lockstep) (positive : 0 < p)
    (runs : Runs (Exchange.start course.begun) log system) : ∃ last final,
      Runs (Exchange.start course.begun) last final ∧ ∀ t, (final.process t).stage = .finished := by
  obtain ⟨left,owed⟩ : ∃ left, left =
    total (fun t => course.owes t (system.process t)) (List.finRange p) := ⟨_,rfl⟩
  induction left using Nat.strong_induction_on generalizing log system with
  | _ left ih =>
    by_cases done : ∀ t, (system.process t).stage = .finished
    · exact ⟨log,system,runs,done⟩
    · obtain ⟨t,unfinished⟩ := not_forall.mp done
      have tracks := lockstep.tracks positive runs
      obtain ⟨event,after,step⟩ := tracks.goes_on lockstep unfinished
      have shorter := tracks.shortens lockstep step
      exact ih _ (by omega) (runs.step step) rfl

theorem Course.Tracks.final (tracks : course.Tracks system log)
    (ended : ∀ t, (system.process t).stage = .finished) (t : Fin p) :
    (system.process t).worker = course.emptied course.last t ∧
      (system.process t).round = course.last := by
  have follows := tracks.follows t
  simp only [Course.Follows,ended t] at follows
  exact ⟨follows.2 ▸ follows.1.worker,follows.2⟩

theorem Course.Tracks.queue_final (tracks : course.Tracks system log) (lockstep : course.Lockstep)
    (ended : ∀ t, (system.process t).stage = .finished) (src dst : Fin p) :
    ∀ batch ∈ system.queue src dst, batch = #[] := by
  intro batch member
  by_cases differ : src = dst
  · subst differ
    rw [tracks.queued.own src] at member
    cases member
  · have queues := tracks.queued.queues src dst differ
    have taken : (system.process dst).taken src = course.last := by
      rw [Process.taken,(tracks.final ended dst).2,ended dst]
      rfl
    have handed : (system.process src).handed dst = course.last + 1 := by
      rw [Process.handed,(tracks.final ended src).2,ended src]
      rfl
    rw [taken,handed,List.range_succ,List.map_append] at queues
    rw [List.append_cancel_left queues,List.map_singleton,List.mem_singleton,
      lockstep.batch_last differ] at member
    exact member

theorem Course.Tracks.agrees {stores : List Store} {counts : BalanceCounts}
    (tracks : course.Tracks system log) (lockstep : course.Lockstep)
    (left : stores = List.ofFn fun t => (course.emptied course.last t).balancer.store)
    (counted : counts =
      BalanceCounts.total (List.ofFn fun t => (course.emptied course.last t).counts))
    (drained : ∀ t (batch : Batch),
      batch ∈ (course.emptied course.last t).balancer.router.staged → batch = #[]) :
    Agrees stores counts log system := by
  have right := tracks.logged.right
  refine ⟨fun t unfinished => tracks.goes_on lockstep unfinished,?_,?_,?_,?_,?_,
    fun ended => tracks.queue_final lockstep ended,?_⟩
  · intro t u round first second one other
    exact (right _ one).1.trans (right _ other).1.symm
  · intro t u first second one other
    exact Eq.trans (right _ one) (right _ other).symm
  · intro t u last round amount one other
    have ends : last = course.last + 1 := right _ one
    exact ends ▸ (right _ other).2
  · intro dst src round batch received
    have flushed := tracks.logged.paired dst src round batch received
    exact ⟨flushed,fun other again => Eq.trans (right _ again) (right _ flushed).symm⟩
  · intro ended t batch member
    rw [(tracks.final ended t).1] at member
    exact drained t batch member
  · intro ended
    have same : ∀ t, (system.process t).worker = course.emptied course.last t :=
      fun t => (tracks.final ended t).1
    simp only [same]
    exact ⟨left,counted⟩

end Answers

section Schedules

variable {width : Width} {n a workers : Nat} {pairs : List Pair}

theorem exists_ofFn {α : Type} {items : List α} (length : items.length = p) :
    ∃ item : Fin p → α, items = List.ofFn item := by
  subst length
  exact ⟨items.get,(List.ofFn_get items).symm⟩

variable {layout : Layout}

theorem Together.exists_course (together : Together layout pairs) : ∃ course : Course layout.workers,
    together.begun = List.ofFn course.begun ∧
      together.team = List.ofFn (course.emptied course.last) ∧ course.Lockstep := by
  obtain ⟨start,begun⟩ := exists_ofFn together.lineup.length
  have run := together.run
  have lineup := together.lineup
  rw [begun] at run lineup
  have index : ∀ t, (start t).index = t := by
    intro t
    obtain ⟨_,_,stands⟩ := lineup.stands t t.isLt (start t) (by simp)
    exact stands.index
  have rounds : ∀ t, (start t).rounds = 0 := fun t => lineup.fresh _ (List.mem_ofFn.mpr ⟨t,rfl⟩)
  obtain ⟨course,rfl,lockstep,ended⟩ := balance_course run index rounds
  exact ⟨course,begun,ended,lockstep⟩

theorem Together.staged_nil (together : Together layout pairs) {final : Fin layout.workers → Worker}
    (ended : together.team = List.ofFn final) {t : Fin layout.workers} {batch : Batch}
    (member : batch ∈ (final t).balancer.router.staged) : batch = #[] := by
  have place : together.team[t.val]? = some (final t) := by
    rw [ended]
    simp
  have stands := together.finished.stands t t.isLt _ place
  obtain ⟨i,bound,rfl⟩ := Array.mem_iff_getElem.mp member
  have receiver : i < layout.workers := stands.steady.routed.size ▸ bound
  have drained := together.finished.drained _ (List.mem_of_getElem? place) i receiver
  rw [Outgoing.batch,Array.getD_eq_getD_getElem?,Array.getElem?_eq_getElem bound] at drained
  exact Array.toList_eq_nil_iff.mp drained

/-- Every schedule of the workers comes to an end, goes on until all have finished, pairs batches and
totals by rounds, and leaves what the run in lockstep leaves. -/
theorem schedules_agree (small : n < width.limit) (enough : 2 ≤ a) (positive : 0 < workers)
    (most : workers ≤ n) (fits : n * workers < Width.w128.limit) (few : Storable pairs.length)
    (accepted : validate width n pairs = .ok ()) :
    ∃ (begun : Fin workers → Worker) (stores : List Store) (counts : BalanceCounts) (steps : Nat),
      Parallel.lineUp width n a workers pairs = .ok (List.ofFn begun) ∧
      Parallel.balance width n pairs { a, workers } = .ok (stores,counts) ∧
      ∀ log system, Runs (Exchange.start begun) log system →
        log.length ≤ steps ∧ Agrees stores counts log system := by
  obtain ⟨together⟩ := exists_together small enough positive most fits few accepted
  obtain ⟨course,begun,ended,lockstep⟩ := together.exists_course
  refine ⟨course.begun,_,_,course.duration,begun ▸ together.lined,together.balanced,
    fun log system runs => ?_⟩
  refine ⟨Nat.le.intro (lockstep.duration_eq positive runs),?_⟩
  refine (lockstep.tracks positive runs).agrees lockstep ?_ ?_ ?_
  · rw [ended,List.map_ofFn]
    rfl
  · rw [ended,List.map_ofFn]
    rfl
  · exact fun t batch member => together.staged_nil ended member

theorem comb_schedules_agree : ∃ (begun : Fin 2 → Worker) (stores : List Store)
    (counts : BalanceCounts) (steps : Nat),
      Parallel.lineUp .w8 8 2 2 comb = .ok (List.ofFn begun) ∧
      Parallel.balance .w8 8 comb { a := 2, workers := 2 } = .ok (stores,counts) ∧
      ∀ log system, Runs (Exchange.start begun) log system →
        log.length ≤ steps ∧ Agrees stores counts log system :=
  schedules_agree (by decide) (by decide) (by decide) (by decide) (by decide)
    (by decide) comb_accepted

end Schedules

end BalancedMove
