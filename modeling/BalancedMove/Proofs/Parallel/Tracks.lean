import BalancedMove.Proofs.Parallel.Course

/-! Every order of steps follows the course. Each process is where the course has it in the round that
its own counter shows; its counters say how many batches it has handed over and received, how often it
has added to the sum and how often it has arrived at the barrier. The barrier keeps the arrivals of all
processes within one of each other, and so all else together. -/
namespace BalancedMove

open Sequence

variable {p : Nat}

namespace Stage

/-- Batches handed over in a round whose number is not counted yet. -/
def handed (stage : Stage p) (dst : Fin p) : Nat :=
  match stage with
  | .sweeping | .receiving _ _ => 0
  | .flushing receivers => if dst ∈ receivers then 0 else 1
  | .meeting _ | .waiting _ _ | .reading | .finished => 1

/-- Batches of the counted rounds still to be received. -/
def awaits (stage : Stage p) (src : Fin p) : Nat :=
  match stage with
  | .receiving _ senders => if src ∈ senders then 1 else 0
  | _ => 0

def counted : Stage p → Nat
  | .sweeping | .flushing _ | .receiving _ _ => 0
  | .meeting _ | .waiting _ _ | .reading | .finished => 1

def met : Stage p → Nat
  | .sweeping | .flushing _ | .meeting false | .receiving _ _ => 0
  | .waiting false _ | .reading | .meeting true => 1
  | .waiting true _ | .finished => 2

end Stage

namespace Process

variable (process : Process p)

def round : Nat := process.worker.rounds

def handed (dst : Fin p) : Nat := process.round + process.stage.handed dst

def taken (src : Fin p) : Nat := process.round - process.stage.awaits src

def counted : Nat := process.round + process.stage.counted

def met : Nat := 2 * process.round + process.stage.met

end Process

/-- A process either waits for the end of a generation, or has arrived once in each one before. -/
def Barrier.Admits (barrier : Barrier) (process : Process p) : Prop :=
  match process.stage with
  | .waiting _ generation => process.met = generation + 1 ∧
      (generation = barrier.generation ∨ generation + 1 = barrier.generation)
  | _ => process.met = barrier.generation

section Following

variable (course : Course p) (t : Fin p) (process : Process p)

structure Course.Flushing (receivers : List (Fin p)) : Prop where
  inside : process.round ≤ course.last
  seen : process.seen = course.sum process.round
  distinct : receivers.Nodup
  others : ∀ dst ∈ receivers, dst ≠ t
  batches : ∀ dst ∈ receivers,
    (process.worker.handOver dst).1 = course.batch process.round t dst
  leaves : process.worker.handEach receivers = course.emptied process.round t
  sent : process.sent + total (fun dst => (course.batch process.round t dst).size) receivers =
    course.sent process.round t

structure Course.Emptied : Prop where
  inside : process.round ≤ course.last
  seen : process.seen = course.sum process.round
  worker : process.worker = course.emptied process.round t
  sent : process.sent = 0

structure Course.Receiving (pending : List (Fin p × Message)) (senders : List (Fin p)) : Prop where
  begun : 0 < process.round
  inside : process.round ≤ course.last
  seen : process.seen = course.sum process.round
  distinct : senders.Nodup
  others : ∀ src ∈ senders, src ≠ t
  sent : process.sent = 0
  /-- what is left to do leads to the next state of the course -/
  leads : (process.worker.linkEach pending >>=
    course.receiveFrom (process.round - 1) t senders) = .ok (course.state process.round t)

def Course.Follows : Prop :=
  match process.stage with
  | .sweeping => process.worker = course.begun t ∧ process.seen = 0 ∧ process.sent = 0
  | .flushing receivers => course.Flushing t process receivers
  | .meeting false | .waiting false _ | .reading => course.Emptied t process
  | .meeting true | .waiting true _ =>
      course.Emptied t process ∧ process.total = course.sum (process.round + 1)
  | .receiving pending senders => course.Receiving t process pending senders
  | .finished => course.Emptied t process ∧ process.round = course.last

end Following

section Tracking

variable (course : Course p) (process : Fin p → Process p)

/-- What was handed over is what was received and what is in the queue, in this order. -/
structure Course.Queued (queue : Fin p → Fin p → List Batch) : Prop where
  own : ∀ t, queue t t = []
  queues : ∀ src dst, src ≠ dst →
    (List.range ((process dst).taken src)).map (fun round => course.batch round src dst) ++
        queue src dst =
      (List.range ((process src).handed dst)).map fun round => course.batch round src dst

def Course.Summed (sum : Nat) : Prop :=
  sum = total (fun t => course.added (process t).counted t) (List.finRange p)

structure Barrier.Meets (barrier : Barrier) : Prop where
  admits : ∀ t, barrier.Admits (process t)
  arrived : barrier.arrived = total (fun t =>
    if (process t).met = barrier.generation + 1 then 1 else 0) (List.finRange p)
  below : barrier.arrived < p

def Course.Right : Event p → Prop
  | .flushed src dst round batch => batch = course.batch (round - 1) src dst
  | .read _ round total => total = course.sum round ∧ round ≤ course.last + 1
  | .ended _ round => round = course.last + 1
  | _ => True

structure Course.Logged (log : List (Event p)) : Prop where
  right : ∀ event ∈ log, course.Right event
  present : ∀ src dst, src ≠ dst → ∀ round < (process src).handed dst,
    .flushed src dst (round + 1) (course.batch round src dst) ∈ log
  paired : ∀ dst src round batch, .received dst src round batch ∈ log →
    .flushed src dst round batch ∈ log

/-- The invariant of all schedules. -/
structure Course.Tracks (system : Exchange p) (log : List (Event p)) : Prop where
  follows : ∀ t, course.Follows t (system.process t)
  queued : course.Queued system.process system.queue
  summed : course.Summed system.process system.sum
  meets : system.barrier.Meets system.process
  logged : course.Logged system.process log

end Tracking

section Updates

variable {course : Course p} {all others : Fin p → Process p} {log : List (Event p)}
variable {t u : Fin p} {before after : Process p} {event : Event p}
variable {queue : Fin p → Fin p → List Batch} {sum : Nat} {barrier : Barrier}

structure Process.Level (t : Fin p) (before after : Process p) : Prop where
  handed : ∀ dst, dst ≠ t → after.handed dst = before.handed dst
  taken : ∀ src, src ≠ t → after.taken src = before.taken src
  counted : after.counted = before.counted
  met : after.met = before.met

theorem Course.Follows.update (follows : ∀ u, course.Follows u (all u))
    (next : course.Follows t after) : ∀ u, course.Follows u (Function.update all t after u) := by
  intro u
  by_cases same : u = t
  · subst same
    rw [Function.update_self]
    exact next
  · rw [Function.update_of_ne same]
    exact follows u

theorem Course.Queued.update (queued : course.Queued all queue) (here : all t = before)
    (handed : ∀ dst, dst ≠ t → after.handed dst = before.handed dst)
    (taken : ∀ src, src ≠ t → after.taken src = before.taken src) :
    course.Queued (Function.update all t after) queue := by
  refine ⟨queued.own,fun src dst differ => ?_⟩
  rw [congr_update (fun process => process.handed dst) here fun same =>
      handed dst (same ▸ Ne.symm differ),
    congr_update (fun process => process.taken src) here fun same => taken src (same ▸ differ)]
  exact queued.queues src dst differ

theorem Course.Queued.hand (queued : course.Queued all queue) (here : all t = before) {dst : Fin p}
    (other : dst ≠ t) {batch : Batch} (isBatch : batch = course.batch (before.handed dst) t dst)
    (grown : after.handed dst = before.handed dst + 1)
    (handed : ∀ e, e ≠ dst → after.handed e = before.handed e)
    (taken : ∀ src, src ≠ t → after.taken src = before.taken src) :
    course.Queued (Function.update all t after)
      fun s d => if s = t ∧ d = dst then queue t dst ++ [batch] else queue s d := by
  refine ⟨fun u => ?_,fun src e differ => ?_⟩
  · rw [if_neg fun both => other (both.2.symm.trans both.1)]
    exact queued.own u
  · rw [congr_update (fun process => process.taken src) here fun same => taken src (same ▸ differ)]
    by_cases place : src = t ∧ e = dst
    · obtain ⟨rfl,rfl⟩ := place
      have before := queued.queues src e differ
      rw [here] at before
      rw [if_pos ⟨rfl,rfl⟩,Function.update_self,grown,List.range_succ,List.map_append,← before,
        ← List.append_assoc,isBatch]
      rfl
    · rw [if_neg place,congr_update (fun process => process.handed e) here fun same =>
        handed e fun equal => place ⟨same,equal⟩]
      exact queued.queues src e differ

theorem range_cons {β : Type} {f : Nat → β} {k m : Nat} {x : β} {later : List β}
    (same : (List.range k).map f ++ x :: later = (List.range m).map f) :
    k < m ∧ x = f k ∧ (List.range (k + 1)).map f ++ later = (List.range m).map f := by
  have lengths := congrArg List.length same
  have entry := congrArg (fun items : List β => items[k]?) same
  simp only [List.length_append,List.length_map,List.length_range,List.length_cons] at lengths
  have inside : k < m := by omega
  simp [inside] at entry
  refine ⟨inside,entry,?_⟩
  rw [← same,List.range_succ,List.map_append,List.append_assoc,entry]
  rfl

theorem Course.Queued.head (queued : course.Queued all queue) (here : all t = before) {src : Fin p}
    (other : src ≠ t) {batch : Batch} {later : List Batch} (waits : queue src t = batch :: later) :
    before.taken src < (all src).handed t ∧ batch = course.batch (before.taken src) src t ∧
      (List.range (before.taken src + 1)).map (fun round => course.batch round src t) ++ later =
        (List.range ((all src).handed t)).map fun round => course.batch round src t := by
  have mine := queued.queues src t other
  rw [here,waits] at mine
  exact range_cons mine

theorem Course.Queued.take (queued : course.Queued all queue) (here : all t = before) {src : Fin p}
    (other : src ≠ t) {batch : Batch} {later : List Batch} (waits : queue src t = batch :: later)
    (grown : after.taken src = before.taken src + 1)
    (taken : ∀ e, e ≠ src → after.taken e = before.taken e)
    (handed : ∀ dst, dst ≠ t → after.handed dst = before.handed dst) :
    course.Queued (Function.update all t after)
      fun s d => if s = src ∧ d = t then later else queue s d := by
  obtain ⟨_,_,rest⟩ := queued.head here other waits
  refine ⟨fun u => ?_,fun s d differ => ?_⟩
  · rw [if_neg fun both => other (both.1.symm.trans both.2)]
    exact queued.own u
  · rw [congr_update (fun process => process.handed d) here fun same =>
      handed d (same ▸ Ne.symm differ)]
    by_cases place : s = src ∧ d = t
    · obtain ⟨rfl,rfl⟩ := place
      rw [if_pos ⟨rfl,rfl⟩,Function.update_self,grown]
      exact rest
    · rw [if_neg place,congr_update (fun process => process.taken s) here fun same =>
        taken s fun equal => place ⟨equal,same⟩]
      exact queued.queues s d differ

theorem Course.Summed.update (summed : course.Summed all sum) (here : all t = before)
    (counted : after.counted = before.counted) :
    course.Summed (Function.update all t after) sum := by
  refine Eq.trans summed (total_congr fun u _ => ?_)
  rw [congr_update Process.counted here fun _ => counted]

theorem Course.Summed.add (summed : course.Summed all sum) (here : all t = before)
    (counted : after.counted = before.counted + 1) :
    course.Summed (Function.update all t after) (sum + course.sent before.counted t) := by
  have change := @total_change _ (fun u => course.added ((Function.update all t after) u).counted u)
    (fun u => course.added (all u).counted u) (List.finRange p) t (List.nodup_finRange p)
    (List.mem_finRange t) fun u other => by rw [Function.update_of_ne other]
  simp only [Function.update_self,here,counted,course.added_succ] at change
  unfold Course.Summed at summed ⊢
  omega

theorem Barrier.admits_idle (idle : ∀ again generation, after.stage ≠ .waiting again generation) :
    barrier.Admits after ↔ after.met = barrier.generation := by
  unfold Barrier.Admits
  split
  next again generation stage => exact absurd stage (idle again generation)
  next => exact Iff.rfl

theorem Barrier.Meets.update (meets : barrier.Meets all) (here : all t = before)
    (met : after.met = before.met)
    (idle : ∀ again generation, after.stage ≠ .waiting again generation)
    (now : before.met = barrier.generation) : barrier.Meets (Function.update all t after) := by
  refine ⟨fun u => ?_,meets.arrived.trans (total_congr fun u _ => ?_),meets.below⟩
  · by_cases same : u = t
    · subst same
      rw [Function.update_self]
      exact (Barrier.admits_idle idle).mpr (met.trans now)
    · rw [Function.update_of_ne same]
      exact meets.admits u
  · rw [congr_update Process.met here fun _ => met]

/-- One more process arrives. If it is the last one, all the others have arrived before. -/
theorem Barrier.Meets.arrive (meets : barrier.Meets all) (here : all t = before)
    (now : before.met = barrier.generation) (met : after.met = before.met + 1) {again : Bool}
    (stage : after.stage = .waiting again barrier.generation) :
    (barrier.arrive p).Meets (Function.update all t after) := by
  have change := @total_change _
    (fun u => if ((Function.update all t after) u).met = barrier.generation + 1 then 1 else 0)
    (fun u => if (all u).met = barrier.generation + 1 then 1 else 0) (List.finRange p) t
    (List.nodup_finRange p) (List.mem_finRange t) fun u other => by rw [Function.update_of_ne other]
  simp only [Function.update_self,here,met,now,if_true,← meets.arrived] at change
  rw [if_neg (by omega)] at change
  have waits : ∀ u, barrier.Admits (Function.update all t after u) := by
    intro u
    by_cases same : u = t
    · subst same
      rw [Function.update_self]
      simp only [Barrier.Admits,stage]
      exact ⟨by omega,by simp⟩
    · rw [Function.update_of_ne same]
      exact meets.admits u
  have below := meets.below
  -- the last one to arrive begins the next generation, in which nobody has arrived
  by_cases full : barrier.arrived + 1 = p
  · have same : barrier.arrive p = ⟨0,barrier.generation + 1⟩ := if_pos full
    have ones := @total_full _ _ (List.finRange p) (fun u _ => by split <;> omega)
      (change.trans (full.trans List.length_finRange.symm))
    have arrived : ∀ u, (Function.update all t after u).met = barrier.generation + 1 := by
      intro u
      by_contra missing
      have one := ones u (List.mem_finRange u)
      rw [if_neg missing] at one
      omega
    rw [same]
    refine ⟨fun u => ?_,(total_zero fun u _ => if_neg ?_).symm,by simp only; omega⟩
    · have admits := waits u
      have counted := arrived u
      unfold Barrier.Admits at admits ⊢
      split at admits
      next generation _ =>
        exact ⟨admits.1,Or.inr (by simp only; omega)⟩
      next => exact absurd admits (by omega)
    · rw [arrived u]
      simp only
      omega
  · have same : barrier.arrive p = ⟨barrier.arrived + 1,barrier.generation⟩ := if_neg full
    rw [same]
    exact ⟨waits,change.symm,by simp only; omega⟩

theorem Course.Logged.append (logged : course.Logged all log) (right : course.Right event)
    (present : ∀ src dst, src ≠ dst → ∀ round < (others src).handed dst,
      round < (all src).handed dst ∨
        event = .flushed src dst (round + 1) (course.batch round src dst))
    (paired : ∀ dst src round batch, event = .received dst src round batch →
      .flushed src dst round batch ∈ log) : course.Logged others (log ++ [event]) := by
  refine ⟨?_,?_,?_⟩
  · intro other member
    rcases List.mem_append.mp member with before | last
    · exact logged.right other before
    · exact List.mem_singleton.mp last ▸ right
  · intro src dst differ round below
    rcases present src dst differ round below with before | same
    · exact List.mem_append_left _ (logged.present src dst differ round before)
    · exact List.mem_append_right _ (by rw [same]; exact List.mem_singleton_self _)
  · intro dst src round batch member
    rcases List.mem_append.mp member with before | last
    · exact List.mem_append_left _ (logged.paired dst src round batch before)
    · exact List.mem_append_left _ (paired dst src round batch (List.mem_singleton.mp last).symm)

theorem Course.Logged.update (logged : course.Logged all log) (here : all t = before)
    (handed : ∀ dst, dst ≠ t → after.handed dst = before.handed dst) (right : course.Right event)
    (paired : ∀ dst src round batch, event = .received dst src round batch →
      .flushed src dst round batch ∈ log) :
    course.Logged (Function.update all t after) (log ++ [event]) := by
  refine logged.append right (fun src dst differ round below => Or.inl ?_) paired
  rwa [congr_update (fun process => process.handed dst) here fun same =>
    handed dst (same ▸ Ne.symm differ)] at below

end Updates

section Steps

variable {course : Course p} {system : Exchange p} {log : List (Event p)} {t : Fin p}
variable {process : Process p} {event : Event p}

theorem Course.Tracks.put {before : Process p} (tracks : course.Tracks system log)
    (here : system.process t = before) (follows : course.Follows t process)
    (level : before.Level t process)
    (idle : ∀ again generation, process.stage ≠ .waiting again generation)
    (now : before.met = system.barrier.generation) (right : course.Right event)
    (silent : ∀ dst src round batch, event ≠ .received dst src round batch) :
    course.Tracks (system.put t process) (log ++ [event]) :=
  ⟨Course.Follows.update tracks.follows follows,
    tracks.queued.update here level.handed level.taken,tracks.summed.update here level.counted,
    tracks.meets.update here level.met idle now,
    tracks.logged.update here level.handed right fun dst src round batch same =>
      absurd same (silent dst src round batch)⟩

theorem Course.Tracks.now (tracks : course.Tracks system log) (here : system.process t = process)
    (idle : ∀ again generation, process.stage ≠ .waiting again generation) :
    process.met = system.barrier.generation :=
  (Barrier.admits_idle idle).mp (here ▸ tracks.meets.admits t)

theorem Course.Tracks.past (tracks : course.Tracks system log) (here : system.process t = process)
    {again : Bool} {generation : Nat} (stage : process.stage = .waiting again generation)
    (past : generation ≠ system.barrier.generation) :
    process.met = system.barrier.generation := by
  have admits := tracks.meets.admits t
  rw [here] at admits
  simp only [Barrier.Admits,stage] at admits
  omega

theorem Course.flushing_start (inside : process.round ≤ course.last)
    (seen : process.seen = course.sum process.round)
    (worker : process.worker = course.state process.round t) (sent : process.sent = 0) :
    course.Flushing t process (peers t) := by
  refine ⟨inside,seen,nodup_peers t,fun dst member => mem_peers.mp member,?_,?_,?_⟩
  · intro dst _
    rw [worker]
    rfl
  · rw [worker]
    rfl
  · rw [sent,Nat.zero_add]
    rfl

end Steps

section Quiet

variable {course : Course p} {system : Exchange p} {log : List (Event p)} {t : Fin p}
variable {process : Process p}
variable (tracks : course.Tracks system log) (here : system.process t = process)

include tracks here

theorem Course.Tracks.sweep (lockstep : course.Lockstep) {worker : Worker}
    (stage : process.stage = .sweeping) (swept : process.worker.sweep = .ok worker) : course.Tracks
      (system.put t { process with worker, stage := .flushing (peers t) })
      (log ++ [.swept t]) := by
  have follows := tracks.follows t
  have now := tracks.now here (by simp [stage])
  rw [here] at follows
  simp only [Course.Follows,stage] at follows
  obtain ⟨begun,seen,sent⟩ := follows
  rw [begun,lockstep.swept t] at swept
  obtain rfl := Except.ok.inj swept
  have before : process.worker.rounds = 0 := begun ▸ lockstep.fresh t
  have after : (course.state 0 t).rounds = 0 := lockstep.rounds 0 (Nat.zero_le _) t
  refine tracks.put here ?_ ⟨?_,?_,?_,?_⟩ (by simp) now trivial (by simp)
  · refine Course.flushing_start ?_ ?_ ?_ sent
    · simp [Process.round,after]
    · rw [Process.round,after,course.sum_zero,seen]
    · simp only [Process.round,after]
  · intro dst other
    have member : dst ∈ peers t := mem_peers.mpr other
    simp [Process.handed,Stage.handed,Process.round,before,after,stage,member]
  · simp [Process.taken,Stage.awaits,Process.round,before,after,stage]
  · simp [Process.counted,Stage.counted,Process.round,before,after,stage]
  · simp [Process.met,Stage.met,Process.round,before,after,stage]

theorem Course.Tracks.leave {generation : Nat} (stage : process.stage = .waiting false generation)
    (past : generation ≠ system.barrier.generation) : course.Tracks
      (system.put t { process with stage := .reading }) (log ++ [.left t]) := by
  have follows := tracks.follows t
  have now := tracks.past here stage past
  rw [here] at follows
  simp only [Course.Follows,stage] at follows
  refine tracks.put here ?_ ⟨?_,?_,?_,?_⟩ (by simp) now trivial (by simp)
  · exact ⟨follows.inside,follows.seen,follows.worker,follows.sent⟩
  · simp [Process.handed,Stage.handed,Process.round,stage]
  · simp [Process.taken,Stage.awaits,Process.round,stage]
  · simp [Process.counted,Stage.counted,Process.round,stage]
  · simp [Process.met,Stage.met,Process.round,stage]

/-- Between the two barriers of a round everyone has added, and nobody has added again. -/
theorem Course.Tracks.sum_eq (stage : process.stage = .reading) :
    system.sum = course.sum (process.round + 1) := by
  have now := tracks.now here (by simp [stage])
  have mine : process.met = 2 * process.round + 1 := by simp [Process.met,Stage.met,stage]
  refine tracks.summed.trans (total_congr fun u _ => ?_)
  have admits := tracks.meets.admits u
  have counted : (system.process u).counted = process.round + 1 := by
    unfold Barrier.Admits at admits
    cases place : (system.process u).stage with
    | waiting again generation =>
      cases again <;> simp only [place,Process.met,Process.counted,Stage.met,Stage.counted] at * <;>
        omega
    | meeting again =>
      cases again <;> simp only [place,Process.met,Process.counted,Stage.met,Stage.counted] at * <;>
        omega
    | _ =>
      simp only [place,Process.met,Process.counted,Stage.met,Stage.counted] at *
      omega
  rw [counted]

theorem Course.Tracks.read (stage : process.stage = .reading) : course.Tracks
    (system.put t { process with stage := .meeting true, total := system.sum })
    (log ++ [.read t (process.worker.rounds + 1) system.sum]) := by
  have follows := tracks.follows t
  have now := tracks.now here (by simp [stage])
  have sum := tracks.sum_eq here stage
  rw [here] at follows
  simp only [Course.Follows,stage] at follows
  refine tracks.put here ?_ ⟨?_,?_,?_,?_⟩ (by simp) now
    ⟨sum,Nat.succ_le_succ follows.inside⟩ (by simp)
  · exact ⟨⟨follows.inside,follows.seen,follows.worker,follows.sent⟩,sum⟩
  · simp [Process.handed,Stage.handed,Process.round,stage]
  · simp [Process.taken,Stage.awaits,Process.round,stage]
  · simp [Process.counted,Stage.counted,Process.round,stage]
  · simp [Process.met,Stage.met,Process.round,stage]

/-- A process that reads the same sum again is in the last round. -/
theorem Course.Tracks.stops (lockstep : course.Lockstep) {generation : Nat}
    (stage : process.stage = .waiting true generation) (same : process.total = process.seen) :
    process.round = course.last := by
  have follows := tracks.follows t
  rw [here] at follows
  simp only [Course.Follows,stage] at follows
  by_contra early
  have inside := follows.1.inside
  exact lockstep.moving process.round (by omega)
    (follows.2.symm.trans (same.trans follows.1.seen))

theorem Course.Tracks.continues (lockstep : course.Lockstep) {generation : Nat}
    (stage : process.stage = .waiting true generation) (moved : process.total ≠ process.seen) :
    process.round < course.last := by
  have follows := tracks.follows t
  rw [here] at follows
  simp only [Course.Follows,stage] at follows
  have inside := follows.1.inside
  by_contra last
  have equal : process.round = course.last := by omega
  rw [follows.2,follows.1.seen,equal] at moved
  exact moved lockstep.quiet

theorem Course.Tracks.finish (lockstep : course.Lockstep) {generation : Nat}
    (stage : process.stage = .waiting true generation)
    (past : generation ≠ system.barrier.generation) (same : process.total = process.seen) :
    course.Tracks (system.put t { process with stage := .finished })
      (log ++ [.ended t (process.worker.rounds + 1)]) := by
  have follows := tracks.follows t
  have now := tracks.past here stage past
  have last := tracks.stops here lockstep stage same
  rw [here] at follows
  simp only [Course.Follows,stage] at follows
  obtain ⟨emptied,_⟩ := follows
  refine tracks.put here ?_ ⟨?_,?_,?_,?_⟩ (by simp) now (congrArg (· + 1) last) (by simp)
  · exact ⟨⟨emptied.inside,emptied.seen,emptied.worker,emptied.sent⟩,last⟩
  · simp [Process.handed,Stage.handed,Process.round,stage]
  · simp [Process.taken,Stage.awaits,Process.round,stage]
  · simp [Process.counted,Stage.counted,Process.round,stage]
  · simp [Process.met,Stage.met,Process.round,stage]

theorem Course.Tracks.proceed (lockstep : course.Lockstep) {generation : Nat}
    (stage : process.stage = .waiting true generation)
    (past : generation ≠ system.barrier.generation) (moved : process.total ≠ process.seen) :
    course.Tracks (system.put t { process with
      worker := process.worker.nextRound
      stage := .receiving [] (peers t)
      seen := process.total }) (log ++ [.left t]) := by
  have follows := tracks.follows t
  have now := tracks.past here stage past
  have below := tracks.continues here lockstep stage moved
  rw [here] at follows
  simp only [Course.Follows,stage] at follows
  obtain ⟨emptied,read⟩ := follows
  have next : process.worker.nextRound.rounds = process.round + 1 := rfl
  refine tracks.put here ?_ ⟨?_,?_,?_,?_⟩ (by simp) now trivial (by simp)
  · refine ⟨Nat.succ_pos _,below,read,nodup_peers t,fun src member => mem_peers.mp member,
      emptied.sent,?_⟩
    have received := lockstep.received process.round below t
    rw [← emptied.worker] at received
    exact received
  · simp [Process.handed,Stage.handed,Process.round,next,stage]
  · intro src other
    have member : src ∈ peers t := mem_peers.mpr other
    simp [Process.taken,Stage.awaits,Process.round,next,stage,member]
  · simp [Process.counted,Stage.counted,Process.round,next,stage]
  · simp [Process.met,Stage.met,Process.round,next,stage]
    omega

theorem Course.Tracks.link {src : Fin p} {message : Message} {pending : List (Fin p × Message)}
    {senders : List (Fin p)} {worker : Worker}
    (stage : process.stage = .receiving ((src,message) :: pending) senders)
    (linked : process.worker.receive src message = .ok worker) : course.Tracks
      (system.put t { process with worker, stage := .receiving pending senders })
      (log ++ [.linked t src message]) := by
  have follows := tracks.follows t
  have now := tracks.now here (by simp [stage])
  rw [here] at follows
  simp only [Course.Follows,stage] at follows
  have rounds := (Worker.receive_frame linked).2
  have leads := follows.leads
  rw [Worker.linkEach,List.foldlM_cons,linked,Checked.ok_bind] at leads
  refine tracks.put here ?_ ⟨?_,?_,?_,?_⟩ (by simp) now trivial (by simp)
  · refine ⟨?_,?_,?_,follows.distinct,follows.others,follows.sent,?_⟩
    · rw [Process.round,rounds]
      exact follows.begun
    · rw [Process.round,rounds]
      exact follows.inside
    · rw [Process.round,rounds]
      exact follows.seen
    · rw [Process.round,rounds]
      exact leads
  · simp [Process.handed,Stage.handed,Process.round,rounds,stage]
  · simp [Process.taken,Stage.awaits,Process.round,rounds,stage]
  · simp [Process.counted,Stage.counted,Process.round,rounds,stage]
  · simp [Process.met,Stage.met,Process.round,rounds,stage]

theorem Course.Tracks.turn (stage : process.stage = .receiving [] []) : course.Tracks
    (system.put t { process with stage := .flushing (peers t) }) (log ++ [.turned t]) := by
  have follows := tracks.follows t
  have now := tracks.now here (by simp [stage])
  rw [here] at follows
  simp only [Course.Follows,stage] at follows
  refine tracks.put here ?_ ⟨?_,?_,?_,?_⟩ (by simp) now trivial (by simp)
  · exact Course.flushing_start follows.inside follows.seen (Except.ok.inj follows.leads)
      follows.sent
  · intro dst other
    have member : dst ∈ peers t := mem_peers.mpr other
    simp [Process.handed,Stage.handed,Process.round,stage,member]
  · simp [Process.taken,Stage.awaits,Process.round,stage]
  · simp [Process.counted,Stage.counted,Process.round,stage]
  · simp [Process.met,Stage.met,Process.round,stage]

end Quiet

section Loud

variable {course : Course p} {system : Exchange p} {log : List (Event p)} {t : Fin p}
variable {process : Process p}
variable (tracks : course.Tracks system log) (here : system.process t = process)

include tracks here

theorem Course.Tracks.flush {dst : Fin p} {rest : List (Fin p)} {batch : Batch} {worker : Worker}
    (stage : process.stage = .flushing (dst :: rest))
    (handed : process.worker.handOver dst = (batch,worker)) : course.Tracks
      ((system.put t { process with
        worker, stage := .flushing rest, sent := process.sent + batch.size }).setQueue
        t dst (system.queue t dst ++ [batch]))
      (log ++ [.flushed t dst (process.worker.rounds + 1) batch]) := by
  have follows := tracks.follows t
  have now := tracks.now here (by simp [stage])
  rw [here] at follows
  simp only [Course.Follows,stage] at follows
  have isBatch : batch = course.batch process.round t dst := by
    rw [← follows.batches dst (by simp),handed]
  have isWorker : worker = (process.worker.handOver dst).2 := by rw [handed]
  have rounds : worker.rounds = process.worker.rounds := by rw [isWorker,Worker.rounds_handOver]
  have differ : dst ≠ t := follows.others dst (by simp)
  obtain ⟨absent,distinct⟩ := List.nodup_cons.mp follows.distinct
  let next : Process p :=
    { process with worker, stage := .flushing rest, sent := process.sent + batch.size }
  have count : process.handed dst = process.round := by
    simp [Process.handed,Stage.handed,stage]
  have grown : next.handed dst = process.handed dst + 1 := by
    simp [next,Process.handed,Stage.handed,Process.round,rounds,stage,absent]
  have handedElse : ∀ e, e ≠ dst → next.handed e = process.handed e := by
    intro e other
    simp [next,Process.handed,Stage.handed,Process.round,rounds,stage,other]
  have taken : ∀ src, src ≠ t → next.taken src = process.taken src := by
    simp [next,Process.taken,Stage.awaits,Process.round,rounds,stage]
  have round : next.round = process.round := rounds
  refine ⟨Course.Follows.update tracks.follows ?_,
    tracks.queued.hand here differ (count.symm ▸ isBatch) grown handedElse taken,
    tracks.summed.update here ?_,tracks.meets.update here ?_ (by simp) now,?_⟩
  · have leaves := follows.leaves
    have sent := follows.sent
    rw [Worker.handEach_cons,← isWorker] at leaves
    rw [total,← isBatch] at sent
    refine ⟨round ▸ follows.inside,round ▸ follows.seen,distinct,fun e member =>
      follows.others e (by simp [member]),fun e member => ?_,round ▸ leaves,?_⟩
    · have apart : e ≠ dst := fun same => absent (same ▸ member)
      change (worker.handOver e).1 = course.batch next.round t e
      rw [round,isWorker,Worker.handOver_other _ (Fin.val_ne_of_ne apart)]
      exact follows.batches e (by simp [member])
    · change process.sent + batch.size +
        total (fun dst => (course.batch next.round t dst).size) rest = course.sent next.round t
      rw [round]
      omega
  · simp [Process.counted,Stage.counted,Process.round,rounds,stage]
  · simp [Process.met,Stage.met,Process.round,rounds,stage]
  · -- of the batches handed over, this one is the only one that the log did not have
    refine tracks.logged.append isBatch (fun src e apart number below => ?_) (by simp)
    by_cases place : src = t ∧ e = dst
    · obtain ⟨rfl,rfl⟩ := place
      have most : number < process.handed e + 1 := by
        rw [← grown]
        simpa [Exchange.setQueue] using below
      by_cases latest : number = process.round
      · right
        rw [isBatch,latest]
        rfl
      · left
        rw [here]
        omega
    · left
      have same : (Function.update system.process t next src).handed e =
          (system.process src).handed e :=
        congr_update (fun process : Process p => process.handed e) here
          fun same => handedElse e fun equal => place ⟨same,equal⟩
      exact same ▸ below

theorem Course.Tracks.add (stage : process.stage = .flushing []) : course.Tracks
    ((system.put t { process with stage := .meeting false, sent := 0 }).setSum
      (system.sum + process.sent)) (log ++ [.added t process.sent]) := by
  have follows := tracks.follows t
  have now := tracks.now here (by simp [stage])
  rw [here] at follows
  simp only [Course.Follows,stage] at follows
  have sent : process.sent = course.sent process.round t := follows.sent
  have counted : process.counted = process.round := by
    simp [Process.counted,Stage.counted,stage]
  have handed : ∀ dst, dst ≠ t → ({ process with stage := .meeting false, sent := 0 } :
      Process p).handed dst = process.handed dst := by
    simp [Process.handed,Stage.handed,Process.round,stage]
  refine ⟨Course.Follows.update tracks.follows
      ⟨follows.inside,follows.seen,follows.leaves,rfl⟩,
    tracks.queued.update here handed ?_,?_,tracks.meets.update here ?_ (by simp) now,
    tracks.logged.update here handed trivial (by simp)⟩
  · simp [Process.taken,Stage.awaits,Process.round,stage]
  · rw [sent,← counted]
    refine tracks.summed.add here ?_
    simp [Process.counted,Stage.counted,Process.round,stage]
  · simp [Process.met,Stage.met,Process.round,stage]

theorem Course.Tracks.arrive {again : Bool} (stage : process.stage = .meeting again) : course.Tracks
    ((system.put t { process with
      stage := .waiting again system.barrier.generation }).setBarrier (system.barrier.arrive p))
    (log ++ [.arrived t]) := by
  have follows := tracks.follows t
  have now := tracks.now here (by simp [stage])
  rw [here] at follows
  have handed : ∀ dst, dst ≠ t → ({ process with
      stage := .waiting again system.barrier.generation } : Process p).handed dst =
        process.handed dst := by
    simp [Process.handed,Stage.handed,Process.round,stage]
  refine ⟨Course.Follows.update tracks.follows ?_,tracks.queued.update here handed ?_,
    tracks.summed.update here ?_,tracks.meets.arrive here now ?_ rfl,
    tracks.logged.update here handed trivial (by simp)⟩
  · cases again <;> simp only [Course.Follows,stage] at follows ⊢
    · exact ⟨follows.inside,follows.seen,follows.worker,follows.sent⟩
    · exact ⟨⟨follows.1.inside,follows.1.seen,follows.1.worker,follows.1.sent⟩,follows.2⟩
  · simp [Process.taken,Stage.awaits,Process.round,stage]
  · simp [Process.counted,Stage.counted,Process.round,stage]
  · cases again <;> simp [Process.met,Stage.met,Process.round,stage]

theorem Course.Tracks.receive {src : Fin p} {rest : List (Fin p)} {batch : Batch}
    {later : List Batch} (stage : process.stage = .receiving [] (src :: rest))
    (waits : system.queue src t = batch :: later) : course.Tracks
      ((system.put t { process with
        stage := .receiving (batch.toList.map fun message => (src,message)) rest }).setQueue
        src t later) (log ++ [.received t src process.worker.rounds batch]) := by
  have follows := tracks.follows t
  have now := tracks.now here (by simp [stage])
  rw [here] at follows
  simp only [Course.Follows,stage] at follows
  obtain ⟨absent,distinct⟩ := List.nodup_cons.mp follows.distinct
  have begun := follows.begun
  let next : Process p :=
    { process with stage := .receiving (batch.toList.map fun message => (src,message)) rest }
  have count : process.taken src = process.round - 1 := by
    simp [Process.taken,Stage.awaits,stage]
  have grown : next.taken src = process.taken src + 1 := by
    have all : next.taken src = process.round := by
      simp [next,Process.taken,Stage.awaits,Process.round,absent]
    omega
  have takenElse : ∀ e, e ≠ src → next.taken e = process.taken e := by
    intro e other
    simp [next,Process.taken,Stage.awaits,Process.round,stage,other]
  have handed : ∀ dst, dst ≠ t → next.handed dst = process.handed dst := by
    simp [next,Process.handed,Stage.handed,Process.round,stage]
  have other : src ≠ t := follows.others src (by simp)
  -- the batches of earlier rounds have been taken, so the first one in the queue is of this round
  obtain ⟨below,isBatch,_⟩ := tracks.queued.head here other waits
  rw [count] at isBatch below
  refine ⟨Course.Follows.update tracks.follows ?_,
    tracks.queued.take here other waits grown takenElse handed,tracks.summed.update here ?_,
    tracks.meets.update here ?_ (by simp) now,tracks.logged.update here handed trivial ?_⟩
  · refine ⟨begun,follows.inside,follows.seen,distinct,fun e member =>
      follows.others e (by simp [member]),follows.sent,?_⟩
    have leads := follows.leads
    rw [Worker.linkEach_batch,isBatch]
    exact leads
  · simp [Process.counted,Stage.counted,Process.round,stage]
  · simp [Process.met,Stage.met,Process.round,stage]
  · intro dst sender round other same
    obtain ⟨rfl,rfl,rfl,rfl⟩ := Event.received.inj same
    have present := tracks.logged.present _ _ (by assumption) _ below
    rw [Nat.sub_add_cancel begun,← isBatch] at present
    exact present

end Loud

section Schedules

variable {course : Course p} {system : Exchange p} {log : List (Event p)}

theorem Course.Lockstep.start (lockstep : course.Lockstep) (positive : 0 < p) :
    course.Tracks (Exchange.start course.begun) [] := by
  have none : ∀ t, (course.begun t).rounds = 0 := lockstep.fresh
  refine ⟨fun t => ⟨rfl,rfl,rfl⟩,⟨fun _ => rfl,fun src dst _ => ?_⟩,?_,⟨fun t => ?_,?_,positive⟩,
    ⟨by simp,fun src dst _ round below => ?_,by simp⟩⟩
  · simp [Exchange.start,Process.taken,Process.handed,Stage.awaits,Stage.handed,Process.round,none]
  · refine (total_zero fun t _ => ?_).symm
    simp [Exchange.start,Process.counted,Stage.counted,Process.round,none,Course.added,total]
  · simp [Exchange.start,Barrier.Admits,Process.met,Stage.met,Process.round,none]
  · refine (total_zero fun t _ => ?_).symm
    simp [Exchange.start,Process.met,Stage.met,Process.round,none]
  · simp [Exchange.start,Process.handed,Stage.handed,Process.round,none] at below

theorem Course.Tracks.step {after : Exchange p} {event : Event p}
    (tracks : course.Tracks system log) (lockstep : course.Lockstep)
    (step : Step system event after) : course.Tracks after (log ++ [event]) := by
  cases step with
  | sweep t process worker here stage swept => exact tracks.sweep here lockstep stage swept
  | flush t dst process rest batch worker here stage listens handed =>
    exact tracks.flush here stage handed
  | add t process here stage => exact tracks.add here stage
  | arrive t process again here stage => exact tracks.arrive here stage
  | leave t process generation here stage past => exact tracks.leave here stage past
  | read t process here stage => exact tracks.read here stage
  | finish t process generation here stage past same =>
    exact tracks.finish here lockstep stage past same
  | proceed t process generation here stage past moved =>
    exact tracks.proceed here lockstep stage past moved
  | receive t src process rest batch later here stage waits =>
    exact tracks.receive here stage waits
  | link t src process message pending senders worker here stage linked =>
    exact tracks.link here stage linked
  | turn t process here stage => exact tracks.turn here stage

theorem Course.Lockstep.tracks (lockstep : course.Lockstep) (positive : 0 < p)
    (runs : Runs (Exchange.start course.begun) log system) : course.Tracks system log := by
  induction runs with
  | nil => exact lockstep.start positive
  | step _ step ih => exact ih.step lockstep step

end Schedules

end BalancedMove
