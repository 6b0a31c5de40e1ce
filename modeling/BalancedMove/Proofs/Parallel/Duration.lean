import BalancedMove.Proofs.Parallel.Tracks

/-! How long a schedule lasts. What a process has left to do depends only on where the course has it,
and each step takes one off, so no schedule goes on for ever, and all that go on until everyone has
finished have the same number of steps. -/
namespace BalancedMove

open Sequence

variable {p : Nat}

namespace Course

variable (course : Course p)

def linked (round : Nat) (t : Fin p) : Nat :=
  total (fun src => (course.batch round src t).size) (peers t)

/-- Steps from the end of the second wait of a round to that of the next one. -/
def lap (round : Nat) (t : Fin p) : Nat := 2 * (peers t).length + course.linked round t + 7

def remaining (round : Nat) (t : Fin p) : Nat :=
  total (fun i => course.lap i t) (List.range' round (course.last - round))

def owes (t : Fin p) (process : Process p) : Nat :=
  match process.stage with
  | .sweeping => (peers t).length + 7 + course.remaining 0 t
  | .flushing receivers => receivers.length + 6 + course.remaining process.round t
  | .meeting false => 5 + course.remaining process.round t
  | .waiting false _ => 4 + course.remaining process.round t
  | .reading => 3 + course.remaining process.round t
  | .meeting true => 2 + course.remaining process.round t
  | .waiting true _ => 1 + course.remaining process.round t
  | .receiving pending senders => pending.length + senders.length +
      total (fun src => (course.batch (process.round - 1) src t).size) senders +
      (peers t).length + 7 + course.remaining process.round t
  | .finished => 0

def duration : Nat :=
  total (fun t => (peers t).length + 7 + course.remaining 0 t) (List.finRange p)

theorem remaining_succ {round : Nat} (below : round < course.last) (t : Fin p) :
    course.remaining round t = course.lap round t + course.remaining (round + 1) t := by
  have length : course.last - round = course.last - (round + 1) + 1 := by omega
  rw [remaining,length,List.range'_succ]
  rfl

theorem remaining_last (t : Fin p) : course.remaining course.last t = 0 := by
  rw [remaining,Nat.sub_self]
  rfl

end Course

section Steps

variable {course : Course p} {system after : Exchange p} {log : List (Event p)} {event : Event p}

theorem owes_update {all : Fin p → Process p} {t : Fin p} {process next : Process p}
    (here : all t = process) (one : course.owes t next + 1 = course.owes t process) :
    total (fun u => course.owes u (Function.update all t next u)) (List.finRange p) + 1 =
      total (fun u => course.owes u (all u)) (List.finRange p) := by
  have change := @total_change _ (fun u => course.owes u (Function.update all t next u))
    (fun u => course.owes u (all u)) (List.finRange p) t (List.nodup_finRange p)
    (List.mem_finRange t) fun u other => by rw [Function.update_of_ne other]
  simp only [Function.update_self,here] at change
  omega

theorem Course.Tracks.shortens (tracks : course.Tracks system log) (lockstep : course.Lockstep)
    (step : Step system event after) :
    total (fun u => course.owes u (after.process u)) (List.finRange p) + 1 =
      total (fun u => course.owes u (system.process u)) (List.finRange p) := by
  -- within a round the stage gets shorter; a round that ends or begins is measured by the course
  cases step with
  | sweep t process worker here stage swept =>
    have follows := tracks.follows t
    rw [here] at follows
    simp only [Course.Follows,stage] at follows
    rw [follows.1,lockstep.swept t] at swept
    obtain rfl := Except.ok.inj swept
    have none := lockstep.rounds 0 (Nat.zero_le _) t
    exact owes_update here (by simp [Course.owes,stage,Process.round,none]; omega)
  | flush t dst process rest batch worker here stage listens handed =>
    have rounds : worker.rounds = process.worker.rounds := by
      rw [show worker = (process.worker.handOver dst).2 by rw [handed],Worker.rounds_handOver]
    exact owes_update here (by simp [Course.owes,stage,Process.round,rounds]; omega)
  | add t process here stage =>
    exact owes_update here (by simp [Course.owes,stage,Process.round]; omega)
  | arrive t process again here stage =>
    exact owes_update here (by cases again <;> simp [Course.owes,stage,Process.round] <;> omega)
  | leave t process generation here stage past =>
    exact owes_update here (by simp [Course.owes,stage,Process.round]; omega)
  | read t process here stage =>
    exact owes_update here (by simp [Course.owes,stage,Process.round]; omega)
  | finish t process generation here stage past same =>
    have last := tracks.stops here lockstep stage same
    have none := course.remaining_last t
    exact owes_update here (by simp [Course.owes,stage,last,none])
  | proceed t process generation here stage past moved =>
    have below := tracks.continues here lockstep stage moved
    have lap := course.remaining_succ below t
    unfold Course.lap Course.linked at lap
    have next : process.worker.nextRound.rounds = process.round + 1 := rfl
    refine owes_update here ?_
    simp only [Course.owes,stage,Process.round,next,List.length_nil,Nat.add_sub_cancel] at lap ⊢
    omega
  | receive t src process rest batch later here stage waits =>
    have follows := tracks.follows t
    rw [here] at follows
    simp only [Course.Follows,stage] at follows
    have isBatch := (tracks.queued.head here (follows.others src (by simp)) waits).2.1
    have count : process.taken src = process.round - 1 := by
      simp [Process.taken,Stage.awaits,stage]
    rw [count] at isBatch
    refine owes_update here ?_
    simp only [Course.owes,stage,Process.round,total,isBatch,List.length_map,Array.length_toList,
      List.length_cons,List.length_nil]
    omega
  | link t src process message pending senders worker here stage linked =>
    have rounds := (Worker.receive_frame linked).2
    exact owes_update here (by simp [Course.owes,stage,Process.round,rounds]; omega)
  | turn t process here stage =>
    exact owes_update here (by simp [Course.owes,stage,Process.round,total]; omega)

/-- The steps taken and the steps left add up to the same number in every schedule. -/
theorem Course.Lockstep.duration_eq (lockstep : course.Lockstep) (positive : 0 < p)
    (runs : Runs (Exchange.start course.begun) log system) :
    log.length + total (fun t => course.owes t (system.process t)) (List.finRange p) =
      course.duration := by
  induction runs with
  | nil => exact Nat.zero_add _
  | step runs step ih =>
    have shorter := (lockstep.tracks positive runs).shortens lockstep step
    rw [List.length_append,List.length_singleton]
    omega

end Steps

end BalancedMove
