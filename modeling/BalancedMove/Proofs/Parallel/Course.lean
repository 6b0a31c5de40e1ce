import BalancedMove.Proofs.Parallel.Exchange
import BalancedMove.Proofs.Parallel.Rounds

/-! The course that a run in lockstep takes: the workers at the beginning of each round, up to the round
that moves nothing. What is handed over in a round is read off the workers at its beginning. -/
namespace BalancedMove

open Sequence

structure Course (p : Nat) where
  begun : Fin p → Worker
  state : Nat → Fin p → Worker
  last : Nat

variable {p : Nat}

def Worker.handEach (worker : Worker) (receivers : List (Fin p)) : Worker :=
  receivers.foldl (fun worker dst => (worker.handOver dst).2) worker

def Worker.linkEach (worker : Worker) (pending : List (Fin p × Message)) : Checked Worker :=
  pending.foldlM (fun worker (entry : Fin p × Message) => worker.receive entry.1 entry.2) worker

namespace Worker

variable {worker after : Worker}

theorem handEach_cons (worker : Worker) (dst : Fin p) (rest : List (Fin p)) :
    worker.handEach (dst :: rest) = (worker.handOver dst).2.handEach rest := rfl

theorem rounds_handOver (worker : Worker) (dst : Nat) :
    (worker.handOver dst).2.rounds = worker.rounds := rfl

theorem rounds_handEach (worker : Worker) (receivers : List (Fin p)) :
    (worker.handEach receivers).rounds = worker.rounds := by
  induction receivers generalizing worker with
  | nil => rfl
  | cons dst rest ih => exact ih (worker.handOver dst).2

theorem linkEach_batch (worker : Worker) (src : Fin p) (batch : Batch) :
    worker.linkEach (batch.toList.map fun message => (src,message)) =
      worker.receiveBatch src batch := by
  rw [linkEach,List.foldlM_map]
  rfl

theorem receive_frame {sender : Nat} {message : Message}
    (ok : worker.receive sender message = .ok after) :
    after.index = worker.index ∧ after.rounds = worker.rounds := by
  obtain ⟨index,⟨store,router,a,splits⟩,records,rounds,messages⟩ := worker
  simp only [receive] at ok
  obtain ⟨known,_,ok⟩ := Checked.bind_success ok
  obtain ⟨mark,_,ok⟩ := Checked.bind_success ok
  obtain ⟨linked,_,ok⟩ := Checked.bind_success ok
  obtain ⟨found,_,ok⟩ := Checked.bind_success ok
  cases found with
  | none =>
    cases ok
    exact ⟨rfl,rfl⟩
  | some place =>
    obtain ⟨settled,_,ok⟩ := Checked.bind_success ok
    cases ok
    exact ⟨rfl,rfl⟩

theorem receiveBatch_frame {sender : Nat} {batch : Batch}
    (ok : worker.receiveBatch sender batch = .ok after) :
    after.index = worker.index ∧ after.rounds = worker.rounds := by
  unfold receiveBatch at ok
  generalize batch.toList = entries at ok
  induction entries generalizing worker with
  | nil =>
    cases ok
    exact ⟨rfl,rfl⟩
  | cons message rest ih =>
    rw [List.foldlM_cons] at ok
    obtain ⟨middle,first,others⟩ := Checked.bind_success ok
    obtain ⟨index,rounds⟩ := receive_frame first
    obtain ⟨sameIndex,sameRounds⟩ := ih others
    exact ⟨sameIndex.trans index,sameRounds.trans rounds⟩

end Worker

namespace Course

variable (course : Course p)

def batch (round : Nat) (src dst : Fin p) : Batch := ((course.state round src).handOver dst).1

def emptied (round : Nat) (t : Fin p) : Worker := (course.state round t).handEach (peers t)

def sent (round : Nat) (t : Fin p) : Nat :=
  total (fun dst => (course.batch round t dst).size) (peers t)

def added (rounds : Nat) (t : Fin p) : Nat :=
  total (fun round => course.sent round t) (List.range rounds)

def sum (rounds : Nat) : Nat := total (course.added rounds) (List.finRange p)

def receiveFrom (round : Nat) (t : Fin p) (senders : List (Fin p)) (worker : Worker) :
    Checked Worker :=
  senders.foldlM (fun worker (src : Fin p) =>
    worker.receiveBatch src (course.batch round src t)) worker

structure Lockstep : Prop where
  swept : ∀ t, (course.begun t).sweep = .ok (course.state 0 t)
  fresh : ∀ t, (course.begun t).rounds = 0
  rounds : ∀ round ≤ course.last, ∀ t, (course.state round t).rounds = round
  received : ∀ round < course.last, ∀ t, course.receiveFrom round t (peers t)
    (course.emptied round t).nextRound = .ok (course.state (round + 1) t)
  moving : ∀ round < course.last, course.sum (round + 1) ≠ course.sum round
  quiet : course.sum (course.last + 1) = course.sum course.last

theorem added_succ (rounds : Nat) (t : Fin p) :
    course.added (rounds + 1) t = course.added rounds t + course.sent rounds t := by
  rw [added,List.range_succ,total_append]
  rfl

theorem sum_succ (rounds : Nat) :
    course.sum (rounds + 1) = course.sum rounds + total (course.sent rounds) (List.finRange p) := by
  rw [sum,sum,← total_add]
  exact total_congr fun t _ => course.added_succ rounds t

theorem sum_zero : course.sum 0 = 0 := total_zero fun _ _ => rfl

variable {course} in
theorem Lockstep.batch_last (lockstep : course.Lockstep) {src dst : Fin p} (differ : src ≠ dst) :
    course.batch course.last src dst = #[] := by
  have quiet := lockstep.quiet
  rw [sum_succ] at quiet
  have none := eq_zero_of_total (show total (course.sent course.last) (List.finRange p) = 0 by omega)
    src (List.mem_finRange src)
  have size := eq_zero_of_total none dst (mem_peers.mpr (Ne.symm differ))
  exact Array.size_eq_zero_iff.mp size

end Course

end BalancedMove
