import BalancedMove.Parallel.Balance
import Mathlib.Logic.Function.Basic

/-! Workers side by side. Each worker is a process of its own; the processes share a sum, a barrier that
they meet at twice in a round, and a queue of batches for each ordered pair of them. Any process that
can go on may take the next step. One that has to wait, or whose own work fails, has no step. -/
namespace BalancedMove

/-- The last of all parties to arrive begins the next generation; then everyone may leave. -/
structure Barrier where
  arrived : Nat := 0
  generation : Nat := 0
deriving DecidableEq, Repr

def Barrier.arrive (barrier : Barrier) (parties : Nat) : Barrier :=
  if barrier.arrived + 1 = parties then ⟨0,barrier.generation + 1⟩
  else ⟨barrier.arrived + 1,barrier.generation⟩

/-- What a process does next. It meets the others in front of reading the sum, and again behind it. -/
inductive Stage (p : Nat) where
  | sweeping
  | flushing (receivers : List (Fin p))
  | meeting (again : Bool)
  | waiting (again : Bool) (generation : Nat)
  | reading
  | receiving (pending : List (Fin p × Message)) (senders : List (Fin p))
  | finished
deriving DecidableEq

structure Process (p : Nat) where
  worker : Worker
  stage : Stage p := .sweeping
  /-- messages of this round that are not in the sum yet -/
  sent : Nat := 0
  /-- the sum as it was read in the round before -/
  seen : Nat := 0
  /-- the sum as it was read in this round -/
  total : Nat := 0

/-- What can be observed of a step; rounds are numbered from 1. -/
inductive Event (p : Nat) where
  | swept (t : Fin p)
  | flushed (src dst : Fin p) (round : Nat) (batch : Batch)
  | added (t : Fin p) (amount : Nat)
  | arrived (t : Fin p)
  | left (t : Fin p)
  | read (t : Fin p) (round total : Nat)
  | ended (t : Fin p) (round : Nat)
  | received (dst src : Fin p) (round : Nat) (batch : Batch)
  | linked (dst src : Fin p) (message : Message)
  | turned (t : Fin p)

structure Exchange (p : Nat) where
  process : Fin p → Process p
  /-- what one process has handed over and another has yet to receive -/
  queue : Fin p → Fin p → List Batch
  sum : Nat
  barrier : Barrier

variable {p : Nat}

def peers (t : Fin p) : List (Fin p) := (List.finRange p).filter fun u => u ≠ t

namespace Exchange

def start (workers : Fin p → Worker) : Exchange p where
  process t := { worker := workers t }
  queue _ _ := []
  sum := 0
  barrier := {}

def put (system : Exchange p) (t : Fin p) (process : Process p) : Exchange p :=
  { system with process := Function.update system.process t process }

def setQueue (system : Exchange p) (src dst : Fin p) (batches : List Batch) : Exchange p :=
  { system with queue := fun s d => if s = src ∧ d = dst then batches else system.queue s d }

def setSum (system : Exchange p) (sum : Nat) : Exchange p := { system with sum }

def setBarrier (system : Exchange p) (barrier : Barrier) : Exchange p := { system with barrier }

end Exchange

def Worker.nextRound (worker : Worker) : Worker := { worker with rounds := worker.rounds + 1 }

inductive Step : Exchange p → Event p → Exchange p → Prop
  | sweep (system : Exchange p) (t : Fin p) (process : Process p) (worker : Worker)
      (here : system.process t = process) (stage : process.stage = .sweeping)
      (swept : process.worker.sweep = .ok worker) :
      Step system (.swept t) (system.put t { process with worker, stage := .flushing (peers t) })
  | flush (system : Exchange p) (t dst : Fin p) (process : Process p) (rest : List (Fin p))
      (batch : Batch) (worker : Worker) (here : system.process t = process)
      (stage : process.stage = .flushing (dst :: rest))
      (listens : (system.process dst).stage ≠ .finished)
      (handed : process.worker.handOver dst = (batch,worker)) :
      Step system (.flushed t dst (process.worker.rounds + 1) batch)
        ((system.put t { process with
          worker, stage := .flushing rest, sent := process.sent + batch.size }).setQueue
          t dst (system.queue t dst ++ [batch]))
  | add (system : Exchange p) (t : Fin p) (process : Process p)
      (here : system.process t = process) (stage : process.stage = .flushing []) :
      Step system (.added t process.sent)
        ((system.put t { process with stage := .meeting false, sent := 0 }).setSum
          (system.sum + process.sent))
  | arrive (system : Exchange p) (t : Fin p) (process : Process p) (again : Bool)
      (here : system.process t = process) (stage : process.stage = .meeting again) :
      Step system (.arrived t)
        ((system.put t { process with
          stage := .waiting again system.barrier.generation }).setBarrier
          (system.barrier.arrive p))
  | leave (system : Exchange p) (t : Fin p) (process : Process p) (generation : Nat)
      (here : system.process t = process) (stage : process.stage = .waiting false generation)
      (past : generation ≠ system.barrier.generation) :
      Step system (.left t) (system.put t { process with stage := .reading })
  | read (system : Exchange p) (t : Fin p) (process : Process p)
      (here : system.process t = process) (stage : process.stage = .reading) :
      Step system (.read t (process.worker.rounds + 1) system.sum)
        (system.put t { process with stage := .meeting true, total := system.sum })
  | finish (system : Exchange p) (t : Fin p) (process : Process p) (generation : Nat)
      (here : system.process t = process) (stage : process.stage = .waiting true generation)
      (past : generation ≠ system.barrier.generation) (same : process.total = process.seen) :
      Step system (.ended t (process.worker.rounds + 1))
        (system.put t { process with stage := .finished })
  | proceed (system : Exchange p) (t : Fin p) (process : Process p) (generation : Nat)
      (here : system.process t = process) (stage : process.stage = .waiting true generation)
      (past : generation ≠ system.barrier.generation) (moved : process.total ≠ process.seen) :
      Step system (.left t) (system.put t { process with
        worker := process.worker.nextRound
        stage := .receiving [] (peers t)
        seen := process.total })
  | receive (system : Exchange p) (t src : Fin p) (process : Process p) (rest : List (Fin p))
      (batch : Batch) (later : List Batch) (here : system.process t = process)
      (stage : process.stage = .receiving [] (src :: rest))
      (waits : system.queue src t = batch :: later) :
      Step system (.received t src process.worker.rounds batch)
        ((system.put t { process with
          stage := .receiving (batch.toList.map fun message => (src,message)) rest }).setQueue
          src t later)
  | link (system : Exchange p) (t src : Fin p) (process : Process p) (message : Message)
      (pending : List (Fin p × Message)) (senders : List (Fin p)) (worker : Worker)
      (here : system.process t = process)
      (stage : process.stage = .receiving ((src,message) :: pending) senders)
      (linked : process.worker.receive src message = .ok worker) :
      Step system (.linked t src message)
        (system.put t { process with worker, stage := .receiving pending senders })
  | turn (system : Exchange p) (t : Fin p) (process : Process p)
      (here : system.process t = process) (stage : process.stage = .receiving [] []) :
      Step system (.turned t) (system.put t { process with stage := .flushing (peers t) })

inductive Runs (start : Exchange p) : List (Event p) → Exchange p → Prop
  | nil : Runs start [] start
  | step {log : List (Event p)} {before after : Exchange p} {event : Event p}
      (runs : Runs start log before) (step : Step before event after) :
      Runs start (log ++ [event]) after

section Updates

variable {system : Exchange p} {t u : Fin p} {process : Process p}

@[simp] theorem Exchange.put_same : (system.put t process).process t = process :=
  Function.update_self _ _ _

@[simp] theorem Exchange.put_other (other : u ≠ t) :
    (system.put t process).process u = system.process u := Function.update_of_ne other _ _

theorem Exchange.process_put (u : Fin p) :
    (system.put t process).process u = if u = t then process else system.process u :=
  Function.update_apply _ _ _ _

theorem congr_update {β : Type} {all : Fin p → Process p} {before after : Process p}
    (value : Process p → β) (here : all t = before) (same : u = t → value after = value before) :
    value (Function.update all t after u) = value (all u) := by
  by_cases equal : u = t
  · subst equal
    rw [Function.update_self,same rfl,here]
  · rw [Function.update_of_ne equal]

theorem mem_peers : u ∈ peers t ↔ u ≠ t := by simp [peers]

theorem nodup_peers (t : Fin p) : (peers t).Nodup := (List.nodup_finRange p).filter _

end Updates

end BalancedMove
