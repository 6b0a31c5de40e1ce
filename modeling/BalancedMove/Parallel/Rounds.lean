import BalancedMove.BuildError
import BalancedMove.Parallel.Worker

/-! Rounds of messages. After its own sweep each worker hands over one batch for every other worker;
then all learn how many messages were handed over in this round, stop together if there were none,
and else receive the batches of the others, sender by sender, in range order. What a worker receives
in a round is what was handed over in that round, so running the workers of a round one after the
other, as is done here, gives the same answer as running them side by side. -/
namespace BalancedMove

def guarded (index : Nat) (step : Checked Worker) : Outcome Worker :=
  match step with
  | .ok worker => .ok worker
  | .error _ => reject (.workerFailed index)

def Worker.receiveRound (worker : Worker) (batches : Array (Array Batch)) : Checked Worker :=
  let senders := (List.range batches.size).filter (· != worker.index)
  senders.foldlM (fun worker sender => do
    let handed ← Checked.found batches[sender]?
    let batch ← Checked.found handed[worker.index]?
    worker.receiveBatch sender batch) { worker with rounds := worker.rounds + 1 }

namespace Rounds

def handOver (workers : List Worker) : List (List Batch) × List Worker :=
  let receivers := List.range workers.length
  (workers.map fun worker => worker.handOverAll receivers).unzip

def messageCount (batches : List (List Batch)) : Nat :=
  (batches.flatten.flatMap Array.toList).length

def run : Nat → List Worker → Outcome (List Worker)
  | 0, _ => .error (.fault .endless)
  | fuel + 1, workers => do
    let (batches,workers) := handOver workers
    if messageCount batches = 0 then return workers
    else
      let batches := (batches.map List.toArray).toArray
      let workers ← workers.mapM fun worker => guarded worker.index (worker.receiveRound batches)
      run fuel workers

/-- Sweeps all workers and passes on what they staged. Each message stands for a split, so there are
no more rounds than positions at which an output interval can begin. -/
def balance (width : Width) (workers : List Worker) : Outcome (List Worker) := do
  let swept ← workers.mapM fun worker => guarded worker.index worker.sweep
  run (width.limit + 1) swept

end Rounds

end BalancedMove
