import BalancedMove.Balance.Sweep
import BalancedMove.Parallel.Ranges

/-! Workers that balance ranges of one domain. A worker keeps the input starts of its range in its
list and the output starts of its range in its tree. It splits the output intervals of its tree; if
the new input start belongs to another range, it is staged as a message to the worker there. A pair
with its two starts in different ranges has a record in each of two stores. The two are twins: both
sides number the shared pairs of an ordered pair of workers in the same way, so that a message can
name the record behind which the receiver has to link the new start. -/
namespace BalancedMove

/-- A new input start for another worker, to be linked behind the record numbered `after`. -/
structure Message where
  pair : Pair
  after : Nat
deriving DecidableEq, Repr

abbrev Batch := Array Message

structure Outgoing where
  bounds : Array Nat
  /-- per receiver, the number of the next shared pair -/
  nextNumber : Array Nat
  /-- per receiver, the messages that wait for the next exchange -/
  staged : Array Batch
deriving DecidableEq, Repr

namespace Outgoing

def stage (outgoing : Outgoing) (store : Store) (new old : NodeId) : Checked (Outgoing × Store) := do
  let pair ← store.pair new
  let receiver ← rangeOf outgoing.bounds pair.p
  let record ← store.node old
  let after ← Checked.promised record.twin
  let number ← Checked.found outgoing.nextNumber[receiver]?
  let store ← store.setTwin new (some number)
  let ⟨bounds,nextNumber,staged⟩ := outgoing
  return (⟨bounds,nextNumber.setIfInBounds receiver (number + 1),
    staged.modify receiver (·.push { pair, after })⟩,store)

def take (outgoing : Outgoing) (receiver : Nat) : Batch × Outgoing :=
  let ⟨bounds,nextNumber,staged⟩ := outgoing
  (staged.getD receiver #[],⟨bounds,nextNumber,staged.setIfInBounds receiver #[]⟩)

end Outgoing

instance : InputRouter Outgoing where
  place outgoing store new old := do
    let landed ← store.p new
    if store.start ≤ landed ∧ landed < store.stop then
      let store ← store.insertAfter new old
      return (outgoing,store,true)
    else
      let (outgoing,store) ← outgoing.stage store new old
      return (outgoing,store,false)

structure Worker where
  index : Nat
  balancer : Balancer Outgoing
  /-- per sender, the list records of shared pairs in the order of their numbers -/
  records : Array (Array NodeId)
  rounds : Nat := 0
  messages : Nat := 0

namespace Worker

def sweep (worker : Worker) : Checked Worker := do
  let ⟨index,balancer,records,rounds,messages⟩ := worker
  let balancer ← balancer.sweep
  return { index, balancer, records, rounds, messages }

def handOver (worker : Worker) (receiver : Nat) : Batch × Worker :=
  let ⟨index,⟨store,router,a,splits⟩,records,rounds,messages⟩ := worker
  let (batch,router) := router.take receiver
  (batch,⟨index,⟨store,router,a,splits⟩,records,rounds,messages + batch.size⟩)

def handOverAll (worker : Worker) : List Nat → List Batch × Worker
  | [] => ([],worker)
  | receiver :: rest =>
    let (batch,worker) :=
      if receiver = worker.index then (#[],worker) else worker.handOver receiver
    let (batches,worker) := handOverAll worker rest
    (batch :: batches,worker)

def receive (worker : Worker) (sender : Nat) (message : Message) : Checked Worker := do
  let ⟨index,⟨store,router,a,splits⟩,records,rounds,messages⟩ := worker
  let known ← Checked.found records[sender]?
  let mark ← Checked.found known[message.after]?
  let (id,store) := store.alloc message.pair
  let store ← store.insertAfter id mark
  let records := records.modify sender (·.push id)
  let balancer : Balancer Outgoing := { store, router, a, splits }
  match ← balancer.store.splitPointAround a id with
  | none => return { index, balancer, records, rounds, messages }
  | some (split,interval) =>
    let stop := balancer.store.stop
    let (balancer,_,_) ← balancer.settle stop stop split interval 0
    return { index, balancer, records, rounds, messages }

def receiveBatch (worker : Worker) (sender : Nat) (batch : Batch) : Checked Worker :=
  batch.toList.foldlM (fun worker message => worker.receive sender message) worker

def counts (worker : Worker) : BalanceCounts :=
  { splits := worker.balancer.splits, rounds := worker.rounds, messages := worker.messages }

end Worker

end BalancedMove
