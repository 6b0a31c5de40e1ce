import BalancedMove.Balance.Cascade
import BalancedMove.Balance.Counts

/-! One pass over the output intervals from left to right. It holds an interval and a count of the
starts in it, skips intervals without a start, and settles each heavy interval before it goes on
with the right half. Behind the pass no interval is heavy. -/
namespace BalancedMove

namespace Store

def seekInput (store : Store) (position : Nat) : Nat → NodeId → Checked (Option NodeId)
  | 0, _ => .error .endless
  | fuel + 1, id => do
    if (← store.p id) < position then
      match ← store.succ id with
      | none => return none
      | some next => seekInput store position fuel next
    else return some id

/-- The first output interval from `interval` on that holds a start, and the first start in it.
No start of that interval is in front of the given one. -/
def seekOccupied (store : Store) : Nat → (interval start : NodeId) →
    Checked (Option (NodeId × NodeId))
  | 0, _, _ => .error .endless
  | fuel + 1, interval, start => do
    let low ← store.q interval
    match ← store.seekInput low store.arena.stepLimit start with
    | none => return none
    | some start =>
      if (← store.p start) < (← store.outputEnd interval) then return some (interval,start)
      else
        match ← store.outputNext interval with
        | none => return none
        | some next => seekOccupied store fuel next start

def firstOccupied (store : Store) : Checked (Option (NodeId × NodeId)) := do
  match ← store.tree.min? store.arena, store.list.head with
  | some interval, some start => store.seekOccupied store.arena.stepLimit interval start
  | _, _ => return none

def nextOccupied (store : Store) (interval start : NodeId) : Checked (Option (NodeId × NodeId)) := do
  match ← store.outputNext interval with
  | none => return none
  | some next => store.seekOccupied store.arena.stepLimit next start

end Store

namespace Balancer

variable {ρ : Type} [InputRouter ρ]

def sweepFrom : Nat → Balancer ρ → (interval : NodeId) → Tally → Checked (Balancer ρ)
  | 0, _, _, _ => .error .endless
  | fuel + 1, balancer, interval, tally => do
    let stop ← balancer.store.outputEnd interval
    match ← balancer.store.splitPoint balancer.a stop tally with
    | (some split,tally) =>
      let swept ← balancer.store.p split
      let counted ← balancer.store.p tally.last
      let (balancer,right,count) ← balancer.settle swept counted split interval tally.count
      let count ← Checked.sub count balancer.a
      sweepFrom fuel balancer right ⟨tally.last,count⟩
    | (none,tally) =>
      match ← balancer.store.nextOccupied interval tally.last with
      | none => return balancer
      | some (interval,start) => sweepFrom fuel balancer interval ⟨start,1⟩

/-- Balances the store by one pass. Its steps are as bounded as its splits, since each of them moves
the pass to an interval further right. -/
def sweep (balancer : Balancer ρ) : Checked (Balancer ρ) := do
  match ← balancer.store.firstOccupied with
  | none => return balancer
  | some (interval,start) => sweepFrom balancer.splitFuel balancer interval ⟨start,1⟩

end Balancer

def Store.balance (store : Store) (a : Nat) : Checked (Store × BalanceCounts) := do
  let balancer ← Balancer.start store Local.here a
  let balancer ← balancer.sweep
  return (balancer.store,{ splits := balancer.splits })

end BalancedMove
