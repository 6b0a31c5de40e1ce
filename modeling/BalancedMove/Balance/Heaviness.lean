import BalancedMove.Store.Basic

/-! Heaviness of an output interval. It is `a`-heavy if at least `2a` input starts lie in it; it is
then to be split at its `(a + 1)`-th start. The count resumes wherever an earlier one stopped, so a
pass over the intervals looks at each start a bounded number of times. -/
namespace BalancedMove

/-- Progress of a count: `last` is the `count`-th input start found in the interval. -/
structure Tally where
  last : NodeId
  count : Nat
deriving DecidableEq, Repr

def heavyCount (a : Nat) : Nat := Width.w64.saturate (2 * a)

namespace Store

def countOn (store : Store) (stop : Nat) : Nat → Tally → Checked Tally
  | 0, tally => .ok tally
  | more + 1, tally => do
    match ← store.succ tally.last with
    | none => return tally
    | some next =>
      if (← store.p next) < stop then countOn store stop more ⟨next,tally.count + 1⟩
      else return tally

def stepBack (store : Store) : Nat → NodeId → Checked (Option NodeId)
  | 0, id => .ok (some id)
  | steps + 1, id => do
    match ← store.pred id with
    | none => return none
    | some prev => stepBack store steps prev

def splitPoint (store : Store) (a stop : Nat) (tally : Tally) : Checked (Option NodeId × Tally) := do
  let tally ← store.countOn stop (heavyCount a - tally.count) tally
  if tally.count < heavyCount a then return (none,tally)
  else
    let steps ← Checked.sub tally.count (a + 1)
    let split ← store.stepBack steps tally.last
    return (split,tally)

def countBack (store : Store) (low : Nat) : Nat → NodeId → Nat → Checked Nat
  | 0, _, _ => .error .endless
  | fuel + 1, id, count => do
    match ← store.pred id with
    | none => return count
    | some prev =>
      if (← store.p prev) < low then return count
      else countBack store low fuel prev (count + 1)

def splitPointAround (store : Store) (a : Nat) (id : NodeId) : Checked (Option (NodeId × NodeId)) := do
  let position ← store.p id
  match ← store.greatestAtMost position with
  | none => return none
  | some interval =>
    let low ← store.q interval
    let count ← store.countBack low store.arena.stepLimit id 1
    let stop ← store.outputEnd interval
    let (split,_) ← store.splitPoint a stop ⟨id,count⟩
    return split.map fun split => (split,interval)

end Store

end BalancedMove
