import BalancedMove.Arena.AvlCheck
import BalancedMove.Store.Basic

/-! Self-check of a store: the tree is sound, the list strictly increases, and every list node that
is also in the tree has an output interval as long as its input interval. Lengths are compared only
once the first two parts hold, and only up to the first node at which they differ. -/
namespace BalancedMove.Store

def startOf (store : Store) : List NodeId → Checked Nat
  | [] => .ok store.stop
  | next :: _ => store.p next

def lengthAgrees (store : Store) (id : NodeId) (rest : List NodeId) : Checked Bool := do
  if !(← store.inTree id) then return true
  else
    let input ← Checked.sub (← store.startOf rest) (← store.p id)
    let output ← Checked.sub (← store.outputEnd id) (← store.q id)
    return input == output

def lengthsAgree (store : Store) : List NodeId → Checked Bool
  | [] => .ok true
  | id :: rest => do
    if ← lengthAgrees store id rest then lengthsAgree store rest else return false

def check (store : Store) : Checked Bool := do
  if !(← store.tree.check store.arena) then return false
  else
    let pairs ← store.pairs
    if !(adjacent (fun u v => u.p < v.p) pairs) then return false
    else
      let ids ← store.inputIds
      store.lengthsAgree ids

end BalancedMove.Store
