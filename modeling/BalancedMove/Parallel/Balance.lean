import BalancedMove.Balance.Parameters
import BalancedMove.Pairs.Validate
import BalancedMove.Parallel.Joining
import BalancedMove.Parallel.Assignment
import BalancedMove.Parallel.Rounds

/-! Balancing a domain with several workers. The stores of the workers, one after the other, hold
the balanced pairs, still cut at the ends of the ranges; `joinedPairs` undoes those cuts. -/
namespace BalancedMove.Parallel

def balanceAccepted (width : Width) (n : Nat) (pairs : List Pair) (parameters : BalanceParameters) :
    Outcome (List Store × BalanceCounts) :=
  let most := Width.w64.saturate n
  if parameters.workers = 0 ∨ most < parameters.workers then
    reject (.workerCount parameters.workers most)
  else if parameters.a < 2 then reject (.balancingParameter parameters.a)
  else do
    let bounds ← rangeBounds n parameters.workers
    let bounds := bounds.toArray
    let cut ← pieces width n bounds pairs
    let workers ← assemble width parameters.a bounds cut
    let workers ← Rounds.balance width workers
    let counts ← BalanceCounts.checkedTotal {} (workers.map Worker.counts)
    return (workers.map (·.balancer.store),counts)

def balance (width : Width) (n : Nat) (pairs : List Pair) (parameters : BalanceParameters) :
    Outcome (List Store × BalanceCounts) := do
  validate width n pairs
  balanceAccepted width n pairs parameters

def storePieces (store : Store) : Checked (List Piece) := do
  let ids ← store.inputIds
  ids.mapM fun id => do
    let node ← store.node id
    return { pair := node.pair, cut := node.cut }

/-- The pairs of all stores in input order, with the cuts at the ends of ranges undone. -/
def joinedPairs (stores : List Store) (a : Nat) : Checked (List Pair) :=
  match stores.getLast? with
  | none => .ok []
  | some last => do
    let pieces ← stores.mapM storePieces
    joinPieces last.width last.stop a pieces.flatten

end BalancedMove.Parallel
