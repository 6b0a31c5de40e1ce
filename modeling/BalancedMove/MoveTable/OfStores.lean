import BalancedMove.MoveTable.OfPairs
import BalancedMove.Parallel.Balance

/-! Encoding of the stores of several workers, one after the other, with their cuts undone. -/
namespace BalancedMove

def MoveTable.ofStores (stores : List Store) (a : Nat) : Outcome MoveTable := do
  match stores.getLast? with
  | none => reject .emptyInput
  | some last =>
    let pairs ← Parallel.joinedPairs stores a
    ofPairs last.width last.stop pairs

end BalancedMove
