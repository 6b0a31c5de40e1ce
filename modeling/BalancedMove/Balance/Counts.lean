import BalancedMove.Width

/-! Counts of a balancing run. The runs of several workers are summed up, except that they share
their rounds. -/
namespace BalancedMove

structure BalanceCounts where
  splits : Nat := 0
  rounds : Nat := 0
  messages : Nat := 0
deriving DecidableEq, Repr

namespace BalanceCounts

def combine (left right : BalanceCounts) : BalanceCounts where
  splits := left.splits + right.splits
  rounds := max left.rounds right.rounds
  messages := left.messages + right.messages

def total (items : List BalanceCounts) : BalanceCounts := items.foldl combine {}

def checkedTotal (total : BalanceCounts) : List BalanceCounts → Checked BalanceCounts
  | [] => .ok total
  | stats :: rest => do
    let sum := total.combine stats
    let _ ← Width.w64.fit sum.splits
    let _ ← Width.w64.fit sum.messages
    checkedTotal sum rest

end BalanceCounts

end BalancedMove
