import BalancedMove.BuildError
import BalancedMove.MoveTable.Basic

/-! Encoding of bare pairs in input order. The input interval of each output start is found by a
binary search among the input starts. -/
namespace BalancedMove

namespace MoveTable

def index (width : Width) (i : Nat) : Outcome Nat :=
  if i < width.limit then .ok i else reject .positionOverflow

def locateStart (width : Width) (starts : Array Nat) (q : Nat) : Outcome (Nat × Nat) := do
  match ← greatestIn starts q with
  | none => reject (.notAPermutation (reported q))
  | some i =>
    let index ← index width i
    let offset ← Checked.sub q (← Checked.found starts[i]?)
    return (index,offset)

def ofPairs (width : Width) (n : Nat) (pairs : List Pair) : Outcome MoveTable := do
  let _ ← index width pairs.length
  let starts := (pairs.map (·.p)).toArray
  let located ← pairs.mapM fun pair => locateStart width starts pair.q
  return {
    width
    n
    inputStarts := starts.push n
    outputStarts := (pairs.map (·.q)).toArray
    indices := (located.map (·.1)).toArray
    offsets := (located.map (·.2)).toArray }

end MoveTable

end BalancedMove
