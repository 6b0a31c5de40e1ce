import BalancedMove.Pairs.Basic
import BalancedMove.Search
import BalancedMove.Width

/-! Encoded move structures. Row `i` describes the `i`-th pair in input order: its two starts, the
index of the input interval in which its output start lies, and the offset in there. A move from a
position in interval `i` therefore looks no further than a few intervals behind `idx i`. The last
entry of `inputStarts`, behind those of the rows, is the size of the domain. -/
namespace BalancedMove

structure MoveTable where
  width : Width
  n : Nat
  inputStarts : Array Nat
  outputStarts : Array Nat
  indices : Array Nat
  offsets : Array Nat
deriving DecidableEq, Repr

namespace MoveTable

def size (table : MoveTable) : Nat := table.outputStarts.size

def p (table : MoveTable) (i : Nat) : Checked Nat := Checked.found table.inputStarts[i]?

def q (table : MoveTable) (i : Nat) : Checked Nat := Checked.found table.outputStarts[i]?

def idx (table : MoveTable) (i : Nat) : Checked Nat := Checked.found table.indices[i]?

def offs (table : MoveTable) (i : Nat) : Checked Nat := Checked.found table.offsets[i]?

def length (table : MoveTable) (i : Nat) : Checked Nat := do
  let stop ← table.p (i + 1)
  let start ← table.p i
  Checked.sub stop start

def pairs (table : MoveTable) : List Pair :=
  table.inputStarts.toList.zipWith (fun p q => ⟨p,q⟩) table.outputStarts.toList

def countStarts (table : MoveTable) (holds : Nat → Bool) : Nat :=
  partitionPoint table.size fun i => holds (table.inputStarts.getD i 0)

def rowOf (table : MoveTable) (position : Nat) : Checked Nat :=
  Checked.sub (table.countStarts fun start => start ≤ position) 1

def map (table : MoveTable) (position : Nat) : Checked Nat := do
  let i ← table.rowOf position
  let offset ← Checked.sub position (← table.p i)
  table.width.add (← table.q i) offset

def orbit (table : MoveTable) : Nat → Nat → Checked (List Nat)
  | 0, position => .ok [position]
  | steps + 1, position => do
    let next ← table.map position
    let rest ← orbit table steps next
    return position :: rest

def inDegree (table : MoveTable) (j : Nat) : Checked Nat := do
  let low ← table.q j
  let high ← table.width.add low (← table.length j)
  Checked.sub (table.countStarts fun start => start < high)
    (table.countStarts fun start => start < low)

def largest (table : MoveTable) (value : Nat → Checked Nat) : Checked Nat := do
  let values ← (List.range table.size).mapM value
  return values.foldl max 0

def maxInDegree (table : MoveTable) : Checked Nat := table.largest table.inDegree

def maxLength (table : MoveTable) : Checked Nat := table.largest table.length

end MoveTable

end BalancedMove
