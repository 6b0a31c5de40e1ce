import BalancedMove.Pairs.Basic
import BalancedMove.Search
import BalancedMove.Width

/-! Cutting pairs at the ends of ranges, so that each input interval and each output interval lies
in one range. The cuts change no position's image; a piece that begins at a cut is marked, so that
it can be joined again later. -/
namespace BalancedMove

structure Piece where
  pair : Pair
  cut : Bool
deriving DecidableEq, Repr

def mark (pairs : List Pair) (cut : List Bool) : Checked (List Piece) := do
  Checked.require (pairs.length == cut.length)
  return pairs.zipWith (fun pair cut => { pair, cut }) cut

def cutsIn (width : Width) (inner : Array Nat) (start length : Nat) : Checked (List Nat) :=
  if inner.isEmpty then .ok []
  else do
    let stop ← width.add start length
    let low := partitionPoint inner.size fun i => inner.getD i 0 ≤ start
    let high := partitionPoint inner.size fun i => inner.getD i 0 < stop
    if high < low then .error .outOfRange
    else (inner.extract low high).toList.mapM fun position => Checked.sub position start

def cutInterval (width : Width) (inner : Array Nat) (interval : Interval) :
    Checked (List Piece) := do
  let inputCuts ← cutsIn width inner interval.p interval.length
  let outputCuts ← cutsIn width inner interval.q interval.length
  let offsets := ((inputCuts ++ outputCuts).mergeSort (fun x y => x ≤ y)).eraseReps
  let added ← offsets.mapM fun offset => do
    let p ← width.add interval.p offset
    let q ← width.add interval.q offset
    return { pair := ⟨p,q⟩, cut := true }
  return { pair := interval.toPair, cut := false } :: added

def innerBounds (bounds : Array Nat) : Checked (Array Nat) :=
  if bounds.size < 2 then .error .outOfRange else .ok (bounds.extract 1 (bounds.size - 1))

def pieces (width : Width) (n : Nat) (bounds : Array Nat) (pairs : List Pair) :
    Checked (List Piece) := do
  let inner ← innerBounds bounds
  let measured ← intervals n pairs
  let cut ← measured.mapM (cutInterval width inner)
  return cut.flatten

def cutAtBounds (width : Width) (n : Nat) (bounds : Array Nat) (pairs : List Pair) :
    Checked (List Pair) := do
  let cut ← pieces width n bounds pairs
  return cut.map (·.pair)

end BalancedMove
