import BalancedMove.Balance.Heaviness
import BalancedMove.Parallel.Pieces

/-! Joining marked pieces to the pair in front of them. A piece is joined if that pair continues
into it and the joined output interval would not be heavy; starts that are joined away no longer
count. Pieces without a mark always stay. -/
namespace BalancedMove

def startsWithin (starts : Array Nat) (joined : List Nat) (low high : Nat) : Checked Nat := do
  let below (bound : Nat) := partitionPoint starts.size fun i => starts.getD i 0 < bound
  let all ← Checked.sub (below high) (below low)
  Checked.sub all (joined.filter fun start => low ≤ start && start < high).length

/-- Whether the joined output interval of `last` and the piece `v`, which reaches up to `high`, is
not heavy. The start of `v` itself no longer counts. -/
def joinsLight (a : Nat) (starts : Array Nat) (joined : List Nat) (last v : Pair) (high : Nat) :
    Checked Bool := do
  let all ← startsWithin starts joined last.q high
  let own := if last.q ≤ v.p ∧ v.p < high then 1 else 0
  let remaining ← Checked.sub all own
  return decide (remaining < heavyCount a)

def joinable (width : Width) (a : Nat) (starts : Array Nat) (joined : List Nat) (last : Pair)
    (offset : Nat) (piece : Piece) (stop : Nat) : Checked Bool :=
  if !piece.cut then .ok false
  else do
    let continued ← width.add last.q offset
    if continued ≠ piece.pair.q then return false
    else
      let length ← Checked.sub stop piece.pair.p
      let high ← width.add piece.pair.q length
      joinsLight a starts joined last piece.pair high

/-- Goes through the pieces behind `last`, the pair kept last; `joined` holds the starts joined away. -/
def joinFrom (width : Width) (n a : Nat) (starts : Array Nat) :
    List Nat → Pair → List Piece → Checked (List Pair)
  | _, _, [] => .ok []
  | joined, last, piece :: rest => do
    let offset ← Checked.sub piece.pair.p last.p
    let stop := (rest.head?.map (·.pair.p)).getD n
    let join ← joinable width a starts joined last offset piece stop
    if join then joinFrom width n a starts (piece.pair.p :: joined) last rest
    else
      let kept ← joinFrom width n a starts joined piece.pair rest
      return piece.pair :: kept

def joinPieces (width : Width) (n a : Nat) : List Piece → Checked (List Pair)
  | [] => .ok []
  | first :: rest => do
    let starts := ((first :: rest).map (·.pair.p)).toArray
    let kept ← joinFrom width n a starts [] first.pair rest
    return first.pair :: kept

end BalancedMove
