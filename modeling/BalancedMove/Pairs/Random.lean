import BalancedMove.Pairs.Basic
import BalancedMove.Width
import BalancedMove.Random

/-! Random permutations made of a given number of runs: the domain is cut at random points and the
pieces are laid out again in shuffled order. -/
namespace BalancedMove

def insertStart (start : Nat) : List Nat → List Nat
  | [] => [start]
  | first :: rest =>
    if start < first then start :: first :: rest else first :: insertStart start rest

/-- Draws starts from `[1, n)` until none is missing; a start drawn before is drawn in vain. The
counter has 64 bits and is advanced after every draw, so the largest one is never drawn with. -/
def drawStarts (source : RandomSource) (n : Nat) : Nat → Nat → List Nat → Checked (List Nat)
  | _, 0, starts => .ok starts
  | 0, _ + 1, _ => .error .overflow
  | left + 1, missing + 1, starts => do
    let draw ← source.below (UInt64.ofNat (Width.w64.limit - 1 - (left + 1))) (n - 1)
    let start ← Width.w64.add 1 draw
    if starts.contains start then drawStarts source n left (missing + 1) starts
    else drawStarts source n left missing (insertStart start starts)

def layOut (lengths : Array Nat) : List Nat → Nat → Array Nat → Checked (Array Nat)
  | [], _, outputs => .ok outputs
  | run :: rest, reached, outputs => do
    let length ← Checked.found lengths[run]?
    let next ← Width.w64.add reached length
    layOut lengths rest next (outputs.setIfInBounds run reached)

def randomPairs (n k seed : Nat) : Checked (List Pair) := do
  let n := Width.w64.saturate n
  let k := max (min k n) 1
  let source : RandomSource := ⟨UInt64.ofNat seed⟩
  let starts ← drawStarts source n (Width.w64.limit - 1) (k - 1) [0]
  let order ← (source.fork 1).shuffle (Array.range k)
  let measured ← intervals n (starts.map fun p => ⟨p,0⟩)
  let outputs ← layOut (measured.map (·.length)).toArray order.toList 0 (Array.replicate k 0)
  return starts.zipWith (fun p q => ⟨p,q⟩) outputs.toList

end BalancedMove
