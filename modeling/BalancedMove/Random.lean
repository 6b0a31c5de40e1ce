import BalancedMove.Width

/-! A counter-based source of random words. A draw depends only on the seed and the counter, so
equal seeds give equal inputs wherever and in whatever order the draws are made. -/
namespace BalancedMove

/-- Mixes a word by two multiplications and six shifted differences, each of which is invertible. -/
def hashWord (word : UInt64) : UInt64 :=
  let v := word * 3935559000370003845 + 2691343689449507681
  let v := v ^^^ (v >>> 21)
  let v := v ^^^ (v <<< 37)
  let v := v ^^^ (v >>> 4)
  let v := v * 4768777513237032717
  let v := v ^^^ (v <<< 20)
  let v := v ^^^ (v >>> 41)
  v ^^^ (v <<< 5)

structure RandomSource where
  seed : UInt64
deriving DecidableEq, Repr

namespace RandomSource

def fork (source : RandomSource) (branch : UInt64) : RandomSource :=
  ⟨hashWord (hashWord (branch + source.seed))⟩

def word (source : RandomSource) (counter : UInt64) : UInt64 := hashWord (counter + source.seed)

def below (source : RandomSource) (counter : UInt64) (bound : Nat) : Checked Nat :=
  if bound = 0 then .error .violated
  else .ok ((source.word counter).toNat * bound / Width.w64.limit)

def shuffleFrom {α : Type} (source : RandomSource) : Nat → Array α → Checked (Array α)
  | 0, items => .ok items
  | last + 1, items => do
    let j ← source.below (UInt64.ofNat (last + 1)) (last + 2)
    shuffleFrom source last (items.swapIfInBounds (last + 1) j)

def shuffle {α : Type} (source : RandomSource) (items : Array α) : Checked (Array α) :=
  shuffleFrom source (items.size - 1) items

end RandomSource

end BalancedMove
