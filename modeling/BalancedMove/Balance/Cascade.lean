import BalancedMove.Balance.Heaviness

/-! Splitting an output interval, and the splits that follow from it. A split makes one pair, whose
input start may in turn make another output interval heavy. Where that start is linked is left to a
router: in the same store, or, when several workers share the domain, perhaps in another one. -/
namespace BalancedMove

/-- Links the input side of a pair `new` that was split off the pair `old`. The answer tells whether
the start stayed in this store. -/
class InputRouter (ρ : Type) where
  place : ρ → Store → (new old : NodeId) → Checked (ρ × Store × Bool)

inductive Local where
  | here
deriving DecidableEq, Repr

instance : InputRouter Local where
  place router store new old := do
    let store ← store.insertAfter new old
    return (router,store,true)

structure Balancer (ρ : Type) where
  store : Store
  router : ρ
  a : Nat
  splits : Nat := 0

namespace Balancer

variable {ρ : Type} [InputRouter ρ]

def start (store : Store) (router : ρ) (a : Nat) : Checked (Balancer ρ) := do
  Checked.require (2 ≤ a)
  return { store, router, a }

/-- Bound on the splits of a store, each of which begins an output interval at a position where
none began. -/
def splitFuel (balancer : Balancer ρ) : Nat :=
  balancer.store.width.limit + balancer.store.arena.size

def splitPair (store : Store) (split old : NodeId) : Checked Pair := do
  let pair ← store.pair old
  let offset ← Checked.sub (← store.p split) pair.q
  let p ← store.width.add pair.p offset
  let q ← store.width.add pair.q offset
  return ⟨p,q⟩

def split (balancer : Balancer ρ) (split old : NodeId) : Checked (Balancer ρ × NodeId × Bool) := do
  let ⟨store,router,a,splits⟩ := balancer
  let pair ← splitPair store split old
  let (new,store) := store.alloc pair
  let store ← store.insertBehind new old
  let (router,store,stayed) ← InputRouter.place router store new old
  return ({ store, router, a, splits := splits + 1 },new,stayed)

/-- Splits the interval `old` at `split` and then every interval left of `swept` that becomes heavy
by it. The sweep has counted the starts in front of `counted`; `count` grows if the last new start
is one of them, at or behind `swept`. The answer names the right half of the first split. -/
def cascade (swept counted : Nat) : Nat → Balancer ρ → Option NodeId → (split old : NodeId) →
    (count : Nat) → Checked (Balancer ρ × NodeId × Nat)
  | 0, _, _, _, _, _ => .error .endless
  | fuel + 1, balancer, first, split, old, count => do
    let low ← balancer.store.q old
    let high ← balancer.store.outputEnd old
    let (balancer,new,stayed) ← balancer.split split old
    let right := first.getD new
    if !stayed then return (balancer,right,count)
    else
      let landed ← balancer.store.p new
      if swept ≤ landed then
        return (balancer,right,if landed < counted then count + 1 else count)
      -- a start that returns to the interval just split cannot make it heavy again
      else if low ≤ landed ∧ landed < high then return (balancer,right,count)
      else
        match ← balancer.store.splitPointAround balancer.a new with
        | none => return (balancer,right,count)
        | some (split,old) => cascade swept counted fuel balancer (some right) split old count

def settle (balancer : Balancer ρ) (swept counted : Nat) (split old : NodeId) (count : Nat) :
    Checked (Balancer ρ × NodeId × Nat) :=
  cascade swept counted balancer.splitFuel balancer none split old count

end Balancer

end BalancedMove
