import BalancedMove.Store.Basic

/-! Stores with bounded interval lengths. Every pair longer than the bound is cut into pieces of that
length, the last of which may be shorter. The pieces of a pair are linked in a list of their own,
which is then moved behind the list of the store, and in the tree one directly behind the other. -/
namespace BalancedMove.Store

/-- Cuts further pieces off a pair whose last piece so far is the node `current`, which begins at
`start`. The pieces cut so far are in `chain`. -/
def cutPieces (bound stop : Nat) (pair : Pair) :
    Nat → Store → LinkedList → (current : NodeId) → (start : Nat) → Checked (LinkedList × Store)
  | 0, _, _, _, _ => .error .endless
  | fuel + 1, store, chain, current, start => do
    let remaining ← Checked.sub stop start
    if remaining ≤ bound then return (chain,store)
    else
      let next ← store.width.add start bound
      let q ← store.width.add pair.q (← Checked.sub next pair.p)
      let (piece,store) := store.alloc ⟨next,q⟩
      let store ← store.insertBehind piece current
      let (chain,store) ← store.pushOnto chain piece
      cutPieces bound stop pair fuel store chain piece next

/-- Cuts the pair of the node `id` and appends its pieces to the list of the store. Pieces are not
empty, so an interval has no more of them than positions. -/
def cutToLength (bound : Nat) (store : Store) (id : NodeId) (interval : Interval) :
    Checked Store := do
  let stop ← store.width.add interval.p interval.length
  let (chain,store) ← store.pushOnto {} id
  let (chain,store) ←
    cutPieces bound stop interval.toPair (interval.length + 1) store chain id interval.p
  store.append chain

def loadBounded (width : Width) (n : Nat) (pairs : List Pair) (bound : Nat) : Outcome Store :=
  if bound = 0 then reject .lengthBound
  else do
    let store : Store := { width, start := 0, stop := n }
    let store ← (store.allocAll pairs).buildTree (outputOrder pairs)
    let measured ← intervals n pairs
    measured.zipIdx.foldlM (fun store entry => cutToLength bound store entry.2 entry.1) store

def bounded (width : Width) (n : Nat) (pairs : List Pair) (bound : Nat) : Outcome Store := do
  validate width n pairs
  loadBounded width n pairs bound

end BalancedMove.Store
