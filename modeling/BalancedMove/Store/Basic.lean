import BalancedMove.Arena.AvlOrder
import BalancedMove.Arena.LinkedList
import BalancedMove.Pairs.Validate

/-! Interval stores: one arena indexed two ways. The list orders its nodes by input start, the tree
its nodes by output start, and a node may be in both or in one of them. An interval reaches up to
the next start in its order, the last one up to the end of the range that the store covers. -/
namespace BalancedMove

structure Store where
  width : Width
  start : Nat
  stop : Nat
  arena : Arena := {}
  list : LinkedList := {}
  tree : AvlTree := {}
deriving DecidableEq, Repr

namespace Store

def node (store : Store) (id : NodeId) : Checked Node := store.arena.node id

def pair (store : Store) (id : NodeId) : Checked Pair := do
  let node ← store.node id
  return node.pair

def p (store : Store) (id : NodeId) : Checked Nat := do
  let pair ← store.pair id
  return pair.p

def q (store : Store) (id : NodeId) : Checked Nat := do
  let pair ← store.pair id
  return pair.q

def succ (store : Store) (id : NodeId) : Checked (Option NodeId) := store.arena.succ id

def pred (store : Store) (id : NodeId) : Checked (Option NodeId) := store.arena.pred id

def outputNext (store : Store) (id : NodeId) : Checked (Option NodeId) := store.arena.treeNext id

def outputPrev (store : Store) (id : NodeId) : Checked (Option NodeId) := store.arena.treePrev id

def inList (store : Store) (id : NodeId) : Checked Bool := store.list.contains store.arena id

def inTree (store : Store) (id : NodeId) : Checked Bool := do
  let node ← store.node id
  return decide (0 < node.height)

def inputEnd (store : Store) (id : NodeId) : Checked Nat := do
  match ← store.succ id with
  | none => return store.stop
  | some next => store.p next

def outputEnd (store : Store) (id : NodeId) : Checked Nat := do
  match ← store.outputNext id with
  | none => return store.stop
  | some next => store.q next

def inputIds (store : Store) : Checked (List NodeId) := store.list.ids store.arena

def outputIds (store : Store) : Checked (List NodeId) := store.tree.ids store.arena

def pairs (store : Store) : Checked (List Pair) := do
  let ids ← store.inputIds
  ids.mapM store.pair

def outputPairs (store : Store) : Checked (List Pair) := do
  let ids ← store.outputIds
  ids.mapM store.pair

def greatestAtMost (store : Store) (position : Nat) : Checked (Option NodeId) :=
  store.tree.greatestAtMost store.arena position

def alloc (store : Store) (pair : Pair) : NodeId × Store :=
  let ⟨width,start,stop,arena,list,tree⟩ := store
  let (id,arena) := arena.alloc pair
  (id,{ width, start, stop, arena, list, tree })

def modify (store : Store) (id : NodeId) (change : Node → Node) : Checked Store := do
  let ⟨width,start,stop,arena,list,tree⟩ := store
  let arena ← arena.modify id change
  return { width, start, stop, arena, list, tree }

def setTwin (store : Store) (id : NodeId) (twin : Option Nat) : Checked Store :=
  store.modify id fun node => { node with twin := twin }

def setCut (store : Store) (id : NodeId) (cut : Bool) : Checked Store :=
  store.modify id fun node => { node with cut := cut }

def onList (store : Store) (operation : LinkedList → Arena → Checked (LinkedList × Arena)) :
    Checked Store := do
  let ⟨width,start,stop,arena,list,tree⟩ := store
  let (list,arena) ← operation list arena
  return { width, start, stop, arena, list, tree }

def onTree (store : Store) (operation : AvlTree → Arena → Checked (AvlTree × Arena)) :
    Checked Store := do
  let ⟨width,start,stop,arena,list,tree⟩ := store
  let (tree,arena) ← operation tree arena
  return { width, start, stop, arena, list, tree }

def pushBack (store : Store) (id : NodeId) : Checked Store :=
  store.onList fun list arena => list.pushBack arena id

def insertAfter (store : Store) (id mark : NodeId) : Checked Store :=
  store.onList fun list arena => list.insertAfter arena id mark

def insertBefore (store : Store) (id mark : NodeId) : Checked Store :=
  store.onList fun list arena => list.insertBefore arena id mark

def treeInsert (store : Store) (id : NodeId) : Checked Store :=
  store.onTree fun tree arena => tree.insert arena id

def insertBehind (store : Store) (id hint : NodeId) : Checked Store :=
  store.onTree fun tree arena => tree.insertBehind arena id hint

def buildTree (store : Store) (ids : List NodeId) : Checked Store :=
  store.onTree fun _ arena => AvlTree.ofSorted arena ids

/-- Links `id` at the end of a list beside the one of the store, which shares the arena. -/
def pushOnto (store : Store) (chain : LinkedList) (id : NodeId) : Checked (LinkedList × Store) := do
  let ⟨width,start,stop,arena,list,tree⟩ := store
  let (chain,arena) ← chain.pushBack arena id
  return (chain,{ width, start, stop, arena, list, tree })

def append (store : Store) (chain : LinkedList) : Checked Store :=
  store.onList fun list arena => do
    let (list,_,arena) ← list.concat arena chain
    return (list,arena)

def allocAll (store : Store) (pairs : List Pair) : Store :=
  pairs.foldl (fun store pair => (store.alloc pair).2) store

def pushPairs (store : Store) : List Pair → Checked Store
  | [] => .ok store
  | pair :: rest => do
    let (id,store) := store.alloc pair
    let store ← store.pushBack id
    pushPairs store rest

def addPairs (store : Store) : List Pair → Checked Store
  | [] => .ok store
  | pair :: rest => do
    let (id,store) := store.alloc pair
    let store ← store.pushBack id
    let store ← store.treeInsert id
    addPairs store rest

def outputOrder (pairs : List Pair) : List NodeId :=
  (sortBy (fun entry => entry.1.q) pairs.zipIdx).map (·.2)

def load (width : Width) (n : Nat) (pairs : List Pair) : Checked Store := do
  let store : Store := { width, start := 0, stop := n }
  let store ← store.pushPairs pairs
  store.buildTree (outputOrder pairs)

def ofPairs (width : Width) (n : Nat) (pairs : List Pair) : Outcome Store := do
  validate width n pairs
  load width n pairs

end Store

end BalancedMove
