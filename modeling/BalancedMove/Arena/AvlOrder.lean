import BalancedMove.Arena.AvlTree

/-! Order of a tree: neighbours, ends, the node at a rank and the rank of a node, and the last node
whose key is at most a given one. All of them follow links; none compares more keys than the path
it takes has nodes. -/
namespace BalancedMove

namespace Arena

/-- The nearest ancestor that has `id` below its other side. -/
def climb (arena : Arena) (side : Side) : Nat → NodeId → Checked (Option NodeId)
  | 0, _ => .error .endless
  | fuel + 1, id => do
    match ← arena.parent id with
    | none => return none
    | some up =>
      if (← arena.child side up) = some id then climb arena side fuel up else return some up

def neighbour (arena : Arena) (side : Side) (id : NodeId) : Checked (Option NodeId) := do
  match ← arena.child side id with
  | some below =>
    let nearest ← arena.outermost side.other below
    return some nearest
  | none => climb arena side arena.stepLimit id

def treeNext (arena : Arena) (id : NodeId) : Checked (Option NodeId) := arena.neighbour .right id

def treePrev (arena : Arena) (id : NodeId) : Checked (Option NodeId) := arena.neighbour .left id

def rankAbove (arena : Arena) : Nat → NodeId → Nat → Checked Nat
  | 0, _, _ => .error .endless
  | fuel + 1, id, before => do
    match ← arena.parent id with
    | none => return before
    | some up =>
      let node ← arena.node up
      if node.right = some id then
        let size ← arena.sizeAt node.left
        rankAbove arena fuel up (before + size + 1)
      else rankAbove arena fuel up before

def rank (arena : Arena) (id : NodeId) : Checked Nat := do
  let left ← arena.child .left id
  let size ← arena.sizeAt left
  rankAbove arena arena.stepLimit id size

def lastAtMost (arena : Arena) (key : Nat) :
    Nat → Option NodeId → Option NodeId → Checked (Option NodeId)
  | _, none, best => .ok best
  | 0, some _, _ => .error .endless
  | fuel + 1, some id, best => do
    let node ← arena.node id
    if node.pair.q ≤ key then lastAtMost arena key fuel node.right (some id)
    else lastAtMost arena key fuel node.left best

def nodeAt (arena : Arena) : Nat → Nat → Option NodeId → Checked (Option NodeId)
  | _, _, none => .ok none
  | 0, _, some _ => .error .endless
  | fuel + 1, i, some id => do
    let node ← arena.node id
    let before ← arena.sizeAt node.left
    if i < before then nodeAt arena fuel i node.left
    else if i = before then return some id
    else nodeAt arena fuel (i - (before + 1)) node.right

end Arena

namespace AvlTree

def isEmpty (tree : AvlTree) : Bool := tree.root.isNone

def length (tree : AvlTree) (arena : Arena) : Checked Nat := arena.sizeAt tree.root

def extreme (tree : AvlTree) (arena : Arena) (side : Side) : Checked (Option NodeId) :=
  match tree.root with
  | none => .ok none
  | some root => do
    let id ← arena.outermost side root
    return some id

def min? (tree : AvlTree) (arena : Arena) : Checked (Option NodeId) := tree.extreme arena .left

def max? (tree : AvlTree) (arena : Arena) : Checked (Option NodeId) := tree.extreme arena .right

def second? (tree : AvlTree) (arena : Arena) : Checked (Option NodeId) := do
  match ← tree.min? arena with
  | none => return none
  | some first => arena.treeNext first

def firstIds (tree : AvlTree) (arena : Arena) (limit : Nat) : Checked (List NodeId) := do
  let first ← tree.min? arena
  Arena.follow arena.treeNext limit first

def ids (tree : AvlTree) (arena : Arena) : Checked (List NodeId) := do
  let first ← tree.min? arena
  arena.walk arena.treeNext first

def greatestAtMost (tree : AvlTree) (arena : Arena) (key : Nat) : Checked (Option NodeId) :=
  arena.lastAtMost key arena.stepLimit tree.root none

def select (tree : AvlTree) (arena : Arena) (i : Nat) : Checked (Option NodeId) :=
  arena.nodeAt arena.stepLimit i tree.root

end AvlTree

end BalancedMove
