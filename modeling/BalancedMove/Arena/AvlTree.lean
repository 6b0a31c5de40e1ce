import BalancedMove.Arena.Basic
import BalancedMove.Width

/-! Height-balanced trees over the nodes of an arena, in the order of `q`. A tree holds its root;
children, parents, heights and subtree sizes are in the nodes. The two directions are treated
alike: every definition that has a mirror image takes the side as an argument. This module holds
the links, the rotations and the ways to build a tree. -/
namespace BalancedMove

structure AvlTree where
  root : Option NodeId := none
deriving DecidableEq, Repr

/-- What becomes of a height that is put into the field of a node. A field may refuse a height. -/
abbrev HeightField := Nat → Checked Nat

/-- One byte, which holds the height of every balanced tree that memory can hold. -/
def HeightField.byte : HeightField := fun height => .ok (height % Width.w8.limit)

namespace Arena

def child (arena : Arena) (side : Side) (id : NodeId) : Checked (Option NodeId) := do
  let node ← arena.node id
  return node.child side

def parent (arena : Arena) (id : NodeId) : Checked (Option NodeId) := do
  let node ← arena.node id
  return node.parent

def heightAt (arena : Arena) : Option NodeId → Checked Nat
  | none => .ok 0
  | some id => do
    let node ← arena.node id
    return node.height

def sizeAt (arena : Arena) : Option NodeId → Checked Nat
  | none => .ok 0
  | some id => do
    let node ← arena.node id
    return node.size

def measure (field : HeightField) (arena : Arena) (id : NodeId) : Checked Arena := do
  let node ← arena.node id
  let leftHeight ← arena.heightAt node.left
  let rightHeight ← arena.heightAt node.right
  let leftSize ← arena.sizeAt node.left
  let rightSize ← arena.sizeAt node.right
  let height ← field (1 + max leftHeight rightHeight)
  arena.modify id fun node => { node with height := height, size := 1 + leftSize + rightSize }

def isolate (arena : Arena) (id : NodeId) : Checked Arena :=
  arena.modify id fun node =>
    { node with parent := none, left := none, right := none, height := 1, size := 1 }

def outermost (arena : Arena) (side : Side) (id : NodeId) : Checked NodeId :=
  farthest (arena.child side) arena.stepLimit id

end Arena

namespace AvlTree

def graft (tree : AvlTree) (arena : Arena) (parent : Option NodeId) (old new : NodeId) :
    Checked (AvlTree × Arena) := do
  match parent with
  | none =>
    let arena ← arena.modify new fun node => { node with parent := none }
    return (⟨some new⟩,arena)
  | some up =>
    let arena ← arena.modify up fun node =>
      node.setChild (if node.left = some old then .left else .right) (some new)
    let arena ← arena.modify new fun node => { node with parent := some up }
    return (tree,arena)

def vacancy (arena : Arena) (key : Nat) : Nat → NodeId → Checked (NodeId × Side)
  | 0, _ => .error .endless
  | fuel + 1, id => do
    let node ← arena.node id
    let side : Side := if key < node.pair.q then .left else .right
    match node.child side with
    | none => return (id,side)
    | some id => vacancy arena key fuel id

section Fields

variable (field : HeightField)

/-- Moves `x` down towards `side` and its child on the other side up into its place. -/
def rotate (side : Side) (tree : AvlTree) (arena : Arena) (x : NodeId) :
    Checked (AvlTree × Arena × NodeId) := do
  let node ← arena.node x
  let y ← Checked.found (node.child side.other)
  let between ← arena.child side y
  let arena ← arena.modify x fun node => node.setChild side.other between
  let arena ← arena.modify? between fun node => { node with parent := some x }
  let arena ← arena.modify y fun node => node.setChild side (some x)
  let arena ← arena.modify x fun node => { node with parent := some y }
  let (tree,arena) ← graft tree arena node.parent x y
  let arena ← arena.measure field x
  let arena ← arena.measure field y
  return (tree,arena,y)

/-- Lowers the subtree of `id` that is too high on the given side; first the child there is turned
outwards if its inner subtree is the higher one. -/
def lower (side : Side) (tree : AvlTree) (arena : Arena) (id : NodeId) :
    Checked (AvlTree × Arena × NodeId) := do
  let heavy ← Checked.found (← arena.child side id)
  let node ← arena.node heavy
  let outer ← arena.heightAt (node.child side)
  let inner ← arena.heightAt (node.child side.other)
  if outer < inner then
    let (tree,arena,_) ← rotate field side tree arena heavy
    rotate field side.other tree arena id
  else rotate field side.other tree arena id

def settle (tree : AvlTree) (arena : Arena) (id : NodeId) :
    Checked (AvlTree × Arena × NodeId) := do
  let arena ← arena.measure field id
  let node ← arena.node id
  let leftHeight ← arena.heightAt node.left
  let rightHeight ← arena.heightAt node.right
  if rightHeight + 1 < leftHeight then lower field .left tree arena id
  else if leftHeight + 1 < rightHeight then lower field .right tree arena id
  else return (tree,arena,id)

/-- Settles all nodes from `id` up to the root, since the sizes change on the whole way. -/
def settleUp : Nat → AvlTree → Arena → Option NodeId → Checked (AvlTree × Arena)
  | _, tree, arena, none => .ok (tree,arena)
  | 0, _, _, some _ => .error .endless
  | fuel + 1, tree, arena, some id => do
    let (tree,arena,top) ← settle field tree arena id
    let up ← arena.parent top
    settleUp fuel tree arena up

def attach (tree : AvlTree) (arena : Arena) (parent : NodeId) (side : Side) (id : NodeId) :
    Checked (AvlTree × Arena) := do
  let arena ← arena.modify parent fun node => node.setChild side (some id)
  let arena ← arena.modify id fun node => { node with parent := some parent }
  settleUp field arena.stepLimit tree arena (some parent)

def insertWith (tree : AvlTree) (arena : Arena) (id : NodeId) : Checked (AvlTree × Arena) := do
  let arena ← arena.isolate id
  match tree.root with
  | none => return (⟨some id⟩,arena)
  | some root =>
    let node ← arena.node id
    let (parent,side) ← vacancy arena node.pair.q arena.stepLimit root
    attach field tree arena parent side id

def insertBehindWith (tree : AvlTree) (arena : Arena) (id hint : NodeId) :
    Checked (AvlTree × Arena) := do
  let arena ← arena.isolate id
  match ← arena.child .right hint with
  | none => attach field tree arena hint .right id
  | some right =>
    let parent ← arena.outermost .left right
    attach field tree arena parent .left id

def link (arena : Arena) (parent : Option NodeId) (ids : List NodeId) :
    Checked (Arena × Option NodeId) :=
  match _split : ids.drop (ids.length / 2) with
  | [] => .ok (arena,none)
  | id :: behind => do
    let arena ← arena.modify id fun node => { node with parent := parent }
    let (arena,left) ← link arena (some id) (ids.take (ids.length / 2))
    let arena ← arena.modify id fun node => { node with left := left }
    let (arena,right) ← link arena (some id) behind
    let arena ← arena.modify id fun node => { node with right := right }
    let arena ← arena.measure field id
    return (arena,some id)
termination_by ids.length
decreasing_by
  all_goals
    have total := congrArg List.length _split
    simp at total ⊢
    omega

def ofSortedWith (arena : Arena) (ids : List NodeId) : Checked (AvlTree × Arena) := do
  let (arena,root) ← link field arena none ids
  return (⟨root⟩,arena)

end Fields

def insert (tree : AvlTree) (arena : Arena) (id : NodeId) : Checked (AvlTree × Arena) :=
  tree.insertWith .byte arena id

def insertBehind (tree : AvlTree) (arena : Arena) (id hint : NodeId) : Checked (AvlTree × Arena) :=
  tree.insertBehindWith .byte arena id hint

def ofSorted (arena : Arena) (ids : List NodeId) : Checked (AvlTree × Arena) :=
  ofSortedWith .byte arena ids

end AvlTree

end BalancedMove
