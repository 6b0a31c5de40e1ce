import BalancedMove.Arena.AvlOrder

/-! Self-check of a tree: parent links, recorded heights and sizes, balance, and the order of the
keys, both from parent to child and along the whole tree order. -/
namespace BalancedMove

def adjacent {α : Type} (related : α → α → Bool) : List α → Bool
  | x :: y :: rest => related x y && adjacent related (y :: rest)
  | _ => true

namespace AvlTree

def keyPasses (arena : Arena) (test : Nat → Bool) : Option NodeId → Checked Bool
  | none => .ok true
  | some id => do
    let node ← arena.node id
    return test node.pair.q

def childrenOrdered (arena : Arena) (node : Node) : Checked Bool := do
  let before ← keyPasses arena (fun key => key ≤ node.pair.q) node.left
  let behind ← keyPasses arena (fun key => node.pair.q ≤ key) node.right
  return before && behind

/-- Height and size of a subtree whose nodes all hold what they should. -/
def audit (arena : Arena) : Nat → Option NodeId → Option NodeId → Checked (Option (Nat × Nat))
  | _, none, _ => .ok (some (0,0))
  | 0, some _, _ => .error .endless
  | fuel + 1, some id, parent => do
    let node ← arena.node id
    if node.parent ≠ parent then return none
    else if !(← childrenOrdered arena node) then return none
    else
      match ← audit arena fuel node.left (some id) with
      | none => return none
      | some (leftHeight,leftSize) =>
        match ← audit arena fuel node.right (some id) with
        | none => return none
        | some (rightHeight,rightSize) =>
          let height := 1 + max leftHeight rightHeight
          let size := 1 + leftSize + rightSize
          let balanced := leftHeight ≤ rightHeight + 1 && rightHeight ≤ leftHeight + 1
          if balanced && node.height == height && node.size == size then return some (height,size)
          else return none

def keys (tree : AvlTree) (arena : Arena) : Checked (List Nat) := do
  let ids ← tree.ids arena
  ids.mapM fun id => do
    let node ← arena.node id
    return node.pair.q

def check (tree : AvlTree) (arena : Arena) : Checked Bool := do
  match ← audit arena arena.stepLimit tree.root none with
  | none => return false
  | some _ =>
    let keys ← tree.keys arena
    return adjacent (fun x y => x ≤ y) keys

end AvlTree

end BalancedMove
