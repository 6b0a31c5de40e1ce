import BalancedMove.Pairs.Basic

/-! One arena of nodes, named by index, that lists and trees link in two independent ways. Links
are optional indices. Every read and write checks its index, and a walk along links that visits
more nodes than the arena holds is reported as endless. -/
namespace BalancedMove

abbrev NodeId := Nat

inductive Side where
  | left
  | right
deriving DecidableEq, Repr

def Side.other : Side → Side
  | .left => .right
  | .right => .left

structure Node where
  pair : Pair
  pred : Option NodeId := none
  succ : Option NodeId := none
  parent : Option NodeId := none
  left : Option NodeId := none
  right : Option NodeId := none
  /-- zero as long as the node is in no tree -/
  height : Nat := 0
  size : Nat := 0
  /-- sequence number shared with the record of the same pair in another store -/
  twin : Option Nat := none
  /-- whether the start was made by cutting at a range boundary -/
  cut : Bool := false
deriving DecidableEq, Repr

namespace Node

def child (node : Node) : Side → Option NodeId
  | .left => node.left
  | .right => node.right

def setChild (node : Node) (side : Side) (id : Option NodeId) : Node :=
  match side with
  | .left => { node with left := id }
  | .right => { node with right := id }

end Node

structure Arena where
  nodes : Array Node := #[]
deriving DecidableEq, Repr

namespace Arena

def size (arena : Arena) : Nat := arena.nodes.size

/-- More steps than any walk in a soundly linked arena takes. -/
def stepLimit (arena : Arena) : Nat := 4 * (arena.size + 1)

def node (arena : Arena) (id : NodeId) : Checked Node := Checked.found arena.nodes[id]?

def modify (arena : Arena) (id : NodeId) (change : Node → Node) : Checked Arena :=
  if id < arena.nodes.size then .ok ⟨arena.nodes.modify id change⟩ else .error .outOfRange

def modify? (arena : Arena) (id : Option NodeId) (change : Node → Node) : Checked Arena :=
  match id with
  | none => .ok arena
  | some id => arena.modify id change

def alloc (arena : Arena) (pair : Pair) : NodeId × Arena :=
  (arena.nodes.size,⟨arena.nodes.push { pair }⟩)

def follow (next : NodeId → Checked (Option NodeId)) :
    Nat → Option NodeId → Checked (List NodeId)
  | 0, _ => .ok []
  | _, none => .ok []
  | limit + 1, some id => do
    let link ← next id
    let rest ← follow next limit link
    return id :: rest

def walk (arena : Arena) (next : NodeId → Checked (Option NodeId)) (start : Option NodeId) :
    Checked (List NodeId) := do
  let ids ← follow next (arena.size + 1) start
  if ids.length ≤ arena.size then return ids else .error .endless

def farthest (next : NodeId → Checked (Option NodeId)) : Nat → NodeId → Checked NodeId
  | 0, _ => .error .endless
  | fuel + 1, id => do
    match ← next id with
    | none => return id
    | some id => farthest next fuel id

theorem node_success {arena : Arena} {id : NodeId} {node : Node} :
    arena.node id = .ok node ↔ arena.nodes[id]? = some node :=
  ⟨Checked.found_success,fun present => by rw [Arena.node,present]; rfl⟩

theorem size_alloc (arena : Arena) (pair : Pair) : (arena.alloc pair).2.size = arena.size + 1 :=
  Array.size_push _

end Arena

end BalancedMove
