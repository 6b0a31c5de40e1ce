import BalancedMove.Arena.AvlOrder
import BalancedMove.Arena.LinkedList
import Mathlib.Tactic.Common

/-! The three parts of a node: the links of a list, the cell of a tree, and the label that neither
of them touches. List operations change links only and tree operations change cells only; the
relations `LinksOnly` and `CellsOnly` say so, and carry every fact about the other parts across. -/
namespace BalancedMove

structure Links where
  pred : Option NodeId
  succ : Option NodeId

structure Cell where
  parent : Option NodeId
  left : Option NodeId
  right : Option NodeId
  height : Nat
  size : Nat

structure Label where
  pair : Pair
  twin : Option Nat
  cut : Bool

namespace Node

def links (node : Node) : Links := ⟨node.pred,node.succ⟩

def cell (node : Node) : Cell := ⟨node.parent,node.left,node.right,node.height,node.size⟩

def label (node : Node) : Label := ⟨node.pair,node.twin,node.cut⟩

end Node

namespace Cell

def child (cell : Cell) : Side → Option NodeId
  | .left => cell.left
  | .right => cell.right

def setChild (cell : Cell) (side : Side) (id : Option NodeId) : Cell :=
  match side with
  | .left => { cell with left := id }
  | .right => { cell with right := id }

end Cell

@[simp] theorem Node.cell_setChild (node : Node) (side : Side) (id : Option NodeId) :
    (node.setChild side id).cell = node.cell.setChild side id := by cases side <;> rfl

@[simp] theorem Node.links_setChild (node : Node) (side : Side) (id : Option NodeId) :
    (node.setChild side id).links = node.links := by cases side <;> rfl

@[simp] theorem Node.label_setChild (node : Node) (side : Side) (id : Option NodeId) :
    (node.setChild side id).label = node.label := by cases side <;> rfl

theorem Node.child_cell (node : Node) (side : Side) : node.child side = node.cell.child side := by
  cases side <;> rfl

@[simp] theorem Checked.ok_bind {ε α β : Type} (value : α) (next : α → Except ε β) :
    ((Except.ok value : Except ε α) >>= next) = next value := rfl

@[simp] theorem Checked.pure_ok {ε α : Type} (value : α) :
    (pure value : Except ε α) = Except.ok value := rfl

theorem Checked.mapM_ok {ε α β : Type} {step : α → Except ε β} {value : α → β} {items : List α}
    (steps : ∀ x ∈ items, step x = .ok (value x)) : items.mapM step = .ok (items.map value) := by
  induction items with
  | nil => rfl
  | cons x rest ih =>
    simp [List.mapM_cons,steps x (by simp),ih fun y member => steps y (by simp [member])]

/-- A fold in which every step succeeds, seen through a fold that cannot fail. What ties the two together
may speak of the items that are still to come. -/
theorem Checked.foldlM_follows {ε σ γ ω : Type} {step : σ → ω → Except ε σ} {act : γ → ω → γ}
    {Meets : σ → γ → List ω → Prop}
    (each : ∀ state seen item rest, Meets state seen (item :: rest) →
      ∃ after, step state item = .ok after ∧ Meets after (act seen item) rest)
    {state : σ} {seen : γ} {items : List ω} (start : Meets state seen items) :
    ∃ after, items.foldlM step state = .ok after ∧ Meets after (items.foldl act seen) [] := by
  induction items generalizing state seen with
  | nil => exact ⟨state,rfl,start⟩
  | cons item rest ih =>
    obtain ⟨middle,answers,meets⟩ := each state seen item rest start
    obtain ⟨after,ok,final⟩ := ih meets
    refine ⟨after,?_,final⟩
    rw [List.foldlM_cons,answers]
    exact ok

namespace Arena

def ofPairs (pairs : List Pair) : Arena := ⟨(pairs.map fun pair => { pair }).toArray⟩

@[simp] theorem size_ofPairs (pairs : List Pair) : (ofPairs pairs).size = pairs.length := by
  simp [ofPairs,size]

def put (arena : Arena) (id : NodeId) (change : Node → Node) : Arena :=
  ⟨arena.nodes.modify id change⟩

def linksOf (arena : Arena) (id : NodeId) : Option Links := arena.nodes[id]?.map Node.links

def cellOf (arena : Arena) (id : NodeId) : Option Cell := arena.nodes[id]?.map Node.cell

def labelOf (arena : Arena) (id : NodeId) : Option Label := arena.nodes[id]?.map Node.label

theorem modify_put {arena : Arena} {id : NodeId} (inside : id < arena.size)
    (change : Node → Node) : arena.modify id change = .ok (arena.put id change) := if_pos inside

@[simp] theorem size_put (arena : Arena) (id : NodeId) (change : Node → Node) :
    (arena.put id change).size = arena.size := Array.size_modify

theorem read_put (arena : Arena) (id other : NodeId) (change : Node → Node) :
    (arena.put id change).nodes[other]? =
      if other = id then arena.nodes[other]?.map change else arena.nodes[other]? := by
  simp only [put,Array.getElem?_modify,eq_comm]

theorem put_same {arena : Arena} {id : NodeId} {node : Node} {change : Node → Node}
    (here : arena.nodes[id]? = some node) (same : change node = node) : arena.put id change = arena := by
  refine congrArg Arena.mk (Array.ext_getElem? fun i => ?_)
  rw [Array.getElem?_modify]
  split
  next equal => rw [← equal,here,Option.map_some,same]
  next => rfl

theorem linksOf_put {arena : Arena} {id : NodeId} {change : Node → Node} {effect : Links → Links}
    (acts : ∀ node : Node, (change node).links = effect node.links) (other : NodeId) :
    (arena.put id change).linksOf other =
      if other = id then (arena.linksOf other).map effect else arena.linksOf other := by
  unfold linksOf
  rw [read_put]
  split
  · simp [Function.comp_def,acts]
  · rfl

theorem cellOf_put {arena : Arena} {id : NodeId} {change : Node → Node} {effect : Cell → Cell}
    (acts : ∀ node : Node, (change node).cell = effect node.cell) (other : NodeId) :
    (arena.put id change).cellOf other =
      if other = id then (arena.cellOf other).map effect else arena.cellOf other := by
  unfold cellOf
  rw [read_put]
  split
  · simp [Function.comp_def,acts]
  · rfl

theorem labelOf_put {arena : Arena} {id : NodeId} {change : Node → Node} {effect : Label → Label}
    (acts : ∀ node : Node, (change node).label = effect node.label) (other : NodeId) :
    (arena.put id change).labelOf other =
      if other = id then (arena.labelOf other).map effect else arena.labelOf other := by
  unfold labelOf
  rw [read_put]
  split
  · simp [Function.comp_def,acts]
  · rfl

theorem linksOf_put_same {arena : Arena} {id : NodeId} {change : Node → Node}
    (keeps : ∀ node : Node, (change node).links = node.links) (other : NodeId) :
    (arena.put id change).linksOf other = arena.linksOf other := by
  simpa using @linksOf_put arena id change (fun links => links) keeps other

theorem cellOf_put_same {arena : Arena} {id : NodeId} {change : Node → Node}
    (keeps : ∀ node : Node, (change node).cell = node.cell) (other : NodeId) :
    (arena.put id change).cellOf other = arena.cellOf other := by
  simpa using @cellOf_put arena id change (fun cell => cell) keeps other

theorem labelOf_put_same {arena : Arena} {id : NodeId} {change : Node → Node}
    (keeps : ∀ node : Node, (change node).label = node.label) (other : NodeId) :
    (arena.put id change).labelOf other = arena.labelOf other := by
  simpa using @labelOf_put arena id change (fun label => label) keeps other

structure LinksOnly (before after : Arena) : Prop where
  size : after.size = before.size
  cells : ∀ id, after.cellOf id = before.cellOf id
  labels : ∀ id, after.labelOf id = before.labelOf id

structure CellsOnly (named : NodeId → Prop) (before after : Arena) : Prop where
  size : after.size = before.size
  links : ∀ id, after.linksOf id = before.linksOf id
  labels : ∀ id, after.labelOf id = before.labelOf id
  cells : ∀ id, ¬ named id → after.cellOf id = before.cellOf id

theorem LinksOnly.refl (arena : Arena) : LinksOnly arena arena :=
  ⟨rfl,fun _ => rfl,fun _ => rfl⟩

theorem LinksOnly.trans {first second third : Arena} (left : LinksOnly first second)
    (right : LinksOnly second third) : LinksOnly first third :=
  ⟨right.size.trans left.size,fun id => (right.cells id).trans (left.cells id),
    fun id => (right.labels id).trans (left.labels id)⟩

theorem LinksOnly.put (arena : Arena) (id : NodeId) {change : Node → Node}
    (cell : ∀ node : Node, (change node).cell = node.cell)
    (label : ∀ node : Node, (change node).label = node.label) :
    LinksOnly arena (arena.put id change) :=
  ⟨size_put arena id change,cellOf_put_same cell,labelOf_put_same label⟩

theorem CellsOnly.refl (named : NodeId → Prop) (arena : Arena) : CellsOnly named arena arena :=
  ⟨rfl,fun _ => rfl,fun _ => rfl,fun _ _ => rfl⟩

theorem CellsOnly.trans {named : NodeId → Prop} {first second third : Arena}
    (left : CellsOnly named first second) (right : CellsOnly named second third) :
    CellsOnly named first third :=
  ⟨right.size.trans left.size,fun id => (right.links id).trans (left.links id),
    fun id => (right.labels id).trans (left.labels id),
    fun id outside => (right.cells id outside).trans (left.cells id outside)⟩

theorem CellsOnly.widen {named wider : NodeId → Prop} {before after : Arena}
    (only : CellsOnly named before after) (covers : ∀ id, named id → wider id) :
    CellsOnly wider before after :=
  ⟨only.size,only.links,only.labels,
    fun id outside => only.cells id fun inside => outside (covers id inside)⟩

theorem CellsOnly.put {named : NodeId → Prop} (arena : Arena) {id : NodeId} {change : Node → Node}
    (inside : named id) (links : ∀ node : Node, (change node).links = node.links)
    (label : ∀ node : Node, (change node).label = node.label) :
    CellsOnly named arena (arena.put id change) := by
  refine ⟨size_put arena id change,linksOf_put_same links,labelOf_put_same label,?_⟩
  intro other outside
  have differ : other ≠ id := fun same => outside (same ▸ inside)
  unfold cellOf
  rw [read_put,if_neg differ]

section Reading

variable {arena : Arena} {id : NodeId}

theorem lt_of_cell {cell : Cell} (present : arena.cellOf id = some cell) : id < arena.size := by
  by_contra outside
  rw [cellOf,Array.getElem?_eq_none (Nat.le_of_not_lt outside)] at present
  cases present

theorem lt_of_label {label : Label} (present : arena.labelOf id = some label) : id < arena.size := by
  by_contra outside
  rw [labelOf,Array.getElem?_eq_none (Nat.le_of_not_lt outside)] at present
  cases present

theorem lt_of_links {links : Links} (present : arena.linksOf id = some links) : id < arena.size := by
  by_contra outside
  rw [linksOf,Array.getElem?_eq_none (Nat.le_of_not_lt outside)] at present
  cases present

theorem node_of_cell {cell : Cell} (present : arena.cellOf id = some cell) :
    ∃ node, arena.node id = .ok node ∧ node.cell = cell := by
  obtain ⟨node,read,equal⟩ := Option.map_eq_some_iff.mp present
  exact ⟨node,node_success.mpr read,equal⟩

theorem node_of_label {label : Label} (present : arena.labelOf id = some label) :
    ∃ node, arena.node id = .ok node ∧ node.label = label := by
  obtain ⟨node,read,equal⟩ := Option.map_eq_some_iff.mp present
  exact ⟨node,node_success.mpr read,equal⟩

theorem succ_of_links {links : Links} (present : arena.linksOf id = some links) :
    arena.succ id = .ok links.succ := by
  obtain ⟨node,read,rfl⟩ := Option.map_eq_some_iff.mp present
  rw [Arena.succ,node_success.mpr read]
  rfl

theorem pred_of_links {links : Links} (present : arena.linksOf id = some links) :
    arena.pred id = .ok links.pred := by
  obtain ⟨node,read,rfl⟩ := Option.map_eq_some_iff.mp present
  rw [Arena.pred,node_success.mpr read]
  rfl

theorem child_of_cell {cell : Cell} (present : arena.cellOf id = some cell) (side : Side) :
    arena.child side id = .ok (cell.child side) := by
  obtain ⟨node,read,rfl⟩ := node_of_cell present
  rw [Arena.child,read,← Node.child_cell]
  rfl

theorem parent_of_cell {cell : Cell} (present : arena.cellOf id = some cell) :
    arena.parent id = .ok cell.parent := by
  obtain ⟨node,read,rfl⟩ := node_of_cell present
  rw [Arena.parent,read]
  rfl

end Reading

section Allocation

variable (arena : Arena) (pair : Pair)

theorem read_alloc (id : NodeId) : (arena.alloc pair).2.nodes[id]? =
    if id = arena.size then some { pair } else arena.nodes[id]? := by
  simp only [alloc,Array.getElem?_push]
  rfl

theorem linksOf_alloc (id : NodeId) : (arena.alloc pair).2.linksOf id =
    if id = arena.size then some ⟨none,none⟩ else arena.linksOf id := by
  rw [linksOf,read_alloc]
  split <;> rfl

theorem cellOf_alloc (id : NodeId) : (arena.alloc pair).2.cellOf id =
    if id = arena.size then some ⟨none,none,none,0,0⟩ else arena.cellOf id := by
  rw [cellOf,read_alloc]
  split <;> rfl

theorem labelOf_alloc (id : NodeId) : (arena.alloc pair).2.labelOf id =
    if id = arena.size then some ⟨pair,none,false⟩ else arena.labelOf id := by
  rw [labelOf,read_alloc]
  split <;> rfl

end Allocation

end Arena

end BalancedMove
