import BalancedMove.Proofs.Arena.Build
import BalancedMove.Proofs.Arena.TreeOrder
import BalancedMove.Store.Check

/-! Stores as images of two sequences of records. A record is a node with its label; the list of a
store shows the records in input order, its tree shows them in output order. The operations of a
store act on these sequences, and its queries read them. -/
namespace BalancedMove

structure Record where
  id : NodeId
  pair : Pair
  twin : Option Nat := none
  cut : Bool := false
deriving DecidableEq, Repr

namespace Record

def p (record : Record) : Nat := record.pair.p

def q (record : Record) : Nat := record.pair.q

def label (record : Record) : Label := ⟨record.pair,record.twin,record.cut⟩

end Record

namespace Store

open Sequence

/-- The store shows these records in input order and in output order. -/
structure Holds (store : Store) (inputs outputs : List Record) : Prop where
  list : store.list.Holds store.arena (inputs.map Record.id)
  tree : store.tree.Holds store.arena (outputs.map Record.id)
  labelled : ∀ r, r ∈ inputs ∨ r ∈ outputs → store.arena.labelOf r.id = some r.label

/-- The store shows these records in input order, whatever its tree looks like. -/
structure Lists (store : Store) (inputs : List Record) : Prop where
  list : store.list.Holds store.arena (inputs.map Record.id)
  labelled : ∀ r ∈ inputs, store.arena.labelOf r.id = some r.label

theorem Holds.lists {store : Store} {inputs outputs : List Record}
    (holds : store.Holds inputs outputs) : store.Lists inputs :=
  ⟨holds.list,fun r member => holds.labelled r (Or.inl member)⟩

/-- Nodes outside the tree have no height. -/
def Tidy (store : Store) (outputs : List Record) : Prop :=
  ∀ id, id ∉ outputs.map Record.id → ∀ cell, store.arena.cellOf id = some cell → cell.height = 0

structure Keeps (before after : Store) : Prop where
  width : after.width = before.width
  start : after.start = before.start
  stop : after.stop = before.stop

theorem Keeps.refl (store : Store) : Keeps store store := ⟨rfl,rfl,rfl⟩

theorem Keeps.trans {first second third : Store} (left : Keeps first second)
    (right : Keeps second third) : Keeps first third :=
  ⟨right.width.trans left.width,right.start.trans left.start,right.stop.trans left.stop⟩

theorem label_inj {r s : Record} (id : r.id = s.id) (label : r.label = s.label) : r = s := by
  obtain ⟨rid,rpair,rtwin,rcut⟩ := r
  obtain ⟨sid,spair,stwin,scut⟩ := s
  simp only [Record.label,Label.mk.injEq] at label id
  obtain ⟨rfl,rfl,rfl⟩ := label
  rw [id]

section Queries

variable {store : Store} {inputs outputs left right : List Record} {r : Record}

theorem pair_congr {after : Store} {id : NodeId}
    (same : after.arena.labelOf id = store.arena.labelOf id) : after.pair id = store.pair id := by
  unfold Arena.labelOf at same
  unfold Store.pair Store.node Arena.node
  cases known : store.arena.nodes[id]? with
  | none =>
    rw [known] at same
    rw [Option.map_eq_none_iff.mp same]
  | some node =>
    rw [known] at same
    obtain ⟨other,read,label⟩ := Option.map_eq_some_iff.mp same
    rw [read]
    exact congrArg Except.ok (congrArg Label.pair label)

theorem Holds.eq_of_id (holds : store.Holds inputs outputs) {s : Record}
    (first : r ∈ inputs ∨ r ∈ outputs) (second : s ∈ inputs ∨ s ∈ outputs) (same : r.id = s.id) :
    r = s := by
  have labels := (holds.labelled r first).symm.trans (same ▸ holds.labelled s second)
  exact label_inj same (Option.some.inj labels)

theorem Holds.inputs_nodup (holds : store.Holds inputs outputs) : inputs.Nodup :=
  holds.list.distinct.of_map

theorem Holds.outputs_nodup (holds : store.Holds inputs outputs) : outputs.Nodup :=
  holds.tree.distinct.of_map

theorem Holds.lt_size (holds : store.Holds inputs outputs) (known : r ∈ inputs ∨ r ∈ outputs) :
    r.id < store.arena.size := Arena.lt_of_label (holds.labelled r known)

theorem Holds.node (holds : store.Holds inputs outputs) (known : r ∈ inputs ∨ r ∈ outputs) :
    ∃ node, store.node r.id = .ok node ∧ node.pair = r.pair ∧ node.twin = r.twin ∧
      node.cut = r.cut := by
  obtain ⟨node,read,isLabel⟩ := Arena.node_of_label (holds.labelled r known)
  exact ⟨node,read,congrArg Label.pair isLabel,congrArg Label.twin isLabel,
    congrArg Label.cut isLabel⟩

theorem Holds.pair (holds : store.Holds inputs outputs) (known : r ∈ inputs ∨ r ∈ outputs) :
    store.pair r.id = .ok r.pair := by
  obtain ⟨node,read,isPair,_⟩ := holds.node known
  simp [Store.pair,read,isPair]

theorem Holds.p (holds : store.Holds inputs outputs) (known : r ∈ inputs ∨ r ∈ outputs) :
    store.p r.id = .ok r.p := by simp [Store.p,holds.pair known,Record.p]

theorem Holds.q (holds : store.Holds inputs outputs) (known : r ∈ inputs ∨ r ∈ outputs) :
    store.q r.id = .ok r.q := by simp [Store.q,holds.pair known,Record.q]

theorem Lists.p (lists : store.Lists inputs) (member : r ∈ inputs) : store.p r.id = .ok r.p := by
  obtain ⟨node,read,isLabel⟩ := Arena.node_of_label (lists.labelled r member)
  have isPair : node.pair = r.pair := congrArg Label.pair isLabel
  simp [Store.p,Store.pair,Store.node,read,isPair,Record.p]

theorem Lists.succ (lists : store.Lists (left ++ r :: right)) :
    store.succ r.id = .ok (right.head?.map Record.id) := by
  have list := lists.list
  simp only [List.map_append,List.map_cons] at list
  rw [Store.succ,list.succ,List.head?_map]

theorem Lists.pred (lists : store.Lists (left ++ r :: right)) :
    store.pred r.id = .ok (left.getLast?.map Record.id) := by
  have list := lists.list
  simp only [List.map_append,List.map_cons] at list
  rw [Store.pred,list.pred,List.getLast?_map]

theorem Holds.succ (holds : store.Holds (left ++ r :: right) outputs) :
    store.succ r.id = .ok (right.head?.map Record.id) := holds.lists.succ

theorem Holds.outputNext (holds : store.Holds inputs (left ++ r :: right)) :
    store.outputNext r.id = .ok (right.head?.map Record.id) := by
  have tree := holds.tree
  simp only [List.map_append,List.map_cons] at tree
  rw [Store.outputNext,tree.next,List.head?_map]

theorem Holds.inputIds (holds : store.Holds inputs outputs) :
    store.inputIds = .ok (inputs.map Record.id) := holds.list.ids

theorem Holds.outputIds (holds : store.Holds inputs outputs) :
    store.outputIds = .ok (outputs.map Record.id) := holds.tree.ids

theorem Holds.pairs (holds : store.Holds inputs outputs) :
    store.pairs = .ok (inputs.map Record.pair) := by
  rw [Store.pairs,holds.inputIds,Checked.ok_bind,List.mapM_map]
  exact Checked.mapM_ok fun r member => holds.pair (Or.inl member)

theorem Holds.outputPairs (holds : store.Holds inputs outputs) :
    store.outputPairs = .ok (outputs.map Record.pair) := by
  rw [Store.outputPairs,holds.outputIds,Checked.ok_bind,List.mapM_map]
  exact Checked.mapM_ok fun r member => holds.pair (Or.inr member)

theorem Holds.outputEnd (holds : store.Holds inputs outputs) (member : r ∈ outputs) :
    store.outputEnd r.id = .ok (endOf Record.q store.stop outputs r) := by
  obtain ⟨left,right,rfl⟩ := List.append_of_mem member
  have absent : r ∉ left := fun inside =>
    (List.nodup_append.mp holds.outputs_nodup).2.2 r inside r (by simp) rfl
  rw [endOf_split absent,Store.outputEnd,holds.outputNext]
  cases right with
  | nil => rfl
  | cons next right => exact holds.q (r := next) (Or.inr (by simp))

def treeKey (store : Store) (id : NodeId) : Nat :=
  ((store.arena.labelOf id).map fun label => label.pair.q).getD 0

theorem Holds.treeKey (holds : store.Holds inputs outputs) (known : r ∈ inputs ∨ r ∈ outputs) :
    store.treeKey r.id = r.q := by simp [Store.treeKey,holds.labelled r known,Record.label,Record.q]

theorem Holds.keyed (holds : store.Holds inputs outputs) :
    AvlTree.Keyed store.arena store.treeKey (outputs.map Record.id) := by
  intro id member
  obtain ⟨r,present,rfl⟩ := List.mem_map.mp member
  exact ⟨r.label,holds.labelled r (Or.inr present),(holds.treeKey (Or.inr present)).symm⟩

theorem Holds.key_pairwise (holds : store.Holds inputs outputs)
    (sorted : outputs.Pairwise fun r s => r.q ≤ s.q) :
    (outputs.map Record.id).Pairwise fun x y => store.treeKey x ≤ store.treeKey y := by
  rw [List.pairwise_map]
  refine sorted.imp_of_mem ?_
  intro r s first second le
  rwa [holds.treeKey (Or.inr first),holds.treeKey (Or.inr second)]

theorem Increasing.weaken {α : Type} {key : α → Nat} {items : List α} (sorted : Increasing key items) :
    items.Pairwise fun x y => key x ≤ key y := sorted.imp Nat.le_of_lt

/-- The tree finds the interval that a position lies in, even beside empty ones that begin with it. -/
theorem Holds.greatestAtMost (holds : store.Holds inputs outputs)
    (ordered : outputs.Pairwise fun s t => s.q ≤ t.q) (member : r ∈ outputs) {position : Nat}
    (low : r.q ≤ position) (high : position < endOf Record.q store.stop outputs r) :
    store.greatestAtMost position = .ok (some r.id) := by
  have found := holds.tree.greatestAtMost holds.keyed (holds.key_pairwise ordered) position
  have distinct := holds.outputs_nodup
  rw [Store.greatestAtMost,found]
  obtain ⟨left,right,rfl⟩ := List.append_of_mem member
  obtain ⟨_,rear,across⟩ := List.pairwise_append.mp ordered
  have absent : r ∉ left := fun inside =>
    (List.nodup_append.mp distinct).2.2 r inside r (by simp) rfl
  rw [endOf_split absent] at high
  -- the keys up to the position are those of the record and of the ones in front of it
  have passLeft : (left.map Record.id).filter (fun id => store.treeKey id ≤ position) =
      left.map Record.id := by
    apply List.filter_eq_self.mpr
    intro id inside
    obtain ⟨s,inLeft,rfl⟩ := List.mem_map.mp inside
    have before := across s inLeft r (by simp)
    rw [holds.treeKey (Or.inr (by simp [inLeft]))]
    simp
    omega
  have failRight : (right.map Record.id).filter (fun id => store.treeKey id ≤ position) = [] := by
    apply List.filter_eq_nil_iff.mpr
    intro id inside
    obtain ⟨s,inRight,rfl⟩ := List.mem_map.mp inside
    have behind : position < s.q := by
      cases right with
      | nil => cases inRight
      | cons next right =>
        have first : position < next.q := by simpa using high
        rcases List.mem_cons.mp inRight with rfl | later
        · exact first
        · have above := (List.pairwise_cons.mp (List.pairwise_cons.mp rear).2).1 s later
          omega
    rw [holds.treeKey (Or.inr (by simp [inRight]))]
    simp
    omega
  have own : store.treeKey r.id ≤ position := by
    rw [holds.treeKey (Or.inr (by simp))]
    exact low
  simp [List.filter_append,passLeft,failRight,own]

theorem Holds.inTree_of_mem (holds : store.Holds inputs outputs) (member : r ∈ outputs) :
    store.inTree r.id = .ok true := by
  obtain ⟨node,read,_⟩ := holds.node (Or.inr member)
  have cell : store.arena.cellOf r.id = some node.cell := by
    rw [Arena.cellOf,Arena.node_success.mp read]
    rfl
  have height : 0 < node.height := holds.tree.height_pos (List.mem_map_of_mem member) cell
  simp [Store.inTree,read,height]

theorem Tidy.inTree_of_not_mem (tidy : store.Tidy outputs) (holds : store.Holds inputs outputs)
    (known : r ∈ inputs) (absent : r ∉ outputs) : store.inTree r.id = .ok false := by
  have outside : r.id ∉ outputs.map Record.id := by
    intro inside
    obtain ⟨s,present,same⟩ := List.mem_map.mp inside
    exact absent (holds.eq_of_id (Or.inr present) (Or.inl known) same ▸ present)
  obtain ⟨node,read,_⟩ := holds.node (Or.inl known)
  have cell : store.arena.cellOf r.id = some node.cell := by
    rw [Arena.cellOf,Arena.node_success.mp read]
    rfl
  have height : node.height = 0 := tidy r.id outside node.cell cell
  simp [Store.inTree,read,height]

end Queries

end Store

end BalancedMove
