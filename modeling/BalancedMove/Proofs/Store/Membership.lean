import BalancedMove.Proofs.Arena.Membership
import BalancedMove.Proofs.Arena.SharedTrees
import BalancedMove.Proofs.Store.Operations

/-! Membership in the two orders of a store, from an empty store on through any operations. A ledger keeps
what the operations should make of the orders. The list is alone in its arena, so the test for it is right
about every node. The test for the tree reads the height of the node, which is written when a node is put
into a tree but not when a new tree leaves the node out; the ledger names the nodes for which that is so. -/
namespace BalancedMove

open Sequence

inductive StoreOperation where
  | alloc (pair : Pair)
  | pushBack (id : NodeId)
  | insertAfter (id mark : NodeId)
  | insertBefore (id mark : NodeId)
  | treeInsert (id : NodeId)
  | insertBehind (id hint : NodeId)
  | buildTree (ids : List NodeId)

/-- The pairs of the nodes, and the nodes in input order and in output order. Dropped nodes have been in a
tree that was replaced by one without them, and have not been put into a tree since. -/
structure Ledger where
  pairs : List Pair := []
  inputs : List NodeId := []
  outputs : List NodeId := []
  dropped : List NodeId := []

namespace Ledger

def key (ledger : Ledger) (id : NodeId) : Nat := (ledger.pairs[id]?.map Pair.q).getD 0

def plant (ledger : Ledger) (ids : List NodeId) : Ledger :=
  { ledger with outputs := ids, dropped := (ledger.outputs ++ ledger.dropped).filter (· ∉ ids) }

def act (ledger : Ledger) : StoreOperation → Ledger
  | .alloc pair => { ledger with pairs := ledger.pairs ++ [pair] }
  | .pushBack id => { ledger with inputs := ledger.inputs ++ [id] }
  | .insertAfter id mark => { ledger with inputs := putBehind mark id ledger.inputs }
  | .insertBefore id mark => { ledger with inputs := putBefore mark id ledger.inputs }
  | .treeInsert id => ledger.plant (putByKey ledger.key id ledger.outputs)
  | .insertBehind id hint => ledger.plant (putBehind hint id ledger.outputs)
  | .buildTree ids => ledger.plant ids

def replay (ledger : Ledger) (log : List StoreOperation) : Ledger := log.foldl act ledger

/-- What the caller promises: a node is linked once in each order, beside a node that is linked there, and
the tree stays in key order. A tree may be built from any different nodes in key order. -/
def Admits (ledger : Ledger) : StoreOperation → Prop
  | .alloc _ => True
  | .pushBack id => id < ledger.pairs.length ∧ id ∉ ledger.inputs
  | .insertAfter id mark | .insertBefore id mark =>
    id < ledger.pairs.length ∧ id ∉ ledger.inputs ∧ mark ∈ ledger.inputs
  | .treeInsert id => id < ledger.pairs.length ∧ id ∉ ledger.outputs
  | .insertBehind id hint => id < ledger.pairs.length ∧ id ∉ ledger.outputs ∧ hint ∈ ledger.outputs ∧
    ledger.key hint ≤ ledger.key id ∧ ∀ next ∈ nextOf hint ledger.outputs, ledger.key id ≤ ledger.key next
  | .buildTree ids => ids.Nodup ∧ (ids.Pairwise fun x y => ledger.key x ≤ ledger.key y) ∧
    ∀ id ∈ ids, id < ledger.pairs.length

def AdmitsAll (ledger : Ledger) : List StoreOperation → Prop
  | [] => True
  | operation :: rest => ledger.Admits operation ∧ (ledger.act operation).AdmitsAll rest

instance decideAdmits (ledger : Ledger) (operation : StoreOperation) :
    Decidable (ledger.Admits operation) :=
  match operation with
  | .alloc _ => inferInstanceAs (Decidable True)
  | .pushBack id => inferInstanceAs (Decidable (id < ledger.pairs.length ∧ id ∉ ledger.inputs))
  | .insertAfter id mark | .insertBefore id mark => inferInstanceAs (Decidable
      (id < ledger.pairs.length ∧ id ∉ ledger.inputs ∧ mark ∈ ledger.inputs))
  | .treeInsert id => inferInstanceAs (Decidable (id < ledger.pairs.length ∧ id ∉ ledger.outputs))
  | .insertBehind id hint => inferInstanceAs (Decidable (id < ledger.pairs.length ∧
      id ∉ ledger.outputs ∧ hint ∈ ledger.outputs ∧ ledger.key hint ≤ ledger.key id ∧
        ∀ next ∈ nextOf hint ledger.outputs, ledger.key id ≤ ledger.key next))
  | .buildTree ids => inferInstanceAs (Decidable (ids.Nodup ∧
      (ids.Pairwise fun x y => ledger.key x ≤ ledger.key y) ∧ ∀ id ∈ ids, id < ledger.pairs.length))

instance decideAdmitsAll (ledger : Ledger) :
    (log : List StoreOperation) → Decidable (ledger.AdmitsAll log)
  | [] => inferInstanceAs (Decidable True)
  | operation :: rest =>
    have := decideAdmitsAll (ledger.act operation) rest
    inferInstanceAs (Decidable (ledger.Admits operation ∧ (ledger.act operation).AdmitsAll rest))

theorem length_act (ledger : Ledger) (operation : StoreOperation) :
    ledger.pairs.length ≤ (ledger.act operation).pairs.length := by
  cases operation with
  | alloc pair => simp [act]
  | _ => exact Nat.le_refl _

theorem length_replay (ledger : Ledger) (log : List StoreOperation) :
    ledger.pairs.length ≤ (ledger.replay log).pairs.length := by
  induction log generalizing ledger with
  | nil => exact Nat.le_refl _
  | cons operation rest ih => exact Nat.le_trans (ledger.length_act operation) (ih _)

end Ledger

namespace Store

def apply (store : Store) : StoreOperation → Checked Store
  | .alloc pair => .ok (store.alloc pair).2
  | .pushBack id => store.pushBack id
  | .insertAfter id mark => store.insertAfter id mark
  | .insertBefore id mark => store.insertBefore id mark
  | .treeInsert id => store.treeInsert id
  | .insertBehind id hint => store.insertBehind id hint
  | .buildTree ids => store.buildTree ids

def run (store : Store) (log : List StoreOperation) : Checked Store := log.foldlM apply store

/-- The store is linked as the ledger says. A node outside the list has no links, and one outside the tree
has a height exactly if it was dropped. -/
structure Follows (store : Store) (ledger : Ledger) : Prop where
  size : store.arena.size = ledger.pairs.length
  key : store.arena.key = ledger.key
  list : store.list.Holds store.arena ledger.inputs
  loose : ∀ id < store.arena.size, id ∉ ledger.inputs → store.arena.linksOf id = some ⟨none,none⟩
  tree : store.tree.Holds store.arena ledger.outputs
  sorted : ledger.outputs.Pairwise fun x y => ledger.key x ≤ ledger.key y
  heights : ∀ id ∉ ledger.outputs, ∀ cell, store.arena.cellOf id = some cell →
    (0 < cell.height ↔ id ∈ ledger.dropped)
  dropped : ∀ id ∈ ledger.dropped, id < store.arena.size

variable {store : Store} {ledger : Ledger}

theorem follows_empty (width : Width) (start stop : Nat) :
    ({ width, start, stop } : Store).Follows {} := by
  have nothing : ∀ id, ({} : Arena).cellOf id = none := fun id => by simp [Arena.cellOf]
  refine ⟨rfl,funext fun id => ?_,LinkedList.holds_empty _,
    fun id inside => absurd inside (Nat.not_lt_zero id),AvlTree.holds_empty _,List.Pairwise.nil,
    fun id _ cell found => ?_,fun id member => by cases member⟩
  · simp [Arena.key,Arena.labelOf,Ledger.key]
  · rw [nothing id] at found
    cases found

section Steps

theorem Follows.lists (follows : store.Follows ledger) :
    (⟨store.arena,fun _ => store.list⟩ : SharedLists Unit).Shows fun _ => ledger.inputs :=
  ⟨fun _ => follows.list,fun _ _ differ => absurd rfl differ,
    fun id inside outside => follows.loose id inside (outside ())⟩

theorem Follows.trees (follows : store.Follows ledger) :
    (⟨store.arena,fun _ => store.tree⟩ : SharedTrees Unit).Shows fun _ => ledger.outputs :=
  ⟨fun _ => follows.tree,fun _ => follows.key ▸ follows.sorted,fun _ _ differ => absurd rfl differ⟩

theorem Follows.alloc (follows : store.Follows ledger) (pair : Pair) :
    (store.withArena (store.arena.alloc pair).2).Follows (ledger.act (.alloc pair)) := by
  have older : ∀ id < store.arena.size, id ≠ store.arena.size := fun id inside => Nat.ne_of_lt inside
  have keys : ∀ id < store.arena.size, (ledger.act (.alloc pair)).key id = ledger.key id := by
    intro id inside
    rw [follows.size] at inside
    simp [Ledger.key,Ledger.act,List.getElem?_append_left inside]
  refine ⟨?_,funext fun id => ?_,follows.list.congr ?_,fun id inside outside => ?_,follows.tree.congr ?_,
    follows.sorted.imp_of_mem ?_,fun id outside cell found => ?_,fun id member => ?_⟩
  · rw [store.size_alloc pair,follows.size]
    simp [Ledger.act]
  · have before := congrFun follows.key id
    rw [Arena.key] at before ⊢
    change ((((store.arena.alloc pair).2.labelOf id).map _).getD 0) = _
    rw [Arena.labelOf_alloc]
    by_cases new : id = store.arena.size
    · rw [if_pos new,new,follows.size]
      simp [Ledger.key,Ledger.act]
    · rw [if_neg new,before]
      by_cases inside : id < store.arena.size
      · exact (keys id inside).symm
      · rw [follows.size] at inside new
        have short : ledger.pairs.length ≤ id := Nat.le_of_not_lt inside
        have beyond : (ledger.pairs ++ [pair]).length ≤ id := by
          rw [List.length_append,List.length_singleton]
          exact Nat.lt_of_le_of_ne short (Ne.symm new)
        simp [Ledger.key,Ledger.act,List.getElem?_eq_none short,List.getElem?_eq_none beyond]
  · intro id member
    exact (Arena.linksOf_alloc _ _ _).trans
      (if_neg (older id (follows.list.chained.lt_size id member)))
  · refine (Arena.linksOf_alloc _ _ _).trans ?_
    split
    next => rfl
    next old =>
      rw [store.size_alloc pair] at inside
      exact follows.loose id (Nat.lt_of_le_of_ne (Nat.le_of_lt_succ inside) old) outside
  · intro id member
    exact (Arena.cellOf_alloc _ _ _).trans (if_neg (older id (follows.tree.lt_size id member)))
  · intro x y first second le
    rw [keys x (follows.tree.lt_size x first),keys y (follows.tree.lt_size y second)]
    exact le
  · change (store.arena.alloc pair).2.cellOf id = some cell at found
    rw [Arena.cellOf_alloc] at found
    split at found
    next new =>
      cases found
      simp only [Nat.lt_irrefl,false_iff]
      exact fun member => older id (follows.dropped id member) new
    next => exact follows.heights id outside cell found
  · rw [store.size_alloc pair]
    exact Nat.lt_succ_of_lt (follows.dropped id member)

theorem Follows.link (follows : store.Follows ledger)
    (operation : LinkedList → Arena → Checked (LinkedList × Arena)) {ids : List NodeId}
    (grown : ∀ id ∈ ledger.inputs, id ∈ ids)
    (step : ∃ list arena, operation store.list store.arena = .ok (list,arena) ∧
      list.Holds arena ids ∧ Arena.LinksOnly store.arena arena ∧
      ∀ other, other ∉ ids → arena.linksOf other = store.arena.linksOf other) :
    ∃ after, store.onList operation = .ok after ∧ after.Follows { ledger with inputs := ids } := by
  obtain ⟨list,arena,answers,holds,only,kept⟩ := step
  refine ⟨_,onList_ok answers,only.size.trans follows.size,
    (Arena.key_congr only.labels).trans follows.key,holds,fun id inside outside => ?_,
    follows.tree.congr fun id _ => only.cells id,follows.sorted,fun id outside cell found => ?_,
    fun id member => only.size ▸ follows.dropped id member⟩
  · exact (kept id outside).trans (follows.loose id (only.size ▸ inside)
      fun member => outside (grown id member))
  · exact follows.heights id outside cell ((only.cells id).symm.trans found)

/-- Every operation of the tree gives a height to each node of its new sequence and to no other node. -/
theorem Follows.plant (follows : store.Follows ledger) (operation : TreeOperation)
    (small : store.arena.size ≤ Width.w128.limit)
    (admitted : operation.Admitted store.arena.size store.arena.key (fun _ : Unit => ledger.outputs) ()) :
    ∃ after, store.onTree (fun tree arena => operation.run tree arena) = .ok after ∧
      after.Follows (ledger.plant (operation.act ledger.key ledger.outputs)) := by
  obtain ⟨tree,arena,answers,holds,only⟩ := follows.trees.run small admitted
  obtain ⟨sorted,_⟩ := follows.trees.act admitted
  simp only [follows.key] at holds only sorted
  refine ⟨_,onTree_ok answers,only.size.trans follows.size,
    (Arena.key_congr only.labels).trans follows.key,follows.list.congr fun id _ => only.links id,
    fun id inside outside => (only.links id).trans (follows.loose id (only.size ▸ inside) outside),
    holds,sorted,fun id outside cell found => ?_,fun id member => ?_⟩
  · have before := (only.cells id outside).symm.trans found
    simp only [Ledger.plant,List.mem_filter,List.mem_append] at outside ⊢
    by_cases shown : id ∈ ledger.outputs
    · simp [shown,outside,follows.tree.height_pos shown before]
    · simp [shown,outside,follows.heights id shown cell before]
  · simp only [Ledger.plant,List.mem_filter,List.mem_append] at member
    change id < arena.size
    rw [only.size]
    exact member.1.elim (follows.tree.lt_size id) (follows.dropped id)

theorem Follows.apply (follows : store.Follows ledger) (small : store.arena.size ≤ Width.w128.limit)
    {operation : StoreOperation} (admitted : ledger.Admits operation) :
    ∃ after, store.apply operation = .ok after ∧ after.Follows (ledger.act operation) := by
  cases operation with
  | alloc pair => exact ⟨_,rfl,follows.alloc pair⟩
  | pushBack id =>
    obtain ⟨inside,loose⟩ := admitted
    exact follows.link (fun list arena => list.pushBack arena id)
      (fun other known => List.mem_append_left [id] known)
      (follows.list.pushBack loose (follows.size ▸ inside))
  | insertAfter id mark =>
    obtain ⟨inside,loose,member⟩ := admitted
    exact follows.link (fun list arena => list.insertAfter arena id mark)
      (fun other known => (mem_putBehind member).mpr (Or.inr known))
      (follows.list.insertAfter member loose (follows.size ▸ inside))
  | insertBefore id mark =>
    obtain ⟨inside,loose,member⟩ := admitted
    exact follows.link (fun list arena => list.insertBefore arena id mark)
      (fun other known => (mem_putBefore member).mpr (Or.inr known))
      (follows.list.insertBefore member loose (follows.size ▸ inside))
  | treeInsert id =>
    obtain ⟨inside,loose⟩ := admitted
    exact follows.plant (.insert id) small ⟨follows.size ▸ inside,fun _ => loose⟩
  | insertBehind id hint =>
    obtain ⟨inside,loose,member,low,high⟩ := admitted
    refine follows.plant (.insertBehind id hint) small ?_
    rw [follows.key]
    exact ⟨follows.size ▸ inside,fun _ => loose,member,low,high⟩
  | buildTree ids =>
    obtain ⟨distinct,sorted,inside⟩ := admitted
    refine follows.plant (.ofSorted ids) small ?_
    rw [follows.key]
    exact ⟨distinct,sorted,follows.size ▸ inside,fun _ differ => absurd rfl differ⟩

end Steps

theorem Follows.run (follows : store.Follows ledger) (log : List StoreOperation)
    (small : (ledger.replay log).pairs.length ≤ Width.w128.limit) (admits : ledger.AdmitsAll log) :
    ∃ after, store.run log = .ok after ∧ after.Follows (ledger.replay log) := by
  obtain ⟨after,ran,final,_⟩ := @Checked.foldlM_follows _ _ _ _ Store.apply Ledger.act
    (fun (state : Store) ledger log => state.Follows ledger ∧
      (ledger.replay log).pairs.length ≤ Width.w128.limit ∧ ledger.AdmitsAll log)
    (fun state ledger operation rest ⟨still,few,admitted,later⟩ => by
      have now := Nat.le_trans (ledger.length_replay (operation :: rest)) few
      obtain ⟨after,answers,next⟩ := still.apply (still.size ▸ now) admitted
      exact ⟨after,answers,next,few,later⟩)
    store ledger log ⟨follows,small,admits⟩
  exact ⟨after,ran,final⟩

theorem Follows.inList (follows : store.Follows ledger) (small : store.arena.size ≤ LinkedList.absent)
    {id : NodeId} (inside : id < store.arena.size) :
    store.inList id = .ok (decide (id ∈ ledger.inputs)) := by
  obtain ⟨answer,answers,exact⟩ := follows.lists.contains small () inside
  have own : answer = decide (id ∈ ledger.inputs) := by
    rw [Bool.eq_iff_iff,exact,decide_eq_true_eq]
    exact or_iff_left fun ⟨s,differ,_⟩ => differ rfl
  rw [← own]
  exact answers

theorem Follows.inTree (follows : store.Follows ledger) {id : NodeId} (inside : id < store.arena.size) :
    store.inTree id = .ok (decide (id ∈ ledger.outputs ∨ id ∈ ledger.dropped)) := by
  have known : store.arena.cellOf id = some store.arena.nodes[id].cell := by
    rw [Arena.cellOf,Array.getElem?_eq_getElem inside]
    rfl
  obtain ⟨node,read,cell⟩ := Arena.node_of_cell known
  have linked : 0 < node.height ↔ id ∈ ledger.outputs ∨ id ∈ ledger.dropped := by
    rw [← cell] at known
    by_cases shown : id ∈ ledger.outputs
    · exact iff_of_true (follows.tree.height_pos shown known) (Or.inl shown)
    · exact (follows.heights id shown node.cell known).trans (or_iff_right shown).symm
  simp [Store.inTree,Store.node,read,linked]

/-- After any log of admitted operations both walks and both membership tests answer. The list knows its
nodes. The tree knows its own and takes the dropped ones for its own as well. -/
theorem membership_agrees (width : Width) (start stop : Nat) (log : List StoreOperation)
    (small : (({} : Ledger).replay log).pairs.length ≤ LinkedList.absent)
    (admits : ({} : Ledger).AdmitsAll log) :
    ∃ after inputs outputs, ({ width, start, stop } : Store).run log = .ok after ∧
      after.inputIds = .ok inputs ∧ after.outputIds = .ok outputs ∧
      ∀ id < after.arena.size, after.inList id = .ok (decide (id ∈ inputs)) ∧
        after.inTree id =
          .ok (decide (id ∈ outputs ∨ id ∈ (({} : Ledger).replay log).dropped)) := by
  have wide : LinkedList.absent ≤ Width.w128.limit := by decide
  obtain ⟨after,ran,follows⟩ :=
    (follows_empty width start stop).run log (Nat.le_trans small wide) admits
  refine ⟨after,_,_,ran,follows.list.ids,follows.tree.ids,fun id inside => ?_⟩
  exact ⟨follows.inList (follows.size ▸ small) inside,follows.inTree inside⟩

/-- Nodes that are in both orders, in one of them and in none; one is dropped and two come back. -/
theorem half_linked_agrees :
    let log : List StoreOperation := [.alloc ⟨0,4⟩,.alloc ⟨3,0⟩,.alloc ⟨5,9⟩,.alloc ⟨7,4⟩,.alloc ⟨8,2⟩,
      .pushBack 1,.insertAfter 2 1,.insertBefore 0 1,.treeInsert 0,.treeInsert 1,.insertBehind 3 0,
      .buildTree [1],.treeInsert 0,.buildTree [1,2],.insertBehind 3 1]
    (({} : Ledger).replay log).pairs.length ≤ LinkedList.absent ∧ ({} : Ledger).AdmitsAll log ∧
      ∃ after inputs outputs, ({ width := .w8, start := 0, stop := 10 } : Store).run log = .ok after ∧
        after.inputIds = .ok inputs ∧ after.outputIds = .ok outputs ∧
        ∀ id < after.arena.size, after.inList id = .ok (decide (id ∈ inputs)) ∧
          after.inTree id =
            .ok (decide (id ∈ outputs ∨ id ∈ (({} : Ledger).replay log).dropped)) := by
  intro log
  have small : (({} : Ledger).replay log).pairs.length ≤ LinkedList.absent := by decide
  have admits : ({} : Ledger).AdmitsAll log := by decide
  exact ⟨small,admits,membership_agrees .w8 0 10 log small admits⟩

/-- A tree built without a node of the tree before it is still said to have that node. -/
theorem dropped_in_tree :
    let log : List StoreOperation := [.alloc ⟨0,0⟩,.alloc ⟨5,5⟩,.buildTree [0,1],.buildTree [0]]
    ({} : Ledger).AdmitsAll log ∧
      ∃ after, ({ width := .w8, start := 0, stop := 10 } : Store).run log = .ok after ∧
        after.outputIds = .ok [0] ∧ after.inTree 1 = .ok true := by
  intro log
  have admits : ({} : Ledger).AdmitsAll log := by decide
  obtain ⟨after,ran,follows⟩ := (follows_empty .w8 0 10).run log (by decide) admits
  have inside : 1 < after.arena.size := follows.size ▸ by decide
  exact ⟨admits,after,ran,follows.tree.ids,follows.inTree inside⟩

end Store

end BalancedMove
