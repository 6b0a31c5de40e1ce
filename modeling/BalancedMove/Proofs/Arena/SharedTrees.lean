import BalancedMove.Proofs.Arena.Build
import BalancedMove.Proofs.Arena.InsertByKey
import Mathlib.Data.Fintype.Basic
import Mathlib.Logic.Function.Basic

/-! Any number of trees over the nodes of one arena, against a sequence of ids in key order for each.
A tree is built anew from sorted ids, or takes in a node by its key or behind a given one. Whatever
operations follow one another, as long as no node gets into two trees and none is put where its key
does not belong, all trees pass their checks and are walked in the order of their sequences, and
nothing is written except tree fields of nodes of the operated tree. -/
namespace BalancedMove

open Sequence

structure SharedTrees (ι : Type) where
  arena : Arena
  trees : ι → AvlTree

inductive TreeOperation where
  | ofSorted (ids : List NodeId)
  | insert (id : NodeId)
  | insertBehind (id hint : NodeId)

namespace TreeOperation

def runWith (field : HeightField) (tree : AvlTree) (arena : Arena) :
    TreeOperation → Checked (AvlTree × Arena)
  | ofSorted ids => AvlTree.ofSortedWith field arena ids
  | insert id => tree.insertWith field arena id
  | insertBehind id hint => tree.insertBehindWith field arena id hint

def run (tree : AvlTree) (arena : Arena) (operation : TreeOperation) : Checked (AvlTree × Arena) :=
  operation.runWith .byte tree arena

def act (key : NodeId → Nat) (shown : List NodeId) : TreeOperation → List NodeId
  | ofSorted ids => ids
  | insert id => putByKey key id shown
  | insertBehind id hint => putBehind hint id shown

variable {ι : Type}

/-- What the caller promises. Ids to build from are in key order and in no other tree, a node to
insert is in no tree, and a hint is in the tree and has it between itself and its successor. -/
def Admitted (size : Nat) (key : NodeId → Nat) (shown : ι → List NodeId) (target : ι) :
    TreeOperation → Prop
  | ofSorted ids => ids.Nodup ∧ (ids.Pairwise fun x y => key x ≤ key y) ∧ (∀ id ∈ ids, id < size) ∧
    ∀ t, t ≠ target → ∀ id ∈ ids, id ∉ shown t
  | insert id => id < size ∧ ∀ t, id ∉ shown t
  | insertBehind id hint => id < size ∧ (∀ t, id ∉ shown t) ∧ hint ∈ shown target ∧
    key hint ≤ key id ∧ ∀ next ∈ nextOf hint (shown target), key id ≤ key next

variable [DecidableEq ι]

def Admits (size : Nat) (key : NodeId → Nat) : (ι → List NodeId) → List (ι × TreeOperation) → Prop
  | _, [] => True
  | shown, (target,operation) :: rest => operation.Admitted size key shown target ∧
    Admits size key (Function.update shown target (operation.act key (shown target))) rest

section Deciding

variable [Fintype ι] (size : Nat) (key : NodeId → Nat)

instance (shown : ι → List NodeId) (target : ι) (operation : TreeOperation) :
    Decidable (operation.Admitted size key shown target) :=
  match operation with
  | ofSorted ids => inferInstanceAs (Decidable (ids.Nodup ∧
      (ids.Pairwise fun x y => key x ≤ key y) ∧ (∀ id ∈ ids, id < size) ∧
        ∀ t, t ≠ target → ∀ id ∈ ids, id ∉ shown t))
  | insert id => inferInstanceAs (Decidable (id < size ∧ ∀ t, id ∉ shown t))
  | insertBehind id hint => inferInstanceAs (Decidable (id < size ∧ (∀ t, id ∉ shown t) ∧
      hint ∈ shown target ∧ key hint ≤ key id ∧
        ∀ next ∈ nextOf hint (shown target), key id ≤ key next))

instance decideAdmits (shown : ι → List NodeId) :
    (log : List (ι × TreeOperation)) → Decidable (Admits size key shown log)
  | [] => inferInstanceAs (Decidable True)
  | (target,operation) :: rest =>
    have := decideAdmits (Function.update shown target (operation.act key (shown target))) rest
    inferInstanceAs (Decidable (operation.Admitted size key shown target ∧
      Admits size key (Function.update shown target (operation.act key (shown target))) rest))

end Deciding

end TreeOperation

namespace SharedTrees

variable {ι : Type}

def applyWith [DecidableEq ι] (field : HeightField) (shared : SharedTrees ι) (target : ι)
    (operation : TreeOperation) : Checked (SharedTrees ι) := do
  let (tree,arena) ← operation.runWith field (shared.trees target) shared.arena
  return ⟨arena,Function.update shared.trees target tree⟩

def apply [DecidableEq ι] (shared : SharedTrees ι) (target : ι) (operation : TreeOperation) :
    Checked (SharedTrees ι) := shared.applyWith .byte target operation

structure Shows (shared : SharedTrees ι) (shown : ι → List NodeId) : Prop where
  trees : ∀ t, (shared.trees t).Holds shared.arena (shown t)
  sorted : ∀ t, (shown t).Pairwise fun x y => shared.arena.key x ≤ shared.arena.key y
  apart : ∀ s t, s ≠ t → (shown s).Disjoint (shown t)

/-- What a reader of the trees sees: each passes its check, is walked in the order of its sequence, and
tells the length of it. -/
structure Presents (shared : SharedTrees ι) (shown : ι → List NodeId) : Prop where
  check : ∀ t, (shared.trees t).check shared.arena = .ok true
  ids : ∀ t, (shared.trees t).ids shared.arena = .ok (shown t)
  length : ∀ t, (shared.trees t).length shared.arena = .ok (shown t).length

/-- Other trees stay as they are. Pairs, list links, twins and cut flags of all nodes do, and so do the
tree fields of the nodes outside. -/
structure Spares (target : ι) (inside : List NodeId) (before after : SharedTrees ι) : Prop where
  arena : Arena.CellsOnly (· ∈ inside) before.arena after.arena
  trees : ∀ t, t ≠ target → after.trees t = before.trees t

/-- Each operation of a log succeeds. What it leaves is seen as the sequence that it makes of the one of
its tree beside those of the other trees, and spares everything outside that tree. -/
def Follows [DecidableEq ι] (key : NodeId → Nat) (shared : SharedTrees ι)
    (shown : ι → List NodeId) : List (ι × TreeOperation) → Prop
  | [] => True
  | (target,operation) :: rest =>
    let ids := operation.act key (shown target)
    ∃ after, shared.apply target operation = .ok after ∧
      after.Presents (Function.update shown target ids) ∧ Spares target ids shared after ∧
      after.Follows key (Function.update shown target ids) rest

variable {shared : SharedTrees ι} {shown : ι → List NodeId}

theorem shows_nothing (arena : Arena) : (⟨arena,fun _ => {}⟩ : SharedTrees ι).Shows fun _ => [] :=
  ⟨fun _ => AvlTree.holds_empty arena,fun _ => List.Pairwise.nil,fun _ _ _ => List.disjoint_nil_left _⟩

theorem Shows.presents (shows : shared.Shows shown) : shared.Presents shown := by
  refine ⟨fun t => ?_,fun t => (shows.trees t).ids,fun t => (shows.trees t).length⟩
  exact (shows.trees t).check (AvlTree.keyed_key (shows.trees t).lt_size) (shows.sorted t)

section Steps

variable {target : ι} {operation : TreeOperation}

theorem Shows.edit [DecidableEq ι] {tree : AvlTree} {arena : Arena} {ids : List NodeId}
    (shows : shared.Shows shown) (holds : tree.Holds arena ids)
    (only : Arena.CellsOnly (· ∈ ids) shared.arena arena)
    (sorted : ids.Pairwise fun x y => shared.arena.key x ≤ shared.arena.key y)
    (own : ∀ t, t ≠ target → ids.Disjoint (shown t)) :
    (⟨arena,Function.update shared.trees target tree⟩ : SharedTrees ι).Shows
      (Function.update shown target ids) := by
  have keys : arena.key = shared.arena.key := Arena.key_congr only.labels
  refine ⟨fun t => ?_,fun t => ?_,disjoint_update shows.apart own⟩
  · by_cases here : t = target
    · subst here
      simpa using holds
    · simp only [Function.update_of_ne here]
      exact (shows.trees t).congr fun id member => only.cells id fun moved => own t here moved member
  · rw [keys]
    by_cases here : t = target
    · subst here
      simpa using sorted
    · simpa only [Function.update_of_ne here] using shows.sorted t

theorem Shows.runWith (shows : shared.Shows shown) (small : shared.arena.size ≤ Width.w128.limit)
    (admitted : operation.Admitted shared.arena.size shared.arena.key shown target) :
    ∃ tree arena,
      Uncut (fun field => operation.runWith field (shared.trees target) shared.arena) (tree,arena) ∧
      tree.Holds arena (operation.act shared.arena.key (shown target)) ∧
      Arena.CellsOnly (· ∈ operation.act shared.arena.key (shown target)) shared.arena arena := by
  have holds := shows.trees target
  have few := Nat.le_trans holds.length_le small
  cases operation with
  | ofSorted ids =>
    obtain ⟨distinct,_,inside,_⟩ := admitted
    obtain ⟨tree,arena,uncut,built,_,only⟩ := AvlTree.ofSortedWith_holds distinct inside
      (Nat.le_trans (length_le_of_nodup distinct inside) small)
    exact ⟨tree,arena,uncut,built,only⟩
  | insert id =>
    obtain ⟨inside,loose⟩ := admitted
    have keyed : AvlTree.Keyed shared.arena shared.arena.key (id :: shown target) :=
      AvlTree.keyed_key fun other member => by
        rcases List.mem_cons.mp member with rfl | member
        · exact inside
        · exact holds.lt_size other member
    obtain ⟨tree,arena,uncut,changed,only⟩ :=
      holds.insertWith keyed (shows.sorted target) (loose target) few
    exact ⟨tree,arena,uncut,changed,only.widen fun other => mem_putByKey.mpr⟩
  | insertBehind id hint =>
    obtain ⟨inside,loose,member,_⟩ := admitted
    obtain ⟨tree,arena,uncut,changed,only⟩ := holds.insertBehindWith member (loose target) inside few
    exact ⟨tree,arena,uncut,changed,only.widen fun other => (mem_putBehind member).mpr⟩

theorem Shows.run (shows : shared.Shows shown) (small : shared.arena.size ≤ Width.w128.limit)
    (admitted : operation.Admitted shared.arena.size shared.arena.key shown target) :
    ∃ tree arena, operation.run (shared.trees target) shared.arena = .ok (tree,arena) ∧
      tree.Holds arena (operation.act shared.arena.key (shown target)) ∧
      Arena.CellsOnly (· ∈ operation.act shared.arena.key (shown target)) shared.arena arena := by
  obtain ⟨tree,arena,uncut,holds,only⟩ := shows.runWith small admitted
  exact ⟨tree,arena,uncut.byte,holds,only⟩

theorem Shows.act (shows : shared.Shows shown)
    (admitted : operation.Admitted shared.arena.size shared.arena.key shown target) :
    ((operation.act shared.arena.key (shown target)).Pairwise
      fun x y => shared.arena.key x ≤ shared.arena.key y) ∧
      ∀ t, t ≠ target → (operation.act shared.arena.key (shown target)).Disjoint (shown t) := by
  cases operation with
  | ofSorted ids =>
    obtain ⟨_,sorted,_,own⟩ := admitted
    exact ⟨sorted,own⟩
  | insert id =>
    obtain ⟨_,loose⟩ := admitted
    exact ⟨putByKey_pairwise (shows.sorted target) id,
      disjoint_grown shows.apart loose fun other => mem_putByKey.mp⟩
  | insertBehind id hint =>
    obtain ⟨_,loose,member,low,high⟩ := admitted
    exact ⟨putBehind_pairwise (shows.sorted target) member low high,
      disjoint_grown shows.apart loose fun other => (mem_putBehind member).mp⟩

theorem Shows.applyWith [DecidableEq ι] (shows : shared.Shows shown)
    (small : shared.arena.size ≤ Width.w128.limit)
    (admitted : operation.Admitted shared.arena.size shared.arena.key shown target) :
    let ids := operation.act shared.arena.key (shown target)
    ∃ after, Uncut (fun field => shared.applyWith field target operation) after ∧
      after.Shows (Function.update shown target ids) ∧ Spares target ids shared after := by
  obtain ⟨tree,arena,uncut,holds,only⟩ := shows.runWith small admitted
  obtain ⟨sorted,own⟩ := shows.act admitted
  refine ⟨⟨arena,Function.update shared.trees target tree⟩,fun field roomy => ?_,
    shows.edit holds only sorted own,only,fun t other => Function.update_of_ne other _ _⟩
  simp only [SharedTrees.applyWith,uncut field roomy,Checked.ok_bind,Checked.pure_ok]

theorem Shows.apply [DecidableEq ι] (shows : shared.Shows shown)
    (small : shared.arena.size ≤ Width.w128.limit)
    (admitted : operation.Admitted shared.arena.size shared.arena.key shown target) :
    let ids := operation.act shared.arena.key (shown target)
    ∃ after, shared.apply target operation = .ok after ∧
      after.Shows (Function.update shown target ids) ∧ Spares target ids shared after := by
  obtain ⟨after,uncut,still,spares⟩ := shows.applyWith small admitted
  exact ⟨after,uncut.byte,still,spares⟩

end Steps

/-- Every log of admitted operations runs to its end, and after each of them all trees show the
sequences that the operations make. Ids are machine words, so no arena is larger than said. -/
theorem trees_follow [DecidableEq ι] (shows : shared.Shows shown)
    (small : shared.arena.size ≤ Width.w128.limit) (log : List (ι × TreeOperation))
    (admits : TreeOperation.Admits shared.arena.size shared.arena.key shown log) :
    shared.Presents shown ∧ shared.Follows shared.arena.key shown log := by
  refine ⟨shows.presents,?_⟩
  generalize keyed : shared.arena.key = key at admits ⊢
  induction log generalizing shared shown with
  | nil => trivial
  | cons entry rest ih =>
    obtain ⟨target,operation⟩ := entry
    obtain ⟨admitted,later⟩ := admits
    subst keyed
    -- labels are spared, so the keys of the arena left behind are the ones that the log was admitted for
    obtain ⟨after,ok,still,spares⟩ := shows.apply small admitted
    have size := spares.arena.size
    rw [← size] at small later
    exact ⟨after,ok,still.presents,spares,
      ih still small (Arena.key_congr spares.arena.labels) later⟩

/-- Two trees over eight nodes, three of which have the same key: one is built from sorted ids and
hinted, the other grows by key until it rotates. -/
theorem two_trees_follow :
    let arena : Arena := ⟨([5,3,5,9,1,5,2,7].map fun q => { pair := ⟨0,q⟩ }).toArray⟩
    let fresh : SharedTrees (Fin 2) := ⟨arena,fun _ => {}⟩
    let log : List (Fin 2 × TreeOperation) := [(0,.insert 0),(0,.insert 2),(0,.insert 5),
      (1,.ofSorted [4,6,1]),(1,.insertBehind 7 1),(1,.insert 3),(0,.ofSorted [5,0])]
    fresh.Shows (fun _ => []) ∧ fresh.arena.size ≤ Width.w128.limit ∧
      TreeOperation.Admits fresh.arena.size fresh.arena.key (fun _ => []) log ∧
      fresh.Presents (fun _ => []) ∧ fresh.Follows fresh.arena.key (fun _ => []) log := by
  intro arena fresh log
  have shows : fresh.Shows fun _ => [] := shows_nothing arena
  have small : fresh.arena.size ≤ Width.w128.limit := by decide
  have admits : TreeOperation.Admits fresh.arena.size fresh.arena.key (fun _ => []) log := by decide
  exact ⟨shows,small,admits,trees_follow shows small log admits⟩

end SharedTrees

end BalancedMove
