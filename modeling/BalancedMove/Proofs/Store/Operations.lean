import BalancedMove.Proofs.Arena.InsertByKey
import BalancedMove.Proofs.Store.View

/-! Operations of a store as operations on its two sequences of records. Each lemma also says which
parts of the arena an operation leaves alone. -/
namespace BalancedMove.Store

open Sequence

variable {store : Store} {inputs outputs : List Record} {old new : Record}

def withArena (store : Store) (arena : Arena) : Store := { store with arena }

theorem keeps_withArena (store : Store) (arena : Arena) : store.Keeps (store.withArena arena) :=
  ⟨rfl,rfl,rfl⟩

theorem onList_ok {operation : LinkedList → Arena → Checked (LinkedList × Arena)} {list : LinkedList}
    {arena : Arena} (ok : operation store.list store.arena = .ok (list,arena)) :
    store.onList operation = .ok { store with list, arena } := by
  simp [onList,ok]

theorem onTree_ok {operation : AvlTree → Arena → Checked (AvlTree × Arena)} {tree : AvlTree}
    {arena : Arena} (ok : operation store.tree store.arena = .ok (tree,arena)) :
    store.onTree operation = .ok { store with tree, arena } := by
  simp [onTree,ok]

theorem modify_ok {id : NodeId} (inside : id < store.arena.size) (change : Node → Node) :
    store.modify id change = .ok (store.withArena (store.arena.put id change)) := by
  simp [Store.modify,Arena.modify_put inside,withArena]

section Allocation

variable {pair : Pair}

theorem Holds.alloc (holds : store.Holds inputs outputs) (pair : Pair) :
    (store.withArena (store.arena.alloc pair).2).Holds inputs outputs := by
  refine ⟨holds.list.congr ?_,holds.tree.congr ?_,?_⟩
  · intro id member
    obtain ⟨r,inside,rfl⟩ := List.mem_map.mp member
    exact (Arena.linksOf_alloc _ _ _).trans
      (if_neg (Nat.ne_of_lt (holds.lt_size (Or.inl inside))))
  · intro id member
    obtain ⟨r,inside,rfl⟩ := List.mem_map.mp member
    exact (Arena.cellOf_alloc _ _ _).trans
      (if_neg (Nat.ne_of_lt (holds.lt_size (Or.inr inside))))
  · intro r known
    exact (Arena.labelOf_alloc _ _ _).trans
      ((if_neg (Nat.ne_of_lt (holds.lt_size known))).trans (holds.labelled r known))

theorem label_alloc (store : Store) (pair : Pair) :
    (store.withArena (store.arena.alloc pair).2).arena.labelOf store.arena.size =
      some ⟨pair,none,false⟩ := (Arena.labelOf_alloc _ _ _).trans (if_pos rfl)

theorem size_alloc (store : Store) (pair : Pair) :
    (store.withArena (store.arena.alloc pair).2).arena.size = store.arena.size + 1 :=
  Arena.size_alloc store.arena pair

theorem Tidy.alloc (tidy : store.Tidy outputs) (pair : Pair) :
    (store.withArena (store.arena.alloc pair).2).Tidy outputs := by
  intro id outside cell found
  change (store.arena.alloc pair).2.cellOf id = some cell at found
  rw [Arena.cellOf_alloc] at found
  split at found
  · cases found
    rfl
  · exact tidy id outside cell found

end Allocation

section Linking

theorem map_id_putBehind {items : List Record} (apart : ∀ r ∈ items, r.id = old.id → r = old) :
    (putBehind old new items).map Record.id = putBehind old.id new.id (items.map Record.id) :=
  map_putBehind Record.id apart

theorem id_notMem {items : List Record} (fresh : ∀ r ∈ items, r.id ≠ new.id) :
    new.id ∉ items.map Record.id := by
  intro inside
  obtain ⟨r,present,same⟩ := List.mem_map.mp inside
  exact fresh r present same

theorem Holds.relink (holds : store.Holds inputs outputs) {list : LinkedList} {arena : Arena}
    {linked : List Record} (shown : list.Holds arena (linked.map Record.id))
    (only : Arena.LinksOnly store.arena arena)
    (known : ∀ r ∈ linked, store.arena.labelOf r.id = some r.label) :
    ({ store with list, arena } : Store).Holds linked outputs :=
  ⟨shown,holds.tree.congr fun id _ => only.cells id,fun r present => (only.labels r.id).trans
    (present.elim (known r) fun inTree => holds.labelled r (Or.inr inTree))⟩

theorem Holds.replant (holds : store.Holds inputs outputs) {tree : AvlTree} {arena : Arena}
    {planted : List Record} {named : NodeId → Prop} (shown : tree.Holds arena (planted.map Record.id))
    (only : Arena.CellsOnly named store.arena arena)
    (known : ∀ r ∈ planted, store.arena.labelOf r.id = some r.label) :
    ({ store with tree, arena } : Store).Holds inputs planted :=
  ⟨holds.list.congr fun id _ => only.links id,shown,fun r present => (only.labels r.id).trans
    (present.elim (fun listed => holds.labelled r (Or.inl listed)) (known r))⟩

theorem Holds.insertAfter (holds : store.Holds inputs outputs) (member : old ∈ inputs)
    (fresh : ∀ r ∈ inputs, r.id ≠ new.id) (known : store.arena.labelOf new.id = some new.label) :
    ∃ after, store.insertAfter new.id old.id = .ok after ∧
      after.Holds (putBehind old new inputs) outputs ∧ store.Keeps after ∧
      Arena.LinksOnly store.arena after.arena := by
  have apart : ∀ r ∈ inputs, r.id = old.id → r = old := fun r inside =>
    holds.eq_of_id (Or.inl inside) (Or.inl member)
  obtain ⟨list,arena,ok,shown,only,_⟩ := holds.list.insertAfter
    (List.mem_map_of_mem member) (id_notMem fresh) (Arena.lt_of_label known)
  refine ⟨{ store with list, arena },onList_ok ok,holds.relink ?_ only fun r present => ?_,
    ⟨rfl,rfl,rfl⟩,only⟩
  · rw [map_id_putBehind apart]
    exact shown
  · rcases (mem_putBehind member).mp present with rfl | present
    · exact known
    · exact holds.labelled r (Or.inl present)

theorem Holds.insertBehind (holds : store.Holds inputs outputs) (member : old ∈ outputs)
    (fresh : ∀ r ∈ outputs, r.id ≠ new.id) (known : store.arena.labelOf new.id = some new.label)
    (few : outputs.length ≤ Width.w128.limit) :
    ∃ after, store.insertBehind new.id old.id = .ok after ∧
      after.Holds inputs (putBehind old new outputs) ∧ store.Keeps after ∧
      Arena.CellsOnly (fun id => id = new.id ∨ id ∈ outputs.map Record.id) store.arena
        after.arena := by
  have apart : ∀ r ∈ outputs, r.id = old.id → r = old := fun r inside =>
    holds.eq_of_id (Or.inr inside) (Or.inr member)
  obtain ⟨tree,arena,ok,shown,only⟩ := holds.tree.insertBehind
    (List.mem_map_of_mem member) (id_notMem fresh) (Arena.lt_of_label known) (by simpa using few)
  refine ⟨{ store with tree, arena },onTree_ok ok,holds.replant ?_ only fun r present => ?_,
    ⟨rfl,rfl,rfl⟩,only⟩
  · rw [map_id_putBehind apart]
    exact shown
  · rcases (mem_putBehind member).mp present with rfl | present
    · exact known
    · exact holds.labelled r (Or.inr present)

theorem Tidy.of_links {after : Store} (tidy : store.Tidy outputs)
    (only : Arena.LinksOnly store.arena after.arena) : after.Tidy outputs := by
  intro id outside cell found
  rw [only.cells id] at found
  exact tidy id outside cell found

theorem Tidy.putBehind {after : Store} (tidy : store.Tidy outputs) (member : old ∈ outputs)
    (only : Arena.CellsOnly (fun id => id = new.id ∨ id ∈ outputs.map Record.id) store.arena
      after.arena) : after.Tidy (Sequence.putBehind old new outputs) := by
  intro id outside cell found
  have notNew : id ≠ new.id := by
    rintro rfl
    exact outside (List.mem_map_of_mem ((mem_putBehind member).mpr (Or.inl rfl)))
  have notOld : id ∉ outputs.map Record.id := by
    intro inside
    obtain ⟨r,present,rfl⟩ := List.mem_map.mp inside
    exact outside (List.mem_map_of_mem ((mem_putBehind member).mpr (Or.inr present)))
  rw [only.cells id (by simp only [not_or]; exact ⟨notNew,notOld⟩)] at found
  exact tidy id notOld cell found

theorem Holds.pushBack (holds : store.Holds inputs outputs) (fresh : ∀ r ∈ inputs, r.id ≠ new.id)
    (known : store.arena.labelOf new.id = some new.label) :
    ∃ after, store.pushBack new.id = .ok after ∧ after.Holds (inputs ++ [new]) outputs ∧
      store.Keeps after ∧ Arena.LinksOnly store.arena after.arena := by
  obtain ⟨list,arena,ok,shown,only,_⟩ := holds.list.pushBack (id_notMem fresh) (Arena.lt_of_label known)
  refine ⟨{ store with list, arena },onList_ok ok,
    holds.relink (by simpa using shown) only fun r present => ?_,⟨rfl,rfl,rfl⟩,only⟩
  rcases List.mem_append.mp present with present | same
  · exact holds.labelled r (Or.inl present)
  · obtain rfl := List.mem_singleton.mp same
    exact known

theorem Holds.treeInsert (holds : store.Holds inputs outputs)
    (ordered : outputs.Pairwise fun r s => r.q ≤ s.q) (fresh : ∀ r ∈ outputs, r.id ≠ new.id)
    (known : store.arena.labelOf new.id = some new.label)
    (few : outputs.length ≤ Width.w128.limit) :
    ∃ after, store.treeInsert new.id = .ok after ∧
      after.Holds inputs (putByKey Record.q new outputs) ∧ store.Keeps after ∧
      Arena.CellsOnly (fun id => id = new.id ∨ id ∈ outputs.map Record.id) store.arena
        after.arena := by
  have newKey : store.treeKey new.id = new.q := by
    simp [Store.treeKey,known,Record.label,Record.q]
  have keyed : AvlTree.Keyed store.arena store.treeKey (new.id :: outputs.map Record.id) := by
    intro id member
    rcases List.mem_cons.mp member with rfl | member
    · exact ⟨new.label,known,newKey.symm⟩
    · exact holds.keyed id member
  obtain ⟨tree,arena,ok,shown,only⟩ := holds.tree.insert keyed (holds.key_pairwise ordered)
    (id_notMem fresh) (by simpa using few)
  refine ⟨{ store with tree, arena },onTree_ok ok,holds.replant ?_ only fun r present => ?_,
    ⟨rfl,rfl,rfl⟩,only⟩
  · have keys : ∀ r, r = new ∨ r ∈ outputs → store.treeKey r.id = r.q := by
      rintro r (rfl | present)
      · exact newKey
      · exact holds.treeKey (Or.inr present)
    rw [map_putByKey keys]
    exact shown
  · rcases mem_putByKey.mp present with rfl | present
    · exact known
    · exact holds.labelled r (Or.inr present)

theorem Holds.buildTree (holds : store.Holds inputs outputs) {shown : List Record}
    (known : ∀ r ∈ shown, store.arena.labelOf r.id = some r.label)
    (distinct : (shown.map Record.id).Nodup) (few : shown.length ≤ Width.w128.limit) :
    ∃ after, store.buildTree (shown.map Record.id) = .ok after ∧ after.Holds inputs shown ∧
      store.Keeps after ∧ Arena.CellsOnly (· ∈ shown.map Record.id) store.arena after.arena := by
  have inside : ∀ id ∈ shown.map Record.id, id < store.arena.size := by
    intro id member
    obtain ⟨r,present,rfl⟩ := List.mem_map.mp member
    exact Arena.lt_of_label (known r present)
  obtain ⟨tree,arena,ok,built,only⟩ := AvlTree.ofSorted_holds distinct inside (by simpa using few)
  exact ⟨{ store with tree, arena },onTree_ok ok,holds.replant built only known,⟨rfl,rfl,rfl⟩,only⟩

end Linking

section Labels

theorem Holds.relabel (holds : store.Holds inputs outputs) {id : NodeId} {change : Node → Node}
    {newInputs newOutputs : List Record} (links : ∀ node : Node, (change node).links = node.links)
    (cell : ∀ node : Node, (change node).cell = node.cell)
    (sameInputs : newInputs.map Record.id = inputs.map Record.id)
    (sameOutputs : newOutputs.map Record.id = outputs.map Record.id)
    (labelled : ∀ r, r ∈ newInputs ∨ r ∈ newOutputs →
      (store.arena.put id change).labelOf r.id = some r.label) :
    (store.withArena (store.arena.put id change)).Holds newInputs newOutputs := by
  refine ⟨?_,?_,labelled⟩
  · rw [sameInputs]
    exact holds.list.congr fun other _ => Arena.linksOf_put_same links other
  · rw [sameOutputs]
    exact holds.tree.congr fun other _ => Arena.cellOf_put_same cell other

theorem Tidy.relabel (tidy : store.Tidy outputs) {id : NodeId} {change : Node → Node}
    {newOutputs : List Record} (cell : ∀ node : Node, (change node).cell = node.cell)
    (sameOutputs : newOutputs.map Record.id = outputs.map Record.id) :
    (store.withArena (store.arena.put id change)).Tidy newOutputs := by
  intro other outside found isCell
  rw [sameOutputs] at outside
  have same : (store.arena.put id change).cellOf other = store.arena.cellOf other :=
    Arena.cellOf_put_same cell other
  exact tidy other outside found (same ▸ isCell)

end Labels

end BalancedMove.Store
