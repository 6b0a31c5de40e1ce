import BalancedMove.Proofs.Arena.ListView
import Mathlib.Data.Fintype.Basic
import Mathlib.Logic.Function.Basic

/-! Any number of lists over the nodes of one arena, against a sequence of ids for each. An operation
edits the sequence of its list, or moves a whole sequence behind another. Whatever operations follow one
another, as long as only loose nodes are linked and only linked ones are used as marks or taken out, every
one of them succeeds, all lists show their sequences from both ends, and a node of no list has no links. -/
namespace BalancedMove

open Sequence

structure SharedLists (ι : Type) where
  arena : Arena
  lists : ι → LinkedList

inductive ListOperation (ι : Type) where
  | pushBack (target : ι) (id : NodeId)
  | pushFront (target : ι) (id : NodeId)
  | insertAfter (target : ι) (id mark : NodeId)
  | insertBefore (target : ι) (id mark : NodeId)
  | remove (target : ι) (id : NodeId)
  | concat (target other : ι)

namespace ListOperation

variable {ι : Type}

def targets : ListOperation ι → List ι
  | pushBack target _ | pushFront target _ | insertAfter target _ _ | insertBefore target _ _
  | remove target _ => [target]
  | concat target other => [target,other]

def act [DecidableEq ι] (shown : ι → List NodeId) : ListOperation ι → ι → List NodeId
  | pushBack target id => Function.update shown target (shown target ++ [id])
  | pushFront target id => Function.update shown target (id :: shown target)
  | insertAfter target id mark =>
    Function.update shown target (putBehind mark id (shown target))
  | insertBefore target id mark =>
    Function.update shown target (putBefore mark id (shown target))
  | remove target id => Function.update shown target ((shown target).erase id)
  | concat target other =>
    Function.update (Function.update shown target (shown target ++ shown other)) other []

/-- What the caller promises: a node that is linked is in no list, a mark or a node taken out is in the
list of the operation, and two different lists are joined. -/
def Admitted (size : Nat) (shown : ι → List NodeId) : ListOperation ι → Prop
  | pushBack _ id | pushFront _ id => id < size ∧ ∀ t, id ∉ shown t
  | insertAfter target id mark | insertBefore target id mark =>
    id < size ∧ (∀ t, id ∉ shown t) ∧ mark ∈ shown target
  | remove target id => id ∈ shown target
  | concat target other => target ≠ other

/-- The promise for each operation of a log, at the sequences that the ones before it leave. -/
def Admits [DecidableEq ι] (size : Nat) : (ι → List NodeId) → List (ListOperation ι) → Prop
  | _, [] => True
  | shown, operation :: rest =>
    operation.Admitted size shown ∧ Admits size (operation.act shown) rest

section Deciding

variable [DecidableEq ι] [Fintype ι] (size : Nat)

instance (shown : ι → List NodeId) (operation : ListOperation ι) :
    Decidable (operation.Admitted size shown) :=
  match operation with
  | pushBack _ id | pushFront _ id => inferInstanceAs (Decidable (id < size ∧ ∀ t, id ∉ shown t))
  | insertAfter target id mark | insertBefore target id mark =>
    inferInstanceAs (Decidable (id < size ∧ (∀ t, id ∉ shown t) ∧ mark ∈ shown target))
  | remove target id => inferInstanceAs (Decidable (id ∈ shown target))
  | concat target other => inferInstanceAs (Decidable (target ≠ other))

instance decideAdmits (shown : ι → List NodeId) :
    (log : List (ListOperation ι)) → Decidable (Admits size shown log)
  | [] => inferInstanceAs (Decidable True)
  | operation :: rest =>
    have := decideAdmits (operation.act shown) rest
    inferInstanceAs (Decidable (operation.Admitted size shown ∧ Admits size (operation.act shown) rest))

end Deciding

end ListOperation

namespace SharedLists

variable {ι : Type}

def edit [DecidableEq ι] (shared : SharedLists ι) (target : ι)
    (operation : LinkedList → Arena → Checked (LinkedList × Arena)) : Checked (SharedLists ι) := do
  let (list,arena) ← operation (shared.lists target) shared.arena
  return ⟨arena,Function.update shared.lists target list⟩

def apply [DecidableEq ι] (shared : SharedLists ι) : ListOperation ι → Checked (SharedLists ι)
  | .pushBack target id => shared.edit target fun list arena => list.pushBack arena id
  | .pushFront target id => shared.edit target fun list arena => list.pushFront arena id
  | .insertAfter target id mark =>
    shared.edit target fun list arena => list.insertAfter arena id mark
  | .insertBefore target id mark =>
    shared.edit target fun list arena => list.insertBefore arena id mark
  | .remove target id => shared.edit target fun list arena => list.remove arena id
  | .concat target other => do
    let (list,rest,arena) ← (shared.lists target).concat shared.arena (shared.lists other)
    return ⟨arena,Function.update (Function.update shared.lists target list) other rest⟩

structure Shows (shared : SharedLists ι) (shown : ι → List NodeId) : Prop where
  lists : ∀ t, (shared.lists t).Holds shared.arena (shown t)
  apart : ∀ s t, s ≠ t → (shown s).Disjoint (shown t)
  loose : ∀ id < shared.arena.size, (∀ t, id ∉ shown t) →
    shared.arena.linksOf id = some ⟨none,none⟩

/-- What a reader of the lists sees: the ends and the length of each, its nodes along the links in both
directions, and no link at a node of no list. -/
structure Presents (shared : SharedLists ι) (shown : ι → List NodeId) : Prop where
  head : ∀ t, (shared.lists t).head = (shown t).head?
  tail : ∀ t, (shared.lists t).tail = (shown t).getLast?
  length : ∀ t, (shared.lists t).length = (shown t).length
  distinct : ∀ t, (shown t).Nodup
  forward : ∀ t, (shared.lists t).ids shared.arena = .ok (shown t)
  backward : ∀ t, shared.arena.walk shared.arena.pred (shared.lists t).tail = .ok (shown t).reverse
  loose : ∀ id < shared.arena.size, (∀ t, id ∉ shown t) →
    shared.arena.succ id = .ok none ∧ shared.arena.pred id = .ok none

/-- Lists that are not named stay as they are, and of the nodes nothing but links changes. -/
structure Spares (targets : List ι) (before after : SharedLists ι) : Prop where
  arena : Arena.LinksOnly before.arena after.arena
  lists : ∀ t, t ∉ targets → after.lists t = before.lists t

/-- Each operation of a log succeeds. What it leaves is seen as the sequences that it makes of those
before it, and spares everything but the lists that it names. -/
def Follows [DecidableEq ι] (shared : SharedLists ι) (shown : ι → List NodeId) :
    List (ListOperation ι) → Prop
  | [] => True
  | operation :: rest => ∃ after, shared.apply operation = .ok after ∧
    after.Presents (operation.act shown) ∧ Spares operation.targets shared after ∧
    after.Follows (operation.act shown) rest

variable {shared : SharedLists ι} {shown : ι → List NodeId}

theorem shows_nothing {arena : Arena}
    (unlinked : ∀ id < arena.size, arena.linksOf id = some ⟨none,none⟩) :
    (⟨arena,fun _ => {}⟩ : SharedLists ι).Shows fun _ => [] :=
  ⟨fun _ => LinkedList.holds_empty arena,fun _ _ _ => List.disjoint_nil_left _,
    fun id inside _ => unlinked id inside⟩

theorem Shows.presents (shows : shared.Shows shown) : shared.Presents shown := by
  refine ⟨fun t => (shows.lists t).head,fun t => (shows.lists t).tail,
    fun t => (shows.lists t).length,fun t => (shows.lists t).distinct,
    fun t => (shows.lists t).ids,fun t => (shows.lists t).idsBackward,fun id inside outside => ?_⟩
  have links := shows.loose id inside outside
  exact ⟨Arena.succ_of_links links,Arena.pred_of_links links⟩

section Steps

variable [DecidableEq ι] {target : ι}

/-- A new sequence for one list. Its nodes are in no other list, nodes outside it keep their links, and
the ones that leave the list lose theirs. -/
theorem Shows.edit {list : LinkedList} {arena : Arena} {ids : List NodeId}
    (shows : shared.Shows shown) (holds : list.Holds arena ids)
    (only : Arena.LinksOnly shared.arena arena)
    (own : ∀ t, t ≠ target → ids.Disjoint (shown t))
    (kept : ∀ id, id ∉ ids → id ∉ shown target → arena.linksOf id = shared.arena.linksOf id)
    (freed : ∀ id ∈ shown target, id ∉ ids → arena.linksOf id = some ⟨none,none⟩) :
    (⟨arena,Function.update shared.lists target list⟩ : SharedLists ι).Shows
      (Function.update shown target ids) := by
  refine ⟨fun t => ?_,disjoint_update shows.apart own,fun id inside outside => ?_⟩
  · by_cases here : t = target
    · subst here
      simpa using holds
    · simp only [Function.update_of_ne here]
      refine (shows.lists t).congr fun id member => kept id ?_ ?_
      · exact fun moved => own t here moved member
      · exact fun both => shows.apart t target here member both
  · have notHere : id ∉ ids := by simpa using outside target
    by_cases before : id ∈ shown target
    · exact freed id before notHere
    · refine (kept id notHere before).trans (shows.loose id (only.size ▸ inside) fun t => ?_)
      by_cases here : t = target
      · exact here ▸ before
      · simpa [here] using outside t

theorem Shows.grow {list : LinkedList} {arena : Arena} {ids : List NodeId} {new : NodeId}
    (shows : shared.Shows shown) (holds : list.Holds arena ids)
    (only : Arena.LinksOnly shared.arena arena) (loose : ∀ t, new ∉ shown t)
    (members : ∀ id, id ∈ ids ↔ id = new ∨ id ∈ shown target)
    (kept : ∀ id, id ∉ ids → arena.linksOf id = shared.arena.linksOf id) :
    (⟨arena,Function.update shared.lists target list⟩ : SharedLists ι).Shows
      (Function.update shown target ids) := by
  exact shows.edit holds only
    (disjoint_grown shows.apart loose fun id => (members id).mp) (fun id outside _ => kept id outside)
    fun id member outside => absurd ((members id).mpr (Or.inr member)) outside

theorem Shows.join {other : ι} {list : LinkedList} {arena : Arena} (shows : shared.Shows shown)
    (differ : target ≠ other) (holds : list.Holds arena (shown target ++ shown other))
    (only : Arena.LinksOnly shared.arena arena)
    (kept : ∀ id, id ∉ shown target ++ shown other → arena.linksOf id = shared.arena.linksOf id) :
    (⟨arena,Function.update (Function.update shared.lists target list) other {}⟩ :
      SharedLists ι).Shows ((ListOperation.concat target other).act shown) := by
  -- emptying the other list first makes its nodes free for the one that takes them in
  have emptied : ∀ s t, s ≠ t → (Function.update shown other [] s).Disjoint
      (Function.update shown other [] t) :=
    disjoint_update shows.apart fun t _ => List.disjoint_nil_left _
  have own : ∀ t, t ≠ target → (shown target ++ shown other).Disjoint
      (Function.update shown other [] t) := by
    intro t notTarget
    by_cases isOther : t = other
    · subst isOther
      simp
    · rw [Function.update_of_ne isOther]
      exact List.disjoint_append_left.mpr
        ⟨shows.apart target t (Ne.symm notTarget),shows.apart other t (Ne.symm isOther)⟩
  have order : (ListOperation.concat target other).act shown =
      Function.update (Function.update shown other []) target (shown target ++ shown other) :=
    Function.update_comm differ _ _ _
  refine ⟨fun t => ?_,order ▸ disjoint_update emptied own,fun id inside outside => ?_⟩
  · rw [order]
    by_cases isTarget : t = target
    · subst isTarget
      simpa [differ] using holds
    · by_cases isOther : t = other
      · subst isOther
        simpa [isTarget] using LinkedList.holds_empty arena
      · simp only [Function.update_of_ne isTarget,Function.update_of_ne isOther]
        refine (shows.lists t).congr fun id member => kept id fun joined => ?_
        have apart := own t isTarget joined
        rw [Function.update_of_ne isOther] at apart
        exact apart member
  · rw [order] at outside
    have joined : id ∉ shown target ++ shown other := by simpa using outside target
    refine (kept id joined).trans (shows.loose id (only.size ▸ inside) fun t member => ?_)
    by_cases isTarget : t = target
    · exact joined (List.mem_append_left _ (isTarget ▸ member))
    · by_cases isOther : t = other
      · exact joined (List.mem_append_right _ (isOther ▸ member))
      · exact absurd member (by simpa [isTarget,isOther] using outside t)

theorem edit_eq (operation : LinkedList → Arena → Checked (LinkedList × Arena))
    {list : LinkedList} {arena : Arena}
    (answers : operation (shared.lists target) shared.arena = .ok (list,arena)) :
    shared.edit target operation = .ok ⟨arena,Function.update shared.lists target list⟩ := by
  rw [SharedLists.edit,answers]
  rfl

theorem spares_update {list : LinkedList} {arena : Arena}
    (only : Arena.LinksOnly shared.arena arena) :
    Spares [target] shared ⟨arena,Function.update shared.lists target list⟩ :=
  ⟨only,fun t other => by
    rw [List.mem_singleton] at other
    exact Function.update_of_ne other _ _⟩

theorem Shows.linked (operation : LinkedList → Arena → Checked (LinkedList × Arena))
    {ids : List NodeId} {new : NodeId} (shows : shared.Shows shown) (loose : ∀ t, new ∉ shown t)
    (members : ∀ id, id ∈ ids ↔ id = new ∨ id ∈ shown target)
    (step : ∃ list arena, operation (shared.lists target) shared.arena = .ok (list,arena) ∧
      list.Holds arena ids ∧ Arena.LinksOnly shared.arena arena ∧
      ∀ other, other ∉ ids → arena.linksOf other = shared.arena.linksOf other) :
    ∃ after, shared.edit target operation = .ok after ∧
      after.Shows (Function.update shown target ids) ∧ Spares [target] shared after := by
  obtain ⟨list,arena,answers,holds,only,kept⟩ := step
  exact ⟨_,edit_eq operation answers,shows.grow holds only loose members kept,spares_update only⟩

theorem Shows.apply {operation : ListOperation ι} (shows : shared.Shows shown)
    (admitted : operation.Admitted shared.arena.size shown) :
    ∃ after, shared.apply operation = .ok after ∧ after.Shows (operation.act shown) ∧
      Spares operation.targets shared after := by
  cases operation with
  | pushBack target id =>
    obtain ⟨inside,loose⟩ := admitted
    refine shows.linked (fun list arena => list.pushBack arena id) loose (fun other => ?_)
      ((shows.lists target).pushBack (loose target) inside)
    rw [List.mem_append,List.mem_singleton,or_comm]
  | pushFront target id =>
    obtain ⟨inside,loose⟩ := admitted
    exact shows.linked (fun list arena => list.pushFront arena id) loose
      (fun other => List.mem_cons) ((shows.lists target).pushFront (loose target) inside)
  | insertAfter target id mark =>
    obtain ⟨inside,loose,member⟩ := admitted
    exact shows.linked (fun list arena => list.insertAfter arena id mark) loose
      (fun other => mem_putBehind member) ((shows.lists target).insertAfter member (loose target) inside)
  | insertBefore target id mark =>
    obtain ⟨inside,loose,member⟩ := admitted
    exact shows.linked (fun list arena => list.insertBefore arena id mark) loose
      (fun other => mem_putBefore member) ((shows.lists target).insertBefore member (loose target) inside)
  | remove target id =>
    have member : id ∈ shown target := admitted
    obtain ⟨list,arena,answers,holds,only,unlinked,kept⟩ := (shows.lists target).remove member
    refine ⟨_,edit_eq (fun list arena => list.remove arena id) answers,?_,spares_update only⟩
    -- what stays in the list was there before, and what left it can only be the node itself
    refine shows.edit holds only (fun t differ other still => ?_) (fun other _ => kept other)
      fun other before gone => ?_
    · exact fun inside => shows.apart target t (Ne.symm differ) (List.mem_of_mem_erase still) inside
    · obtain rfl : other = id := by
        by_contra differ
        exact gone ((List.mem_erase_of_ne differ).mpr before)
      exact unlinked
  | concat target other =>
    have differ : target ≠ other := admitted
    obtain ⟨list,arena,answers,holds,only,kept⟩ :=
      (shows.lists target).concat (shows.lists other) (shows.apart target other differ)
    refine ⟨⟨arena,Function.update (Function.update shared.lists target list) other {}⟩,?_,
      shows.join differ holds only kept,only,fun t outside => ?_⟩
    · rw [SharedLists.apply,answers]
      rfl
    · simp only [ListOperation.targets,List.mem_cons,List.not_mem_nil,or_false,not_or] at outside
      simp [outside.1,outside.2]

end Steps

/-- Every log of admitted operations runs to its end, and after each of them all lists show the
sequences that the operations make. -/
theorem lists_follow [DecidableEq ι] (shows : shared.Shows shown) (log : List (ListOperation ι))
    (admits : ListOperation.Admits shared.arena.size shown log) :
    shared.Presents shown ∧ shared.Follows shown log := by
  refine ⟨shows.presents,?_⟩
  induction log generalizing shared shown with
  | nil => trivial
  | cons operation rest ih =>
    obtain ⟨admitted,later⟩ := admits
    obtain ⟨after,answers,still,spares⟩ := shows.apply admitted
    exact ⟨after,answers,still.presents,spares,ih still (spares.arena.size ▸ later)⟩

/-- Two lists over five nodes, through every kind of operation. -/
theorem two_lists_follow :
    let fresh : SharedLists (Fin 2) := ⟨⟨Array.replicate 5 { pair := ⟨0,0⟩ }⟩,fun _ => {}⟩
    let log : List (ListOperation (Fin 2)) := [.pushBack 0 0,.pushFront 0 1,.insertAfter 0 2 1,
      .pushBack 1 3,.insertBefore 1 4 3,.concat 0 1,.remove 0 2]
    fresh.Shows (fun _ => []) ∧ ListOperation.Admits fresh.arena.size (fun _ => []) log ∧
      fresh.Presents (fun _ => []) ∧ fresh.Follows (fun _ => []) log := by
  intro fresh log
  have shows : fresh.Shows fun _ => [] := shows_nothing fun id inside => by
    have below : id < 5 := inside
    simp [Arena.linksOf,Node.links,below]
  have admits : ListOperation.Admits fresh.arena.size (fun _ => []) log := by decide
  exact ⟨shows,admits,lists_follow shows log admits⟩

end SharedLists

end BalancedMove
