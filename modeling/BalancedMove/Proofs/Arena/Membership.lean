import BalancedMove.Proofs.Arena.SharedLists

/-! Membership in one of the lists that share an arena. The test knows the head of its own list, but behind
the head it looks at the backward link of the node only, and that link does not name a list. So a list
takes for its own every node that follows another one, in whichever list. -/
namespace BalancedMove

open Sequence

/-- Links do not tell lists apart, but they tell the first node of a list from those behind it. -/
theorem LinkedList.Holds.followed {list : LinkedList} {arena : Arena} {shown : List NodeId} {id : NodeId}
    (holds : list.Holds arena shown) (member : id ∈ shown) :
    ∃ link, arena.pred id = .ok link ∧ (link.isSome = true ↔ id ∈ shown.tail) := by
  obtain ⟨left,right,rfl,absent⟩ := List.eq_append_cons_of_mem member
  refine ⟨left.getLast?,holds.pred,?_⟩
  cases left with
  | nil =>
    have behind := (List.nodup_cons.mp holds.distinct).1
    simp [behind]
  | cons first left => simp

namespace ListOperation

variable {ι : Type} [DecidableEq ι]

def replay (shown : ι → List NodeId) (log : List (ListOperation ι)) : ι → List NodeId :=
  log.foldl act shown

end ListOperation

namespace SharedLists

variable {ι : Type}

def unlinked (pairs : List Pair) : SharedLists ι := ⟨Arena.ofPairs pairs,fun _ => {}⟩

def run [DecidableEq ι] (shared : SharedLists ι) (log : List (ListOperation ι)) :
    Checked (SharedLists ι) := log.foldlM apply shared

variable {shared : SharedLists ι} {shown : ι → List NodeId}

theorem shows_unlinked (pairs : List Pair) : (@unlinked ι pairs).Shows fun _ => [] := by
  refine shows_nothing fun id inside => ?_
  rw [Arena.size_ofPairs] at inside
  simp [Arena.ofPairs,Arena.linksOf,Node.links,inside]

theorem Shows.run [DecidableEq ι] (shows : shared.Shows shown) (log : List (ListOperation ι))
    (admits : ListOperation.Admits shared.arena.size shown log) :
    ∃ after, shared.run log = .ok after ∧ after.Shows (ListOperation.replay shown log) ∧
      after.arena.size = shared.arena.size := by
  obtain ⟨after,ran,final,size,_⟩ := @Checked.foldlM_follows _ _ _ _ SharedLists.apply ListOperation.act
    (fun (state : SharedLists ι) shown log => state.Shows shown ∧
      state.arena.size = shared.arena.size ∧ ListOperation.Admits shared.arena.size shown log)
    (fun state shown operation rest ⟨still,same,admitted,later⟩ => by
      obtain ⟨after,answers,next,spares⟩ := still.apply (same.symm ▸ admitted)
      exact ⟨after,answers,next,spares.arena.size.trans same,later⟩)
    shared shown log ⟨shows,rfl,admits⟩
  exact ⟨after,ran,final,size⟩

/-- The test for one list finds its nodes and, besides, those that follow a node of another list. -/
theorem Shows.contains (shows : shared.Shows shown) (small : shared.arena.size ≤ LinkedList.absent)
    (t : ι) {id : NodeId} (inside : id < shared.arena.size) :
    ∃ answer, (shared.lists t).contains shared.arena id = .ok answer ∧
      (answer = true ↔ id ∈ shown t ∨ ∃ s, s ≠ t ∧ id ∈ (shown s).tail) := by
  rw [LinkedList.contains,(shows.lists t).head]
  by_cases first : (shown t).head?.getD LinkedList.absent = id
  · -- no node has the number that stands for a missing head, so the list begins with this node
    have head : (shown t).head? = some id := by
      cases found : (shown t).head? with
      | none =>
        rw [found,Option.getD_none] at first
        exact absurd (first ▸ inside) (Nat.not_lt.mpr small)
      | some other =>
        rw [found] at first
        exact congrArg some first
    exact ⟨true,if_pos first,by simp [List.mem_of_head? head]⟩
  · rw [if_neg first]
    -- a backward link says that the node follows another one, in whichever list
    by_cases somewhere : ∃ s, id ∈ shown s
    · obtain ⟨s,member⟩ := somewhere
      obtain ⟨link,read,follows⟩ := (shows.lists s).followed member
      refine ⟨link.isSome,by rw [read]; rfl,follows.trans ⟨fun behind => ?_,?_⟩⟩
      · by_cases here : s = t
        · exact Or.inl (here ▸ member)
        · exact Or.inr ⟨s,here,behind⟩
      · rintro (own | ⟨r,_,behind⟩)
        · obtain rfl : s = t := by
            by_contra differ
            exact shows.apart s t differ member own
          cases split : shown s with
          | nil => simp [split] at own
          | cons head rest =>
            rw [split] at own first
            exact (List.mem_cons.mp own).resolve_left fun same => first same.symm
        · obtain rfl : s = r := by
            by_contra differ
            exact shows.apart s r differ member (List.mem_of_mem_tail behind)
          exact behind
    · have loose : ∀ s, id ∉ shown s := fun s member => somewhere ⟨s,member⟩
      refine ⟨false,by rw [Arena.pred_of_links (shows.loose id inside loose)]; rfl,?_⟩
      simp only [Bool.false_eq_true,false_iff,not_or,not_exists,not_and]
      exact ⟨loose t,fun s _ behind => loose s (List.mem_of_mem_tail behind)⟩

/-- After any log of admitted operations the walk along every list and the membership test for it answer.
They agree about every node but those that follow another one in a different list. Ids are machine words,
and the largest of them names no node. -/
theorem membership_follows [DecidableEq ι] (pairs : List Pair)
    (small : pairs.length ≤ LinkedList.absent) (log : List (ListOperation ι))
    (admits : ListOperation.Admits pairs.length (fun _ => []) log) :
    ∃ after, (unlinked pairs).run log = .ok after ∧ ∀ t, ∀ id < pairs.length, ∃ ids answer,
      (after.lists t).ids after.arena = .ok ids ∧
      (after.lists t).contains after.arena id = .ok answer ∧
      (answer = true ↔ id ∈ ids ∨ ∃ s, s ≠ t ∧
        ∃ others, (after.lists s).ids after.arena = .ok others ∧ id ∈ others.tail) := by
  have size : (@unlinked ι pairs).arena.size = pairs.length := Arena.size_ofPairs pairs
  obtain ⟨after,ran,shows,same⟩ := (shows_unlinked pairs).run log (size.symm ▸ admits)
  have count : after.arena.size = pairs.length := same.trans size
  refine ⟨after,ran,fun t id inside => ?_⟩
  obtain ⟨answer,answers,exact⟩ := shows.contains (count ▸ small) t (count ▸ inside)
  refine ⟨_,answer,(shows.lists t).ids,answers,exact.trans (or_congr_right (exists_congr fun s => ?_))⟩
  exact and_congr_right fun _ => ⟨fun behind => ⟨_,(shows.lists s).ids,behind⟩,
    fun ⟨others,walked,behind⟩ => by
      rw [(shows.lists s).ids] at walked
      exact Except.ok.inj walked ▸ behind⟩

/-- Three lists over five nodes, one of which has been taken out again. -/
theorem three_lists_membership :
    let pairs : List Pair := [⟨0,0⟩,⟨1,1⟩,⟨2,2⟩,⟨3,3⟩,⟨4,4⟩]
    let log : List (ListOperation (Fin 3)) := [.pushBack 0 0,.pushFront 0 1,.pushBack 1 2,
      .insertAfter 1 3 2,.insertBefore 1 4 2,.remove 1 3,.concat 2 0]
    pairs.length ≤ LinkedList.absent ∧ ListOperation.Admits pairs.length (fun _ => []) log ∧
      ∃ after, (unlinked pairs).run log = .ok after ∧ ∀ t, ∀ id < pairs.length, ∃ ids answer,
        (after.lists t).ids after.arena = .ok ids ∧
        (after.lists t).contains after.arena id = .ok answer ∧
        (answer = true ↔ id ∈ ids ∨ ∃ s, s ≠ t ∧
          ∃ others, (after.lists s).ids after.arena = .ok others ∧ id ∈ others.tail) := by
  intro pairs log
  have small : pairs.length ≤ LinkedList.absent := by decide
  have admits : ListOperation.Admits pairs.length (fun _ => []) log := by decide
  exact ⟨small,admits,membership_follows pairs small log admits⟩

/-- The second node of one list is found in another list, which does not show it. -/
theorem follower_found_elsewhere :
    let pairs : List Pair := [⟨0,0⟩,⟨1,1⟩,⟨2,2⟩]
    let log : List (ListOperation (Fin 2)) := [.pushBack 0 0,.pushBack 0 1,.pushBack 1 2]
    ListOperation.Admits pairs.length (fun _ => []) log ∧
      ∃ after, (unlinked pairs).run log = .ok after ∧ (after.lists 1).ids after.arena = .ok [2] ∧
        (after.lists 1).contains after.arena 1 = .ok true := by
  intro pairs log
  have admits : ListOperation.Admits pairs.length (fun _ => []) log := by decide
  obtain ⟨after,ran,shows,size⟩ := (shows_unlinked pairs).run log admits
  have inside : 1 < after.arena.size := size ▸ by decide
  obtain ⟨answer,answers,exact⟩ := shows.contains (size ▸ by decide) 1 inside
  obtain rfl : answer = true := exact.mpr (Or.inr ⟨0,by decide,by decide⟩)
  exact ⟨admits,after,ran,(shows.lists 1).ids,answers⟩

end SharedLists

end BalancedMove
