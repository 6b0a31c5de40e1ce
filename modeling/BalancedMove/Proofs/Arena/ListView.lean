import BalancedMove.Proofs.Arena.Fields
import BalancedMove.Proofs.Sequence
import Mathlib.Data.List.Perm.Subperm

/-! A linked list as the image of a sequence of ids. `Holds` ties the two ends, the length and both
directions of links to that sequence; every way of linking a node is the insertion between a left
and a right part of it. -/
namespace BalancedMove

theorem length_le_of_nodup {ids : List Nat} {n : Nat} (distinct : ids.Nodup)
    (inside : ∀ id ∈ ids, id < n) : ids.length ≤ n := by
  have sub : ids ⊆ List.range n := fun id member => List.mem_range.mpr (inside id member)
  simpa using (List.subperm_of_subset distinct sub).length_le

namespace Arena

/-- The ids are linked in this order, between a node before and a node behind. -/
def Chained (arena : Arena) : Option NodeId → List NodeId → Option NodeId → Prop
  | _, [], _ => True
  | before, id :: rest, behind =>
    arena.linksOf id = some ⟨before,rest.head?.or behind⟩ ∧ Chained arena (some id) rest behind

theorem chained_append {arena : Arena} {before behind : Option NodeId} {left right : List NodeId} :
    arena.Chained before (left ++ right) behind ↔
      arena.Chained before left (right.head?.or behind) ∧
        arena.Chained (left.getLast?.or before) right behind := by
  induction left generalizing before with
  | nil => simp [Chained]
  | cons id left ih =>
    have last : (left.getLast?.or (some id)) = (id :: left).getLast?.or before := by
      rw [List.getLast?_cons]
      cases left.getLast? <;> rfl
    rw [List.cons_append,Chained,Chained,ih,last,List.head?_append,Option.or_assoc,and_assoc]

theorem Chained.congr {arena changed : Arena} {before behind : Option NodeId} {ids : List NodeId}
    (chained : arena.Chained before ids behind)
    (same : ∀ id ∈ ids, changed.linksOf id = arena.linksOf id) :
    changed.Chained before ids behind := by
  induction ids generalizing before with
  | nil => trivial
  | cons id rest ih =>
    exact ⟨(same id (by simp)).trans chained.1,
      ih chained.2 fun other member => same other (by simp [member])⟩

theorem Chained.relink_last {arena changed : Arena} {before behind following : Option NodeId}
    {ids : List NodeId} (chained : arena.Chained before ids behind) (distinct : ids.Nodup)
    (change : ∀ id ∈ ids, changed.linksOf id =
      if ids.getLast? = some id then (arena.linksOf id).map fun links => ⟨links.pred,following⟩
      else arena.linksOf id) : changed.Chained before ids following := by
  induction ids generalizing before with
  | nil => trivial
  | cons id rest ih =>
    have absent := (List.nodup_cons.mp distinct).1
    have own := change id (by simp)
    rw [chained.1] at own
    cases rest with
    | nil => exact ⟨by simpa using own,trivial⟩
    | cons next rest =>
      have notLast : (id :: next :: rest).getLast? ≠ some id := by
        intro last
        rw [List.getLast?_cons_cons] at last
        exact absent (List.mem_of_getLast? last)
      rw [if_neg notLast] at own
      refine ⟨own,ih chained.2 (List.nodup_cons.mp distinct).2 ?_⟩
      intro other member
      rw [change other (by simp [member]),List.getLast?_cons_cons]

theorem Chained.relink_first {arena changed : Arena} {before behind preceding : Option NodeId}
    {ids : List NodeId} (chained : arena.Chained before ids behind) (distinct : ids.Nodup)
    (change : ∀ id ∈ ids, changed.linksOf id =
      if ids.head? = some id then (arena.linksOf id).map fun links => ⟨preceding,links.succ⟩
      else arena.linksOf id) : changed.Chained preceding ids behind := by
  cases ids with
  | nil => trivial
  | cons id rest =>
    have own := change id (by simp)
    rw [chained.1] at own
    refine ⟨by simpa using own,chained.2.congr fun other member => ?_⟩
    have differ : id ≠ other := by
      rintro rfl
      exact (List.nodup_cons.mp distinct).1 member
    rw [change other (by simp [member])]
    simp [differ]

theorem Chained.lt_size {arena : Arena} {before behind : Option NodeId} {ids : List NodeId}
    (chained : arena.Chained before ids behind) : ∀ id ∈ ids, id < arena.size := by
  induction ids generalizing before with
  | nil => simp
  | cons id rest ih =>
    intro other member
    rcases List.mem_cons.mp member with rfl | member
    · exact lt_of_links chained.1
    · exact ih chained.2 other member

theorem Chained.links {arena : Arena} {left right : List NodeId} {id : NodeId}
    (chained : arena.Chained none (left ++ id :: right) none) :
    arena.linksOf id = some ⟨left.getLast?,right.head?⟩ := by
  simpa using (chained_append.mp chained).2.1

theorem follow_eq_take {next : NodeId → Checked (Option NodeId)} {ids : List NodeId}
    (leads : ∀ left id right, ids = left ++ id :: right → next id = .ok right.head?)
    (limit : Nat) : follow next limit ids.head? = .ok (ids.take limit) := by
  induction ids generalizing limit with
  | nil => cases limit <;> rfl
  | cons id rest ih =>
    cases limit with
    | zero => rfl
    | succ limit =>
      have tail := ih (fun left other right split => leads (id :: left) other right (by simp [split])) limit
      simp [follow,leads [] id rest rfl,tail]

theorem walk_eq {arena : Arena} {next : NodeId → Checked (Option NodeId)} {ids : List NodeId}
    (leads : ∀ left id right, ids = left ++ id :: right → next id = .ok right.head?)
    (short : ids.length ≤ arena.size) : arena.walk next ids.head? = .ok ids := by
  rw [walk,follow_eq_take leads,List.take_of_length_le (by omega)]
  simp [short]

def putAt (arena : Arena) (id : Option NodeId) (change : Node → Node) : Arena :=
  match id with
  | none => arena
  | some id => arena.put id change

theorem size_putAt (arena : Arena) (id : Option NodeId) (change : Node → Node) :
    (arena.putAt id change).size = arena.size := by
  cases id with
  | none => rfl
  | some id => exact size_put arena id change

theorem linksOf_putAt_succ (arena : Arena) (id next : Option NodeId) (other : NodeId) :
    (arena.putAt id fun node => { node with succ := next }).linksOf other =
      if id = some other then (arena.linksOf other).map fun links => { links with succ := next }
      else arena.linksOf other := by
  cases id with
  | none => simp [putAt]
  | some id =>
    rw [putAt,@linksOf_put _ _ _ (fun links => { links with succ := next }) (fun _ => rfl)]
    simp [eq_comm]

theorem linksOf_putAt_pred (arena : Arena) (id prev : Option NodeId) (other : NodeId) :
    (arena.putAt id fun node => { node with pred := prev }).linksOf other =
      if id = some other then (arena.linksOf other).map fun links => { links with pred := prev }
      else arena.linksOf other := by
  cases id with
  | none => simp [putAt]
  | some id =>
    rw [putAt,@linksOf_put _ _ _ (fun links => { links with pred := prev }) (fun _ => rfl)]
    simp [eq_comm]

theorem LinksOnly.putAt (arena : Arena) (id : Option NodeId) {change : Node → Node}
    (cell : ∀ node : Node, (change node).cell = node.cell)
    (label : ∀ node : Node, (change node).label = node.label) :
    LinksOnly arena (arena.putAt id change) := by
  cases id with
  | none => exact LinksOnly.refl arena
  | some id => exact LinksOnly.put arena id cell label

def linkIn (arena : Arena) (prev : Option NodeId) (id : NodeId) (next : Option NodeId) : Arena :=
  ((arena.put id fun node => { node with pred := prev, succ := next }).putAt prev
    fun node => { node with succ := some id }).putAt next fun node => { node with pred := some id }

theorem linkIn_only (arena : Arena) (prev : Option NodeId) (id : NodeId) (next : Option NodeId) :
    LinksOnly arena (arena.linkIn prev id next) := by
  unfold linkIn
  refine LinksOnly.trans ?_ (LinksOnly.putAt _ _ (fun _ => rfl) fun _ => rfl)
  refine LinksOnly.trans ?_ (LinksOnly.putAt _ _ (fun _ => rfl) fun _ => rfl)
  exact LinksOnly.put _ _ (fun _ => rfl) fun _ => rfl

theorem linksOf_linkIn (arena : Arena) (prev : Option NodeId) (id : NodeId) (next : Option NodeId)
    (other : NodeId) : (arena.linkIn prev id next).linksOf other =
      let alone := if other = id then (arena.linksOf other).map fun _ => ⟨prev,next⟩
        else arena.linksOf other
      let forward := if prev = some other then alone.map fun links => { links with succ := some id }
        else alone
      if next = some other then forward.map fun links => { links with pred := some id }
      else forward := by
  rw [linkIn,linksOf_putAt_pred,linksOf_putAt_succ,
    @linksOf_put _ _ _ (fun _ => ⟨prev,next⟩) (fun _ => rfl)]

theorem linksOf_linkIn_other {arena : Arena} {prev next : Option NodeId} {id other : NodeId}
    (differ : other ≠ id) (notPrev : prev ≠ some other) (notNext : next ≠ some other) :
    (arena.linkIn prev id next).linksOf other = arena.linksOf other := by
  rw [linksOf_linkIn]
  simp [differ,notPrev,notNext]

def linkOut (arena : Arena) (prev : Option NodeId) (id : NodeId) (next : Option NodeId) : Arena :=
  ((arena.putAt prev fun node => { node with succ := next }).putAt next
    fun node => { node with pred := prev }).put id fun node => { node with pred := none, succ := none }

theorem linkOut_only (arena : Arena) (prev : Option NodeId) (id : NodeId) (next : Option NodeId) :
    LinksOnly arena (arena.linkOut prev id next) := by
  unfold linkOut
  refine LinksOnly.trans ?_ (LinksOnly.put _ _ (fun _ => rfl) fun _ => rfl)
  refine LinksOnly.trans ?_ (LinksOnly.putAt _ _ (fun _ => rfl) fun _ => rfl)
  exact LinksOnly.putAt _ _ (fun _ => rfl) fun _ => rfl

theorem linksOf_linkOut (arena : Arena) (prev : Option NodeId) (id : NodeId) (next : Option NodeId)
    (other : NodeId) : (arena.linkOut prev id next).linksOf other =
      let forward := if prev = some other then
          (arena.linksOf other).map fun links => { links with succ := next }
        else arena.linksOf other
      let backward := if next = some other then forward.map fun links => { links with pred := prev }
        else forward
      if other = id then backward.map fun _ => ⟨none,none⟩ else backward := by
  rw [linkOut,@linksOf_put _ _ _ (fun _ => ⟨none,none⟩) (fun _ => rfl),linksOf_putAt_pred,
    linksOf_putAt_succ]

def splice (arena : Arena) (tail head : NodeId) : Arena :=
  (arena.put tail fun node => { node with succ := some head }).put head
    fun node => { node with pred := some tail }

theorem splice_only (arena : Arena) (tail head : NodeId) :
    LinksOnly arena (arena.splice tail head) := by
  unfold splice
  refine LinksOnly.trans ?_ (LinksOnly.put _ _ (fun _ => rfl) fun _ => rfl)
  exact LinksOnly.put _ _ (fun _ => rfl) fun _ => rfl

theorem linksOf_splice {arena : Arena} {tail head : NodeId} (differ : tail ≠ head) (other : NodeId) :
    (arena.splice tail head).linksOf other =
      if other = head then (arena.linksOf other).map fun links => { links with pred := some tail }
      else if other = tail then (arena.linksOf other).map fun links => { links with succ := some head }
      else arena.linksOf other := by
  rw [splice,@linksOf_put _ _ _ (fun links => { links with pred := some tail }) (fun _ => rfl),
    @linksOf_put _ _ _ (fun links => { links with succ := some head }) (fun _ => rfl)]
  by_cases isHead : other = head
  · subst other
    rw [if_pos rfl,if_pos rfl,if_neg (Ne.symm differ)]
  · rw [if_neg isHead,if_neg isHead]

end Arena

namespace LinkedList

structure Holds (list : LinkedList) (arena : Arena) (ids : List NodeId) : Prop where
  head : list.head = ids.head?
  tail : list.tail = ids.getLast?
  length : list.length = ids.length
  chained : arena.Chained none ids none
  distinct : ids.Nodup

theorem holds_empty (arena : Arena) : ({} : LinkedList).Holds arena [] :=
  ⟨rfl,rfl,rfl,trivial,List.nodup_nil⟩

section Queries

variable {list : LinkedList} {arena : Arena} {shown left right : List NodeId} {id : NodeId}

theorem Holds.length_le (holds : list.Holds arena shown) : shown.length ≤ arena.size :=
  length_le_of_nodup holds.distinct holds.chained.lt_size

theorem Holds.succ (holds : list.Holds arena (left ++ id :: right)) :
    arena.succ id = .ok right.head? := Arena.succ_of_links holds.chained.links

theorem Holds.pred (holds : list.Holds arena (left ++ id :: right)) :
    arena.pred id = .ok left.getLast? := Arena.pred_of_links holds.chained.links

theorem Holds.ids (holds : list.Holds arena shown) : list.ids arena = .ok shown := by
  rw [LinkedList.ids,holds.head]
  apply Arena.walk_eq _ holds.length_le
  rintro left id right rfl
  exact holds.succ

theorem Holds.idsBackward (holds : list.Holds arena shown) :
    arena.walk arena.pred list.tail = .ok shown.reverse := by
  rw [holds.tail,← List.head?_reverse]
  apply Arena.walk_eq
  · intro left id right split
    have regrouped : shown = right.reverse ++ id :: left.reverse := by
      rw [← List.reverse_inj,split]
      simp
    have regroupedHolds : list.Holds arena (right.reverse ++ id :: left.reverse) := regrouped ▸ holds
    rw [regroupedHolds.pred,List.getLast?_reverse]
  · rw [List.length_reverse]
    exact holds.length_le

theorem Holds.congr {changed : Arena} (holds : list.Holds arena shown)
    (same : ∀ id ∈ shown, changed.linksOf id = arena.linksOf id) : list.Holds changed shown :=
  { holds with chained := holds.chained.congr same }

end Queries

theorem linkForward_eq {list : LinkedList} {arena : Arena} {prev : Option NodeId}
    (inside : ∀ id, prev = some id → id < arena.size) (next : Option NodeId) :
    list.linkForward arena prev next =
      .ok ({ list with head := if prev = none then next else list.head },
        arena.putAt prev fun node => { node with succ := next }) := by
  cases prev with
  | none => rfl
  | some prev => simp [linkForward,Arena.modify_put (inside prev rfl),Arena.putAt]

theorem linkBackward_eq {list : LinkedList} {arena : Arena} {next : Option NodeId}
    (inside : ∀ id, next = some id → id < arena.size) (prev : Option NodeId) :
    list.linkBackward arena prev next =
      .ok ({ list with tail := if next = none then prev else list.tail },
        arena.putAt next fun node => { node with pred := prev }) := by
  cases next with
  | none => rfl
  | some next => simp [linkBackward,Arena.modify_put (inside next rfl),Arena.putAt]

theorem linkBetween_eq {list : LinkedList} {arena : Arena} {prev next : Option NodeId} {id : NodeId}
    (inside : id < arena.size) (prevInside : ∀ other, prev = some other → other < arena.size)
    (nextInside : ∀ other, next = some other → other < arena.size) :
    list.linkBetween arena prev id next = .ok
      ({ head := if prev = none then some id else list.head
         tail := if next = none then some id else list.tail
         length := list.length + 1 },arena.linkIn prev id next) := by
  rw [linkBetween,Arena.modify_put inside,Checked.ok_bind,linkForward_eq]
  · simp only [Checked.ok_bind]
    rw [linkBackward_eq]
    · rfl
    · intro other found
      rw [Arena.size_putAt,Arena.size_put]
      exact nextInside other found
  · intro other found
    rw [Arena.size_put]
    exact prevInside other found

theorem Holds.linkIn {list : LinkedList} {arena : Arena} {left right : List NodeId}
    {id : NodeId} (holds : list.Holds arena (left ++ right)) (fresh : id ∉ left ++ right)
    (inside : id < arena.size) :
    LinkedList.Holds
      { head := if left.getLast? = none then some id else list.head
        tail := if right.head? = none then some id else list.tail
        length := list.length + 1 }
      (arena.linkIn left.getLast? id right.head?) (left ++ id :: right) := by
  obtain ⟨apart,inLeft,inRight⟩ : left.Disjoint right ∧ left.Nodup ∧ right.Nodup := by
    have parts := List.nodup_append.mp holds.distinct
    exact ⟨fun other first second => parts.2.2 other first other second rfl,parts.1,parts.2.1⟩
  have notLeft : id ∉ left := fun member => fresh (by simp [member])
  have notRight : id ∉ right := fun member => fresh (by simp [member])
  obtain ⟨leftChain,rightChain⟩ := Arena.chained_append.mp holds.chained
  have lastOut : ∀ other ∈ right, left.getLast? ≠ some other :=
    fun other member last => apart (List.mem_of_getLast? last) member
  have firstOut : ∀ other ∈ left, right.head? ≠ some other :=
    fun other member first => apart member (List.mem_of_head? first)
  have notLast : left.getLast? ≠ some id := fun last => notLeft (List.mem_of_getLast? last)
  have notFirst : right.head? ≠ some id := fun first => notRight (List.mem_of_head? first)
  -- both parts stay chained as they are, but for the links at the seam
  have newLeft : (arena.linkIn left.getLast? id right.head?).Chained none left (some id) := by
    refine leftChain.relink_last inLeft ?_
    intro other member
    have differ : other ≠ id := fun same => notLeft (same ▸ member)
    rw [Arena.linksOf_linkIn]
    simp [differ,firstOut other member]
  have newSelf : (arena.linkIn left.getLast? id right.head?).linksOf id =
      some ⟨left.getLast?,right.head?⟩ := by
    have present : (arena.linksOf id).isSome := by
      simp [Arena.linksOf,Array.getElem?_eq_getElem (show id < arena.nodes.size from inside)]
    obtain ⟨links,found⟩ := Option.isSome_iff_exists.mp present
    rw [Arena.linksOf_linkIn]
    simp [notLast,notFirst,found]
  have newRight : (arena.linkIn left.getLast? id right.head?).Chained (some id) right none := by
    refine rightChain.relink_first inRight ?_
    intro other member
    have differ : other ≠ id := fun same => notRight (same ▸ member)
    rw [Arena.linksOf_linkIn]
    simp [differ,lastOut other member]
  refine ⟨?_,?_,?_,?_,?_⟩
  · rw [holds.head]
    cases left <;> simp
  · rw [holds.tail]
    cases right <;> simp
  · simp [holds.length]
    omega
  · exact Arena.chained_append.mpr ⟨by simpa using newLeft,
      ⟨by simpa using newSelf,newRight⟩⟩
  · exact (List.perm_middle.nodup_iff).mpr (List.nodup_cons.mpr ⟨fresh,holds.distinct⟩)

/-- Every insertion links a node between two parts of a list, and touches no other node. -/
theorem Holds.linkBetween {list : LinkedList} {arena : Arena} {left right : List NodeId}
    {id : NodeId} (holds : list.Holds arena (left ++ right)) (fresh : id ∉ left ++ right)
    (inside : id < arena.size) : ∃ changed result,
      list.linkBetween arena left.getLast? id right.head? = .ok (changed,result) ∧
      changed.Holds result (left ++ id :: right) ∧ Arena.LinksOnly arena result ∧
      ∀ other, other ∉ left ++ id :: right → result.linksOf other = arena.linksOf other := by
  refine ⟨_,_,?_,holds.linkIn fresh inside,Arena.linkIn_only _ _ _ _,fun other outside => ?_⟩
  · apply linkBetween_eq inside
    · intro last found
      exact holds.chained.lt_size last (by simp [List.mem_of_getLast? found])
    · intro first found
      exact holds.chained.lt_size first (by simp [List.mem_of_head? found])
  · simp only [List.mem_append,List.mem_cons,not_or] at outside
    exact Arena.linksOf_linkIn_other outside.2.1
      (fun last => outside.1 (List.mem_of_getLast? last))
      (fun first => outside.2.2 (List.mem_of_head? first))

theorem Holds.pushBack {list : LinkedList} {arena : Arena} {ids : List NodeId} {id : NodeId}
    (holds : list.Holds arena ids) (fresh : id ∉ ids) (inside : id < arena.size) :
    ∃ changed result, list.pushBack arena id = .ok (changed,result) ∧
      changed.Holds result (ids ++ [id]) ∧ Arena.LinksOnly arena result ∧
      ∀ other, other ∉ ids ++ [id] → result.linksOf other = arena.linksOf other := by
  have split : list.Holds arena (ids ++ []) := by simpa using holds
  rw [LinkedList.pushBack,holds.tail]
  exact split.linkBetween (by simpa using fresh) inside

theorem Holds.pushFront {list : LinkedList} {arena : Arena} {ids : List NodeId} {id : NodeId}
    (holds : list.Holds arena ids) (fresh : id ∉ ids) (inside : id < arena.size) :
    ∃ changed result, list.pushFront arena id = .ok (changed,result) ∧
      changed.Holds result (id :: ids) ∧ Arena.LinksOnly arena result ∧
      ∀ other, other ∉ id :: ids → result.linksOf other = arena.linksOf other := by
  have split : list.Holds arena ([] ++ ids) := holds
  rw [LinkedList.pushFront,holds.head]
  exact split.linkBetween fresh inside

theorem Holds.insertAfter {list : LinkedList} {arena : Arena} {ids : List NodeId}
    {id mark : NodeId} (holds : list.Holds arena ids) (member : mark ∈ ids) (fresh : id ∉ ids)
    (inside : id < arena.size) : ∃ changed result, list.insertAfter arena id mark = .ok (changed,result) ∧
      changed.Holds result (Sequence.putBehind mark id ids) ∧ Arena.LinksOnly arena result ∧
      ∀ other, other ∉ Sequence.putBehind mark id ids →
        result.linksOf other = arena.linksOf other := by
  obtain ⟨left,right,rfl,absent⟩ := List.eq_append_cons_of_mem member
  have next := holds.succ
  have same : (left ++ [mark]) ++ id :: right = Sequence.putBehind mark id (left ++ mark :: right) := by
    rw [Sequence.putBehind_split absent]
    simp
  have last : some mark = (left ++ [mark]).getLast? := by simp
  rw [List.append_cons] at holds fresh
  rw [LinkedList.insertAfter,next,Checked.ok_bind,← same,last]
  exact holds.linkBetween fresh inside

theorem Holds.insertBefore {list : LinkedList} {arena : Arena} {ids : List NodeId}
    {id mark : NodeId} (holds : list.Holds arena ids) (member : mark ∈ ids) (fresh : id ∉ ids)
    (inside : id < arena.size) :
    ∃ changed result, list.insertBefore arena id mark = .ok (changed,result) ∧
      changed.Holds result (Sequence.putBefore mark id ids) ∧ Arena.LinksOnly arena result ∧
      ∀ other, other ∉ Sequence.putBefore mark id ids →
        result.linksOf other = arena.linksOf other := by
  obtain ⟨left,right,rfl,absent⟩ := List.eq_append_cons_of_mem member
  rw [LinkedList.insertBefore,holds.pred,Checked.ok_bind,Sequence.putBefore_split absent]
  exact holds.linkBetween fresh inside

theorem remove_eq {list : LinkedList} {arena : Arena} {prev next : Option NodeId} {id : NodeId}
    (here : arena.linksOf id = some ⟨prev,next⟩) (positive : 1 ≤ list.length)
    (prevInside : ∀ other, prev = some other → other < arena.size)
    (nextInside : ∀ other, next = some other → other < arena.size) :
    list.remove arena id = .ok
      ({ head := if prev = none then next else list.head
         tail := if next = none then prev else list.tail
         length := list.length - 1 },arena.linkOut prev id next) := by
  have inside := Arena.lt_of_links here
  obtain ⟨node,read,isLinks⟩ := Option.map_eq_some_iff.mp here
  obtain rfl : node.pred = prev := congrArg Links.pred isLinks
  obtain rfl : node.succ = next := congrArg Links.succ isLinks
  rw [LinkedList.remove,Arena.node_success.mpr read,Checked.ok_bind,linkForward_eq prevInside]
  simp only [Checked.ok_bind]
  rw [linkBackward_eq fun other found => by rw [Arena.size_putAt]; exact nextInside other found]
  simp only [Checked.ok_bind]
  rw [Arena.modify_put (by rw [Arena.size_putAt,Arena.size_putAt]; exact inside)]
  simp only [Checked.ok_bind,Checked.sub_of_le positive]
  rfl

theorem Holds.remove {list : LinkedList} {arena : Arena} {ids : List NodeId} {id : NodeId}
    (holds : list.Holds arena ids) (member : id ∈ ids) :
    ∃ changed result, list.remove arena id = .ok (changed,result) ∧
      changed.Holds result (ids.erase id) ∧ Arena.LinksOnly arena result ∧
      result.linksOf id = some ⟨none,none⟩ ∧
      ∀ other, other ∉ ids → result.linksOf other = arena.linksOf other := by
  obtain ⟨left,right,rfl,notLeft⟩ := List.eq_append_cons_of_mem member
  obtain ⟨leftDistinct,rear,apart⟩ := List.nodup_append.mp holds.distinct
  obtain ⟨notRight,rightDistinct⟩ := List.nodup_cons.mp rear
  have here := holds.chained.links
  obtain ⟨leftChain,_,rightChain⟩ := Arena.chained_append.mp holds.chained
  have lastOut : ∀ other ∈ right, left.getLast? ≠ some other := fun other inRight last =>
    apart other (List.mem_of_getLast? last) other (by simp [inRight]) rfl
  have firstOut : ∀ other ∈ left, right.head? ≠ some other := fun other inLeft first =>
    apart other inLeft other (by simp [List.mem_of_head? first]) rfl
  refine ⟨_,_,remove_eq here ?_ ?_ ?_,⟨?_,?_,?_,?_,?_⟩,Arena.linkOut_only _ _ _ _,?_,?_⟩
  · rw [holds.length]
    exact List.length_pos_of_mem member
  · intro other found
    exact holds.chained.lt_size other (by simp [List.mem_of_getLast? found])
  · intro other found
    exact holds.chained.lt_size other (by simp [List.mem_of_head? found])
  · rw [holds.head,List.erase_append_right _ notLeft]
    cases left <;> simp
  · rw [holds.tail,List.erase_append_right _ notLeft]
    cases right <;> simp
  · rw [holds.length,List.length_erase_of_mem member]
  · rw [List.erase_append_right _ notLeft,List.erase_cons_head]
    -- the two parts meet where the node has been
    refine Arena.chained_append.mpr ⟨leftChain.relink_last leftDistinct fun other inLeft => ?_,
      rightChain.relink_first rightDistinct fun other inRight => ?_⟩
    · have differ : other ≠ id := fun same => notLeft (same ▸ inLeft)
      rw [Arena.linksOf_linkOut]
      simp [differ,firstOut other inLeft]
    · have differ : other ≠ id := fun same => notRight (same ▸ inRight)
      rw [Arena.linksOf_linkOut]
      simp [differ,lastOut other inRight]
  · exact holds.distinct.erase id
  · have notLast : left.getLast? ≠ some id := fun last => notLeft (List.mem_of_getLast? last)
    have notFirst : right.head? ≠ some id := fun first => notRight (List.mem_of_head? first)
    rw [Arena.linksOf_linkOut,here]
    simp [notLast,notFirst]
  · intro other outside
    simp only [List.mem_append,List.mem_cons,not_or] at outside
    have notLast : left.getLast? ≠ some other := fun last => outside.1 (List.mem_of_getLast? last)
    have notFirst : right.head? ≠ some other := fun first => outside.2.2 (List.mem_of_head? first)
    rw [Arena.linksOf_linkOut]
    simp [notLast,notFirst,outside.2.1]

theorem chained_splice {arena : Arena} {front rest : List NodeId} {tail head : NodeId}
    (first : arena.Chained none (front ++ [tail]) none) (second : arena.Chained none (head :: rest) none)
    (distinct : (front ++ [tail]).Nodup) (others : (head :: rest).Nodup)
    (apart : (front ++ [tail]).Disjoint (head :: rest)) :
    (arena.splice tail head).Chained none ((front ++ [tail]) ++ head :: rest) none := by
  have differ : tail ≠ head := by
    rintro rfl
    exact apart (a := tail) (by simp) (by simp)
  refine Arena.chained_append.mpr ⟨first.relink_last distinct fun id member => ?_,
    second.relink_first others fun id member => ?_⟩
  · have notHead : id ≠ head := by
      rintro rfl
      exact apart member (by simp)
    rw [Arena.linksOf_splice differ,if_neg notHead]
    simp [eq_comm]
  · have notTail : id ≠ tail := by
      rintro rfl
      exact apart (a := id) (by simp) member
    rw [Arena.linksOf_splice differ,if_neg notTail]
    simp [eq_comm]

theorem concat_splice {list other : LinkedList} {arena : Arena} {front rest : List NodeId}
    {tail head : NodeId} (first : list.Holds arena (front ++ [tail]))
    (second : other.Holds arena (head :: rest)) : list.concat arena other = .ok
      ({ list with tail := other.tail, length := list.length + other.length },{},
        arena.splice tail head) := by
  have filled : other.isEmpty = false := by simp [isEmpty,second.length]
  have occupied : list.isEmpty = false := by simp [isEmpty,first.length]
  have isTail : list.tail = some tail := by simp [first.tail]
  have isHead : other.head = some head := second.head
  have tailInside := first.chained.lt_size tail (by simp)
  have headInside := second.chained.lt_size head (by simp)
  rw [LinkedList.concat,filled,occupied,isTail,isHead]
  simp only [Bool.false_eq_true,if_false,Checked.found,Checked.ok_bind,Arena.modify_put tailInside]
  rw [Arena.modify_put (by rw [Arena.size_put]; exact headInside)]
  rfl

theorem Holds.concat {list other : LinkedList} {arena : Arena} {ids others : List NodeId}
    (first : list.Holds arena ids) (second : other.Holds arena others) (apart : ids.Disjoint others) :
    ∃ changed result, list.concat arena other = .ok (changed,{},result) ∧
      changed.Holds result (ids ++ others) ∧ Arena.LinksOnly arena result ∧
      ∀ id, id ∉ ids ++ others → result.linksOf id = arena.linksOf id := by
  have firstLength := first.length
  have secondLength := second.length
  cases others with
  | nil =>
    have blank : other = {} := by
      obtain ⟨head,tail,length⟩ := other
      obtain rfl : head = none := second.head
      obtain rfl : tail = none := second.tail
      obtain rfl : length = 0 := secondLength
      rfl
    refine ⟨list,arena,?_,by simpa using first,.refl arena,fun _ _ => rfl⟩
    rw [LinkedList.concat,blank]
    rfl
  | cons head rest =>
    have filled : other.isEmpty = false := by simp [isEmpty,secondLength]
    rcases List.eq_nil_or_concat' ids with rfl | ⟨front,tail,rfl⟩
    · have empty : list.isEmpty = true := by simp [isEmpty,firstLength]
      refine ⟨other,arena,?_,second,.refl arena,fun _ _ => rfl⟩
      rw [LinkedList.concat,filled,empty]
      rfl
    · refine ⟨_,_,concat_splice first second,⟨?_,?_,?_,?_,?_⟩,Arena.splice_only arena tail head,?_⟩
      · simp [first.head]
      · rw [List.getLast?_append_of_ne_nil _ (List.cons_ne_nil head rest)]
        exact second.tail
      · rw [List.length_append,firstLength,secondLength]
      · exact chained_splice first.chained second.chained first.distinct second.distinct apart
      · exact List.nodup_append.mpr ⟨first.distinct,second.distinct,
          fun x member y behind same => apart member (same ▸ behind)⟩
      · intro id outside
        simp only [List.mem_append,List.mem_cons,not_or] at outside
        have meet : tail ≠ head := fun same => apart (a := tail) (by simp) (by simp [same])
        rw [Arena.linksOf_splice meet,if_neg outside.2.1,if_neg (by simpa using outside.1.2)]

end LinkedList

end BalancedMove
