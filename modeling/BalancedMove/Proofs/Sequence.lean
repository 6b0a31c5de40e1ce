import BalancedMove.Arena.Basic
import Mathlib.Logic.Function.Basic
import Mathlib.Tactic.Common

/-! Sequences in increasing order of a key. An element stands for the interval from its key up to
the next key, or up to a common stop. Everything here is about plain lists, so it serves starts of
input intervals and starts of output intervals alike; a sequence grows by a new element that
is put next to an old one or where its key belongs. -/
namespace BalancedMove.Sequence

variable {α : Type}

def putBehind [DecidableEq α] (old new : α) : List α → List α
  | [] => []
  | x :: rest => if x = old then x :: new :: rest else x :: putBehind old new rest

def putBefore [DecidableEq α] (old new : α) : List α → List α
  | [] => []
  | x :: rest => if x = old then new :: x :: rest else x :: putBefore old new rest

def putByKey (key : α → Nat) (new : α) (items : List α) : List α :=
  items.filter (fun x => key x ≤ key new) ++ new :: items.filter fun x => key new < key x

def nextOf [DecidableEq α] (old : α) : List α → Option α
  | [] => none
  | x :: rest => if x = old then rest.head? else nextOf old rest

/-- End of the interval of an element: the key behind it, or the common stop. -/
def endOf [DecidableEq α] (key : α → Nat) (stop : Nat) : List α → α → Nat
  | [], _ => stop
  | x :: rest, y => if x = y then (rest.head?.map key).getD stop else endOf key stop rest y

def Increasing (key : α → Nat) (items : List α) : Prop :=
  items.Pairwise fun x y => key x < key y

instance (key : α → Nat) (items : List α) : Decidable (Increasing key items) :=
  inferInstanceAs (Decidable (items.Pairwise fun x y => key x < key y))

def count (key : α → Nat) (items : List α) (low high : Nat) : Nat :=
  items.countP fun x => low ≤ key x && key x < high

def inRange (key : α → Nat) (items : List α) (low high : Nat) : List α :=
  items.filter fun x => low ≤ key x && key x < high

/-- What makes `e` the end of the interval that begins at `low`, without regard to the order in
which the elements are listed. -/
structure IsEnd (key : α → Nat) (stop : Nat) (items : List α) (low e : Nat) : Prop where
  above : low < e
  inside : e ≤ stop
  free : ∀ x ∈ items, low < key x → e ≤ key x
  reached : e = stop ∨ ∃ x ∈ items, key x = e

instance (key : α → Nat) (stop : Nat) (items : List α) (low e : Nat) :
    Decidable (IsEnd key stop items low e) :=
  decidable_of_iff (low < e ∧ e ≤ stop ∧ (∀ x ∈ items, low < key x → e ≤ key x) ∧
      (e = stop ∨ ∃ x ∈ items, key x = e))
    ⟨fun ⟨above,inside,free,reached⟩ => ⟨above,inside,free,reached⟩,
      fun ends => ⟨ends.above,ends.inside,ends.free,ends.reached⟩⟩

def total (amount : α → Nat) : List α → Nat
  | [] => 0
  | x :: rest => amount x + total amount rest

theorem exists_split {items : List α} {i : Nat} {x : α} (found : items[i]? = some x) :
    ∃ left right, items = left ++ x :: right ∧ left.length = i := by
  obtain ⟨bound,rfl⟩ := List.getElem?_eq_some_iff.mp found
  refine ⟨items.take i,items.drop (i + 1),?_,List.length_take_of_le (Nat.le_of_lt bound)⟩
  rw [List.getElem_cons_drop,List.take_append_drop]

theorem IsEnd.unique {key : α → Nat} {stop : Nat} {items : List α} {low e f : Nat}
    (first : IsEnd key stop items low e) (second : IsEnd key stop items low f) : e = f := by
  apply Nat.le_antisymm
  · rcases second.reached with rfl | ⟨x,member,rfl⟩
    · exact first.inside
    · exact first.free x member second.above
  · rcases first.reached with rfl | ⟨x,member,rfl⟩
    · exact second.inside
    · exact second.free x member first.above

theorem IsEnd.transfer {β : Type} {key : α → Nat} {other : β → Nat} {items : List α}
    {others : List β} {stop low e : Nat} (ends : IsEnd key stop items low e)
    (same : ∀ k, k ∈ items.map key ↔ k ∈ others.map other) : IsEnd other stop others low e := by
  refine ⟨ends.above,ends.inside,?_,?_⟩
  · intro y member above
    obtain ⟨x,present,equal⟩ := List.mem_map.mp ((same _).mpr (List.mem_map_of_mem member))
    rw [← equal] at above ⊢
    exact ends.free x present above
  · rcases ends.reached with last | ⟨x,member,rfl⟩
    · exact Or.inl last
    · exact Or.inr (List.mem_map.mp ((same _).mp (List.mem_map_of_mem member)))

/-- An end is also an end among some of the elements, if these have all keys up to an earlier stop. -/
theorem IsEnd.restrict {β : Type} {key : α → Nat} {other : β → Nat} {items : List α}
    {part : List β} {stop last low e : Nat} (ends : IsEnd key last items low e) (limit : e ≤ stop)
    (early : stop ≤ last) (sub : ∀ y ∈ part, ∃ x ∈ items, key x = other y)
    (all : ∀ x ∈ items, low < key x → key x < stop → ∃ y ∈ part, other y = key x) :
    IsEnd other stop part low e := by
  refine ⟨ends.above,limit,?_,?_⟩
  · intro y member above
    obtain ⟨x,present,same⟩ := sub y member
    rw [← same] at above ⊢
    exact ends.free x present above
  · rcases ends.reached with final | ⟨x,member,same⟩
    · exact Or.inl (by omega)
    · by_cases inside : e < stop
      · have above := ends.above
        obtain ⟨y,present,equal⟩ := all x member (by omega) (by omega)
        exact Or.inr ⟨y,present,equal.trans same⟩
      · exact Or.inl (by omega)

section Order

variable {key : α → Nat} {items : List α}

theorem Increasing.nodup (sorted : Increasing key items) : items.Nodup :=
  sorted.imp fun less same => by rw [same] at less; exact Nat.lt_irrefl _ less

theorem Increasing.tail {x : α} (sorted : Increasing key (x :: items)) : Increasing key items :=
  (List.pairwise_cons.mp sorted).2

theorem Increasing.before {left right : List α} {x : α}
    (sorted : Increasing key (left ++ x :: right)) : ∀ y ∈ left, key y < key x := by
  intro y member
  exact (List.pairwise_append.mp sorted).2.2 y member x (by simp)

theorem Increasing.behind {left right : List α} {x : α}
    (sorted : Increasing key (left ++ x :: right)) : ∀ y ∈ right, key x < key y :=
  (List.pairwise_cons.mp (List.pairwise_append.mp sorted).2.1).1

theorem Increasing.eq_of_key (sorted : Increasing key items) {x y : α} (first : x ∈ items)
    (second : y ∈ items) (same : key x = key y) : x = y := by
  obtain ⟨left,right,rfl⟩ := List.append_of_mem first
  have before := sorted.before y
  have behind := sorted.behind y
  simp only [List.mem_append,List.mem_cons] at second
  rcases second with inLeft | rfl | inRight
  · exact absurd (before inLeft) (by omega)
  · rfl
  · exact absurd (behind inRight) (by omega)

theorem Increasing.head_le {x : α} (sorted : Increasing key (x :: items)) :
    ∀ y ∈ x :: items, key x ≤ key y := by
  intro y member
  rcases List.mem_cons.mp member with rfl | member
  · exact Nat.le_refl _
  · exact Nat.le_of_lt ((List.pairwise_cons.mp sorted).1 y member)

theorem Increasing.head_of_start {start : Nat} {x : α} (sorted : Increasing key items)
    (above : ∀ y ∈ items, start ≤ key y) (member : x ∈ items) (here : key x = start) :
    items.head?.map key = some start := by
  cases items with
  | nil => cases member
  | cons first rest =>
    have least := sorted.head_le x member
    have low := above first (by simp)
    simp only [List.head?_cons,Option.map_some]
    congr 1
    omega

theorem Increasing.head_zero {x : α} (sorted : Increasing key items) (member : x ∈ items)
    (zero : key x = 0) : items.head?.map key = some 0 :=
  sorted.head_of_start (fun _ _ => Nat.zero_le _) member zero

theorem Increasing.gap {left right : List α} {x y : α}
    (sorted : Increasing key (left ++ x :: y :: right)) :
    ∀ z ∈ left ++ x :: y :: right, key x < key z → key y ≤ key z := by
  intro z member above
  have behind : Increasing key (y :: right) :=
    Increasing.tail (x := x) (List.pairwise_append.mp sorted).2.1
  simp only [List.mem_append,List.mem_cons] at member
  rcases member with inLeft | rfl | inRight
  · exact absurd (sorted.before z inLeft) (by omega)
  · omega
  · exact behind.head_le z (by simpa using inRight)

theorem Increasing.last_le {left : List α} {x : α} (sorted : Increasing key (left ++ [x])) :
    ∀ z ∈ left ++ [x], key z ≤ key x := by
  intro z member
  rcases List.mem_append.mp member with inLeft | same
  · exact Nat.le_of_lt (sorted.before z inLeft)
  · exact Nat.le_of_eq (congrArg key (List.mem_singleton.mp same))

theorem Increasing.length_le {low high : Nat} (sorted : Increasing key items)
    (above : ∀ x ∈ items, low ≤ key x) (below : ∀ x ∈ items, key x < high) :
    items.length ≤ high - low := by
  induction items generalizing low with
  | nil => exact Nat.zero_le _
  | cons x rest ih =>
    obtain ⟨head,tail⟩ := List.pairwise_cons.mp sorted
    have first := above x (by simp)
    have last := below x (by simp)
    have others := @ih (key x + 1) tail head fun y member => below y (by simp [member])
    rw [List.length_cons]
    omega

end Order

section Totals

variable {amount other : α → Nat} {items : List α}

theorem total_le (le : ∀ x ∈ items, amount x ≤ other x) : total amount items ≤ total other items := by
  induction items with
  | nil => exact Nat.le_refl _
  | cons x rest ih =>
    exact Nat.add_le_add (le x (by simp)) (ih fun y member => le y (by simp [member]))

theorem total_congr (same : ∀ x ∈ items, amount x = other x) :
    total amount items = total other items :=
  Nat.le_antisymm (total_le fun x member => Nat.le_of_eq (same x member))
    (total_le fun x member => Nat.le_of_eq (same x member).symm)

theorem total_add (amount other : α → Nat) (items : List α) :
    total (fun x => amount x + other x) items = total amount items + total other items := by
  induction items with
  | nil => rfl
  | cons x rest ih =>
    simp only [total,ih]
    omega

theorem total_mul (factor : Nat) (amount : α → Nat) (items : List α) :
    total (fun x => factor * amount x) items = factor * total amount items := by
  induction items with
  | nil => rfl
  | cons x rest ih => simp only [total,ih,Nat.mul_add]

theorem total_map {β : Type} (f : β → α) (items : List β) :
    total amount (items.map f) = total (fun x => amount (f x)) items := by
  induction items with
  | nil => rfl
  | cons x rest ih => simp only [List.map_cons,total,ih]

theorem total_append (first second : List α) :
    total amount (first ++ second) = total amount first + total amount second := by
  induction first with
  | nil => simp [total]
  | cons x rest ih =>
    simp only [List.cons_append,total,ih]
    omega

theorem total_perm {others : List α} (same : items.Perm others) :
    total amount items = total amount others := by
  induction same with
  | nil => rfl
  | cons x _ ih => simp only [total,ih]
  | swap x y rest => exact Nat.add_left_comm _ _ _
  | trans _ _ first second => exact first.trans second

theorem total_zero (none : ∀ x ∈ items, amount x = 0) : total amount items = 0 := by
  induction items with
  | nil => rfl
  | cons x rest ih =>
    rw [total,none x (by simp),ih fun y member => none y (by simp [member])]

theorem total_one (items : List α) : total (fun _ => 1) items = items.length := by
  induction items with
  | nil => rfl
  | cons x rest ih =>
    rw [total,ih,List.length_cons,Nat.add_comm]

theorem total_filter (keep : α → Bool) (items : List α) :
    total amount (items.filter keep) = total (fun x => if keep x then amount x else 0) items := by
  induction items with
  | nil => rfl
  | cons x rest ih => by_cases kept : keep x = true <;> simp [total,kept,ih]

theorem eq_zero_of_total (none : total amount items = 0) : ∀ x ∈ items, amount x = 0 := by
  induction items with
  | nil => exact fun _ member => by cases member
  | cons y rest ih =>
    simp only [total] at none
    intro x member
    rcases List.mem_cons.mp member with rfl | inside
    · omega
    · exact ih (by omega) x inside

theorem total_change {x : α} (distinct : items.Nodup) (member : x ∈ items)
    (others : ∀ y, y ≠ x → amount y = other y) :
    total amount items + other x = total other items + amount x := by
  induction items with
  | nil => cases member
  | cons y rest ih =>
    obtain ⟨absent,tail⟩ := List.nodup_cons.mp distinct
    simp only [total]
    rcases List.mem_cons.mp member with rfl | inside
    · have same : total amount rest = total other rest :=
        total_congr fun z inRest => others z fun equal => absent (equal ▸ inRest)
      omega
    · have before := ih tail inside
      have own := others y fun equal => absent (equal ▸ inside)
      omega

theorem total_full (most : ∀ x ∈ items, amount x ≤ 1) (full : total amount items = items.length) :
    ∀ x ∈ items, amount x = 1 := by
  induction items with
  | nil => exact fun _ member => by cases member
  | cons y rest ih =>
    have own := most y (by simp)
    have others : total amount rest ≤ rest.length :=
      total_one rest ▸ total_le fun x member => most x (by simp [member])
    simp only [total,List.length_cons] at full
    intro x member
    rcases List.mem_cons.mp member with rfl | inside
    · omega
    · exact ih (fun z inRest => most z (by simp [inRest])) (by omega) x inside

theorem length_flatMap {β : Type} (f : α → List β) (items : List α) :
    (items.flatMap f).length = total (fun x => (f x).length) items := by
  induction items with
  | nil => rfl
  | cons x rest ih => simp only [List.flatMap_cons,List.length_append,total,ih]

theorem total_classes (classOf : α → Nat) {m : Nat} (bounded : ∀ x ∈ items, classOf x < m) :
    total (fun t => (items.filter fun x => classOf x == t).length) (List.range m) =
      items.length := by
  induction items with
  | nil =>
    exact total_zero fun _ _ => rfl
  | cons x rest ih =>
    have before := ih fun y member => bounded y (by simp [member])
    have own : total (fun t => if classOf x = t then 1 else 0) (List.range m) = 1 := by
      have here := List.mem_range.mpr (bounded x (by simp))
      have change := @total_change _ (fun t => if classOf x = t then 1 else 0) (fun _ => 0) _ _
        List.nodup_range here fun t differ => if_neg differ.symm
      rwa [total_zero fun _ _ => rfl,if_pos rfl,Nat.zero_add] at change
    have step : ∀ t ∈ List.range m, ((x :: rest).filter fun y => classOf y == t).length =
        (if classOf x = t then 1 else 0) + (rest.filter fun y => classOf y == t).length := by
      intro t _
      by_cases here : classOf x = t <;> simp [here,Nat.add_comm]
    rw [total_congr step,total_add,own,before,List.length_cons]
    omega

theorem mul_countP_le_total (amount : α → Nat) (least : Nat) (items : List α) :
    least * items.countP (fun x => least ≤ amount x) ≤ total amount items := by
  induction items with
  | nil => exact Nat.le_refl _
  | cons x rest ih =>
    rw [List.countP_cons,total,Nat.mul_add]
    by_cases reached : least ≤ amount x
    · simp only [reached,decide_true,if_true]
      omega
    · simp only [reached,decide_false,Bool.false_eq_true,if_false]
      omega

theorem total_steps {bound : Nat → Nat} {m : Nat} (rising : ∀ t < m, bound t ≤ bound (t + 1)) :
    total (fun t => bound (t + 1) - bound t) (List.range m) + bound 0 = bound m := by
  induction m with
  | zero => simp [total]
  | succ m ih =>
    have before := ih fun t less => rising t (by omega)
    have last := rising m (by omega)
    rw [List.range_succ,total_append]
    simp only [total]
    omega

theorem total_le_range' {most : Nat → Nat} {first : Nat}
    (each : ∀ i x, items[i]? = some x → amount x ≤ most (first + i)) :
    total amount items ≤ total most (List.range' first items.length) := by
  induction items generalizing first with
  | nil => exact Nat.le_refl _
  | cons x rest ih =>
    have own := each 0 x rfl
    have others := @ih (first + 1) fun i y place => by
      have later := each (i + 1) y (by simpa using place)
      rwa [Nat.add_assoc,Nat.add_comm 1 i]
    simp only [List.length_cons,List.range'_succ,total]
    exact Nat.add_le_add own others

theorem total_range {value : Nat → Nat}
    (each : ∀ (i : Nat) (x : α), items[i]? = some x → value i = amount x) :
    total value (List.range items.length) = total amount items := by
  induction items generalizing value with
  | nil => rfl
  | cons x rest ih =>
    have own := each 0 x rfl
    have others := @ih (fun i => value (i + 1)) fun i y place => each (i + 1) y (by simpa using place)
    rw [List.length_cons,List.range_succ_eq_map]
    simp only [total,total_map,own,others]

end Totals

section Ends

variable [DecidableEq α] {key : α → Nat} {stop : Nat} {items : List α}

theorem endOf_split {left right : List α} {x : α} (absent : x ∉ left) :
    endOf key stop (left ++ x :: right) x = (right.head?.map key).getD stop := by
  induction left with
  | nil => simp [endOf]
  | cons y left ih =>
    have differ : y ≠ x := fun same => absent (by simp [same])
    simpa [endOf,differ] using ih (fun member => absent (by simp [member]))

theorem Increasing.isEnd (sorted : Increasing key items) (below : ∀ x ∈ items, key x < stop)
    {x : α} (member : x ∈ items) : IsEnd key stop items (key x) (endOf key stop items x) := by
  obtain ⟨left,right,rfl⟩ := List.append_of_mem member
  have absent : x ∉ left := fun inside => Nat.lt_irrefl _ (sorted.before x inside)
  rw [endOf_split absent]
  have before := sorted.before
  have behind := sorted.behind
  cases right with
  | nil =>
    refine ⟨below x (by simp),Nat.le_refl _,?_,Or.inl rfl⟩
    intro y inside above
    rcases List.mem_append.mp inside with inLeft | inRight
    · exact absurd (before y inLeft) (by omega)
    · simp at inRight
      subst y
      omega
  | cons next right =>
    simp only [List.head?_cons,Option.map_some,Option.getD_some]
    have sortedRight : Increasing key (next :: right) :=
      (List.pairwise_cons.mp (List.pairwise_append.mp sorted).2.1).2
    refine ⟨behind next (by simp),Nat.le_of_lt (below next (by simp)),?_,
      Or.inr ⟨next,by simp,rfl⟩⟩
    intro y inside above
    simp only [List.mem_append,List.mem_cons] at inside
    rcases inside with inLeft | rfl | rfl | inRight
    · exact absurd (before y inLeft) (by omega)
    · omega
    · exact Nat.le_refl _
    · exact sortedRight.head_le y (by simp [inRight])

theorem Increasing.endOf_eq (sorted : Increasing key items) (below : ∀ x ∈ items, key x < stop)
    {x : α} (member : x ∈ items) {e : Nat} (isEnd : IsEnd key stop items (key x) e) :
    endOf key stop items x = e :=
  (sorted.isEnd below member).unique isEnd

theorem Increasing.endOf_map (sorted : Increasing key items) (below : ∀ x ∈ items, key x < stop)
    {x : α} (member : x ∈ items) : endOf id stop (items.map key) (key x) = endOf key stop items x := by
  have keys : Increasing id (items.map key) := List.pairwise_map.mpr sorted
  refine keys.endOf_eq (List.forall_mem_map.mpr below) (List.mem_map_of_mem member) ?_
  exact (sorted.isEnd below member).transfer (by simp)

theorem Increasing.covered (sorted : Increasing key items) (below : ∀ x ∈ items, key x < stop)
    {first : α} (head : items.head? = some first) {y : Nat} (low : key first ≤ y)
    (high : y < stop) : ∃ x ∈ items, key x ≤ y ∧ y < endOf key stop items x := by
  induction items generalizing first with
  | nil => simp at head
  | cons x rest ih =>
    obtain rfl : x = first := by simpa using head
    have ends := sorted.isEnd below (x := x) (by simp)
    by_cases inside : y < endOf key stop (x :: rest) x
    · exact ⟨x,by simp,low,inside⟩
    · cases rest with
      | nil => exact absurd high (by simpa [endOf] using inside)
      | cons next rest =>
        have nextLow : key next ≤ y := by simpa [endOf] using inside
        obtain ⟨z,member,zLow,zHigh⟩ := ih sorted.tail
          (fun z member => below z (by simp [member])) rfl nextLow
        have differ : x ≠ z := by
          rintro rfl
          exact Nat.lt_irrefl _ ((List.pairwise_cons.mp sorted).1 x member)
        exact ⟨z,by simp [member],zLow,by simpa [endOf,differ] using zHigh⟩

theorem Increasing.apart (sorted : Increasing key items) (below : ∀ x ∈ items, key x < stop)
    {x y : α} (first : x ∈ items) (second : y ∈ items) {position : Nat}
    (firstLow : key x ≤ position) (firstHigh : position < endOf key stop items x)
    (secondLow : key y ≤ position) (secondHigh : position < endOf key stop items y) : x = y := by
  have firstEnd := sorted.isEnd below first
  have secondEnd := sorted.isEnd below second
  apply sorted.eq_of_key first second
  by_contra differ
  rcases Nat.lt_or_gt_of_ne differ with less | less
  · exact absurd (firstEnd.free y second less) (by omega)
  · exact absurd (secondEnd.free x first less) (by omega)

end Ends

section Count

variable {key : α → Nat} {items : List α}

theorem count_split (key : α → Nat) (items : List α) {low middle high : Nat} (left : low ≤ middle)
    (right : middle ≤ high) :
    count key items low high = count key items low middle + count key items middle high := by
  induction items with
  | nil => rfl
  | cons x rest ih =>
    simp only [count,List.countP_cons,Bool.and_eq_true,decide_eq_true_eq] at ih ⊢
    rw [ih]
    split <;> split <;> split <;> omega

theorem count_eq_zero {low high : Nat} :
    count key items low high = 0 ↔ ∀ x ∈ items, low ≤ key x → high ≤ key x := by
  simp [count]

theorem count_le_length (low high : Nat) : count key items low high ≤ items.length :=
  List.countP_le_length

theorem count_cons (x : α) (low high : Nat) : count key (x :: items) low high =
    count key items low high + if low ≤ key x ∧ key x < high then 1 else 0 := by
  simp [count,List.countP_cons]

theorem count_perm {other : List α} (permuted : items.Perm other) (low high : Nat) :
    count key items low high = count key other low high := permuted.countP_eq _

theorem count_lt {x : α} (member : x ∈ items) {low high : Nat} (lowest : low ≤ key x)
    (above : key x < high) : count key items low (key x) < count key items low high := by
  have own : count key items (key x) high ≠ 0 := fun none =>
    absurd (count_eq_zero.mp none x member (Nat.le_refl _)) (by omega)
  rw [count_split key items lowest (Nat.le_of_lt above)]
  omega

theorem Increasing.count_through (sorted : Increasing key items) {x : α} (member : x ∈ items)
    {low high : Nat} (lowest : low ≤ key x) (above : key x < high)
    (free : ∀ y ∈ items, key x < key y → high ≤ key y) :
    count key items low high = count key items low (key x) + 1 := by
  rw [count_split key items lowest (Nat.le_of_lt above)]
  congr 1
  obtain ⟨left,right,rfl⟩ := List.append_of_mem member
  have before := sorted.before
  have behind := sorted.behind
  have none : ∀ part : List α, (∀ y ∈ part, ¬ (key x ≤ key y ∧ key y < high)) →
      count key part (key x) high = 0 := by
    intro part outside
    simpa [count] using outside
  have leftNone := none left fun y inside bounds => by
    have := before y inside
    omega
  have rightNone := none right fun y inside bounds => by
    have less := behind y inside
    have := free y (by simp [inside]) less
    omega
  simp only [count] at leftNone rightNone ⊢
  simp [List.countP_append,leftNone,rightNone,above]

theorem length_inRange (key : α → Nat) (items : List α) (low high : Nat) :
    (inRange key items low high).length = count key items low high :=
  List.countP_eq_length_filter.symm

theorem mem_inRange {x : α} {low high : Nat} :
    x ∈ inRange key items low high ↔ x ∈ items ∧ low ≤ key x ∧ key x < high := by
  simp [inRange]

theorem Increasing.inRange_place (sorted : Increasing key items) {x : α} {low high : Nat}
    (member : x ∈ items) (lowest : low ≤ key x) (above : key x < high) :
    (inRange key items low high)[count key items low (key x)]? = some x := by
  induction items with
  | nil => cases member
  | cons y rest ih =>
    rw [count_cons]
    rcases List.mem_cons.mp member with rfl | inside
    · have none : count key rest low (key x) = 0 :=
        count_eq_zero.mpr fun z later _ => sorted.head_le z (by simp [later])
      simp [inRange,lowest,above,none]
    · have place := ih sorted.tail inside
      have less := (List.pairwise_cons.mp sorted).1 x inside
      by_cases counts : low ≤ key y
      · have within : key y < high := Nat.lt_trans less above
        simpa [inRange,counts,within,less] using place
      · simpa [inRange,counts] using place

theorem Increasing.inRange_getElem? (sorted : Increasing key items) {x : α} {low high i : Nat} :
    (inRange key items low high)[i]? = some x ↔
      (x ∈ items ∧ low ≤ key x ∧ key x < high) ∧ count key items low (key x) = i := by
  constructor
  · intro place
    have within := mem_inRange.mp (List.mem_of_getElem? place)
    refine ⟨within,?_⟩
    have own := sorted.inRange_place within.1 within.2.1 within.2.2
    have distinct : (inRange key items low high).Nodup := sorted.nodup.filter _
    exact (List.getElem?_inj (List.getElem?_eq_some_iff.mp own).1 distinct).mp
      (own.trans place.symm)
  · rintro ⟨⟨member,lowest,above⟩,rfl⟩
    exact sorted.inRange_place member lowest above

end Count

section Intervals

variable {key : α → Nat} {stop : Nat} {items : List α}

theorem Increasing.total_count [DecidableEq α] {β : Type} (sorted : Increasing key items)
    (below : ∀ x ∈ items, key x < stop) (other : β → Nat) (others : List β) :
    total (fun x => count other others (key x) (endOf key stop items x)) items =
      count other others ((items.head?.map key).getD stop) stop := by
  induction items with
  | nil => exact (count_eq_zero.mpr fun _ _ => id).symm
  | cons x rest ih =>
    have later := ih sorted.tail fun y member => below y (by simp [member])
    have apart : ∀ y ∈ rest, x ≠ y := by
      rintro y member rfl
      exact Nat.lt_irrefl _ ((List.pairwise_cons.mp sorted).1 x member)
    have behind : total (fun y => count other others (key y) (endOf key stop (x :: rest) y)) rest =
        total (fun y => count other others (key y) (endOf key stop rest y)) rest :=
      total_congr fun y member => by rw [endOf,if_neg (apart y member)]
    have ends := sorted.isEnd below (List.mem_cons_self ..)
    rw [endOf,if_pos rfl] at ends
    rw [total,behind,later,endOf,if_pos rfl]
    exact (count_split other _ (Nat.le_of_lt ends.above) ends.inside).symm

end Intervals

section Growth

variable [DecidableEq α] {items : List α} {old new : α}

theorem putBehind_split {left right : List α} (absent : old ∉ left) :
    putBehind old new (left ++ old :: right) = left ++ old :: new :: right := by
  induction left with
  | nil => simp [putBehind]
  | cons x left ih =>
    have differ : x ≠ old := fun same => absent (by simp [same])
    simpa [putBehind,differ] using ih (fun member => absent (by simp [member]))

theorem putBefore_split {left right : List α} (absent : old ∉ left) :
    putBefore old new (left ++ old :: right) = left ++ new :: old :: right := by
  induction left with
  | nil => simp [putBefore]
  | cons x left ih =>
    have differ : x ≠ old := fun same => absent (by simp [same])
    simpa [putBefore,differ] using ih (fun member => absent (by simp [member]))

theorem putBehind_perm (member : old ∈ items) : (putBehind old new items).Perm (new :: items) := by
  induction items with
  | nil => simp at member
  | cons x rest ih =>
    by_cases same : x = old
    · subst x
      simpa [putBehind] using List.Perm.swap new old rest
    · have inRest : old ∈ rest := by simpa [Ne.symm same] using member
      simpa [putBehind,same] using ((ih inRest).cons x).trans (List.Perm.swap new x rest)

theorem mem_putBehind (member : old ∈ items) {x : α} :
    x ∈ putBehind old new items ↔ x = new ∨ x ∈ items := by
  rw [(putBehind_perm member).mem_iff,List.mem_cons]

theorem mem_putBefore (member : old ∈ items) {x : α} :
    x ∈ putBefore old new items ↔ x = new ∨ x ∈ items := by
  obtain ⟨left,right,rfl,absent⟩ := List.eq_append_cons_of_mem member
  rw [putBefore_split absent]
  simp [or_left_comm]

theorem nextOf_split {left right : List α} (absent : old ∉ left) :
    nextOf old (left ++ old :: right) = right.head? := by
  induction left with
  | nil => simp [nextOf]
  | cons x left ih =>
    have differ : x ≠ old := fun same => absent (by simp [same])
    simpa [nextOf,differ] using ih (fun member => absent (by simp [member]))

theorem length_putBehind (member : old ∈ items) :
    (putBehind old new items).length = items.length + 1 := by
  have permuted : (putBehind old new items).Perm (new :: items) := putBehind_perm member
  simpa using permuted.length_eq

theorem map_putBehind {β : Type} [DecidableEq β] (f : α → β)
    (absent : ∀ x ∈ items, f x = f old → x = old) :
    (putBehind old new items).map f = putBehind (f old) (f new) (items.map f) := by
  induction items with
  | nil => rfl
  | cons x rest ih =>
    by_cases same : x = old
    · subst x
      simp [putBehind]
    · have differ : f x ≠ f old := fun equal => same (absent x (by simp) equal)
      simp [putBehind,same,differ,ih fun y member => absent y (by simp [member])]

theorem head?_putBehind : (putBehind old new items).head? = items.head? := by
  cases items with
  | nil => rfl
  | cons x rest => by_cases same : x = old <;> simp [putBehind,same]

theorem sublist_putBehind (items : List α) : items.Sublist (putBehind old new items) := by
  induction items with
  | nil => exact List.Sublist.slnil
  | cons x rest ih =>
    by_cases same : x = old
    · simpa only [putBehind,if_pos same] using (List.sublist_cons_self new rest).cons_cons x
    · simpa [putBehind,same] using ih.cons_cons x

variable {key : α → Nat} {stop : Nat}

theorem count_putBehind (member : old ∈ items) (low high : Nat) :
    count key (putBehind old new items) low high =
      count key items low high + if low ≤ key new ∧ key new < high then 1 else 0 := by
  rw [count_perm (putBehind_perm member),count_cons]

theorem Increasing.putBehind (sorted : Increasing key items) (below : ∀ x ∈ items, key x < stop)
    (member : old ∈ items) (low : key old < key new) (high : key new < endOf key stop items old) :
    Increasing key (putBehind old new items) := by
  have ends := sorted.isEnd below member
  obtain ⟨left,right,rfl⟩ := List.append_of_mem member
  have absent : old ∉ left := fun inside => Nat.lt_irrefl _ (sorted.before old inside)
  rw [putBehind_split absent]
  have parts := List.pairwise_append.mp sorted
  have oldParts := List.pairwise_cons.mp parts.2.1
  have newBelow : ∀ y ∈ right, key new < key y := fun y inside =>
    Nat.lt_of_lt_of_le high (ends.free y (by simp [inside]) (oldParts.1 y inside))
  refine List.pairwise_append.mpr ⟨parts.1,?_,?_⟩
  · refine List.pairwise_cons.mpr ⟨?_,List.pairwise_cons.mpr ⟨newBelow,oldParts.2⟩⟩
    intro y inside
    rcases List.mem_cons.mp inside with rfl | inside
    · exact low
    · exact oldParts.1 y inside
  · intro x inLeft y inside
    have before := parts.2.2 x inLeft old (by simp)
    rcases List.mem_cons.mp inside with rfl | inside
    · exact before
    · rcases List.mem_cons.mp inside with rfl | inside
      · omega
      · exact Nat.lt_trans before (oldParts.1 y inside)

theorem below_putBehind (below : ∀ x ∈ items, key x < stop) (member : old ∈ items)
    (newBelow : key new < stop) : ∀ x ∈ Sequence.putBehind old new items, key x < stop := by
  intro x inside
  rcases (mem_putBehind member).mp inside with rfl | inside
  · exact newBelow
  · exact below x inside

/-- How a new element inside the interval of `old` changes the intervals: it cuts off the rear part
of that interval and leaves the others alone. -/
theorem Increasing.endOf_putBehind (sorted : Increasing key items)
    (below : ∀ x ∈ items, key x < stop) (member : old ∈ items) (low : key old < key new)
    (high : key new < endOf key stop items old) {x : α}
    (inside : x ∈ Sequence.putBehind old new items) :
    endOf key stop (Sequence.putBehind old new items) x =
      if x = old then key new
      else if x = new then endOf key stop items old
      else endOf key stop items x := by
  have ends := sorted.isEnd below member
  have newBelow : key new < stop := Nat.lt_of_lt_of_le high ends.inside
  have newSorted := sorted.putBehind below member low high
  have newBounds := below_putBehind below member newBelow
  apply newSorted.endOf_eq newBounds inside
  split
  next same =>
    subst x
    refine ⟨low,Nat.le_of_lt newBelow,?_,Or.inr ⟨new,(mem_putBehind member).mpr (Or.inl rfl),rfl⟩⟩
    intro y yInside above
    rcases (mem_putBehind member).mp yInside with rfl | yInside
    · exact Nat.le_refl _
    · exact Nat.le_of_lt (Nat.lt_of_lt_of_le high (ends.free y yInside above))
  next differ =>
    split
    next same =>
      subst x
      refine ⟨high,ends.inside,?_,?_⟩
      · intro y yInside above
        rcases (mem_putBehind member).mp yInside with rfl | yInside
        · omega
        · exact ends.free y yInside (by omega)
      · exact ends.reached.imp_right fun ⟨y,yInside,equal⟩ =>
          ⟨y,(mem_putBehind member).mpr (Or.inr yInside),equal⟩
    next fresh =>
      have present : x ∈ items := ((mem_putBehind member).mp inside).resolve_left fresh
      have own := sorted.isEnd below present
      refine ⟨own.above,own.inside,?_,?_⟩
      · intro y yInside above
        rcases (mem_putBehind member).mp yInside with rfl | yInside
        · -- the new key lies in the interval of `old`, so it can only be behind the whole of `x`
          by_contra crossing
          exact differ (sorted.apart below present member (Nat.le_of_lt above) (by omega)
            (Nat.le_of_lt low) high)
        · exact own.free y yInside above
      · exact own.reached.imp_right fun ⟨y,yInside,equal⟩ =>
          ⟨y,(mem_putBehind member).mpr (Or.inr yInside),equal⟩

end Growth

section Ordered

variable {key : α → Nat} {items : List α} {old new : α}

theorem putByKey_perm (key : α → Nat) (new : α) (items : List α) :
    (putByKey key new items).Perm (new :: items) := by
  have split := List.filter_append_perm (fun x => decide (key x ≤ key new)) items
  simp only [← decide_not,Nat.not_le] at split
  exact List.perm_middle.trans (split.cons new)

theorem mem_putByKey {x : α} : x ∈ putByKey key new items ↔ x = new ∨ x ∈ items := by
  rw [(putByKey_perm key new items).mem_iff,List.mem_cons]

theorem putByKey_pairwise (sorted : items.Pairwise fun x y => key x ≤ key y) (new : α) :
    (putByKey key new items).Pairwise fun x y => key x ≤ key y := by
  refine List.pairwise_append.mpr ⟨sorted.filter _,List.pairwise_cons.mpr ⟨?_,sorted.filter _⟩,?_⟩
  · intro y member
    have above := (List.mem_filter.mp member).2
    simp only [decide_eq_true_eq] at above
    omega
  · intro x member y behind
    have below := (List.mem_filter.mp member).2
    rcases List.mem_cons.mp behind with rfl | behind
    · simpa using below
    · have above := (List.mem_filter.mp behind).2
      simp only [decide_eq_true_eq] at below above
      omega

theorem putBehind_pairwise [DecidableEq α] (sorted : items.Pairwise fun x y => key x ≤ key y)
    (member : old ∈ items) (low : key old ≤ key new)
    (high : ∀ next ∈ nextOf old items, key new ≤ key next) :
    (putBehind old new items).Pairwise fun x y => key x ≤ key y := by
  obtain ⟨left,right,rfl,absent⟩ := List.eq_append_cons_of_mem member
  rw [nextOf_split absent] at high
  rw [putBehind_split absent]
  obtain ⟨front,rear,across⟩ := List.pairwise_append.mp sorted
  obtain ⟨first,rest⟩ := List.pairwise_cons.mp rear
  have above : ∀ y ∈ right, key new ≤ key y := by
    intro y inside
    cases right with
    | nil => cases inside
    | cons next right =>
      have toNext := high next rfl
      rcases List.mem_cons.mp inside with rfl | inside
      · exact toNext
      · exact Nat.le_trans toNext ((List.pairwise_cons.mp rest).1 y inside)
  refine List.pairwise_append.mpr ⟨front,List.pairwise_cons.mpr ⟨?_,List.pairwise_cons.mpr ⟨above,rest⟩⟩,?_⟩
  · intro y inside
    rcases List.mem_cons.mp inside with rfl | inside
    · exact low
    · exact first y inside
  · intro x inLeft y inside
    simp only [List.mem_cons] at inside
    have toOld := across x inLeft old (by simp)
    rcases inside with rfl | rfl | inside
    · exact toOld
    · exact Nat.le_trans toOld low
    · exact across x inLeft y (by simp [inside])

theorem map_putByKey {β : Type} {f : α → β} {other : β → Nat}
    (same : ∀ x, x = new ∨ x ∈ items → other (f x) = key x) :
    (putByKey key new items).map f = putByKey other (f new) (items.map f) := by
  have front : items.filter (fun x => key x ≤ key new) =
      items.filter fun x => other (f x) ≤ other (f new) :=
    List.filter_congr fun x member => by rw [same x (Or.inr member),same new (Or.inl rfl)]
  have rear : items.filter (fun x => key new < key x) =
      items.filter fun x => other (f new) < other (f x) :=
    List.filter_congr fun x member => by rw [same x (Or.inr member),same new (Or.inl rfl)]
  rw [putByKey,putByKey,List.map_append,List.map_cons,List.filter_map,List.filter_map,front,rear]
  rfl

end Ordered

section Gaps

variable [DecidableEq α] {key : α → Nat} {stop : Nat} {items : List α}

theorem endOf_cons {x y : α} (absent : x ∉ items) (member : y ∈ items) :
    endOf key stop (x :: items) y = endOf key stop items y := by
  have differ : x ≠ y := by
    rintro rfl
    exact absent member
  simp [endOf,differ]

theorem le_endOf (sorted : items.Pairwise fun x y => key x ≤ key y)
    (below : ∀ x ∈ items, key x < stop) {x : α} (member : x ∈ items) :
    key x ≤ endOf key stop items x := by
  obtain ⟨left,right,rfl,absent⟩ := List.eq_append_cons_of_mem member
  rw [endOf_split absent]
  cases right with
  | nil => exact Nat.le_of_lt (below x (by simp))
  | cons next right =>
    exact (List.pairwise_cons.mp (List.pairwise_append.mp sorted).2.1).1 next (by simp)

/-- The intervals of ordered elements reach from the first key to the stop. Elements of equal keys have
empty ones, but for the last of them. -/
theorem total_gaps {x : α} (distinct : (x :: items).Nodup)
    (sorted : (x :: items).Pairwise fun x y => key x ≤ key y)
    (below : ∀ y ∈ x :: items, key y < stop) :
    key x + total (fun y => endOf key stop (x :: items) y - key y) (x :: items) = stop := by
  induction items generalizing x with
  | nil =>
    have inside := below x (by simp)
    simp [total,endOf]
    omega
  | cons next rest ih =>
    obtain ⟨absent,others⟩ := List.nodup_cons.mp distinct
    obtain ⟨first,later⟩ := List.pairwise_cons.mp sorted
    have tail := ih others later fun y member => below y (List.mem_cons_of_mem _ member)
    have same : total (fun y => endOf key stop (x :: next :: rest) y - key y) (next :: rest) =
        total (fun y => endOf key stop (next :: rest) y - key y) (next :: rest) :=
      total_congr fun y member => by rw [endOf_cons absent member]
    have own : endOf key stop (x :: next :: rest) x = key next := by simp [endOf]
    have step := first next (by simp)
    rw [total,same,own]
    omega

theorem increasing_of_gaps (distinct : items.Nodup) (sorted : items.Pairwise fun x y => key x ≤ key y)
    (gaps : ∀ x ∈ items, key x < endOf key stop items x) : Increasing key items := by
  induction items with
  | nil => exact List.Pairwise.nil
  | cons x rest ih =>
    obtain ⟨absent,others⟩ := List.nodup_cons.mp distinct
    obtain ⟨_,later⟩ := List.pairwise_cons.mp sorted
    have tail : Increasing key rest := ih others later fun y member => by
      have gap := gaps y (List.mem_cons_of_mem _ member)
      rwa [endOf_cons absent member] at gap
    refine List.pairwise_cons.mpr ⟨fun y member => ?_,tail⟩
    cases rest with
    | nil => cases member
    | cons next rest =>
      have gap : key x < key next := by simpa [endOf] using gaps x (by simp)
      exact Nat.lt_of_lt_of_le gap (tail.head_le y member)

end Gaps

section Families

variable {ι : Type} {shown : ι → List α} {target : ι} {items : List α} {new : α}

theorem disjoint_update [DecidableEq ι] (apart : ∀ s t, s ≠ t → (shown s).Disjoint (shown t))
    (own : ∀ t, t ≠ target → items.Disjoint (shown t)) (s t : ι) (differ : s ≠ t) :
    (Function.update shown target items s).Disjoint (Function.update shown target items t) := by
  by_cases left : s = target
  · subst left
    rw [Function.update_self,Function.update_of_ne differ.symm]
    exact own t differ.symm
  · rw [Function.update_of_ne left]
    by_cases right : t = target
    · subst right
      rw [Function.update_self]
      exact fun x first second => own s left second first
    · rw [Function.update_of_ne right]
      exact apart s t differ

theorem disjoint_grown (apart : ∀ s t, s ≠ t → (shown s).Disjoint (shown t))
    (loose : ∀ t, new ∉ shown t) (members : ∀ x ∈ items, x = new ∨ x ∈ shown target) (t : ι)
    (differ : t ≠ target) : items.Disjoint (shown t) := by
  intro x member
  rcases members x member with rfl | before
  · exact loose t
  · exact fun inside => apart target t differ.symm before inside

end Families

end BalancedMove.Sequence
