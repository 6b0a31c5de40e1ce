import BalancedMove.Balance.Heaviness
import BalancedMove.Proofs.Store.Sound

/-! What the counting of input starts answers. A tally that stands at the record `r` and counts from
`low` on is right if its number is one more than the number of starts in `[low, r.p)`. The split point
of a heavy interval is the start with `a` starts of the interval in front of it. -/
namespace BalancedMove.Store

open Sequence

def startsIn (stop : Nat) (inputs outputs : List Record) (r : Record) : Nat :=
  count Record.p inputs r.q (endOf Record.q stop outputs r)

def tallyAt (inputs : List Record) (low : Nat) (r : Record) : Tally :=
  ⟨r.id,count Record.p inputs low r.p + 1⟩

variable {store : Store} {inputs outputs : List Record} {r : Record} {low n stop a : Nat}

@[simp] theorem tallyAt_last (inputs : List Record) (low : Nat) (r : Record) :
    (tallyAt inputs low r).last = r.id := rfl

@[simp] theorem tallyAt_count (inputs : List Record) (low : Nat) (r : Record) :
    (tallyAt inputs low r).count = count Record.p inputs low r.p + 1 := rfl

theorem startsIn_le : startsIn stop inputs outputs r ≤ inputs.length := count_le_length _ _

theorem heavyCount_le (a : Nat) : heavyCount a ≤ 2 * a := Nat.min_le_left _ _

theorem countOn_tallies (lists : store.Lists inputs) (sorted : Increasing Record.p inputs)
    (member : r ∈ inputs) (above : low ≤ r.p) (inside : r.p < stop) (more : Nat) :
    ∃ last ∈ inputs, store.countOn stop more (tallyAt inputs low r) = .ok (tallyAt inputs low last) ∧
      r.p ≤ last.p ∧ last.p < stop ∧ count Record.p inputs low last.p + 1 =
        min (count Record.p inputs low stop) (count Record.p inputs low r.p + 1 + more) := by
  induction more generalizing r with
  | zero =>
    have reached := count_lt member above inside
    exact ⟨r,member,rfl,Nat.le_refl _,inside,by omega⟩
  | succ more ih =>
    obtain ⟨left,right,rfl⟩ := List.append_of_mem member
    have step := lists.succ
    cases right with
    | nil =>
      have all := sorted.count_through member above inside fun s present behind =>
        absurd (sorted.last_le s present) (by omega)
      refine ⟨r,member,?_,Nat.le_refl _,inside,by omega⟩
      simp [countOn,tallyAt,step]
    | cons next right =>
      have nextMember : next ∈ left ++ r :: next :: right := by simp
      have nextAbove := sorted.behind next (by simp)
      have nextStart : store.p next.id = .ok next.p := lists.p nextMember
      have counted := sorted.count_through member above nextAbove sorted.gap
      by_cases goes : next.p < stop
      · obtain ⟨last,lastMember,ok,behind,lastInside,number⟩ := ih nextMember (by omega) goes
        refine ⟨last,lastMember,?_,by omega,lastInside,by omega⟩
        rw [tallyAt,counted] at ok
        simp [countOn,tallyAt,step,nextStart,goes,ok]
      · have all := sorted.count_through member above inside fun s present behind =>
          Nat.le_trans (Nat.le_of_not_lt goes) (sorted.gap s present behind)
        refine ⟨r,member,?_,Nat.le_refl _,inside,by omega⟩
        simp [countOn,tallyAt,step,nextStart,goes]

theorem count_step {left right : List Record} {prev : Record}
    (sorted : Increasing Record.p (left ++ prev :: r :: right)) :
    count Record.p (left ++ prev :: r :: right) low r.p =
      if low ≤ prev.p then count Record.p (left ++ prev :: r :: right) low prev.p + 1 else 0 := by
  have less : prev.p < r.p := sorted.behind r (by simp)
  split
  next above => exact sorted.count_through (by simp) above less sorted.gap
  next under =>
    exact count_eq_zero.mpr fun s present lowest => sorted.gap s present (by omega)

theorem count_first {right : List Record} (sorted : Increasing Record.p (r :: right)) :
    count Record.p (r :: right) low r.p = 0 :=
  count_eq_zero.mpr fun s present _ => sorted.head_le s present

theorem stepBack_counts (lists : store.Lists inputs) (sorted : Increasing Record.p inputs)
    (member : r ∈ inputs) (above : low ≤ r.p) {steps : Nat}
    (enough : steps ≤ count Record.p inputs low r.p) :
    ∃ s ∈ inputs, store.stepBack steps r.id = .ok (some s.id) ∧ low ≤ s.p ∧ s.p ≤ r.p ∧
      count Record.p inputs low s.p + steps = count Record.p inputs low r.p := by
  induction steps generalizing r with
  | zero => exact ⟨r,member,rfl,above,Nat.le_refl _,rfl⟩
  | succ steps ih =>
    obtain ⟨left,right,rfl⟩ := List.append_of_mem member
    have back := lists.pred
    rcases List.eq_nil_or_concat' left with rfl | ⟨front,prev,rfl⟩
    · rw [List.nil_append,count_first sorted] at enough
      omega
    · simp only [List.append_assoc,List.cons_append,List.nil_append] at lists sorted enough ih ⊢
      have counted := @count_step r low front right prev sorted
      have less : prev.p < r.p := sorted.behind r (by simp)
      split at counted
      next prevAbove =>
        obtain ⟨s,present,ok,sAbove,sBelow,number⟩ := ih (r := prev) (by simp) prevAbove (by omega)
        refine ⟨s,present,?_,sAbove,by omega,by omega⟩
        simpa [stepBack,back] using ok
      next => omega

theorem countBack_counts (lists : store.Lists inputs) (sorted : Increasing Record.p inputs)
    {left right : List Record} (place : inputs = left ++ r :: right) {fuel : Nat}
    (enough : left.length < fuel) (counted : Nat) :
    store.countBack low fuel r.id counted = .ok (counted + count Record.p inputs low r.p) := by
  induction fuel generalizing r left right counted with
  | zero => omega
  | succ fuel ih =>
    subst place
    have back := lists.pred
    rcases List.eq_nil_or_concat' left with rfl | ⟨front,prev,rfl⟩
    · rw [List.nil_append,count_first sorted]
      simp [countBack,back]
    · simp only [List.append_assoc,List.cons_append,List.nil_append] at lists sorted ih ⊢
      have prevStart : store.p prev.id = .ok prev.p := lists.p (by simp)
      rw [count_step sorted]
      split
      next above =>
        have rest := ih (r := prev) rfl (by simp at enough; omega) (counted + 1)
        simp [countBack,back,prevStart,Nat.not_lt.mpr above,rest]
        omega
      next under => simp [countBack,back,prevStart,Nat.lt_of_not_le under]

theorem splitPoint_light (lists : store.Lists inputs) (sorted : Increasing Record.p inputs)
    (member : r ∈ inputs) (above : low ≤ r.p) (inside : r.p < stop)
    (light : count Record.p inputs low stop < heavyCount a) :
    ∃ last ∈ inputs, store.splitPoint a stop (tallyAt inputs low r) =
        .ok (none,tallyAt inputs low last) ∧ r.p ≤ last.p ∧ last.p < stop ∧
      count Record.p inputs low last.p + 1 = count Record.p inputs low stop := by
  have reached := count_lt member above inside
  obtain ⟨last,present,ok,behind,lastInside,number⟩ := countOn_tallies lists sorted member above
    inside (heavyCount a - (count Record.p inputs low r.p + 1))
  have few : count Record.p inputs low last.p + 1 < heavyCount a := by omega
  refine ⟨last,present,?_,behind,lastInside,by omega⟩
  simp only [splitPoint,tallyAt] at ok ⊢
  simp [ok,few]

theorem splitPoint_heavy (lists : store.Lists inputs) (sorted : Increasing Record.p inputs)
    (member : r ∈ inputs) (above : low ≤ r.p) (inside : r.p < stop)
    (heavy : heavyCount a ≤ count Record.p inputs low stop) (room : a < heavyCount a) :
    ∃ split ∈ inputs, ∃ last ∈ inputs, store.splitPoint a stop (tallyAt inputs low r) =
        .ok (some split.id,tallyAt inputs low last) ∧ low ≤ split.p ∧ split.p ≤ last.p ∧
      r.p ≤ last.p ∧ last.p < stop ∧ count Record.p inputs low split.p = a ∧
      count Record.p inputs low last.p + 1 =
        max (count Record.p inputs low r.p + 1) (heavyCount a) := by
  have reached := count_lt member above inside
  obtain ⟨last,present,ok,behind,lastInside,number⟩ := countOn_tallies lists sorted member above
    inside (heavyCount a - (count Record.p inputs low r.p + 1))
  have counted : count Record.p inputs low last.p + 1 =
      max (count Record.p inputs low r.p + 1) (heavyCount a) := by omega
  obtain ⟨split,splitMember,back,splitAbove,splitBelow,steps⟩ := stepBack_counts lists sorted present
    (show low ≤ last.p by omega) (show count Record.p inputs low last.p - a ≤ _ by omega)
  refine ⟨split,splitMember,last,present,?_,splitAbove,splitBelow,behind,lastInside,by omega,counted⟩
  have many : ¬ count Record.p inputs low last.p + 1 < heavyCount a := by omega
  have difference : Checked.sub (count Record.p inputs low last.p + 1) (a + 1) =
      .ok (count Record.p inputs low last.p - a) := by
    rw [Checked.sub_of_le (by omega)]
    congr 1
    omega
  simp only [splitPoint,tallyAt] at ok ⊢
  simp [ok,many,difference,back]

theorem splitPointAround_eq (holds : store.Holds inputs outputs)
    (sorted : Increasing Record.p inputs) (ordered : outputs.Pairwise fun s t => s.q ≤ t.q)
    (member : r ∈ inputs) {interval : Record} (shown : interval ∈ outputs) (above : interval.q ≤ r.p)
    (inside : r.p < endOf Record.q store.stop outputs interval)
    (room : heavyCount a ≤ startsIn store.stop inputs outputs interval → a < heavyCount a) :
    store.splitPointAround a r.id = .ok none ∧
        startsIn store.stop inputs outputs interval < heavyCount a ∨
      ∃ split ∈ inputs, store.splitPointAround a r.id = .ok (some (split.id,interval.id)) ∧
        interval.q ≤ split.p ∧ split.p < endOf Record.q store.stop outputs interval ∧
        count Record.p inputs interval.q split.p = a ∧
        heavyCount a ≤ startsIn store.stop inputs outputs interval := by
  obtain ⟨left,right,place⟩ := List.append_of_mem member
  have few := holds.list.length_le
  have enough : left.length < store.arena.stepLimit := by
    rw [place] at few
    simp only [List.map_append,List.map_cons,List.length_append,List.length_cons,List.length_map]
      at few
    unfold Arena.stepLimit
    omega
  have start : store.p r.id = .ok r.p := holds.p (Or.inl member)
  have low : store.q interval.id = .ok interval.q := holds.q (Or.inr shown)
  have found := holds.greatestAtMost ordered shown above inside
  have counted : store.countBack interval.q store.arena.stepLimit r.id 1 =
      .ok (1 + count Record.p inputs interval.q r.p) :=
    countBack_counts holds.lists sorted place enough 1
  have ends := holds.outputEnd shown
  rw [Nat.add_comm] at counted
  by_cases light : startsIn store.stop inputs outputs interval < heavyCount a
  · obtain ⟨last,_,ok,_⟩ := splitPoint_light holds.lists sorted member above inside light
    refine Or.inl ⟨?_,light⟩
    rw [tallyAt] at ok
    simp [splitPointAround,start,found,low,counted,ends,ok]
  · have heavy := Nat.le_of_not_lt light
    obtain ⟨split,splitMember,last,_,ok,splitAbove,splitBelow,_,lastInside,front,_⟩ :=
      splitPoint_heavy holds.lists sorted member above inside heavy (room heavy)
    refine Or.inr ⟨split,splitMember,?_,splitAbove,by omega,front,heavy⟩
    rw [tallyAt] at ok
    simp [splitPointAround,start,found,low,counted,ends,ok]

end BalancedMove.Store
