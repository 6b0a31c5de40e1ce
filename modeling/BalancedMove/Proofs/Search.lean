import BalancedMove.Search
import BalancedMove.Proofs.Arena.Fields

/-! What the searches find. A test that holds up to some place and fails from there on is described by
that place; both searches keep the place inside the range that they still look at. -/
namespace BalancedMove

section Partition

variable {holds : Nat → Bool} {size k : Nat}

theorem partitionBase_brackets (front : ∀ i < k, holds i = true)
    (rear : ∀ i, k ≤ i → i < size → holds i = false) {base width : Nat}
    (inside : base + width ≤ size) (nonempty : 0 < width) (low : base < k ∨ base = 0)
    (high : k ≤ base + width) :
    (partitionBase holds base width < k ∨ partitionBase holds base width = 0) ∧
      k ≤ partitionBase holds base width + 1 := by
  induction width using Nat.strongRecOn generalizing base with
  | ind width ih =>
    rw [partitionBase]
    split
    next wide =>
      apply ih (width - width / 2) (by omega)
      · split <;> omega
      · omega
      · split
        next passes =>
          by_contra beyond
          rw [rear _ (by omega) (by omega)] at passes
          cases passes
        next => exact low
      · split
        next => omega
        next fails =>
          by_contra below
          exact fails (front _ (by omega))
    next => exact ⟨low,by omega⟩

theorem partitionPoint_eq (inside : k ≤ size) (front : ∀ i < k, holds i = true)
    (rear : ∀ i, k ≤ i → i < size → holds i = false) : partitionPoint size holds = k := by
  unfold partitionPoint
  split
  next empty => omega
  next =>
    have brackets := @partitionBase_brackets _ size _ front rear 0 size (by omega) (by omega)
      (Or.inr rfl) (by omega)
    dsimp only
    split
    next passes =>
      by_contra differ
      rw [rear _ (by omega) (by omega)] at passes
      cases passes
    next fails =>
      by_contra differ
      exact fails (front _ (by omega))

/-- In a list along which a test never comes back, the elements that pass are the leading ones. -/
theorem passes_iff {keys : List Nat} {test : Nat → Bool}
    (falling : keys.Pairwise fun x y => test y = true → test x = true) {i : Nat}
    (inside : i < keys.length) : test (keys.getD i 0) = true ↔ i < keys.countP test := by
  induction keys generalizing i with
  | nil => exact absurd inside (Nat.not_lt_zero _)
  | cons x rest ih =>
    obtain ⟨head,tail⟩ := List.pairwise_cons.mp falling
    rw [List.countP_cons]
    by_cases first : test x = true
    · rw [if_pos first]
      cases i with
      | zero => simpa using first
      | succ i =>
        rw [List.getD_cons_succ,ih tail (by simpa using inside)]
        omega
    · have none : rest.countP test = 0 := by
        rw [List.countP_eq_zero]
        exact fun y member passes => first (head y member passes)
      rw [if_neg first,none]
      cases i with
      | zero => simpa using first
      | succ i =>
        rw [List.getD_cons_succ,ih tail (by simpa using inside),none]
        omega

theorem partitionPoint_countP {keys : List Nat} {test : Nat → Bool} {read : Nat → Nat}
    (falling : keys.Pairwise fun x y => test y = true → test x = true)
    (reads : ∀ i < keys.length, read i = keys.getD i 0) :
    partitionPoint keys.length (fun i => test (read i)) = keys.countP test := by
  have most := List.countP_le_length (p := test) (l := keys)
  refine partitionPoint_eq most ?_ ?_
  · intro i below
    rw [reads i (by omega)]
    exact (passes_iff falling (by omega)).mpr below
  · intro i beyond inside
    rw [reads i inside,Bool.eq_false_iff]
    exact fun passes => absurd ((passes_iff falling inside).mp passes) (by omega)

end Partition

section Greatest

variable {get : Nat → Checked Nat} {value : Nat → Nat} {length key : Nat}

structure Turns (value : Nat → Nat) (length key k : Nat) : Prop where
  inside : k ≤ length
  front : ∀ i < k, value i ≤ key
  rear : ∀ i, k ≤ i → i < length → key < value i

theorem turns_countP {keys : List Nat} (sorted : keys.Pairwise fun x y => x ≤ y) (key : Nat) :
    Turns (fun i => keys.getD i 0) keys.length key (keys.countP fun x => x ≤ key) := by
  have falling : keys.Pairwise fun x y => decide (y ≤ key) = true → decide (x ≤ key) = true :=
    sorted.imp fun {x y} le => by
      simp only [decide_eq_true_eq]
      omega
  refine ⟨List.countP_le_length,?_,?_⟩
  · intro i below
    have inside := Nat.lt_of_lt_of_le below List.countP_le_length
    exact of_decide_eq_true ((passes_iff falling inside).mpr below)
  · intro i beyond inside
    have fails := mt (passes_iff falling inside).mp (Nat.not_lt.mpr beyond)
    exact Nat.lt_of_not_le fun le => fails (decide_eq_true le)

theorem narrow_brackets (reads : ∀ i < length, get i = .ok (value i)) {k : Nat}
    (turns : Turns value length key k) {lo hi : Nat} (low : lo ≤ k) (high : k ≤ hi)
    (inside : hi ≤ length) :
    ∃ left right, narrow get key lo hi = .ok (left,right) ∧ left ≤ k ∧ k ≤ right ∧
      right ≤ length := by
  induction size : hi - lo using Nat.strongRecOn generalizing lo hi with
  | ind size ih =>
    rw [narrow]
    split
    next wide =>
      simp only [scanWidth] at wide
      have middle := reads (lo + (hi - lo) / 2) (by omega)
      simp only [middle,Checked.ok_bind]
      split
      next above =>
        have beyond : k ≤ lo + (hi - lo) / 2 := by
          by_contra below
          have := turns.front (lo + (hi - lo) / 2) (by omega)
          omega
        exact ih _ (by omega) low beyond (by omega) rfl
      next notAbove =>
        have below : lo + (hi - lo) / 2 + 1 ≤ k := by
          by_contra beyond
          have := turns.rear (lo + (hi - lo) / 2) (by omega) (by omega)
          omega
        exact ih _ (by omega) below high inside rfl
    next => exact ⟨lo,hi,rfl,low,high,inside⟩

theorem firstAbove_eq (reads : ∀ i < length, get i = .ok (value i)) {k : Nat}
    (turns : Turns value length key k) {lo hi : Nat} (low : lo ≤ k) (high : k ≤ hi)
    (inside : hi ≤ length) : firstAbove get key lo hi = .ok k := by
  induction size : hi - lo using Nat.strongRecOn generalizing lo with
  | ind size ih =>
    rw [firstAbove]
    split
    next more =>
      rw [reads lo (by omega),Checked.ok_bind]
      split
      next above =>
        have here : lo = k := by
          by_contra differ
          have := turns.front lo (by omega)
          omega
        exact congrArg Except.ok here
      next notAbove =>
        have next : lo + 1 ≤ k := by
          by_contra last
          have := turns.rear lo (by omega) (by omega)
          omega
        exact ih _ (by omega) next rfl
    next => exact congrArg Except.ok (by omega)

theorem greatestAtMost_eq (reads : ∀ i < length, get i = .ok (value i)) {k : Nat}
    (turns : Turns value length key k) :
    greatestAtMost length key get = .ok (if k = 0 then none else some (k - 1)) := by
  obtain ⟨left,right,narrowed,low,high,inside⟩ :=
    narrow_brackets reads turns (Nat.zero_le k) turns.inside (Nat.le_refl length)
  simp only [greatestAtMost,narrowed,Checked.ok_bind,firstAbove_eq reads turns low high inside]
  rfl

theorem Turns.partitionPoint {k : Nat} (turns : Turns value length key k) :
    partitionPoint length (fun i => value i ≤ key) = k :=
  partitionPoint_eq turns.inside (fun i below => decide_eq_true (turns.front i below))
    fun i beyond inside => decide_eq_false (Nat.not_le.mpr (turns.rear i beyond inside))

theorem exists_turns (rising : ∀ i j, i ≤ j → j < length → value i ≤ value j) (key : Nat) :
    ∃ k, Turns value length key k := by
  induction length with
  | zero => exact ⟨0,Nat.le_refl 0,fun _ below => by omega,fun _ _ inside => by omega⟩
  | succ length ih =>
    obtain ⟨k,turns⟩ := ih fun i j order inside => rising i j order (by omega)
    have inside := turns.inside
    by_cases within : k < length ∨ key < value length
    · refine ⟨k,by omega,turns.front,fun i beyond below => ?_⟩
      by_cases last : i = length
      · subst last
        rcases within with earlier | above
        · have turned := turns.rear k (Nat.le_refl k) earlier
          have grown := rising k i beyond below
          omega
        · exact above
      · exact turns.rear i beyond (by omega)
    · refine ⟨length + 1,Nat.le_refl _,fun i below => ?_,fun i beyond below => by omega⟩
      by_cases last : i = length
      · subst last
        omega
      · exact turns.front i (by omega)

/-- What a search for the largest index whose element is at most the key may answer. -/
def Finds (value : Nat → Nat) (length key : Nat) : Option Nat → Prop
  | some i => i < length ∧ value i ≤ key ∧ ∀ j < length, value j ≤ key → j ≤ i
  | none => ∀ i < length, key < value i

theorem Turns.finds {k : Nat} (turns : Turns value length key k) :
    Finds value length key (if k = 0 then none else some (k - 1)) := by
  have inside := turns.inside
  split
  next first => exact fun i below => turns.rear i (by omega) below
  next =>
    refine ⟨by omega,turns.front (k - 1) (by omega),fun j below atMost => ?_⟩
    by_contra beyond
    have above := turns.rear j (by omega) below
    omega

section Reading

variable {other : Nat → Checked Nat} {lo hi : Nat}

theorem narrow_within {left right : Nat} (ok : narrow get key lo hi = .ok (left,right)) :
    right ≤ hi := by
  induction size : hi - lo using Nat.strongRecOn generalizing lo hi with
  | ind size ih =>
    rw [narrow] at ok
    split at ok
    next wide =>
      simp only [scanWidth] at wide
      obtain ⟨middle,_,rest⟩ := Checked.bind_success ok
      split at rest
      · have front := ih _ (by omega) rest rfl
        omega
      · exact ih _ (by omega) rest rfl
    next =>
      cases ok
      exact Nat.le_refl _

theorem narrow_congr (same : ∀ i < hi, get i = other i) :
    narrow get key lo hi = narrow other key lo hi := by
  induction size : hi - lo using Nat.strongRecOn generalizing lo hi with
  | ind size ih =>
    rw [narrow.eq_def get key lo hi,narrow.eq_def other key lo hi]
    split
    next wide =>
      simp only [scanWidth] at wide
      have middle := same (lo + (hi - lo) / 2) (by omega)
      have front := ih _ (by omega) (fun i below => same i (by omega)) (Eq.refl (lo + (hi - lo) / 2 - lo))
      have rear := ih _ (by omega) same (Eq.refl (hi - (lo + (hi - lo) / 2 + 1)))
      simp only [middle,front,rear]
    next => rfl

theorem firstAbove_congr (same : ∀ i < hi, get i = other i) :
    firstAbove get key lo hi = firstAbove other key lo hi := by
  induction size : hi - lo using Nat.strongRecOn generalizing lo with
  | ind size ih =>
    rw [firstAbove.eq_def get key lo hi,firstAbove.eq_def other key lo hi]
    split
    next more => rw [same lo more,ih (hi - (lo + 1)) (by omega) rfl]
    next => rfl

/-- The search reads nothing outside the sequence. -/
theorem greatestAtMost_congr (same : ∀ i < length, get i = other i) :
    greatestAtMost length key get = greatestAtMost length key other := by
  unfold greatestAtMost
  rw [narrow_congr same]
  cases narrowed : narrow other key 0 length with
  | error fault => rfl
  | ok range =>
    have within := narrow_within narrowed
    simp only [Checked.ok_bind]
    rw [firstAbove_congr fun i below => same i (Nat.lt_of_lt_of_le below within)]

end Reading

section Arrays

variable {values : Array Nat}

theorem reads_array : ∀ i < values.size, Checked.found values[i]? = .ok (values.getD i 0) := by
  intro i inside
  rw [Array.getD_eq_getD_getElem?,Array.getElem?_eq_getElem inside]
  rfl

theorem rising_array (sorted : values.toList.Pairwise fun x y => x ≤ y) :
    ∀ i j, i ≤ j → j < values.size → values.getD i 0 ≤ values.getD j 0 := by
  intro i j order inside
  rcases Nat.lt_or_eq_of_le order with less | rfl
  · have below : i < values.size := Nat.lt_trans less inside
    have pair := List.pairwise_iff_getElem.mp sorted i j (by simpa using below) (by simpa using inside) less
    simpa [Array.getD,below,inside] using pair
  · exact Nat.le_refl _

end Arrays

/-- What the search answers for a sequence that never decreases. It asks for elements of the sequence
only, and in an array it agrees with the number of leading elements up to the key. -/
theorem greatestAtMost_contract (length key : Nat) :
    (∀ (get : Nat → Checked Nat) (value : Nat → Nat), (∀ i < length, get i = .ok (value i)) →
      (∀ i j, i ≤ j → j < length → value i ≤ value j) →
      ∃ found, greatestAtMost length key get = .ok found ∧ Finds value length key found) ∧
    (∀ get other : Nat → Checked Nat, (∀ i < length, get i = other i) →
      greatestAtMost length key get = greatestAtMost length key other) ∧
    ∀ values : Array Nat, values.size = length → (values.toList.Pairwise fun x y => x ≤ y) →
      let leading := partitionPoint length fun i => values.getD i 0 ≤ key
      greatestIn values key = .ok (if leading = 0 then none else some (leading - 1)) ∧
        Finds (fun i => values.getD i 0) length key (if leading = 0 then none else some (leading - 1)) := by
  refine ⟨fun get value reads rising => ?_,fun get other => greatestAtMost_congr,?_⟩
  · obtain ⟨k,turns⟩ := exists_turns rising key
    exact ⟨_,greatestAtMost_eq reads turns,turns.finds⟩
  · rintro values rfl sorted leading
    obtain ⟨k,turns⟩ := exists_turns (rising_array sorted) key
    obtain rfl : leading = k := turns.partitionPoint
    exact ⟨greatestAtMost_eq reads_array turns,turns.finds⟩

/-- Forty elements, each value three times: the range is halved twice before it is gone through. -/
theorem thirds_contract :
    let thirds : Array Nat := ((List.range 40).map fun i => i / 3).toArray
    let leading := partitionPoint 40 fun i => thirds.getD i 0 ≤ 7
    thirds.size = 40 ∧ (thirds.toList.Pairwise fun x y => x ≤ y) ∧
      greatestIn thirds 7 = .ok (if leading = 0 then none else some (leading - 1)) ∧
      Finds (fun i => thirds.getD i 0) 40 7 (if leading = 0 then none else some (leading - 1)) := by
  intro thirds leading
  have size : thirds.size = 40 := by decide
  have sorted : thirds.toList.Pairwise fun x y => x ≤ y := by decide
  exact ⟨size,sorted,(greatestAtMost_contract 40 7).2.2 thirds size sorted⟩

end Greatest

end BalancedMove
