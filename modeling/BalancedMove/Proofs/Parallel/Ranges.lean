import BalancedMove.Parallel.Ranges
import BalancedMove.Proofs.Balance.Split
import BalancedMove.Proofs.Search
import Mathlib.Data.Nat.ModEq

/-! The ranges of a domain. They follow one another without gaps, none of them is empty, and so each
position has exactly one owner, which the search among the boundaries finds. Division makes ranges whose
lengths differ by one at most. -/
namespace BalancedMove

/-- A domain `[0, n)` shared by workers, with the permutation that its pairs describe. -/
structure Layout where
  width : Width
  n : Nat
  a : Nat
  workers : Nat
  /-- start of each range, closed by the end of the last one -/
  bound : Nat → Nat
  image : Nat → Nat
  small : n < width.limit
  enough : 2 ≤ a
  first : bound 0 = 0
  last : bound workers = n
  increasing : ∀ t < workers, bound t < bound (t + 1)

namespace Layout

variable (layout : Layout) {s t x : Nat}

def bounds : Array Nat := ((List.range (layout.workers + 1)).map layout.bound).toArray

def Owns (t x : Nat) : Prop := layout.bound t ≤ x ∧ x < layout.bound (t + 1)

instance (t x : Nat) : Decidable (layout.Owns t x) :=
  inferInstanceAs (Decidable (layout.bound t ≤ x ∧ x < layout.bound (t + 1)))

variable {layout}

theorem bound_mono (order : s ≤ t) (inside : t ≤ layout.workers) :
    layout.bound s ≤ layout.bound t := by
  induction t, order using Nat.le_induction with
  | base => exact Nat.le_refl _
  | succ t order ih =>
    have step := layout.increasing t (by omega)
    have before := ih (by omega)
    omega

theorem bound_le (inside : t ≤ layout.workers) : layout.bound t ≤ layout.n := by
  rw [← layout.last]
  exact bound_mono inside (Nat.le_refl _)

theorem owns_unique (first : s < layout.workers) (second : t < layout.workers)
    (left : layout.Owns s x) (right : layout.Owns t x) : s = t := by
  unfold Owns at left right
  rcases Nat.lt_trichotomy s t with less | same | more
  · have order := @bound_mono layout (s + 1) t (by omega) (by omega)
    omega
  · exact same
  · have order := @bound_mono layout (t + 1) s (by omega) (by omega)
    omega

theorem owns_exists (inside : x < layout.n) : ∃ t < layout.workers, layout.Owns t x := by
  have search : ∀ t ≤ layout.workers, x < layout.bound t → ∃ s < t, layout.Owns s x := by
    intro t
    induction t with
    | zero =>
      intro _ below
      rw [layout.first] at below
      omega
    | succ t ih =>
      intro bounded below
      by_cases inFront : x < layout.bound t
      · obtain ⟨s,less,owns⟩ := ih (by omega) inFront
        exact ⟨s,by omega,owns⟩
      · exact ⟨t,Nat.lt_succ_self t,Nat.le_of_not_lt inFront,below⟩
  exact search layout.workers (Nat.le_refl _) (by rw [layout.last]; exact inside)

theorem owns_lt (inside : t < layout.workers) (owns : layout.Owns t x) : x < layout.n :=
  Nat.lt_of_lt_of_le owns.2 (bound_le inside)

theorem bounds_get (inside : t ≤ layout.workers) : layout.bounds[t]? = some (layout.bound t) := by
  have range : (List.range (layout.workers + 1))[t]? = some t :=
    List.getElem?_range (Nat.lt_succ_of_le inside)
  simp [bounds,range]

theorem bounds_size : layout.bounds.size = layout.workers + 1 := by simp [bounds]

theorem ranges_eq : Checked.sub layout.bounds.size 1 = .ok layout.workers := by
  rw [bounds_size]
  exact Checked.sub_of_le (Nat.le_add_left 1 _)

theorem rangeOf_eq (inside : t < layout.workers) (owns : layout.Owns t x) :
    rangeOf layout.bounds x = .ok t := by
  have turns : Turns layout.bound layout.workers x (t + 1) := by
    refine ⟨inside,?_,?_⟩
    · intro i below
      exact Nat.le_trans (bound_mono (Nat.le_of_lt_succ below) (Nat.le_of_lt inside)) owns.1
    · intro i beyond below
      exact Nat.lt_of_lt_of_le owns.2 (bound_mono beyond (Nat.le_of_lt below))
  have found := @greatestAtMost_eq (fun i => Checked.found layout.bounds[i]?) layout.bound
    layout.workers x (fun i below => by rw [bounds_get (Nat.le_of_lt below)]; rfl) _ turns
  simp [rangeOf,ranges_eq,found]

def setting (layout : Layout) (t : Nat) (inside : t < layout.workers) : Setting where
  width := layout.width
  n := layout.n
  start := layout.bound t
  stop := layout.bound (t + 1)
  a := layout.a
  small := layout.small
  inside := bound_le inside
  enough := layout.enough

end Layout

section Dividing

variable {n workers : Nat}

theorem rangeBoundsFrom_eq (positive : 0 < workers) {more t : Nat}
    (fits : n * (t + more) < Width.w128.limit + n) :
    rangeBoundsFrom n workers more t =
      .ok ((List.range' t more).map fun s => n * s / workers) := by
  induction more generalizing t with
  | zero => rfl
  | succ more ih =>
    have product : n * t < Width.w128.limit := by
      have grow : n * t + n ≤ n * (t + (more + 1)) := by
        rw [← Nat.mul_succ]
        exact Nat.mul_le_mul_left n (by omega)
      omega
    have first : boundary n workers t = .ok (n * t / workers) := by
      have multiplied : Width.w128.mul n t = .ok (n * t) := Width.fit_of_lt product
      simp [boundary,multiplied,Nat.ne_of_gt positive]
    have rest := ih (t := t + 1) (by rwa [Nat.add_right_comm,← Nat.add_assoc] at *)
    simp [rangeBoundsFrom,first,rest,List.range'_succ]

theorem rangeBounds_eq (positive : 0 < workers) (fits : n * workers < Width.w128.limit) :
    rangeBounds n workers = .ok ((List.range (workers + 1)).map fun t => n * t / workers) := by
  rw [rangeBounds,rangeBoundsFrom_eq positive,List.range_eq_range']
  rw [Nat.zero_add,Nat.mul_succ]
  omega

def Layout.divide (width : Width) (n a workers : Nat) (image : Nat → Nat) (small : n < width.limit)
    (enough : 2 ≤ a) (positive : 0 < workers) (most : workers ≤ n) : Layout where
  width := width
  n := n
  a := a
  workers := workers
  bound t := n * t / workers
  image := image
  small := small
  enough := enough
  first := by rw [Nat.mul_zero,Nat.zero_div]
  last := Nat.mul_div_cancel n positive
  increasing t _ := by
    have step : n * t / workers + 1 = (n * t + workers) / workers :=
      (Nat.add_div_right (n * t) positive).symm
    have grow : (n * t + workers) / workers ≤ n * (t + 1) / workers := by
      apply Nat.div_le_div_right
      rw [Nat.mul_succ]
      omega
    omega

/-- A range is as long as the mean, rounded in one direction or the other. -/
theorem range_length (n workers t : Nat) : n * t / workers + n / workers ≤ n * (t + 1) / workers ∧
    n * (t + 1) / workers ≤ n * t / workers + n / workers + 1 := by
  rw [Nat.mul_succ]
  exact ⟨Nat.div_add_div_le_add_div,Nat.add_div_le_div_add_div_add_one _ _ _⟩

theorem Width.product_lt {width : Width} (narrow : width.bits ≤ 64) (small : n < width.limit)
    (most : workers ≤ n) : n * workers < Width.w128.limit := by
  have limit : width.limit ≤ Width.w64.limit := by
    cases width with
    | w128 => exact absurd narrow (by decide)
    | w8 | w16 | w32 | w64 => decide
  exact Width.product_of_words (by omega) (by omega)

/-- Dividing a domain: its ranges begin at 0, end at `n`, are nowhere empty and nearly of one length, and
the search names the one range in which a position lies. -/
theorem rangeBounds_partition {width : Width} (narrow : width.bits ≤ 64) (small : n < width.limit)
    (positive : 0 < workers) (most : workers ≤ n) :
    ∃ bounds, rangeBounds n workers = .ok bounds ∧ bounds.length = workers + 1 ∧
      bounds[0]? = some 0 ∧ bounds[workers]? = some n ∧ (bounds.Pairwise fun x y => x < y) ∧
      (∀ b ∈ bounds, b < width.limit) ∧
      (∀ s < workers, ∀ t < workers, bounds.getD (s + 1) 0 - bounds.getD s 0 ≤
        bounds.getD (t + 1) 0 - bounds.getD t 0 + 1) ∧
      ∀ x < n, ∃ t < workers, rangeOf bounds.toArray x = .ok t ∧ ∀ u < workers,
        (bounds.getD u 0 ≤ x ∧ x < bounds.getD (u + 1) 0 ↔ u = t) := by
  let layout := Layout.divide width n 2 workers id small (Nat.le_refl 2) positive most
  have place : ∀ t ≤ workers, layout.bounds.toList[t]? = some (layout.bound t) := fun t inside => by
    rw [Array.getElem?_toList]
    exact Layout.bounds_get inside
  have start : ∀ t ≤ workers, layout.bounds.toList.getD t 0 = layout.bound t := fun t inside => by
    rw [List.getD_eq_getElem?_getD,place t inside]
    rfl
  have length : layout.bounds.toList.length = workers + 1 := Layout.bounds_size
  refine ⟨layout.bounds.toList,rangeBounds_eq positive (Width.product_lt narrow small most),length,
    ?_,?_,?_,?_,?_,?_⟩
  · rw [place 0 (Nat.zero_le _),layout.first]
  · rw [place workers (Nat.le_refl _)]
    exact congrArg some layout.last
  · refine List.pairwise_map.mpr (List.pairwise_lt_range.imp_of_mem ?_)
    intro s t _ known less
    have inside : t ≤ layout.workers := Nat.le_of_lt_succ (List.mem_range.mp known)
    exact Nat.lt_of_lt_of_le (layout.increasing s (by omega)) (Layout.bound_mono less inside)
  · intro b member
    obtain ⟨t,known,rfl⟩ := List.mem_map.mp member
    exact Nat.lt_of_le_of_lt (Layout.bound_le (Nat.le_of_lt_succ (List.mem_range.mp known))) small
  · intro s first t second
    rw [start s (by omega),start (s + 1) first,start t (by omega),start (t + 1) second]
    have one := range_length n workers s
    have other := range_length n workers t
    change n * (s + 1) / workers - n * s / workers ≤ n * (t + 1) / workers - n * t / workers + 1
    omega
  · intro x inside
    obtain ⟨t,within,owns⟩ := @Layout.owns_exists layout x inside
    refine ⟨t,within,Layout.rangeOf_eq within owns,fun u known => ?_⟩
    rw [start u (by omega),start (u + 1) known]
    constructor
    · exact fun other => Layout.owns_unique known within other owns
    · rintro rfl
      exact owns

/-- The widest domain of one byte in a hundred ranges, which are of two or of three positions. -/
theorem uneven_partition : (Width.w8.bits ≤ 64 ∧ 255 < Width.w8.limit ∧ 100 ≤ 255) ∧
    ∃ bounds, rangeBounds 255 100 = .ok bounds ∧ bounds.length = 101 ∧
      bounds[0]? = some 0 ∧ bounds[100]? = some 255 ∧ (bounds.Pairwise fun x y => x < y) ∧
      (∀ b ∈ bounds, b < Width.w8.limit) ∧
      (∀ s < 100, ∀ t < 100, bounds.getD (s + 1) 0 - bounds.getD s 0 ≤
        bounds.getD (t + 1) 0 - bounds.getD t 0 + 1) ∧
      ∀ x < 255, ∃ t < 100, rangeOf bounds.toArray x = .ok t ∧ ∀ u < 100,
        (bounds.getD u 0 ≤ x ∧ x < bounds.getD (u + 1) 0 ↔ u = t) :=
  ⟨by decide,@rangeBounds_partition 255 100 .w8 (by decide) (by decide) (by decide) (by decide)⟩

end Dividing

end BalancedMove
