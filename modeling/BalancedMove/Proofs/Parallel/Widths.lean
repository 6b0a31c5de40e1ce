import BalancedMove.Proofs.Balance.Total
import BalancedMove.Proofs.Parallel.Total

/-! How wide a domain several workers can share. The boundaries of the ranges are quotients of products
that are formed in 128 bits, whatever the width of the positions. In narrower widths no domain is too
long for two workers; among the widest positions the longer half of the domains is, although one worker,
which needs no boundaries, balances them all. -/
namespace BalancedMove

variable {width : Width} {n a workers : Nat} {pairs : List Pair}

section Dividing

theorem boundary_decided (positive : 0 < workers) (t : Nat) :
    boundary n workers t = .error .overflow ∨
      n * t < Width.w128.limit ∧ ∃ start, boundary n workers t = .ok start := by
  unfold boundary Width.mul Width.fit
  split
  next inside => exact Or.inr ⟨inside,n * t / workers,by simp [Nat.ne_of_gt positive]⟩
  next => exact Or.inl rfl

theorem rangeBoundsFrom_overflows (positive : 0 < workers) {more t : Nat}
    (large : Width.w128.limit ≤ n * (t + more)) :
    rangeBoundsFrom n workers (more + 1) t = .error .overflow := by
  induction more generalizing t with
  | zero =>
    rcases boundary_decided positive t with refused | ⟨inside,_⟩
    · rw [rangeBoundsFrom,refused]
      rfl
    · exact absurd inside (Nat.not_lt.mpr large)
  | succ more ih =>
    rcases boundary_decided positive t with refused | ⟨_,start,formed⟩
    · rw [rangeBoundsFrom,refused]
      rfl
    · have rest := @ih (t + 1) (by rwa [Nat.add_right_comm,← Nat.add_assoc] at *)
      rw [rangeBoundsFrom,formed,Checked.ok_bind,rest]
      rfl

theorem rangeBounds_overflows (positive : 0 < workers) (large : Width.w128.limit ≤ n * workers) :
    rangeBounds n workers = .error .overflow :=
  rangeBoundsFrom_overflows positive (by rwa [Nat.zero_add])

end Dividing

section Sharing

theorem balance_overflows (enough : 2 ≤ a) (positive : 0 < workers)
    (most : workers ≤ Width.w64.saturate n) (accepted : validate width n pairs = .ok ())
    (large : Width.w128.limit ≤ n * workers) :
    Parallel.balance width n pairs { a, workers } = .error (.fault .overflow) := by
  have inRange : ¬ (workers = 0 ∨ Width.w64.saturate n < workers) := by omega
  have capable : ¬ a < 2 := Nat.not_lt.mpr enough
  rw [Parallel.balance,accepted,Checked.ok_bind,Parallel.balanceAccepted]
  simp only [inRange,capable,if_false,rangeBounds_overflows positive large]
  rfl

theorem balance_shares (small : n < width.limit) (enough : 2 ≤ a) (positive : 0 < workers)
    (most : workers ≤ Width.w64.saturate n) (few : Storable pairs.length)
    (accepted : validate width n pairs = .ok ()) :
    (∃ result, Parallel.balance width n pairs { a, workers } = .ok result) ↔
      n * workers < Width.w128.limit := by
  constructor
  · rintro ⟨result,shared⟩
    by_contra large
    rw [balance_overflows enough positive most accepted (Nat.le_of_not_lt large)] at shared
    cases shared
  · intro fits
    have inside : workers ≤ n := Nat.le_trans most (Nat.min_le_left _ _)
    obtain ⟨together⟩ := exists_together small enough positive inside fits few accepted
    exact ⟨_,together.balanced⟩

theorem Width.twice_lt (narrow : width ≠ .w128) (small : n < width.limit) :
    n * 2 < Width.w128.limit := by
  have room : 2 * width.limit ≤ Width.w128.limit := by
    cases width with
    | w128 => exact absurd rfl narrow
    | w8 | w16 | w32 | w64 => decide
  omega

theorem buildCounted_answers {cores : Nat} (machine : 0 < cores) (small : n < width.limit)
    (enough : 2 ≤ a) (few : Storable pairs.length) (accepted : validate width n pairs = .ok ()) :
    ∃ result, ({ width, n, pairs, parameters := { a, workers := 1 } } :
      Construction).buildCounted cores = .ok result := by
  let construction : Construction := { width, n, pairs, parameters := { a, workers := 1 } }
  obtain ⟨_,_,_,_,_,_,_,built,_⟩ := @Construction.completes construction cores small few.addressable rfl
    accepted (parameters_alone enough machine small accepted)
  exact ⟨_,built⟩

/-- Two workers share every domain of narrower positions, and of the widest ones those below half of
their range; from there on they fail before they begin. One worker balances every domain. -/
theorem two_workers_share {cores : Nat} (machine : 0 < cores) (small : n < width.limit)
    (several : 2 ≤ n) (enough : 2 ≤ a) (few : Storable pairs.length)
    (accepted : validate width n pairs = .ok ()) :
    (width ≠ .w128 → ∃ result,
      Parallel.balance width n pairs { a, workers := 2 } = .ok result) ∧
    ((∃ result, Parallel.balance width n pairs { a, workers := 2 } = .ok result) ↔
      n * 2 < Width.w128.limit) ∧
    (Width.w128.limit ≤ n * 2 →
      Parallel.balance width n pairs { a, workers := 2 } = .error (.fault .overflow)) ∧
    ∃ result, ({ width, n, pairs, parameters := { a, workers := 1 } } :
      Construction).buildCounted cores = .ok result := by
  have most : 2 ≤ Width.w64.saturate n := Nat.le_min.mpr ⟨several,by decide⟩
  have shares := balance_shares small enough (Nat.zero_lt_two) most few accepted
  refine ⟨fun narrow => shares.mpr (Width.twice_lt narrow small),shares,?_,
    buildCounted_answers machine small enough few accepted⟩
  exact balance_overflows enough Nat.zero_lt_two most accepted

/-- The first domain that two workers cannot share. -/
def halfRange : Nat := 170141183460469231731687303715884105728

theorem halfRange_accepted : validate .w128 halfRange [⟨0,0⟩] = .ok () :=
  (validate_iff (by decide)).mpr (by decide)

/-- The domain in front of it is shared. -/
theorem below_halfRange_shared : halfRange - 1 < Width.w128.limit ∧
    validate .w128 (halfRange - 1) [⟨0,0⟩] = .ok () ∧
    ∃ result, Parallel.balance .w128 (halfRange - 1) [⟨0,0⟩] { a := 2, workers := 2 } = .ok result := by
  have accepted : validate .w128 (halfRange - 1) [⟨0,0⟩] = .ok () :=
    (validate_iff (by decide)).mpr (by decide)
  exact ⟨by decide,accepted,(two_workers_share Nat.one_pos (by decide) (by decide) (by decide)
    (by decide) accepted).2.1.mpr (by decide)⟩

theorem halfRange_overflows : halfRange < Width.w128.limit ∧ 2 ≤ halfRange ∧
    validate .w128 halfRange [⟨0,0⟩] = .ok () ∧
    Parallel.balance .w128 halfRange [⟨0,0⟩] { a := 2, workers := 2 } = .error (.fault .overflow) ∧
    ∃ result,
      ({ width := .w128, n := halfRange, pairs := [⟨0,0⟩], parameters := { a := 2, workers := 1 } } :
        Construction).buildCounted 1 = .ok result :=
  ⟨by decide,by decide,halfRange_accepted,
    balance_overflows (by decide) (by decide) (by decide) halfRange_accepted (by decide),
    buildCounted_answers Nat.one_pos (by decide) (by decide) (by decide) halfRange_accepted⟩

end Sharing

end BalancedMove
