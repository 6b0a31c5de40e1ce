import BalancedMove.Fault

/-! Widths of the unsigned numbers that hold positions. A position is a natural number below the
limit of its width; addition reports a sum that does not fit instead of reducing it. -/
namespace BalancedMove

inductive Width where
  | w8
  | w16
  | w32
  | w64
  | w128
deriving DecidableEq, Repr

namespace Width

def bits : Width → Nat
  | w8 => 8
  | w16 => 16
  | w32 => 32
  | w64 => 64
  | w128 => 128

def limit (width : Width) : Nat := 1 <<< width.bits

def fit (width : Width) (x : Nat) : Checked Nat :=
  if x < width.limit then .ok x else .error .overflow

def add (width : Width) (x y : Nat) : Checked Nat := width.fit (x + y)

def mul (width : Width) (x y : Nat) : Checked Nat := width.fit (x * y)

def saturate (width : Width) (x : Nat) : Nat := min x (width.limit - 1)

theorem limit_le (width : Width) : width.limit ≤ w128.limit := by
  cases width <;> decide

theorem fit_success {width : Width} {x y : Nat} (ok : width.fit x = .ok y) :
    y = x ∧ x < width.limit := by
  unfold fit at ok
  split at ok
  · exact ⟨(Except.ok.inj ok).symm,by assumption⟩
  · cases ok

theorem fit_of_lt {width : Width} {x : Nat} (inside : x < width.limit) : width.fit x = .ok x :=
  if_pos inside

theorem add_of_lt {width : Width} {x y : Nat} (inside : x + y < width.limit) :
    width.add x y = .ok (x + y) := fit_of_lt inside

theorem add_success {width : Width} {x y sum : Nat} (ok : width.add x y = .ok sum) :
    sum = x + y ∧ x + y < width.limit := fit_success ok

theorem product_of_words {x y : Nat} (left : x < w64.limit) (right : y < w64.limit) :
    x * y < w128.limit := by
  have square : w64.limit * w64.limit = w128.limit := by decide
  rw [← square]
  exact Nat.mul_lt_mul'' left right

end Width

end BalancedMove
