import Mathlib.Algebra.Order.Field.Rat
import Mathlib.Algebra.Order.Ring.Int
import Mathlib.Order.Monotone.Basic
import Mathlib.Tactic.Linarith
import Mathlib.Tactic.Ring

/-!
# Integer division rounded down and rounded up

Fixed-point code multiplies and then divides, rounding either way. Both
roundings are adjoints of multiplication by a positive divisor, and every
bound used later is a consequence of the two adjunctions: the floor is the
greatest quotient that costs at most the dividend, the ceiling the least one
that covers it. The last section composes the two roundings.
-/
namespace NekoStrategies.RoundedDivision

/-- The quotient rounded towards minus infinity. -/
def floorDiv (a b : ℤ) : ℤ := a.fdiv b

/-- The quotient rounded towards plus infinity. -/
def ceilDiv (a b : ℤ) : ℤ := -((-a).fdiv b)

section Adjunctions
variable {a b q : ℤ}

theorem floorDiv_eq_ediv (hb : 0 < b) : floorDiv a b = a / b :=
  Int.fdiv_eq_ediv_of_nonneg a hb.le

theorem ceilDiv_eq_neg_ediv (hb : 0 < b) : ceilDiv a b = -(-a / b) := by
  rw [ceilDiv, Int.fdiv_eq_ediv_of_nonneg _ hb.le]

theorem le_floorDiv_iff (hb : 0 < b) : q ≤ floorDiv a b ↔ q * b ≤ a := by
  rw [floorDiv_eq_ediv hb, Int.le_ediv_iff_mul_le hb]

theorem ceilDiv_le_iff (hb : 0 < b) : ceilDiv a b ≤ q ↔ a ≤ q * b := by
  rw [ceilDiv_eq_neg_ediv hb, neg_le, Int.le_ediv_iff_mul_le hb, neg_mul, neg_le_neg_iff]

theorem floorDiv_lt_iff (hb : 0 < b) : floorDiv a b < q ↔ a < q * b := by
  rw [← not_le, le_floorDiv_iff hb, not_le]

theorem lt_ceilDiv_iff (hb : 0 < b) : q < ceilDiv a b ↔ q * b < a := by
  rw [← not_le, ceilDiv_le_iff hb, not_le]

theorem floorDiv_mul_le (a : ℤ) (hb : 0 < b) : floorDiv a b * b ≤ a :=
  (le_floorDiv_iff hb).mp le_rfl

theorem lt_floorDiv_add_one_mul (a : ℤ) (hb : 0 < b) : a < (floorDiv a b + 1) * b :=
  (floorDiv_lt_iff hb).mp (Int.lt_succ _)

theorem le_ceilDiv_mul (a : ℤ) (hb : 0 < b) : a ≤ ceilDiv a b * b :=
  (ceilDiv_le_iff hb).mp le_rfl

theorem ceilDiv_sub_one_mul_lt (a : ℤ) (hb : 0 < b) : (ceilDiv a b - 1) * b < a :=
  (lt_ceilDiv_iff hb).mp (Int.sub_one_lt_of_le le_rfl)

theorem floorDiv_nonneg (ha : 0 ≤ a) (hb : 0 < b) : 0 ≤ floorDiv a b :=
  (le_floorDiv_iff hb).mpr (by simpa using ha)

theorem ceilDiv_nonneg (ha : 0 ≤ a) (hb : 0 < b) : 0 ≤ ceilDiv a b := by
  have h := le_ceilDiv_mul a hb
  exact nonneg_of_mul_nonneg_left (ha.trans h) hb

theorem ceilDiv_pos (ha : 0 < a) (hb : 0 < b) : 0 < ceilDiv a b :=
  (lt_ceilDiv_iff hb).mpr (by simpa using ha)

theorem floorDiv_mono {a' : ℤ} (hb : 0 < b) (h : a ≤ a') : floorDiv a b ≤ floorDiv a' b :=
  (le_floorDiv_iff hb).mpr ((floorDiv_mul_le a hb).trans h)

theorem ceilDiv_mono {a' : ℤ} (hb : 0 < b) (h : a ≤ a') : ceilDiv a b ≤ ceilDiv a' b :=
  (ceilDiv_le_iff hb).mpr (h.trans (le_ceilDiv_mul a' hb))

/-- A floor quotient grows with the exact quotient. -/
theorem floorDiv_le_floorDiv {c d : ℤ} (hb : 0 < b) (hd : 0 < d) (h : a * d ≤ c * b) :
    floorDiv a b ≤ floorDiv c d := by
  refine (le_floorDiv_iff hd).mpr (le_of_mul_le_mul_right ?_ hb)
  have hq := mul_le_mul_of_nonneg_right (floorDiv_mul_le a hb) hd.le
  linarith

/-- Whole units below the floor are whole units below the exact quotient. -/
theorem le_floorDiv_iff_le_div (hb : 0 < b) : q ≤ floorDiv a b ↔ (q : ℚ) ≤ a / b := by
  have hbq : (0 : ℚ) < b := by exact_mod_cast hb
  rw [le_floorDiv_iff hb, le_div_iff₀ hbq]
  exact_mod_cast Iff.rfl

theorem floorDiv_le_div (a : ℤ) (hb : 0 < b) : (floorDiv a b : ℚ) ≤ a / b :=
  (le_floorDiv_iff_le_div hb).mp le_rfl

theorem div_lt_floorDiv_add_one (a : ℤ) (hb : 0 < b) : (a / b : ℚ) < floorDiv a b + 1 := by
  by_contra h
  have hle := (le_floorDiv_iff_le_div (q := floorDiv a b + 1) hb).mpr
    (by push_cast; exact not_lt.mp h)
  omega

@[simp] theorem floorDiv_zero (b : ℤ) : floorDiv 0 b = 0 := Int.zero_fdiv b

@[simp] theorem floorDiv_self (hb : 0 < b) : floorDiv (q * b) b = q := by
  rw [floorDiv_eq_ediv hb, Int.mul_ediv_cancel _ hb.ne']

end Adjunctions

section Sums
variable {a b c : ℤ}

theorem floorDiv_add_le (hb : 0 < b) : floorDiv a b + floorDiv c b ≤ floorDiv (a + c) b := by
  have ha := floorDiv_mul_le a hb
  have hc := floorDiv_mul_le c hb
  exact (le_floorDiv_iff hb).mpr (by linarith)

theorem floorDiv_add_le_ceilDiv (hb : 0 < b) :
    floorDiv (a + c) b ≤ floorDiv a b + ceilDiv c b := by
  have ha := lt_floorDiv_add_one_mul a hb
  have hc := le_ceilDiv_mul c hb
  exact Int.lt_add_one_iff.mp ((floorDiv_lt_iff hb).mpr (by linarith))

theorem floorDiv_sub_le (hb : 0 < b) : floorDiv (a - c) b ≤ floorDiv a b - floorDiv c b := by
  have h := floorDiv_add_le (a := a - c) (c := c) hb
  rw [sub_add_cancel] at h
  linarith

theorem le_floorDiv_sub (hb : 0 < b) : floorDiv a b - ceilDiv c b ≤ floorDiv (a - c) b := by
  have h := floorDiv_add_le_ceilDiv (a := a - c) (c := c) hb
  rw [sub_add_cancel] at h
  linarith

/-- The two roundings differ by at most one. -/
theorem ceilDiv_le_floorDiv_add_one (hb : 0 < b) : ceilDiv a b ≤ floorDiv a b + 1 :=
  (ceilDiv_le_iff hb).mpr (lt_floorDiv_add_one_mul a hb).le

end Sums

section RoundTrips
variable {x y n : ℤ}

/-- Converting up by `x / y` and down again by `y / x` loses nothing. -/
theorem le_floorDiv_ceilDiv (hx : 0 < x) (hy : 0 < y) :
    n ≤ floorDiv (ceilDiv (n * x) y * y) x :=
  (le_floorDiv_iff hx).mpr (le_ceilDiv_mul _ hy)

/-- Converting down by `x / y` and up again by `y / x` gains nothing. -/
theorem ceilDiv_floorDiv_le (hx : 0 < x) (hy : 0 < y) :
    ceilDiv (floorDiv (n * x) y * y) x ≤ n :=
  (ceilDiv_le_iff hx).mpr (floorDiv_mul_le _ hy)

/-- Above parity the detour through the coarser unit is exact. -/
theorem floorDiv_ceilDiv_eq (hy : 0 < y) (hxy : y ≤ x) :
    floorDiv (ceilDiv (n * x) y * y) x = n := by
  have hx := hy.trans_le hxy
  refine le_antisymm (Int.lt_add_one_iff.mp ?_) (le_floorDiv_ceilDiv hx hy)
  have h := ceilDiv_sub_one_mul_lt (n * x) hy
  exact (floorDiv_lt_iff hx).mpr (by linarith)

theorem ceilDiv_floorDiv_eq (hy : 0 < y) (hxy : y ≤ x) :
    ceilDiv (floorDiv (n * x) y * y) x = n := by
  have hx := hy.trans_le hxy
  refine le_antisymm (ceilDiv_floorDiv_le hx hy) (Int.le_of_sub_one_lt ?_)
  have h := lt_floorDiv_add_one_mul (n * x) hy
  exact (lt_ceilDiv_iff hx).mpr (by linarith)

/-- Down, up, down is down: the plan and its recomputation agree. -/
theorem floorDiv_ceilDiv_floorDiv (hx : 0 < x) (hy : 0 < y) :
    floorDiv (ceilDiv (floorDiv (n * x) y * y) x * x) y = floorDiv (n * x) y := by
  refine le_antisymm (floorDiv_mono hy ?_) ((le_floorDiv_iff hy).mpr (le_ceilDiv_mul _ hx))
  exact mul_le_mul_of_nonneg_right (ceilDiv_floorDiv_le hx hy) hx.le

/-- Up, down, up is up. -/
theorem ceilDiv_floorDiv_ceilDiv (hx : 0 < x) (hy : 0 < y) :
    ceilDiv (floorDiv (ceilDiv (n * x) y * y) x * x) y = ceilDiv (n * x) y := by
  refine le_antisymm ((ceilDiv_le_iff hy).mpr (floorDiv_mul_le _ hx)) (ceilDiv_mono hy ?_)
  exact mul_le_mul_of_nonneg_right (le_floorDiv_ceilDiv hx hy) hx.le

end RoundTrips

end NekoStrategies.RoundedDivision
