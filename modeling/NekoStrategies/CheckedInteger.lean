import NekoStrategies.RoundedDivision
import Mathlib.Data.Option.Basic

/-!
# Fixed-width machine integers over unbounded ones

A machine integer is an integer together with the range its type can hold.
Checked operations return `none` exactly when the true result leaves the range
or a divisor is zero; casts wrap. Values are kept as plain integers, so all
arithmetic facts are facts about `ℤ`.
-/
namespace NekoStrategies.CheckedInteger
open RoundedDivision

/-- The least and the greatest value of a machine type. -/
structure Width where
  lo : ℤ
  hi : ℤ
deriving Repr, DecidableEq

def i128 : Width := ⟨-2 ^ 127, 2 ^ 127 - 1⟩
def u128 : Width := ⟨0, 2 ^ 128 - 1⟩
def u64 : Width := ⟨0, 2 ^ 64 - 1⟩
def u32 : Width := ⟨0, 2 ^ 32 - 1⟩

/-- The value lies in the range of the type. -/
def Width.Holds (w : Width) (x : ℤ) : Prop := w.lo ≤ x ∧ x ≤ w.hi

instance (w : Width) (x : ℤ) : Decidable (w.Holds x) :=
  inferInstanceAs (Decidable (w.lo ≤ x ∧ x ≤ w.hi))

/-- Keep a result that fits, report one that does not. -/
def Width.checked (w : Width) (x : ℤ) : Option ℤ := if w.Holds x then some x else none

def Width.checkedAdd (w : Width) (x y : ℤ) : Option ℤ := w.checked (x + y)

def Width.checkedSub (w : Width) (x y : ℤ) : Option ℤ := w.checked (x - y)

def Width.checkedMul (w : Width) (x y : ℤ) : Option ℤ := w.checked (x * y)

/-- Machine division truncates towards zero. -/
def Width.checkedDiv (w : Width) (x y : ℤ) : Option ℤ :=
  if y = 0 then none else w.checked (x.tdiv y)

/-- `x as i128`: two's complement wrap-around. -/
def asI128 (x : ℤ) : ℤ := x.bmod (2 ^ 128)

/-- `x as u128`. -/
def asU128 (x : ℤ) : ℤ := x % 2 ^ 128

/-- `x.checked_mul(y).unwrap_or(0).checked_div(z).unwrap_or(0)`. -/
def Width.mulDivOrZero (w : Width) (x y z : ℤ) : ℤ :=
  (w.checkedDiv ((w.checkedMul x y).getD 0) z).getD 0

section Lemmas
variable {w : Width} {x y z : ℤ}

theorem Width.Holds.of_le {a b : ℤ} (ha : w.Holds a) (hb : w.Holds b) (hax : a ≤ x)
    (hxb : x ≤ b) : w.Holds x :=
  ⟨ha.1.trans hax, hxb.trans hb.2⟩

@[simp] theorem Width.checked_eq_some : w.checked x = some y ↔ w.Holds x ∧ x = y := by
  unfold Width.checked
  split_ifs with h <;> simp [h]

theorem Width.checked_of_holds (h : w.Holds x) : w.checked x = some x := if_pos h

@[simp] theorem Width.checkedAdd_eq_some :
    w.checkedAdd x y = some z ↔ w.Holds (x + y) ∧ x + y = z := Width.checked_eq_some

@[simp] theorem Width.checkedSub_eq_some :
    w.checkedSub x y = some z ↔ w.Holds (x - y) ∧ x - y = z := Width.checked_eq_some

@[simp] theorem Width.checkedMul_eq_some :
    w.checkedMul x y = some z ↔ w.Holds (x * y) ∧ x * y = z := Width.checked_eq_some

@[simp] theorem Width.checkedDiv_eq_some :
    w.checkedDiv x y = some z ↔ y ≠ 0 ∧ w.Holds (x.tdiv y) ∧ x.tdiv y = z := by
  unfold Width.checkedDiv
  split_ifs with h <;> simp [h]

/-- With nonnegative operands only the product can overflow. -/
theorem Width.mulDivOrZero_of_holds (h0 : w.Holds 0) (hp : 0 ≤ x * y) (hz : 0 < z)
    (h : w.Holds (x * y)) : w.mulDivOrZero x y z = floorDiv (x * y) z := by
  have hq : (x * y).tdiv z = floorDiv (x * y) z := by
    rw [floorDiv_eq_ediv hz, Int.tdiv_eq_ediv_of_nonneg hp]
  have hle : floorDiv (x * y) z ≤ x * y := by
    nlinarith [floorDiv_mul_le (x * y) hz, floorDiv_nonneg hp hz]
  have hholds : w.Holds (floorDiv (x * y) z) := h0.of_le h (floorDiv_nonneg hp hz) hle
  simp only [Width.mulDivOrZero, Width.checkedMul, Width.checked_of_holds h, Option.getD_some,
    Width.checkedDiv, if_neg hz.ne', hq, Width.checked_of_holds hholds]

/-- An overflowing product counts as zero. -/
theorem Width.mulDivOrZero_of_not_holds (h : ¬w.Holds (x * y)) : w.mulDivOrZero x y z = 0 := by
  simp only [Width.mulDivOrZero, Width.checkedMul, Width.checked, if_neg h, Option.getD_none,
    Width.checkedDiv, Int.zero_tdiv]
  split_ifs <;> rfl

/-- Overflow only ever lowers the quotient. -/
theorem Width.mulDivOrZero_le (h0 : w.Holds 0) (hp : 0 ≤ x * y) (hz : 0 < z) :
    w.mulDivOrZero x y z ≤ floorDiv (x * y) z := by
  by_cases h : w.Holds (x * y)
  · rw [Width.mulDivOrZero_of_holds h0 hp hz h]
  · rw [Width.mulDivOrZero_of_not_holds h]
    exact floorDiv_nonneg hp hz

theorem Width.mulDivOrZero_nonneg (h0 : w.Holds 0) (hp : 0 ≤ x * y) (hz : 0 < z) :
    0 ≤ w.mulDivOrZero x y z := by
  by_cases h : w.Holds (x * y)
  · rw [Width.mulDivOrZero_of_holds h0 hp hz h]
    exact floorDiv_nonneg hp hz
  · rw [Width.mulDivOrZero_of_not_holds h]

/-- Zero stands in for whatever does not fit, so the result always fits. -/
theorem Width.mulDivOrZero_holds (h0 : w.Holds 0) : w.Holds (w.mulDivOrZero x y z) := by
  unfold Width.mulDivOrZero
  cases h : w.checkedDiv ((w.checkedMul x y).getD 0) z with
  | none => exact h0
  | some q =>
      obtain ⟨_, hholds, rfl⟩ := Width.checkedDiv_eq_some.mp h
      exact hholds

/-- With a divisor that fits, an overflow always shows. -/
theorem Width.mulDivOrZero_eq_iff (h0 : w.Holds 0) (hp : 0 ≤ x * y) (hz : 0 < z)
    (hzw : w.Holds z) : w.mulDivOrZero x y z = floorDiv (x * y) z ↔ w.Holds (x * y) := by
  constructor
  · intro heq
    by_contra hover
    rw [Width.mulDivOrZero_of_not_holds hover] at heq
    have hlt : x * y < z := by
      have := (floorDiv_lt_iff hz).mp (heq ▸ Int.zero_lt_one)
      rwa [one_mul] at this
    exact hover (h0.of_le hzw hp hlt.le)
  · exact Width.mulDivOrZero_of_holds h0 hp hz

/-- Casting to unsigned and back returns every `i128`. -/
theorem asI128_asU128 (h : i128.Holds x) : asI128 (asU128 x) = x := by
  have hwrap : asI128 (asU128 x) = asI128 x := Int.emod_bmod x (2 ^ 128)
  simp only [i128, Width.Holds] at h
  rw [hwrap]
  apply Int.bmod_eq_of_le <;> omega

/-- The signed reading is always a token amount. -/
theorem asI128_holds (x : ℤ) : i128.Holds (asI128 x) := by
  have hlow := Int.le_bmod (x := x) (m := 2 ^ 128) (by decide)
  have hhigh := Int.bmod_lt (x := x) (m := 2 ^ 128) (by decide)
  simp only [i128, Width.Holds, asI128]
  omega

theorem asI128_of_holds (h : i128.Holds x) : asI128 x = x := by
  simp only [i128, Width.Holds] at h
  apply Int.bmod_eq_of_le <;> omega

/-- The signed reading of an unsigned value keeps its bits. -/
theorem asU128_asI128 (h : u128.Holds x) : asU128 (asI128 x) = x := by
  have hwrap : asU128 (asI128 x) = x % 2 ^ 128 := Int.bmod_emod
  simp only [u128, Width.Holds] at h
  rw [hwrap]
  exact Int.emod_eq_of_lt h.1 (by omega)

theorem asI128_ne_zero (h : u128.Holds x) (hx : x ≠ 0) : asI128 x ≠ 0 := by
  intro hzero
  have hback := asU128_asI128 h
  rw [hzero] at hback
  exact hx hback.symm

/-- The signed reading is right exactly if the value is below half the range. -/
theorem asI128_eq_iff : asI128 x = x ↔ i128.Holds x := by
  constructor
  · intro h
    have hlo : -(2 ^ 128 / 2) ≤ asI128 x := Int.le_bmod (by decide)
    have hhi : asI128 x < (2 ^ 128 + 1) / 2 := Int.bmod_lt (by decide)
    rw [h] at hlo hhi
    simp only [i128, Width.Holds]
    omega
  · exact asI128_of_holds

/-- The signed reading of an unsigned value is never larger. -/
theorem asI128_le (hx : 0 ≤ x) : asI128 x ≤ x := by
  have hmod : x % 2 ^ 128 ≤ x := by omega
  rw [asI128, Int.bmod_def]
  split_ifs <;> omega

/-- The upper half of the unsigned range reads as negative. -/
theorem asI128_eq_ite (h : u128.Holds x) :
    asI128 x = if i128.Holds x then x else x - 2 ^ 128 := by
  simp only [u128, Width.Holds] at h
  rw [asI128, Int.bmod_def, Int.emod_eq_of_lt h.1 (by omega)]
  simp only [i128, Width.Holds]
  split_ifs <;> omega

theorem asI128_nonneg_iff (h : u128.Holds x) : 0 ≤ asI128 x ↔ i128.Holds x := by
  rw [asI128_eq_ite h]
  simp only [u128, i128, Width.Holds] at h ⊢
  split_ifs <;> omega

/-- Signed readings of a whole and of two parts of it keep their order unless
only the whole reads as negative. -/
theorem asI128_add_le_iff (hx : u128.Holds x) (hy : u128.Holds y) (hz : u128.Holds z)
    (hadd : x + y ≤ z) : asI128 x + asI128 y ≤ asI128 z ↔
      i128.Holds z ∨ ¬i128.Holds x ∨ ¬i128.Holds y := by
  rw [asI128_eq_ite hx, asI128_eq_ite hy, asI128_eq_ite hz]
  simp only [i128, u128, Width.Holds] at hx hy hz ⊢
  split_ifs <;> omega

theorem asU128_of_holds (hx : 0 ≤ x) (h : i128.Holds x) : asU128 x = x := by
  simp only [i128, Width.Holds] at h
  exact Int.emod_eq_of_lt hx (by omega)

theorem i128_holds_zero : i128.Holds 0 := by decide

theorem u128_holds_zero : u128.Holds 0 := by decide

theorem u128_holds_of_i128 (hx : 0 ≤ x) (h : i128.Holds x) : u128.Holds x := by
  simp only [i128, u128, Width.Holds] at h ⊢
  omega

/-- A nonnegative value below one that fits also fits. -/
theorem i128_holds_of_le (hx : 0 ≤ x) (hxy : x ≤ y) (hy : i128.Holds y) : i128.Holds x :=
  i128_holds_zero.of_le hy hx hxy

end Lemmas

/-- `fixed_mul_floor(x, y, z)` is `⌊x * y / z⌋`, `fixed_mul_ceil` its ceiling and
`fixed_div_floor(x, y, z)` is `⌊x * z / y⌋`; each fails when the intermediate
product or the quotient overflows or the divisor is zero. -/
def fixedMulFloor (x y z : ℤ) : Option ℤ :=
  if z = 0 then none else (i128.checkedMul x y).bind fun p => i128.checked (floorDiv p z)

def fixedMulCeil (x y z : ℤ) : Option ℤ :=
  if z = 0 then none else (i128.checkedMul x y).bind fun p => i128.checked (ceilDiv p z)

def fixedDivFloor (x y z : ℤ) : Option ℤ := fixedMulFloor x z y

section FixedPoint
variable {x y z q : ℤ}

theorem fixedMulFloor_eq_some :
    fixedMulFloor x y z = some q ↔
      z ≠ 0 ∧ i128.Holds (x * y) ∧ i128.Holds (floorDiv (x * y) z) ∧
        floorDiv (x * y) z = q := by
  unfold fixedMulFloor
  split_ifs with h <;> simp [h, Option.bind_eq_some_iff]

theorem fixedMulCeil_eq_some :
    fixedMulCeil x y z = some q ↔
      z ≠ 0 ∧ i128.Holds (x * y) ∧ i128.Holds (ceilDiv (x * y) z) ∧
        ceilDiv (x * y) z = q := by
  unfold fixedMulCeil
  split_ifs with h <;> simp [h, Option.bind_eq_some_iff]

theorem fixedDivFloor_eq_some :
    fixedDivFloor x y z = some q ↔
      y ≠ 0 ∧ i128.Holds (x * z) ∧ i128.Holds (floorDiv (x * z) y) ∧
        floorDiv (x * z) y = q := fixedMulFloor_eq_some

/-- With nonnegative arguments only the product can overflow: a floor quotient
is no larger than its dividend. -/
theorem fixedMulFloor_of_holds (hp : 0 ≤ x * y) (hz : 0 < z) (h : i128.Holds (x * y)) :
    fixedMulFloor x y z = some (floorDiv (x * y) z) := by
  refine fixedMulFloor_eq_some.mpr ⟨hz.ne', h, ?_, rfl⟩
  refine i128_holds_of_le (floorDiv_nonneg hp hz) ?_ h
  nlinarith [floorDiv_mul_le (x * y) hz, floorDiv_nonneg hp hz]

theorem fixedMulCeil_of_holds (hp : 0 ≤ x * y) (hz : 0 < z) (h : i128.Holds (x * y)) :
    fixedMulCeil x y z = some (ceilDiv (x * y) z) := by
  refine fixedMulCeil_eq_some.mpr ⟨hz.ne', h, ?_, rfl⟩
  refine i128_holds_of_le (ceilDiv_nonneg hp hz) ((ceilDiv_le_iff hz).mpr ?_) h
  nlinarith

end FixedPoint

end NekoStrategies.CheckedInteger
