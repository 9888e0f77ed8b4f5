import NekoStrategies.RoundedDivision

/-!
# Amounts of a two-token pool

Liquidity is added in the ratio of the reserves: of two desired amounts, one is
used in full and the other as far as the ratio asks for, rounded down. A swap
keeps the product of the reserves from falling and takes a fee, of 0.3% of what
comes in or of any rate of what goes out. An exit removes an amount of each token
and swaps one of them back into what it has left of the pool.
-/
namespace NekoStrategies.ConstantProduct
open RoundedDivision

/-- The largest amounts within the desired ones at the ratio of the reserves. -/
def optimalAmounts (aDesired bDesired reserveA reserveB : ℤ) : ℤ × ℤ :=
  let bOptimal := floorDiv (aDesired * reserveB) reserveA
  if bOptimal ≤ bDesired then (aDesired, bOptimal)
  else (floorDiv (bDesired * reserveA) reserveB, bDesired)

/-- What a swap of `amountIn` pays. -/
def amountOut (amountIn reserveIn reserveOut : ℤ) : ℤ :=
  let fee := ceilDiv (amountIn * 3) 1000
  floorDiv ((amountIn - fee) * reserveOut) (reserveIn + (amountIn - fee))

/-- What a swap pays if the fee, in basis points, is kept of the proceeds. -/
def quote (fee amountIn reserveIn reserveOut : ℤ) : ℤ :=
  floorDiv (floorDiv (amountIn * reserveOut) (reserveIn + amountIn) * (10000 - fee)) 10000

/-- What is left of removing `a` and `b` once `b` is swapped back for the former. -/
def exitProceeds (fee a b reserveA reserveB : ℤ) : ℤ :=
  a + quote fee b (reserveB - b) (reserveA - a)

section Amounts
variable {a b ra rb x y : ℤ}

theorem optimalAmounts_of_le (h : floorDiv (a * rb) ra ≤ b) :
    optimalAmounts a b ra rb = (a, floorDiv (a * rb) ra) := if_pos h

theorem optimalAmounts_of_lt (h : b < floorDiv (a * rb) ra) :
    optimalAmounts a b ra rb = (floorDiv (b * ra) rb, b) := if_neg h.not_ge

/-- If the second amount falls short, the first one is not used up. -/
theorem floorDiv_lt_of_short (ha : 0 < ra) (hb : 0 < rb) (h : b < floorDiv (a * rb) ra) :
    floorDiv (b * ra) rb < a := by
  have hnext : (b + 1) * ra ≤ a * rb := (le_floorDiv_iff ha).mp h
  exact (floorDiv_lt_iff hb).mpr (by linarith)

theorem optimalAmounts_le (ha : 0 < ra) (hb : 0 < rb) :
    (optimalAmounts a b ra rb).1 ≤ a ∧ (optimalAmounts a b ra rb).2 ≤ b := by
  rcases le_or_gt (floorDiv (a * rb) ra) b with hle | hlt
  · rw [optimalAmounts_of_le hle]
    exact ⟨le_rfl, hle⟩
  · rw [optimalAmounts_of_lt hlt]
    exact ⟨(floorDiv_lt_of_short ha hb hlt).le, le_rfl⟩

theorem optimalAmounts_nonneg (hx : 0 ≤ a) (hy : 0 ≤ b) (ha : 0 < ra) (hb : 0 < rb) :
    0 ≤ (optimalAmounts a b ra rb).1 ∧ 0 ≤ (optimalAmounts a b ra rb).2 := by
  rcases le_or_gt (floorDiv (a * rb) ra) b with hle | hlt
  · rw [optimalAmounts_of_le hle]
    exact ⟨hx, floorDiv_nonneg (mul_nonneg hx hb.le) ha⟩
  · rw [optimalAmounts_of_lt hlt]
    exact ⟨floorDiv_nonneg (mul_nonneg hy ha.le) hb, hy⟩

/-- Both desired amounts are used in full exactly when the second is the optimum. -/
theorem optimalAmounts_eq_self_iff (ha : 0 < ra) (hb : 0 < rb) :
    optimalAmounts a b ra rb = (a, b) ↔ floorDiv (a * rb) ra = b := by
  constructor
  · intro h
    rcases le_or_gt (floorDiv (a * rb) ra) b with hle | hlt
    · rw [optimalAmounts_of_le hle] at h
      exact (Prod.mk.inj h).2
    · rw [optimalAmounts_of_lt hlt] at h
      exact absurd (Prod.mk.inj h).1 (floorDiv_lt_of_short ha hb hlt).ne
  · rintro rfl
    exact optimalAmounts_of_le le_rfl

/-- Asking for the smaller of the optimum and what there is uses both amounts
exactly when the optimum is affordable. -/
theorem optimalAmounts_min_iff (ha : 0 < ra) (hb : 0 < rb) :
    optimalAmounts a (min (floorDiv (a * rb) ra) b) ra rb =
      (a, min (floorDiv (a * rb) ra) b) ↔ floorDiv (a * rb) ra ≤ b := by
  rw [optimalAmounts_eq_self_iff ha hb, left_eq_inf]

/-- The optimum is affordable if one unit more would overshoot the ratio. -/
theorem optimum_le_iff (ha : 0 < ra) : floorDiv (a * rb) ra ≤ b ↔ a * rb < (b + 1) * ra := by
  rw [← Int.lt_add_one_iff, floorDiv_lt_iff ha]

theorem amountOut_nonneg (hx : 0 ≤ x) (ha : 0 < ra) (hb : 0 ≤ rb) : 0 ≤ amountOut x ra rb := by
  have hfee : ceilDiv (x * 3) 1000 ≤ x := (ceilDiv_le_iff (by decide)).mpr (by linarith)
  have hnet : 0 ≤ x - ceilDiv (x * 3) 1000 := by omega
  exact floorDiv_nonneg (mul_nonneg hnet hb) (by omega)

theorem amountOut_lt (hx : 0 ≤ x) (ha : 0 < ra) (hb : 0 < rb) : amountOut x ra rb < rb := by
  have hfee : ceilDiv (x * 3) 1000 ≤ x := (ceilDiv_le_iff (by decide)).mpr (by linarith)
  have hnet : 0 ≤ x - ceilDiv (x * 3) 1000 := by omega
  refine (floorDiv_lt_iff (by omega)).mpr ?_
  nlinarith

/-- A swap keeps the product of the reserves from falling. -/
theorem amountOut_product (hx : 0 ≤ x) (ha : 0 < ra) (hb : 0 < rb) :
    ra * rb ≤ (ra + x) * (rb - amountOut x ra rb) := by
  have hfee : ceilDiv (x * 3) 1000 ≤ x := (ceilDiv_le_iff (by decide)).mpr (by linarith)
  have hkept : 0 ≤ ceilDiv (x * 3) 1000 := ceilDiv_nonneg (by linarith) (by decide)
  have hout := amountOut_lt hx ha hb
  have hpaid : amountOut x ra rb * (ra + (x - ceilDiv (x * 3) 1000)) ≤
      (x - ceilDiv (x * 3) 1000) * rb := floorDiv_mul_le _ (by omega)
  calc ra * rb
      ≤ (ra + (x - ceilDiv (x * 3) 1000)) * (rb - amountOut x ra rb) := by linarith
    _ ≤ (ra + x) * (rb - amountOut x ra rb) := by
        apply mul_le_mul_of_nonneg_right <;> omega

end Amounts

section Exits
variable {a b ra rb x fee bound : ℤ}

@[simp] theorem quote_zero : quote fee 0 ra rb = 0 := by
  simp [quote]

theorem quote_nonneg (hfee : fee ≤ 10000) (hx : 0 ≤ x) (ha : 0 < ra + x) (hb : 0 ≤ rb) :
    0 ≤ quote fee x ra rb := by
  have hout := floorDiv_nonneg (mul_nonneg hx hb) ha
  exact floorDiv_nonneg (mul_nonneg hout (by omega)) (by decide)

theorem quote_le (hfee : 0 ≤ fee) (hx : 0 ≤ x) (hin : 0 ≤ ra) (ha : 0 < ra + x) (hb : 0 ≤ rb) :
    quote fee x ra rb ≤ rb := by
  have hnonneg := floorDiv_nonneg (mul_nonneg hx hb) ha
  have hle : floorDiv (x * rb) (ra + x) ≤ rb := by
    refine Int.lt_add_one_iff.mp ((floorDiv_lt_iff ha).mpr ?_)
    nlinarith
  refine Int.lt_add_one_iff.mp ((floorDiv_lt_iff (by decide)).mpr ?_)
  nlinarith

theorem exitProceeds_nonneg (hfee : fee ≤ 10000) (ha : 0 ≤ a) (hra : a ≤ ra) (hb : 0 ≤ b)
    (hrb : 0 < rb) : 0 ≤ exitProceeds fee a b ra rb :=
  add_nonneg ha (quote_nonneg hfee hb (by linarith) (by linarith))

/-- What an exit has to recover of `bound` beyond the first amount, it recovers
from the second one at the price that is left, less the fee. -/
theorem le_exitProceeds_iff : bound ≤ exitProceeds fee a b ra rb ↔
    (bound - a) * 10000 ≤ floorDiv (b * (ra - a)) rb * (10000 - fee) := by
  rw [exitProceeds, quote, sub_add_cancel, ← sub_le_iff_le_add', le_floorDiv_iff (by decide)]

end Exits

end NekoStrategies.ConstantProduct
