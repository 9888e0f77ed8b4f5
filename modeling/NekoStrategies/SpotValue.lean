import NekoStrategies.CheckedInteger
import Mathlib.Algebra.Order.BigOperators.Group.Finset
import Mathlib.Algebra.Order.Field.Basic
import Mathlib.Tactic.FieldSimp
import Mathlib.Tactic.GCongr
import Mathlib.Tactic.Positivity

/-!
# The value of a holding in two reserves

Of `T` shares of the reserves `a` and `b`, `x` are worth their part of the first
reserve and their part of the second at the price of the reserves. Every
division rounds down, so the value is not proportional; it falls short of the
proportional one by less than two units and the price of one unit, and two
holdings are never worth more apart than together. A machine that counts an
overflow as zero computes the value exactly if its products fit.
-/
namespace NekoStrategies.SpotValue
open RoundedDivision CheckedInteger

/-- Value of `x` of `T` shares, in units of the first reserve. -/
def spotValue (a b T x : ℤ) : ℤ := floorDiv (a * x) T + floorDiv (floorDiv (b * x) T * a) b

section Value
variable {a b T x y : ℤ}

@[simp] theorem spotValue_zero : spotValue a b T 0 = 0 := by simp [spotValue]

theorem spotValue_mono (ha : 0 ≤ a) (hb : 0 < b) (hT : 0 < T) (hxy : x ≤ y) :
    spotValue a b T x ≤ spotValue a b T y := by
  have hfirst : floorDiv (a * x) T ≤ floorDiv (a * y) T :=
    floorDiv_mono hT (mul_le_mul_of_nonneg_left hxy ha)
  have hsecond : floorDiv (b * x) T ≤ floorDiv (b * y) T :=
    floorDiv_mono hT (mul_le_mul_of_nonneg_left hxy hb.le)
  exact add_le_add hfirst (floorDiv_mono hb (mul_le_mul_of_nonneg_right hsecond ha))

theorem spotValue_nonneg (ha : 0 ≤ a) (hb : 0 < b) (hT : 0 < T) (hx : 0 ≤ x) :
    0 ≤ spotValue a b T x := by
  have h := spotValue_mono ha hb hT hx
  rwa [spotValue_zero] at h

/-- All shares together are worth the first reserve twice. -/
theorem spotValue_total (hb : 0 < b) (hT : 0 < T) : spotValue a b T T = 2 * a := by
  rw [spotValue, floorDiv_self hT, floorDiv_self hT, mul_comm b a, floorDiv_self hb, two_mul]

/-- Rounding twice takes more from two holdings than from their sum. -/
theorem spotValue_add_le (ha : 0 ≤ a) (hb : 0 < b) (hT : 0 < T) :
    spotValue a b T x + spotValue a b T y ≤ spotValue a b T (x + y) := by
  have hfirst : floorDiv (a * x) T + floorDiv (a * y) T ≤ floorDiv (a * (x + y)) T := by
    rw [mul_add]
    exact floorDiv_add_le hT
  have hshare : floorDiv (b * x) T + floorDiv (b * y) T ≤ floorDiv (b * (x + y)) T := by
    rw [mul_add]
    exact floorDiv_add_le hT
  have hsecond : floorDiv (floorDiv (b * x) T * a) b + floorDiv (floorDiv (b * y) T * a) b ≤
      floorDiv (floorDiv (b * (x + y)) T * a) b :=
    calc floorDiv (floorDiv (b * x) T * a) b + floorDiv (floorDiv (b * y) T * a) b
        ≤ floorDiv (floorDiv (b * x) T * a + floorDiv (b * y) T * a) b := floorDiv_add_le hb
      _ ≤ floorDiv (floorDiv (b * (x + y)) T * a) b := by
          apply floorDiv_mono hb
          rw [← add_mul]
          exact mul_le_mul_of_nonneg_right hshare ha
  unfold spotValue
  linarith

theorem spotValue_sum_le {ι : Type*} (ha : 0 ≤ a) (hb : 0 < b) (hT : 0 < T) (m : ι → ℤ)
    (s : Finset ι) : ∑ i ∈ s, spotValue a b T (m i) ≤ spotValue a b T (∑ i ∈ s, m i) := by
  induction s using Finset.cons_induction with
  | empty => simp
  | cons i s hi ih =>
      rw [Finset.sum_cons, Finset.sum_cons]
      exact (add_le_add_right ih _).trans (spotValue_add_le ha hb hT)

/-- Holdings within the supply are together worth at most the first reserve twice. -/
theorem spotValue_sum_le_twice {ι : Type*} (ha : 0 ≤ a) (hb : 0 < b) (hT : 0 < T) (m : ι → ℤ)
    (s : Finset ι) (hm : ∑ i ∈ s, m i ≤ T) : ∑ i ∈ s, spotValue a b T (m i) ≤ 2 * a :=
  calc ∑ i ∈ s, spotValue a b T (m i)
      ≤ spotValue a b T (∑ i ∈ s, m i) := spotValue_sum_le ha hb hT m s
    _ ≤ spotValue a b T T := spotValue_mono ha hb hT hm
    _ = 2 * a := spotValue_total hb hT

theorem spotValue_le (ha : 0 ≤ a) (hb : 0 < b) (hT : 0 < T) :
    (spotValue a b T x : ℚ) ≤ 2 * a / T * x := by
  have haq : (0 : ℚ) ≤ a := by exact_mod_cast ha
  have hbq : (0 : ℚ) < b := by exact_mod_cast hb
  have hTq : (0 : ℚ) < T := by exact_mod_cast hT
  have hfirst := floorDiv_le_div (a * x) hT
  have hshare := floorDiv_le_div (b * x) hT
  have hsecond := floorDiv_le_div (floorDiv (b * x) T * a) hb
  push_cast at hfirst hshare hsecond
  have hprice : (floorDiv (b * x) T * a / b : ℚ) ≤ a * x / T :=
    calc (floorDiv (b * x) T * a / b : ℚ)
        ≤ b * x / T * a / b := by gcongr
      _ = a * x / T := by field_simp
  have hsplit : (2 * a / T * x : ℚ) = a * x / T + a * x / T := by ring
  rw [hsplit, spotValue]
  push_cast
  linarith

/-- The value falls short of the proportional one by less than two units and the
price of one. -/
theorem lt_spotValue (ha : 0 < a) (hb : 0 < b) (hT : 0 < T) :
    (2 * a / T * x : ℚ) < spotValue a b T x + 2 + a / b := by
  have haq : (0 : ℚ) < a := by exact_mod_cast ha
  have hbq : (0 : ℚ) < b := by exact_mod_cast hb
  have hTq : (0 : ℚ) < T := by exact_mod_cast hT
  have hfirst := div_lt_floorDiv_add_one (a * x) hT
  have hshare := div_lt_floorDiv_add_one (b * x) hT
  have hsecond := div_lt_floorDiv_add_one (floorDiv (b * x) T * a) hb
  push_cast at hfirst hshare hsecond
  have hprice : (a * x / T : ℚ) < floorDiv (b * x) T * a / b + a / b :=
    calc (a * x / T : ℚ) = b * x / T * a / b := by field_simp
      _ < (floorDiv (b * x) T + 1) * a / b := by gcongr
      _ = floorDiv (b * x) T * a / b + a / b := by ring
  have hsplit : (2 * a / T * x : ℚ) = a * x / T + a * x / T := by ring
  rw [hsplit, spotValue]
  push_cast
  linarith

end Value

section Parts
variable {a b T v V s n : ℤ}

/-- Giving up the shares for `n` out of a value `V`, rounded down, gives up a
value of about `n`. -/
theorem part_value_lt (ha : 0 < a) (hb : 0 < b) (hT : 0 < T) (hV : V = spotValue a b T v)
    (hn : 0 < n) (hnV : n < V) (hs : s = floorDiv (v * n) V) :
    (spotValue a b T s : ℚ) < n + 2 + a / b := by
  have hVpos : 0 < V := hn.trans hnV
  have haq : (0 : ℚ) < a := by exact_mod_cast ha
  have hbq : (0 : ℚ) < b := by exact_mod_cast hb
  have hTq : (0 : ℚ) < T := by exact_mod_cast hT
  have hVq : (0 : ℚ) < V := by exact_mod_cast hVpos
  have hnq : (0 : ℚ) < n := by exact_mod_cast hn
  have hfraction : (n / V : ℚ) ≤ 1 := by
    rw [div_le_one₀ hVq]
    exact_mod_cast hnV.le
  have hwhole : (2 * a / T * v : ℚ) < V + 2 + a / b := hV ▸ lt_spotValue ha hb hT
  have hshares : (s : ℚ) ≤ v * n / V := by
    rw [hs]
    exact_mod_cast floorDiv_le_div (v * n) hVpos
  calc (spotValue a b T s : ℚ)
      ≤ 2 * a / T * s := spotValue_le ha.le hb hT
    _ ≤ 2 * a / T * (v * n / V) := by gcongr
    _ = 2 * a / T * v * (n / V) := by ring
    _ < (V + 2 + a / b) * (n / V) := by gcongr
    _ = n + (2 + a / b) * (n / V) := by
        field_simp
        ring
    _ ≤ n + (2 + a / b) * 1 := by gcongr
    _ = n + 2 + a / b := by ring

theorem rest_value_gt (ha : 0 < a) (hb : 0 < b) (hT : 0 < T) (hV : V = spotValue a b T v)
    (hn : 0 < n) (hnV : n < V) (hs : s = floorDiv (v * n) V) :
    (V - n - 2 - a / b : ℚ) < spotValue a b T (v - s) := by
  have hVpos : 0 < V := hn.trans hnV
  have haq : (0 : ℚ) < a := by exact_mod_cast ha
  have hTq : (0 : ℚ) < T := by exact_mod_cast hT
  have hVq : (0 : ℚ) < V := by exact_mod_cast hVpos
  have hfraction : (0 : ℚ) ≤ 1 - n / V := by
    rw [sub_nonneg, div_le_one₀ hVq]
    exact_mod_cast hnV.le
  have hwhole : (V : ℚ) ≤ 2 * a / T * v := hV ▸ spotValue_le ha.le hb hT
  have hshares : (s : ℚ) ≤ v * n / V := by
    rw [hs]
    exact_mod_cast floorDiv_le_div (v * n) hVpos
  have hrest : (2 * a / T * (v - s) : ℚ) < spotValue a b T (v - s) + 2 + a / b := by
    exact_mod_cast lt_spotValue (x := v - s) ha hb hT
  have hleft : (V - n : ℚ) ≤ 2 * a / T * (v - s) :=
    calc (V - n : ℚ) = V * (1 - n / V) := by field_simp
      _ ≤ 2 * a / T * v * (1 - n / V) := by gcongr
      _ = 2 * a / T * (v - v * n / V) := by ring
      _ ≤ 2 * a / T * (v - s) := by gcongr
  linarith

end Parts

/-- The value as a machine computes it that goes on with zero after an overflow:
the two parts. -/
def machineParts (w : Width) (a b T x : ℤ) : ℤ × ℤ :=
  (w.mulDivOrZero a x T, w.mulDivOrZero (w.mulDivOrZero b x T) a b)

/-- Their sum. -/
def machineValue (w : Width) (a b T x : ℤ) : ℤ :=
  (machineParts w a b T x).1 + (machineParts w a b T x).2

/-- No product overflows. -/
def ProductsFit (w : Width) (a b T x : ℤ) : Prop :=
  w.Holds (a * x) ∧ w.Holds (b * x) ∧ w.Holds (floorDiv (b * x) T * a)

/-- No product overflows, unless the second part rounds to zero anyway. -/
def PartsFit (w : Width) (a b T x : ℤ) : Prop :=
  w.Holds (a * x) ∧ (floorDiv (b * x) T * a < b ∨
    w.Holds (b * x) ∧ w.Holds (floorDiv (b * x) T * a))

instance (w : Width) (a b T x : ℤ) : Decidable (ProductsFit w a b T x) :=
  inferInstanceAs (Decidable (_ ∧ _ ∧ _))

instance (w : Width) (a b T x : ℤ) : Decidable (PartsFit w a b T x) :=
  inferInstanceAs (Decidable (_ ∧ (_ ∨ _ ∧ _)))

/-- Reserves and supply are positive values of the machine. -/
structure Stocked (w : Width) (a b T : ℤ) : Prop where
  zero : w.Holds 0
  first_pos : 0 < a
  second_pos : 0 < b
  second_holds : w.Holds b
  supply_pos : 0 < T
  supply_holds : w.Holds T

section Machine
variable {w : Width} {a b T x y : ℤ}

theorem ProductsFit.partsFit (h : ProductsFit w a b T x) : PartsFit w a b T x :=
  ⟨h.1, .inr h.2⟩

/-- What fits for a holding fits for a smaller one. -/
theorem ProductsFit.mono (hw : Stocked w a b T) (hx : 0 ≤ x) (hxy : x ≤ y)
    (h : ProductsFit w a b T y) : ProductsFit w a b T x := by
  have hshares : floorDiv (b * x) T ≤ floorDiv (b * y) T :=
    floorDiv_mono hw.supply_pos (mul_le_mul_of_nonneg_left hxy hw.second_pos.le)
  have hshare : 0 ≤ floorDiv (b * x) T :=
    floorDiv_nonneg (mul_nonneg hw.second_pos.le hx) hw.supply_pos
  refine ⟨?_, ?_, ?_⟩
  · exact hw.zero.of_le h.1 (mul_nonneg hw.first_pos.le hx)
      (mul_le_mul_of_nonneg_left hxy hw.first_pos.le)
  · exact hw.zero.of_le h.2.1 (mul_nonneg hw.second_pos.le hx)
      (mul_le_mul_of_nonneg_left hxy hw.second_pos.le)
  · exact hw.zero.of_le h.2.2 (mul_nonneg hshare hw.first_pos.le)
      (mul_le_mul_of_nonneg_right hshares hw.first_pos.le)

@[simp] theorem machineValue_zero (hw : Stocked w a b T) : machineValue w a b T 0 = 0 := by
  have hpart : ∀ c d, 0 < d → w.mulDivOrZero c 0 d = 0 := by
    intro c d hd
    rw [Width.mulDivOrZero_of_holds hw.zero (by simp) hd (by simpa using hw.zero)]
    simp
  have hzero : w.mulDivOrZero 0 a b = 0 := by
    rw [Width.mulDivOrZero_of_holds hw.zero (by simp) hw.second_pos (by simpa using hw.zero)]
    simp
  simp only [machineValue, machineParts, hpart _ _ hw.supply_pos, hzero, add_zero]

theorem machineParts_nonneg (hw : Stocked w a b T) (hx : 0 ≤ x) :
    0 ≤ (machineParts w a b T x).1 ∧ 0 ≤ (machineParts w a b T x).2 := by
  have hshare := Width.mulDivOrZero_nonneg hw.zero (mul_nonneg hw.second_pos.le hx) hw.supply_pos
  exact ⟨Width.mulDivOrZero_nonneg hw.zero (mul_nonneg hw.first_pos.le hx) hw.supply_pos,
    Width.mulDivOrZero_nonneg hw.zero (mul_nonneg hshare hw.first_pos.le) hw.second_pos⟩

theorem machineParts_le (hw : Stocked w a b T) (hx : 0 ≤ x) :
    (machineParts w a b T x).1 ≤ floorDiv (a * x) T ∧
      (machineParts w a b T x).2 ≤ floorDiv (floorDiv (b * x) T * a) b := by
  have hbx := mul_nonneg hw.second_pos.le hx
  have hshare := Width.mulDivOrZero_nonneg hw.zero hbx hw.supply_pos
  refine ⟨Width.mulDivOrZero_le hw.zero (mul_nonneg hw.first_pos.le hx) hw.supply_pos, ?_⟩
  calc (machineParts w a b T x).2
      ≤ floorDiv (w.mulDivOrZero b x T * a) b :=
        Width.mulDivOrZero_le hw.zero (mul_nonneg hshare hw.first_pos.le) hw.second_pos
    _ ≤ floorDiv (floorDiv (b * x) T * a) b := by
        apply floorDiv_mono hw.second_pos
        apply mul_le_mul_of_nonneg_right _ hw.first_pos.le
        exact Width.mulDivOrZero_le hw.zero hbx hw.supply_pos

theorem machineValue_nonneg (hw : Stocked w a b T) (hx : 0 ≤ x) : 0 ≤ machineValue w a b T x := by
  obtain ⟨hfirst, hsecond⟩ := machineParts_nonneg hw hx
  exact add_nonneg hfirst hsecond

theorem machineValue_le (hw : Stocked w a b T) (hx : 0 ≤ x) :
    machineValue w a b T x ≤ spotValue a b T x := by
  obtain ⟨hfirst, hsecond⟩ := machineParts_le hw hx
  exact add_le_add hfirst hsecond

/-- The second part is right exactly if its products fit or it is zero. -/
theorem second_eq_iff (hw : Stocked w a b T) (hx : 0 ≤ x) :
    (machineParts w a b T x).2 = floorDiv (floorDiv (b * x) T * a) b ↔
      floorDiv (b * x) T * a < b ∨ w.Holds (b * x) ∧ w.Holds (floorDiv (b * x) T * a) := by
  have hbx := mul_nonneg hw.second_pos.le hx
  have hproduct : 0 ≤ floorDiv (b * x) T * a :=
    mul_nonneg (floorDiv_nonneg hbx hw.supply_pos) hw.first_pos.le
  unfold machineParts
  by_cases hholds : w.Holds (b * x)
  · rw [Width.mulDivOrZero_of_holds hw.zero hbx hw.supply_pos hholds,
      Width.mulDivOrZero_eq_iff hw.zero hproduct hw.second_pos hw.second_holds]
    constructor
    · exact fun h => .inr ⟨hholds, h⟩
    · rintro (hlt | ⟨_, h⟩)
      · exact hw.zero.of_le hw.second_holds hproduct hlt.le
      · exact h
  · rw [Width.mulDivOrZero_of_not_holds hholds,
      Width.mulDivOrZero_of_holds hw.zero (by simp) hw.second_pos (by simpa using hw.zero)]
    have hzero : floorDiv (floorDiv (b * x) T * a) b < 1 ↔ floorDiv (b * x) T * a < b := by
      rw [floorDiv_lt_iff hw.second_pos, one_mul]
    have hnonneg := floorDiv_nonneg hproduct hw.second_pos
    simp only [zero_mul, floorDiv_zero, hholds, false_and, or_false, ← hzero]
    omega

/-- The machine's sum is the value exactly if its parts fit. -/
theorem machineValue_eq_iff (hw : Stocked w a b T) (hx : 0 ≤ x) :
    machineValue w a b T x = spotValue a b T x ↔ PartsFit w a b T x := by
  obtain ⟨hfirst, hsecond⟩ := machineParts_le hw hx
  have hfirstIff : (machineParts w a b T x).1 = floorDiv (a * x) T ↔ w.Holds (a * x) :=
    Width.mulDivOrZero_eq_iff hw.zero (mul_nonneg hw.first_pos.le hx) hw.supply_pos
      hw.supply_holds
  rw [PartsFit, ← hfirstIff, ← second_eq_iff hw hx, machineValue, spotValue]
  constructor
  · intro h
    constructor <;> omega
  · rintro ⟨h1, h2⟩
    rw [h1, h2]

/-- A part that overflowed counts as zero, so the sum of both does not overflow. -/
theorem machineValue_holds (hw : Stocked w a b T) (hx : 0 ≤ x) (h : ¬PartsFit w a b T x) :
    w.Holds (machineValue w a b T x) := by
  unfold machineValue
  have hfirst : w.Holds (machineParts w a b T x).1 := Width.mulDivOrZero_holds hw.zero
  have hsecond : w.Holds (machineParts w a b T x).2 := Width.mulDivOrZero_holds hw.zero
  by_cases hax : w.Holds (a * x)
  · have hzero : (machineParts w a b T x).2 = 0 := by
      unfold machineParts
      by_cases hbx : w.Holds (b * x)
      · rw [Width.mulDivOrZero_of_holds hw.zero (mul_nonneg hw.second_pos.le hx) hw.supply_pos hbx]
        exact Width.mulDivOrZero_of_not_holds fun hproduct => h ⟨hax, .inr ⟨hbx, hproduct⟩⟩
      · rw [Width.mulDivOrZero_of_not_holds hbx,
          Width.mulDivOrZero_of_holds hw.zero (by simp) hw.second_pos (by simpa using hw.zero)]
        simp
    rwa [hzero, add_zero]
  · have hzero : (machineParts w a b T x).1 = 0 := Width.mulDivOrZero_of_not_holds hax
    rwa [hzero, zero_add]

end Machine

end NekoStrategies.SpotValue
