import NekoStrategies.SorobanHost

/-!
# What the two AMM strategies share

Both credit a vault with LP tokens and burn a proportional part of them for a
withdrawal: everything when the amount covers the valuation, otherwise the
truncated share of it.
-/
namespace NekoStrategies.AmmPosition
open CheckedInteger RoundedDivision SorobanHost

/-- LP tokens to burn for `amount` out of a holding valued at `totalValue`. -/
def proportionalBurn (held amount totalValue : ℤ) : Outcome ℤ :=
  if totalValue ≤ amount then .ok held
  else do
    let product ← okOr .arithmeticError (i128.checkedMul held amount)
    okOr .arithmeticError (i128.checkedDiv product totalValue)

theorem proportionalBurn_eq_ok {held amount totalValue s : ℤ} :
    proportionalBurn held amount totalValue = .ok s ↔
      (totalValue ≤ amount ∧ s = held) ∨
        (amount < totalValue ∧ i128.Holds (held * amount) ∧ totalValue ≠ 0 ∧
          i128.Holds ((held * amount).tdiv totalValue) ∧ s = (held * amount).tdiv totalValue) := by
  unfold proportionalBurn
  split_ifs with h
  · simp only [Except.ok.injEq, h, true_and, not_lt.mpr h, false_and, or_false]
    exact eq_comm
  · simp only [bind_eq_ok, okOr_eq_ok, Width.checkedMul_eq_some, Width.checkedDiv_eq_some,
      h, false_and, false_or, not_le.mp h, true_and]
    constructor
    · rintro ⟨_, ⟨hmul, rfl⟩, hne, hdiv, rfl⟩
      exact ⟨hmul, hne, hdiv, rfl⟩
    · rintro ⟨hmul, hne, hdiv, rfl⟩
      exact ⟨_, ⟨hmul, rfl⟩, hne, hdiv, rfl⟩

theorem proportionalBurn_le {held amount totalValue s : ℤ} (hheld : 0 ≤ held) (ha : 0 < amount)
    (h : proportionalBurn held amount totalValue = .ok s) : 0 ≤ s ∧ s ≤ held := by
  rcases proportionalBurn_eq_ok.mp h with ⟨_, rfl⟩ | ⟨hlt, _, _, _, rfl⟩
  · exact ⟨hheld, le_rfl⟩
  · have hvalue : 0 < totalValue := ha.trans hlt
    have hproduct : 0 ≤ held * amount := mul_nonneg hheld ha.le
    rw [Int.tdiv_eq_ediv_of_nonneg hproduct]
    constructor
    · exact Int.ediv_nonneg hproduct hvalue.le
    · apply Int.ediv_le_of_le_mul hvalue
      exact mul_le_mul_of_nonneg_left hlt.le hheld

/-- Up to the whole valuation the burn is the share of it rounded down. -/
theorem proportionalBurn_of_le {held amount totalValue s : ℤ} (hheld : 0 ≤ held)
    (ha : 0 < amount) (hle : amount ≤ totalValue)
    (h : proportionalBurn held amount totalValue = .ok s) :
    s = floorDiv (held * amount) totalValue := by
  have hvalue : 0 < totalValue := ha.trans_le hle
  rcases proportionalBurn_eq_ok.mp h with ⟨hge, rfl⟩ | ⟨_, _, _, _, rfl⟩
  · rw [le_antisymm hle hge, floorDiv_self hvalue]
  · rw [Int.tdiv_eq_ediv_of_nonneg (mul_nonneg hheld ha.le), floorDiv_eq_ediv hvalue]

end NekoStrategies.AmmPosition
