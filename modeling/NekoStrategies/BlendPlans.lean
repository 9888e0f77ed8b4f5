import NekoStrategies.BlendBooks
import Mathlib.Order.Bounds.Defs

/-!
# The planner and the bookkeeper of the Blend strategy

The shares of an operation are computed twice: by the planner from the rounded
amount, and by `reserves.rs` from the bTokens the planner settled on. The two
agree, because the bTokens of a plan are the adjoint of its shares: the fewest
that buy them, or the most that they pay for. The second computation multiplies
no larger numbers than the first, so it cannot fail where the plan succeeded.
-/
namespace NekoStrategies.BlendPlans
open CheckedInteger RoundedDivision SorobanHost BlendReserves BlendCalls BlendBooks

section Plans
variable {r : StrategyReserves} {amount b n s x : ℤ}

theorem bTokensToSharesDown_ok (hS : 0 < r.totalShares) (hB : 0 < r.totalBTokens)
    (hn : 0 ≤ n) (h : i128.Holds (n * r.totalShares)) :
    r.bTokensToSharesDown n = .ok (floorDiv (n * r.totalShares) r.totalBTokens) := by
  rw [StrategyReserves.bTokensToSharesDown, if_neg (by omega), okOr_eq_ok]
  exact fixedMulFloor_of_holds (mul_nonneg hn hS.le) hB h

theorem bTokensToSharesUp_ok (hS : 0 < r.totalShares) (hB : 0 < r.totalBTokens)
    (hn : 0 ≤ n) (h : i128.Holds (n * r.totalShares)) :
    r.bTokensToSharesUp n = .ok (ceilDiv (n * r.totalShares) r.totalBTokens) := by
  rw [StrategyReserves.bTokensToSharesUp, if_neg (by omega), okOr_eq_ok]
  exact fixedMulCeil_of_holds (mul_nonneg hn hS.le) hB h

theorem bTokensToSharesDown_holds (hS : 0 < r.totalShares) (hB : 0 < r.totalBTokens)
    (h : r.bTokensToSharesDown n = .ok s) : i128.Holds (n * r.totalShares) := by
  rw [StrategyReserves.bTokensToSharesDown, if_neg (by omega), okOr_eq_ok,
    fixedMulFloor_eq_some] at h
  exact h.2.1

/-- A deposit's bTokens are the fewest that convert to its shares. -/
theorem deposit_plan_open (hS : 0 < r.totalShares) (hB : 0 < r.totalBTokens)
    (h : calculateOptimalDepositAmount amount r = .ok (x, n)) :
    ∃ b s, fixedMulFloor amount scalar12 r.bRate = some b ∧ r.bTokensToSharesDown b = .ok s ∧
      n = ceilDiv (s * r.totalBTokens) r.totalShares ∧ n ≤ b ∧ 0 < n ∧
      x = ceilDiv (n * r.bRate) scalar12 := by
  obtain ⟨b, hb, hopt, hn, hx⟩ := calculateOptimalDepositAmount_ok h
  obtain ⟨_, s, hdown, _, hceil⟩ :=
    (optimalBTokenAmount_ok hopt).resolve_left fun hz => hS.ne' hz.1
  have hval : n = ceilDiv (s * r.totalBTokens) r.totalShares :=
    (fixedMulCeil_eq_some.mp hceil).2.2.2.symm
  refine ⟨b, s, hb, hdown, hval, ?_, hn, (fixedMulCeil_eq_some.mp hx).2.2.2.symm⟩
  rw [hval, bTokensToSharesDown_open hS hB hdown]
  exact ceilDiv_floorDiv_le hS hB

theorem withdraw_plan_open (hS : 0 < r.totalShares) (hB : 0 < r.totalBTokens)
    (h : calculateOptimalWithdrawAmount amount r = .ok (x, n)) :
    ∃ b s, fixedMulCeil amount scalar12 r.bRate = some b ∧ r.bTokensToSharesUp b = .ok s ∧
      s = ceilDiv (b * r.totalShares) r.totalBTokens ∧
      n = floorDiv (s * r.totalBTokens) r.totalShares ∧ i128.Holds (s * r.totalBTokens) ∧
      x = floorDiv (n * r.bRate) scalar12 := by
  obtain ⟨b, s, hb, hup, hfloor, hx⟩ := calculateOptimalWithdrawAmount_ok h
  obtain ⟨_, hfit, _, hval⟩ := fixedMulFloor_eq_some.mp hfloor
  exact ⟨b, s, hb, hup, bTokensToSharesUp_open hS hB hup, hval.symm, hfit,
    (fixedMulFloor_eq_some.mp hx).2.2.2.symm⟩

/-- The bookkeeper converts the bTokens of a deposit back to the planned shares. -/
theorem deposit_recomputed (hS : 0 < r.totalShares) (hB : 0 < r.totalBTokens) (hn : 0 ≤ n)
    (hnb : n ≤ b) (hval : n = ceilDiv (s * r.totalBTokens) r.totalShares)
    (hdown : r.bTokensToSharesDown b = .ok s) : r.bTokensToSharesDown n = .ok s := by
  have hfit : i128.Holds (n * r.totalShares) :=
    i128_holds_of_le (mul_nonneg hn hS.le) (mul_le_mul_of_nonneg_right hnb hS.le)
      (bTokensToSharesDown_holds hS hB hdown)
  have hagain : floorDiv (n * r.totalShares) r.totalBTokens = s := by
    rw [hval, bTokensToSharesDown_open hS hB hdown]
    exact floorDiv_ceilDiv_floorDiv hS hB
  rw [bTokensToSharesDown_ok hS hB hn hfit, hagain]

theorem withdraw_recomputed (hS : 0 < r.totalShares) (hB : 0 < r.totalBTokens) (hn : 0 ≤ n)
    (hval : n = floorDiv (s * r.totalBTokens) r.totalShares)
    (hs : s = ceilDiv (b * r.totalShares) r.totalBTokens)
    (hfit : i128.Holds (s * r.totalBTokens)) : r.bTokensToSharesUp n = .ok s := by
  have hle : n * r.totalShares ≤ s * r.totalBTokens := hval ▸ floorDiv_mul_le _ hS
  have hagain : ceilDiv (n * r.totalShares) r.totalBTokens = s := by
    rw [hval, hs]
    exact ceilDiv_floorDiv_ceilDiv hS hB
  rw [bTokensToSharesUp_ok hS hB hn (i128_holds_of_le (mul_nonneg hn hS.le) hle hfit), hagain]

end Plans

/-- Whatever the ratio of shares to bTokens and the rate: the shares planned are
the shares recorded, without a new overflow, and no other number of bTokens
would serve the same shares better. -/
theorem plans_agree (r : StrategyReserves) (amount : ℤ) (hS : 0 < r.totalShares)
    (hB : 0 < r.totalBTokens) (hr : 0 < r.bRate) (ha : 0 < amount) :
    (∀ x n, calculateOptimalDepositAmount amount r = .ok (x, n) →
      ∃ b s, fixedMulFloor amount scalar12 r.bRate = some b ∧
        r.bTokensToSharesDown b = .ok s ∧ r.bTokensToSharesDown n = .ok s ∧
        IsLeast {m | s ≤ floorDiv (m * r.totalShares) r.totalBTokens} n) ∧
    (∀ x n, calculateOptimalWithdrawAmount amount r = .ok (x, n) →
      ∃ b s, fixedMulCeil amount scalar12 r.bRate = some b ∧
        r.bTokensToSharesUp b = .ok s ∧ r.bTokensToSharesUp n = .ok s ∧
        IsGreatest {m | ceilDiv (m * r.totalShares) r.totalBTokens ≤ s} n) := by
  constructor
  · intro x n h
    obtain ⟨b, s, hb, hdown, hval, hnb, hn, _⟩ := deposit_plan_open hS hB h
    refine ⟨b, s, hb, hdown, deposit_recomputed hS hB hn.le hnb hval hdown, ?_, ?_⟩
    · exact (le_floorDiv_iff hB).mpr ((ceilDiv_le_iff hS).mp hval.ge)
    · intro m hm
      rw [hval]
      exact (ceilDiv_le_iff hS).mpr ((le_floorDiv_iff hB).mp hm)
  · intro x n h
    obtain ⟨b, s, hb, hup, hs, hval, hfit, _⟩ := withdraw_plan_open hS hB h
    have hb0 : 0 ≤ b := by
      rw [← (fixedMulCeil_eq_some.mp hb).2.2.2]
      exact ceilDiv_nonneg (mul_nonneg ha.le scalar12_pos.le) hr
    have hs0 : 0 ≤ s := hs ▸ ceilDiv_nonneg (mul_nonneg hb0 hS.le) hB
    have hn : 0 ≤ n := hval ▸ floorDiv_nonneg (mul_nonneg hs0 hB.le) hS
    refine ⟨b, s, hb, hup, withdraw_recomputed hS hB hn hval hs hfit, ?_, ?_⟩
    · exact (ceilDiv_le_iff hB).mpr ((le_floorDiv_iff hS).mp hval.le)
    · intro m hm
      rw [hval]
      exact (le_floorDiv_iff hS).mpr ((ceilDiv_le_iff hB).mp hm)

/-- Seven shares over nine bTokens at rate 1.1. -/
def sampleReserves : StrategyReserves := ⟨7, 9, 1100000000000⟩

/-- A deposit of 11 gives up one bToken that buys nothing, a withdrawal of 8
takes one that costs nothing. -/
theorem plans_agree_sample :
    (calculateOptimalDepositAmount 11 sampleReserves = .ok (10, 9) ∧
      ∃ s, sampleReserves.bTokensToSharesDown 9 = .ok s) ∧
    (calculateOptimalWithdrawAmount 8 sampleReserves = .ok (9, 9) ∧
      ∃ s, sampleReserves.bTokensToSharesUp 9 = .ok s) := by
  have hdeposit : calculateOptimalDepositAmount 11 sampleReserves = .ok (10, 9) := by
    decide +kernel
  have hwithdraw : calculateOptimalWithdrawAmount 8 sampleReserves = .ok (9, 9) := by
    decide +kernel
  have hd := plans_agree sampleReserves 11 (by decide) (by decide) (by decide) (by decide)
  have hw := plans_agree sampleReserves 8 (by decide) (by decide) (by decide) (by decide)
  obtain ⟨_, s, _, _, hs, _⟩ := hd.1 10 9 hdeposit
  obtain ⟨_, s', _, _, hs', _⟩ := hw.2 9 9 hwithdraw
  exact ⟨⟨hdeposit, s, hs⟩, ⟨hwithdraw, s', hs'⟩⟩

end NekoStrategies.BlendPlans
