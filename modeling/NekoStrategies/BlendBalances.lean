import NekoStrategies.BlendAuthority
import NekoStrategies.BlendBankRun
import NekoStrategies.BlendPlans

/-!
# What a Blend deposit or withdrawal does to the reported balance

A balance converts shares to bTokens and bTokens to underlying, rounding down
twice. A plan converts the other way, and recording it changes both totals. All
the same a trade moves the balance of its vault by its amount, up to one bToken
and one unit of rounding: the price of a share never falls, and the vault owns
at most all shares, so the rounding gain of the pool cannot exceed one bToken
however much one share is worth.
-/
namespace NekoStrategies.BlendBalances
open CheckedInteger RoundedDivision SorobanHost BlendReserves BlendContract BlendCalls
open BlendBooks BlendSolvency BlendBankRun BlendPlans SharePool

section Holdings
variable {S S' B B' v s n k : ℤ}

/-- After a fair trade a holding converts to at most what it did plus what it
brought; a withdrawal brings negative amounts. -/
theorem converted_trade_le (hS : 0 < S) (hS' : 0 < S + s) (hv : v ≤ S)
    (hfair : s * B ≤ n * S) :
    floorDiv ((v + s) * (B + n)) (S + s) ≤ floorDiv (v * B) S + n := by
  have hslack := trade_slack hv hfair
  have hfloor := mul_le_mul_of_nonneg_right (floorDiv_mul_le ((v + s) * (B + n)) hS') hS.le
  rw [← sub_le_iff_le_add, le_floorDiv_iff hS]
  refine le_of_mul_le_mul_right ?_ hS'
  linarith

/-- What a holding was worth at the old price it is worth at a higher one. -/
theorem le_converted (hS : 0 < S) (hS' : 0 < S') (hv : 0 ≤ v) (hprice : B * S' ≤ B' * S)
    (hk : k * S ≤ v * B) : k ≤ floorDiv (v * B') S' := by
  rw [le_floorDiv_iff hS']
  refine le_of_mul_le_mul_right ?_ hS
  have hkS := mul_le_mul_of_nonneg_right hk hS'.le
  have hvB := mul_le_mul_of_nonneg_left hprice hv
  linarith

theorem converted_mint (hS : 0 < S) (hs : 0 ≤ s) (hv : 0 ≤ v) (hvS : v ≤ S)
    (hn : n = ceilDiv (s * B) S) :
    floorDiv (v * B) S + n - 1 ≤ floorDiv ((v + s) * (B + n)) (S + s) ∧
      floorDiv ((v + s) * (B + n)) (S + s) ≤ floorDiv (v * B) S + n := by
  have hfair : s * B ≤ n * S := hn ▸ le_ceilDiv_mul _ hS
  constructor
  · apply le_converted hS (by omega) (by omega) (by linarith)
    have hold := floorDiv_mul_le (v * B) hS
    have hnew : (n - 1) * S < s * B := hn ▸ ceilDiv_sub_one_mul_lt _ hS
    linarith
  · exact converted_trade_le hS (by omega) hvS hfair

theorem converted_burn (hS : 0 < S) (hsS : s < S) (hsv : s ≤ v) (hvS : v ≤ S)
    (hn : n = floorDiv (s * B) S) :
    floorDiv (v * B) S - n - 1 ≤ floorDiv ((v - s) * (B - n)) (S - s) ∧
      floorDiv ((v - s) * (B - n)) (S - s) ≤ floorDiv (v * B) S - n := by
  have hfair : n * S ≤ s * B := hn ▸ floorDiv_mul_le _ hS
  constructor
  · apply le_converted hS (by omega) (by omega) (by linarith)
    have hold := floorDiv_mul_le (v * B) hS
    have hnew : s * B < (n + 1) * S := hn ▸ lt_floorDiv_add_one_mul _ hS
    linarith
  · have h := converted_trade_le (s := -s) (n := -n) hS (by omega) hvS (by linarith)
    simpa only [← sub_eq_add_neg] using h

end Holdings

section Underlying
variable {c c' n r : ℤ}

/-- One bToken lost costs at most its value rounded up, and rounding the charge
one unit more. -/
theorem balance_after_deposit (hr : 0 < r) (hlow : c + n - 1 ≤ c') (hhigh : c' ≤ c + n) :
    floorDiv (c * r) scalar12 + ceilDiv (n * r) scalar12 - (ceilDiv r scalar12 + 1) ≤
        floorDiv (c' * r) scalar12 ∧
      floorDiv (c' * r) scalar12 ≤ floorDiv (c * r) scalar12 + ceilDiv (n * r) scalar12 := by
  have hK := scalar12_pos
  constructor
  · have hmono : floorDiv (c * r + n * r - r) scalar12 ≤ floorDiv (c' * r) scalar12 :=
      floorDiv_mono hK (by nlinarith)
    have hone := le_floorDiv_sub (a := c * r + n * r) (c := r) hK
    have hsum := floorDiv_add_le (a := c * r) (c := n * r) hK
    have hround := ceilDiv_le_floorDiv_add_one (a := n * r) hK
    linarith
  · have hmono : floorDiv (c' * r) scalar12 ≤ floorDiv (c * r + n * r) scalar12 :=
      floorDiv_mono hK (by nlinarith)
    exact hmono.trans (floorDiv_add_le_ceilDiv hK)

theorem balance_after_withdrawal (hr : 0 < r) (hlow : c - n - 1 ≤ c') (hhigh : c' ≤ c - n) :
    floorDiv (c * r) scalar12 - floorDiv (n * r) scalar12 - (ceilDiv r scalar12 + 1) ≤
        floorDiv (c' * r) scalar12 ∧
      floorDiv (c' * r) scalar12 ≤ floorDiv (c * r) scalar12 - floorDiv (n * r) scalar12 := by
  have hK := scalar12_pos
  constructor
  · have hmono : floorDiv (c * r - n * r - r) scalar12 ≤ floorDiv (c' * r) scalar12 :=
      floorDiv_mono hK (by nlinarith)
    have hone := le_floorDiv_sub (a := c * r - n * r) (c := r) hK
    have hsum := le_floorDiv_sub (a := c * r) (c := n * r) hK
    have hround := ceilDiv_le_floorDiv_add_one (a := n * r) hK
    linarith
  · have hmono : floorDiv (c' * r) scalar12 ≤ floorDiv (c * r - n * r) scalar12 :=
      floorDiv_mono hK (by nlinarith)
    exact hmono.trans (floorDiv_sub_le hK)

end Underlying

/-- The balance of a vault at the rate `r`, over unbounded integers. -/
def exactBalance (s : Storage) (r : ℤ) (vault : Address) : ℤ :=
  reported (getStrategyReserves s).totalShares (getStrategyReserves s).totalBTokens r
    (getVaultShares s vault)

section Balances
variable {env : Env} {w w' : World} {vault dest : Address} {amount b k x n : ℤ}

/-- Without shares nobody holds any, and everything counts as zero. -/
theorem exactBalance_empty (hb : Backed 1000 (books w.storage))
    (hS : (books w.storage).totalShares = 0) (r : ℤ) (vault : Address) :
    getVaultShares w.storage vault = 0 ∧ exactBalance w.storage r vault = 0 := by
  have hshares : getVaultShares w.storage vault = 0 := by
    have ht := hb.total_nonneg
    obtain ⟨_, htotal, _⟩ := hb.books.resolve_right fun hopen => by omega
    exact hb.amount_eq_zero htotal vault
  refine ⟨hshares, ?_⟩
  simp [exactBalance, reported, hshares]

theorem balance_exact (hb : Backed 1000 (books w.storage)) (h : balance env w vault = .ok b) :
    b = exactBalance w.storage env.bRate vault := by
  rcases hb.pos_or_zero (by decide) with hS | ⟨hS, _⟩
  · obtain ⟨hshares, hzero⟩ := exactBalance_empty hb hS env.bRate vault
    unfold balance at h
    simp only [hshares, lt_self_iff_false, if_false, pure_eq_ok] at h
    rw [hzero, ← h]
  · exact balance_open hb hS h

/-- Shares, bTokens and the vault's part of them in a state with shares. -/
theorem held_bounds (hb : Backed 1000 (books w.storage))
    (hS : 0 < (books w.storage).totalShares) (vault : Address) :
    0 < (books w.storage).assets ∧ 0 ≤ getVaultShares w.storage vault ∧
      getVaultShares w.storage vault + 1000 ≤ (books w.storage).totalShares := by
  have hopen := hb.open_books hS
  have hi : getVaultShares w.storage vault ≤ (books w.storage).held.total :=
    hb.nonneg.amount_le_total
  exact ⟨by omega, hb.nonneg vault, by omega⟩

/-- The charge of a planned deposit is positive and within the amount offered. -/
theorem deposit_charge_le {r : StrategyReserves}
    (hopen : r.totalShares = 0 ∨ (0 < r.totalShares ∧ 0 < r.totalBTokens)) (hr : 0 < r.bRate)
    (h : calculateOptimalDepositAmount amount r = .ok (x, n)) : 0 < x ∧ x ≤ amount := by
  obtain ⟨b, hb, hopt, hn, hx⟩ := calculateOptimalDepositAmount_ok h
  have hnb : n ≤ b := by
    rcases hopen with hS | ⟨hS, hB⟩
    · obtain ⟨_, rfl⟩ := (optimalBTokenAmount_ok hopt).resolve_right fun hne => hne.1 hS
      exact le_rfl
    · obtain ⟨b', _, hb', _, _, hle, _, _⟩ := deposit_plan_open hS hB h
      obtain rfl := Option.some.inj (hb.symm.trans hb')
      exact hle
  rw [← (fixedMulCeil_eq_some.mp hx).2.2.2]
  refine ⟨ceilDiv_pos (mul_pos hn hr) scalar12_pos, (ceilDiv_le_iff scalar12_pos).mpr ?_⟩
  calc n * r.bRate ≤ b * r.bRate := mul_le_mul_of_nonneg_right hnb hr.le
    _ ≤ amount * scalar12 := by
      rw [← (fixedMulFloor_eq_some.mp hb).2.2.2]
      exact floorDiv_mul_le _ hr

theorem deposit_balance (hb : Backed 1000 (books w.storage))
    (hS : 0 < (books w.storage).totalShares) (hr : 0 < env.bRate)
    (h : BlendContract.deposit env w amount vault = .ok (k, w')) :
    ∃ x n, calculateOptimalDepositAmount amount
        (getStrategyReserveUpdated w.storage env.bRate) = .ok (x, n) ∧
      exactBalance w.storage env.bRate vault + x - (ceilDiv env.bRate scalar12 + 1) ≤ k ∧
      k ≤ exactBalance w.storage env.bRate vault + x := by
  obtain ⟨_, _, config, x, n, minted, v, q, tokens, storage, _, hplan, _, hrec, hk, _⟩ :=
    deposit_ok h
  obtain ⟨hB, hv, hvS⟩ := held_bounds hb hS vault
  obtain ⟨b, s, _, hdown, hval, hnb, hn, hx⟩ :=
    deposit_plan_open (r := getStrategyReserveUpdated w.storage env.bRate) hS hB hplan
  have hs := deposit_recomputed (r := getStrategyReserveUpdated w.storage env.bRate) hS hB
    hn.le hnb hval hdown
  obtain ⟨_, minted', credited, hs', hspos, hcredited, rfl, _, rfl, _, _, _⟩ :=
    deposit_recorded hrec
  obtain rfl : s = minted' := Except.ok.inj (hs.symm.trans hs')
  obtain ⟨_, rfl⟩ := (newVaultMintedShares_ok hcredited).resolve_left fun hz => hS.ne' hz.1
  obtain ⟨hlow, hhigh⟩ := converted_mint (B := (books w.storage).assets) hS hspos.le hv
    (by omega) hval
  have hkval := sharesToUnderlying_open (by exact add_pos hS hspos) (by exact add_pos hB hn) hk
  refine ⟨x, n, hplan, ?_⟩
  rw [hkval, hx]
  exact balance_after_deposit hr hlow hhigh

end Balances

/-- From every reachable state and at every positive rate: the charge of a
planned deposit is positive and leaves no negative refund, and once shares exist
a deposit raises its vault's balance by the charge, less at most one bToken's
value rounded up and one unit. -/
theorem deposit_loses_dust (w₀ : World) (acts : List Action) (hw : Deployed w₀) (env : Env)
    (vault : Address) (amount : ℤ) (hr : 0 < env.bRate) :
    let w := run w₀ acts
    let before := exactBalance w.storage env.bRate vault
    (∀ b, balance env w vault = .ok b → b = before) ∧
    (∀ x n, calculateOptimalDepositAmount amount
        (getStrategyReserveUpdated w.storage env.bRate) = .ok (x, n) →
      0 < x ∧ x ≤ amount) ∧
    (0 < (getStrategyReserves w.storage).totalShares →
      ∀ k w', BlendContract.deposit env w amount vault = .ok (k, w') →
      ∃ x n, calculateOptimalDepositAmount amount
          (getStrategyReserveUpdated w.storage env.bRate) = .ok (x, n) ∧
        before + x - (ceilDiv env.bRate scalar12 + 1) ≤ k ∧ k ≤ before + x) ∧
    (∀ k w', BlendContract.deposit env w amount vault = .ok (k, w') →
      BlendAuthority.Charged env w w' amount vault) := by
  intro w before
  have hb : Backed 1000 (books w.storage) := run_backed acts (Deployed.backed hw)
  refine ⟨fun b => balance_exact hb, ?_, ?_, fun k w' => BlendAuthority.deposit_charged⟩
  · intro x n h
    exact deposit_charge_le (r := getStrategyReserveUpdated w.storage env.bRate)
      (hb.pos_or_zero (by decide)) hr h
  · intro hS k w' h
    exact deposit_balance hb hS hr h

theorem deposit_loses_dust_sample :
    ∃ k w', BlendContract.deposit (sampleEnv (.account 2)) (run sampleWorld sampleActions) 1105
        (.account 2) = .ok (k, w') ∧
      ∃ x n, calculateOptimalDepositAmount 1105 (getStrategyReserveUpdated
          (run sampleWorld sampleActions).storage 1100000000000) = .ok (x, n) ∧
        0 < x ∧ x ≤ 1105 ∧ 2200 + x - 3 ≤ k ∧ k ≤ 2200 + x ∧
        w'.tokens sampleAsset (.account 2) =
          (run sampleWorld sampleActions).tokens sampleAsset (.account 2) - x := by
  have h := deposit_loses_dust sampleWorld sampleActions sampleWorld_deployed
    (sampleEnv (.account 2)) (.account 2) 1105 (by decide)
  obtain ⟨k, w', hcall⟩ : ∃ k w', BlendContract.deposit (sampleEnv (.account 2))
      (run sampleWorld sampleActions) 1105 (.account 2) = .ok (k, w') := ⟨_, _, rfl⟩
  have hbefore : exactBalance (run sampleWorld sampleActions).storage 1100000000000
      (.account 2) = 2200 := by decide +kernel
  have hone : ceilDiv 1100000000000 scalar12 = 2 := by decide +kernel
  obtain ⟨x, n, hplan, hlow, hhigh⟩ := h.2.2.1 (by decide +kernel) k w' hcall
  obtain ⟨config, charged, _, hconfig, hplan', _, hmoved, _⟩ := h.2.2.2 k w' hcall
  obtain ⟨rfl, _⟩ := Prod.mk.inj (Except.ok.inj (hplan'.symm.trans hplan))
  obtain rfl : sampleConfig = config := Option.some.inj hconfig
  obtain ⟨hpos, hle⟩ := h.2.1 charged n hplan
  change exactBalance _ 1100000000000 _ + charged - (ceilDiv 1100000000000 scalar12 + 1) ≤ k at hlow
  change k ≤ exactBalance _ 1100000000000 _ + charged at hhigh
  rw [hbefore] at hlow hhigh
  rw [hone] at hlow
  refine ⟨k, w', hcall, charged, n, hplan, hpos, hle, hlow, hhigh, ?_⟩
  rw [hmoved sampleAsset (.account 2)]
  simp [sampleConfig, sampleAsset, samplePool]

section Withdrawals
variable {env : Env} {w w' : World} {vault dest : Address} {amount b k x n s S B r : ℤ}

/-- What two roundings up and two down add to the amount asked for. -/
theorem payment_excess (hS : 0 < S) (hB : 0 < B) (hr : 0 < r)
    (hb : b = ceilDiv (amount * scalar12) r) (hs : s = ceilDiv (b * S) B)
    (hn : n = floorDiv (s * B) S) (hx : x = floorDiv (n * r) scalar12) :
    (x : ℚ) - amount < r / scalar12 * (1 + B / S) := by
  have hbr : (b - 1) * r < amount * scalar12 := hb ▸ ceilDiv_sub_one_mul_lt _ hr
  have hsB : (s - 1) * B < b * S := hs ▸ ceilDiv_sub_one_mul_lt _ hB
  have hnS : n * S ≤ s * B := hn ▸ floorDiv_mul_le _ hS
  have hxK : x * scalar12 ≤ n * r := hx ▸ floorDiv_mul_le _ scalar12_pos
  have hbound : x * (scalar12 * S) < amount * (scalar12 * S) + r * (S + B) := by
    calc x * (scalar12 * S) = x * scalar12 * S := by ring
      _ ≤ n * r * S := mul_le_mul_of_nonneg_right hxK hS.le
      _ = n * S * r := by ring
      _ ≤ s * B * r := mul_le_mul_of_nonneg_right hnS hr.le
      _ < (b * S + B) * r := mul_lt_mul_of_pos_right (by linarith) hr
      _ = (b - 1) * r * S + r * (S + B) := by ring
      _ ≤ amount * scalar12 * S + r * (S + B) := by
        linarith [mul_le_mul_of_nonneg_right hbr.le hS.le]
      _ = amount * (scalar12 * S) + r * (S + B) := by ring
  have hK : (0 : ℚ) < scalar12 := by exact_mod_cast scalar12_pos
  have hSq : (0 : ℚ) < S := by exact_mod_cast hS
  have hfrac : (r : ℚ) / scalar12 * (1 + B / S) = r * (S + B) / (scalar12 * S) := by
    field_simp
  rw [hfrac, lt_div_iff₀ (mul_pos hK hSq), sub_mul, sub_lt_iff_lt_add']
  exact_mod_cast hbound

/-- Beyond the balance the shares of the plan exceed those of the vault. -/
theorem shares_exceeded {v : ℤ} (hS : 0 < S) (hB : 0 < B) (hr : 0 < r)
    (hlt : reported S B r v < amount) (hb : b = ceilDiv (amount * scalar12) r)
    (hs : s = ceilDiv (b * S) B) : v < s := by
  have hamount : floorDiv (v * B) S * r < amount * scalar12 :=
    (floorDiv_lt_iff scalar12_pos).mp hlt
  have hvb : floorDiv (v * B) S < b := by
    rw [hb]
    exact (lt_ceilDiv_iff hr).mpr hamount
  rw [hs]
  exact (lt_ceilDiv_iff hB).mpr ((floorDiv_lt_iff hS).mp hvb)

theorem withdraw_burns (hb : Backed 1000 (books w.storage))
    (h : BlendContract.withdraw env w amount vault dest = .ok (k, w')) :
    0 < (books w.storage).totalShares ∧ ∃ b s n x,
      calculateOptimalWithdrawAmount amount (getStrategyReserveUpdated w.storage env.bRate) =
        .ok (x, n) ∧
      b = ceilDiv (amount * scalar12) env.bRate ∧
      s = ceilDiv (b * (books w.storage).totalShares) (books w.storage).assets ∧
      n = floorDiv (s * (books w.storage).assets) (books w.storage).totalShares ∧
      x = floorDiv (n * env.bRate) scalar12 ∧ s ≤ getVaultShares w.storage vault ∧
      sharesToUnderlying (getVaultShares w.storage vault - s)
        ⟨(books w.storage).totalShares - s, (books w.storage).assets - n, env.bRate⟩ = .ok k := by
  obtain ⟨_, _, config, x, n, due, v, q, tokens, storage, _, hplan, _, _, hrec, hk, _⟩ :=
    withdraw_ok h
  have hS : 0 < (books w.storage).totalShares := (withdraw_move hb hrec).leave_open
  obtain ⟨hB, _, _⟩ := held_bounds hb hS vault
  obtain ⟨b, s, hbt, _, hs, hval, hfit, hx⟩ :=
    withdraw_plan_open (r := getStrategyReserveUpdated w.storage env.bRate) hS hB hplan
  obtain ⟨hn, s', hs', _, _, hsv, rfl, rfl, _⟩ := withdraw_recorded hrec
  have hagain := withdraw_recomputed (r := getStrategyReserveUpdated w.storage env.bRate) hS hB
    hn.le hval hs hfit
  obtain rfl : s = s' := Except.ok.inj (hagain.symm.trans hs')
  exact ⟨hS, b, s, n, x, hplan, (fixedMulCeil_eq_some.mp hbt).2.2.2.symm, hs, hval, hx, hsv, hk⟩

theorem withdraw_within_balance (hb : Backed 1000 (books w.storage)) (hr : 0 < env.bRate)
    (h : BlendContract.withdraw env w amount vault dest = .ok (k, w')) :
    amount ≤ exactBalance w.storage env.bRate vault := by
  obtain ⟨hS, b, s, n, x, _, hbval, hs, _, _, hsv, _⟩ := withdraw_burns hb h
  obtain ⟨hB, _, _⟩ := held_bounds hb hS vault
  by_contra hlt
  exact (shares_exceeded hS hB hr (not_le.mp hlt) hbval hs).not_ge hsv

theorem withdraw_balance (hb : Backed 1000 (books w.storage)) (hr : 0 < env.bRate)
    (h : BlendContract.withdraw env w amount vault dest = .ok (k, w')) :
    ∃ x n, calculateOptimalWithdrawAmount amount
        (getStrategyReserveUpdated w.storage env.bRate) = .ok (x, n) ∧
      amount ≤ x ∧ x ≤ exactBalance w.storage env.bRate vault ∧
      (x : ℚ) - amount < env.bRate / scalar12 *
        (1 + (books w.storage).assets / (books w.storage).totalShares) ∧
      exactBalance w.storage env.bRate vault - x - (ceilDiv env.bRate scalar12 + 1) ≤ k ∧
      k ≤ exactBalance w.storage env.bRate vault - x := by
  have hle := withdraw_within_balance hb hr h
  obtain ⟨ha, _⟩ := withdraw_ok h
  obtain ⟨hS, b, s, n, x, hplan, hbval, hs, hval, hx, hsv, hk⟩ := withdraw_burns hb h
  obtain ⟨hB, hv, hvS⟩ := held_bounds hb hS vault
  have hbounds := plan_bounds hS hB hr ha hle
  rw [← hbval] at hbounds
  simp only [← hs, ← hval, ← hx] at hbounds
  obtain ⟨_, _, _, _, hnv, hax⟩ := hbounds
  obtain ⟨hlow, hhigh⟩ := converted_burn hS (by omega) hsv (by omega) hval
  have hS' : 0 < (books w.storage).totalShares - s := by omega
  have hB' : 0 < (books w.storage).assets - n := by
    have hfair : n * (books w.storage).totalShares ≤ s * (books w.storage).assets :=
      hval ▸ floorDiv_mul_le _ hS
    have hcover := cover_after_burn hS (hb.open_books hS).2 (by omega) hfair
    omega
  have hkval := sharesToUnderlying_open hS' hB' hk
  obtain ⟨hkl, hkh⟩ := balance_after_withdrawal hr hlow hhigh
  rw [← hkval, ← hx] at hkl hkh
  refine ⟨x, n, hplan, hax, ?_, payment_excess hS hB hr hbval hs hval hx, hkl, hkh⟩
  rw [hx]
  exact floorDiv_mono scalar12_pos (mul_le_mul_of_nonneg_right hnv hr.le)

theorem withdraw_admissible (hb : Backed 1000 (books w.storage)) {config : Config}
    (hconfig : w.storage.config = some config) (hr : 0 < env.bRate) (ha : 0 < amount)
    (hle : amount ≤ exactBalance w.storage env.bRate vault)
    (hSB : i128.Holds ((books w.storage).totalShares * (books w.storage).assets))
    (hBr : i128.Holds ((books w.storage).assets * env.bRate))
    (hauth : env.caller.Authorises vault)
    (hpool : ∀ x n, calculateOptimalWithdrawAmount amount
      (getStrategyReserveUpdated w.storage env.bRate) = .ok (x, n) →
      ∃ out, poolWithdraw env w dest x config = .ok out) :
    balance env w vault = .ok (exactBalance w.storage env.bRate vault) ∧
      ∃ out, BlendContract.withdraw env w amount vault dest = .ok out := by
  have hS : 0 < (books w.storage).totalShares := by
    refine ((hb.pos_or_zero (by decide)).resolve_left fun hS => ?_).1
    have hzero := (exactBalance_empty hb hS env.bRate vault).2
    omega
  obtain ⟨hB, hv, hvS⟩ := held_bounds hb hS vault
  have hvle : getVaultShares w.storage vault ≤ (books w.storage).totalShares := by omega
  constructor
  · obtain ⟨out, hout⟩ := sharesToUnderlying_succeeds
      (q := getStrategyReserveUpdated w.storage env.bRate) hv hvle hS hB hr hSB hBr
    have hbalance : ∃ out, balance env w vault = .ok out := by
      unfold balance
      dsimp only
      split_ifs with hpos
      · simp only [getConfig, hconfig, okOr, orFault, ok_bind]
        exact ⟨out, hout⟩
      · exact ⟨0, rfl⟩
    obtain ⟨b, h⟩ := hbalance
    rw [h, balance_exact hb h]
  · obtain ⟨x, n, s, hplan, hup, hn, hnB, hs, hsv, _⟩ :=
      plan_exists (q := getStrategyReserveUpdated w.storage env.bRate) hS hB hr hSB hBr
        hvle ha hle
    obtain ⟨⟨y, u⟩, hout⟩ := hpool x n hplan
    obtain ⟨rfl, hstorage⟩ : y = x ∧ u.storage = w.storage := by
      obtain ⟨due, tokens, _, _, rfl⟩ := poolWithdraw_ok hout
      simp only [poolWithdraw, bind_eq_ok, pure_eq_ok, Prod.mk.injEq] at hout
      obtain ⟨_, _, rfl, _⟩ := hout
      exact ⟨rfl, rfl⟩
    obtain ⟨k, w', h⟩ := withdraw_completes hb hconfig hS hr hSB hBr hauth ha hplan hup hn hnB hs
      hsv ⟨u, hout, hstorage⟩
    exact ⟨_, h⟩

end Withdrawals

/-- From every reachable state and at every positive rate, an amount is admitted
exactly up to the balance of the vault: beyond it the withdrawal fails, up to it
the withdrawal succeeds if the pool's part does and the products of the books
fit. What is paid covers the amount, exceeds it by less than one bToken and one
share, and is what the balance loses, up to one bToken rounded up and one unit. -/
theorem withdraw_up_to_balance (w₀ : World) (acts : List Action) (hw : Deployed w₀) (env : Env)
    (vault dest : Address) (amount : ℤ) (hr : 0 < env.bRate) (ha : 0 < amount) :
    let w := run w₀ acts
    let S := (getStrategyReserves w.storage).totalShares
    let B := (getStrategyReserves w.storage).totalBTokens
    let plan := calculateOptimalWithdrawAmount amount
      (getStrategyReserveUpdated w.storage env.bRate)
    let before := exactBalance w.storage env.bRate vault
    (∀ b, balance env w vault = .ok b → b = before) ∧
    (before < amount → ∀ out, BlendContract.withdraw env w amount vault dest ≠ .ok out) ∧
    (amount ≤ before → i128.Holds (S * B) → i128.Holds (B * env.bRate) →
      env.caller.Authorises vault →
      (∀ config x n, w.storage.config = some config → plan = .ok (x, n) →
        ∃ out, poolWithdraw env w dest x config = .ok out) →
      balance env w vault = .ok before ∧
        ∃ out, BlendContract.withdraw env w amount vault dest = .ok out) ∧
    (∀ k w', BlendContract.withdraw env w amount vault dest = .ok (k, w') →
      ∃ x n, plan = .ok (x, n) ∧ amount ≤ x ∧ x ≤ before ∧
        (x : ℚ) - amount < env.bRate / scalar12 * (1 + B / S) ∧
        before - x - (ceilDiv env.bRate scalar12 + 1) ≤ k ∧ k ≤ before - x) := by
  intro w S B plan before
  have hb : Backed 1000 (books w.storage) := run_backed acts (Deployed.backed hw)
  refine ⟨fun b => balance_exact hb, ?_, ?_, ?_⟩
  · rintro hlt ⟨k, w'⟩ h
    exact (withdraw_within_balance hb hr h).not_gt hlt
  · intro hle hSB hBr hauth hpool
    obtain ⟨config, hconfig⟩ := Deployed.config_some hw
    have hconfig' := run_config acts hconfig
    exact withdraw_admissible hb hconfig' hr ha hle hSB hBr hauth fun x n hplan =>
      hpool config x n hconfig' hplan
  · intro k w' h
    exact withdraw_balance hb hr h

theorem withdraw_up_to_balance_sample :
    (∀ out, BlendContract.withdraw (sampleEnv (.account 1)) (run sampleWorld sampleActions) 3301
        (.account 1) (.account 3) ≠ .ok out) ∧
      ∃ k w', BlendContract.withdraw (sampleEnv (.account 1)) (run sampleWorld sampleActions) 1000
          (.account 1) (.account 3) = .ok (k, w') ∧
        ∃ x n, calculateOptimalWithdrawAmount 1000 (getStrategyReserveUpdated
            (run sampleWorld sampleActions).storage 1100000000000) = .ok (x, n) ∧
          1000 ≤ x ∧ x ≤ 3300 ∧ k ≤ 3300 - x := by
  have hbefore : exactBalance (run sampleWorld sampleActions).storage 1100000000000
      (.account 1) = 3300 := by decide +kernel
  have hbeyond := withdraw_up_to_balance sampleWorld sampleActions sampleWorld_deployed
    (sampleEnv (.account 1)) (.account 1) (.account 3) 3301 (by decide) (by decide)
  have hwithin := withdraw_up_to_balance sampleWorld sampleActions sampleWorld_deployed
    (sampleEnv (.account 1)) (.account 1) (.account 3) 1000 (by decide) (by decide)
  obtain ⟨k, w', hcall⟩ : ∃ k w', BlendContract.withdraw (sampleEnv (.account 1))
      (run sampleWorld sampleActions) 1000 (.account 1) (.account 3) = .ok (k, w') :=
    ⟨_, _, rfl⟩
  refine ⟨hbeyond.2.1 ?_, k, w', hcall, ?_⟩
  · change exactBalance _ 1100000000000 _ < 3301
    rw [hbefore]
    decide
  · obtain ⟨x, n, hplan, hax, hxb, _, _, hk⟩ := hwithin.2.2.2 k w' hcall
    change x ≤ exactBalance _ 1100000000000 _ at hxb
    change k ≤ exactBalance _ 1100000000000 _ - x at hk
    rw [hbefore] at hxb hk
    exact ⟨x, n, hplan, hax, hxb, hk⟩

end NekoStrategies.BlendBalances
