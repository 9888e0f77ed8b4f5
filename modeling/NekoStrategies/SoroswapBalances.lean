import NekoStrategies.ConstantProduct
import NekoStrategies.StrategyPositions

/-!
# What a Soroswap call does to the strategy's own tokens

A committed deposit takes the whole amount out of the strategy: half for the
swap, the rest as liquidity, because both transfers must match what was
authorised. Of the tokens swapped in, it keeps what the ratio does not ask for.
A committed withdrawal passes on what it removes.
-/
namespace NekoStrategies.SoroswapBalances
open CheckedInteger RoundedDivision SorobanHost ConstantProduct SoroswapPool
open StrategyPositions.Soroswap (ProperConfig)

section Ledger
variable {env : Env} {w w' : World} {auths : List AuthEntry} {config : StrategyConfig}
  {amount k x y : ℤ} {dest : Address}

theorem swap_balances {tokenIn tokenOut : Address} {amounts : List ℤ}
    (hp : config.pair ≠ w.self) (hne : tokenIn ≠ tokenOut)
    (h : swapExactTokensForTokens env w auths config x y tokenIn tokenOut = .ok (amounts, w')) :
    ∃ out, env.amountOut x (w.pair.reservesFrom tokenIn).1 (w.pair.reservesFrom tokenIn).2 =
        some out ∧ amounts = [x, out] ∧ x ≤ w.tokens tokenIn w.self ∧ 0 ≤ out ∧
      w'.tokens tokenIn w.self = w.tokens tokenIn w.self - x ∧
      w'.tokens tokenOut w.self = w.tokens tokenOut w.self + out ∧
      w'.pair = w.pair.move tokenIn x (-out) ∧ w'.self = w.self := by
  obtain ⟨out, tokens, tokens', hout, ht, ht', hamounts, rfl⟩ := swap_ok h
  obtain ⟨_, hle, _⟩ := Ledger.transfer_eq_ok.mp ht
  obtain ⟨hnonneg, _, _⟩ := Ledger.transfer_eq_ok.mp ht'
  refine ⟨out, hout, hamounts, hle, hnonneg, ?_, ?_, rfl, rfl⟩
  · dsimp only
    rw [Ledger.transfer_apply ht', Ledger.transfer_apply ht]
    simp [hne, hp.symm]
  · dsimp only
    rw [Ledger.transfer_apply ht', Ledger.transfer_apply ht]
    simp [hne.symm, hp.symm]

theorem addLiquidity_balances (hc : ProperConfig w.self config)
    (h : addLiquidity env w [.transfer config.tokenA w.self config.pair x,
      .transfer config.tokenB w.self config.pair y] config x y minOut minOut = .ok w') :
    env.addAmounts x y (w.pair.reservesFrom config.tokenA).1
        (w.pair.reservesFrom config.tokenA).2 = some (x, y) ∧
      x ≤ w.tokens config.tokenA w.self ∧
      w'.tokens config.tokenA w.self = w.tokens config.tokenA w.self - x ∧
      w'.tokens config.tokenB w.self = w.tokens config.tokenB w.self - y := by
  obtain ⟨a, b, lp, tokens, tokens', hab, hautha, hauthb, ht, ht', _, rfl⟩ := addLiquidity_ok h
  obtain ⟨_, hle, _⟩ := Ledger.transfer_eq_ok.mp ht
  have ha : a = x := by
    simpa [hc.tokens_ne] using hautha
  have hb : b = y := by
    simpa [hc.tokens_ne.symm] using hauthb
  subst ha hb
  have hpair := hc.pair_ne.symm
  refine ⟨hab, hle, ?_, ?_⟩
  · dsimp only
    rw [Ledger.add_apply, Ledger.transfer_apply ht', Ledger.transfer_apply ht]
    simp [hc.tokens_ne, hc.lp_ne_a.symm, hpair]
  · dsimp only
    rw [Ledger.add_apply, Ledger.transfer_apply ht', Ledger.transfer_apply ht]
    simp [hc.tokens_ne.symm, hc.lp_ne_b.symm, hpair]

/-- A deposit spends `amount` of token_a and keeps the token_b it does not add. -/
theorem deposit_balances (hc : ProperConfig w.self config)
    (h : deposit env w amount config = .ok (k, w')) :
    ∃ out b, env.amountOut (amount.tdiv 2) (w.pair.reservesFrom config.tokenA).1
        (w.pair.reservesFrom config.tokenA).2 = some out ∧ 0 ≤ out ∧
      b = bToAdd (amount - amount.tdiv 2)
        ((w.pair.reservesFrom config.tokenA).1 + amount.tdiv 2)
        ((w.pair.reservesFrom config.tokenA).2 - out) out ∧
      env.addAmounts (amount - amount.tdiv 2) b
        ((w.pair.reservesFrom config.tokenA).1 + amount.tdiv 2)
        ((w.pair.reservesFrom config.tokenA).2 - out) = some (amount - amount.tdiv 2, b) ∧
      amount ≤ w.tokens config.tokenA w.self ∧
      w'.tokens config.tokenA w.self = w.tokens config.tokenA w.self - amount ∧
      w'.tokens config.tokenB w.self = w.tokens config.tokenB w.self + out - b := by
  obtain ⟨swapOut, u, hswap, hadd, _⟩ := deposit_ok h
  obtain ⟨out, hout, rfl, hhalf, hnonneg, ha, hb, hpair, hself⟩ :=
    swap_balances hc.pair_ne hc.tokens_ne hswap
  rw [← hself] at hc
  obtain ⟨hamounts, hrem, ha', hb'⟩ := addLiquidity_balances hc hadd
  simp only [hpair, Pair.reservesFrom_move, ← sub_eq_add_neg, List.getLast?_cons_cons,
    List.getLast?_singleton, Option.getD_some] at hamounts hb'
  rw [hself] at hrem ha' hb'
  refine ⟨out, _, hout, hnonneg, rfl, hamounts, by omega, by omega, by omega⟩

theorem removeLiquidity_balances {a b : ℤ} (hc : ProperConfig w.self config)
    (h : removeLiquidity env w auths config x minOut minOut = .ok ((a, b), w')) :
    0 ≤ a ∧ 0 ≤ b ∧
      w'.tokens config.tokenA w.self = w.tokens config.tokenA w.self + a ∧
      w'.tokens config.tokenB w.self = w.tokens config.tokenB w.self + b ∧
      w'.self = w.self := by
  obtain ⟨tokens, tokens', tokens'', ht, _, ht', ht'', rfl⟩ := removeLiquidity_ok h
  obtain ⟨ha, _, _⟩ := Ledger.transfer_eq_ok.mp ht'
  obtain ⟨hb, _, _⟩ := Ledger.transfer_eq_ok.mp ht''
  have hpair := hc.pair_ne.symm
  refine ⟨ha, hb, ?_, ?_, rfl⟩
  · dsimp only
    rw [Ledger.transfer_apply ht'', Ledger.transfer_apply ht', Ledger.add_apply,
      Ledger.transfer_apply ht]
    simp [hc.tokens_ne, hc.lp_ne_a.symm, hpair]
  · dsimp only
    rw [Ledger.transfer_apply ht'', Ledger.transfer_apply ht', Ledger.add_apply,
      Ledger.transfer_apply ht]
    simp [hc.tokens_ne.symm, hc.lp_ne_b.symm, hpair]

/-- Swapping back turns all of token_b into the token_a counted. -/
theorem swapBack_balances (hc : ProperConfig w.self config) (hy : 0 ≤ y)
    (h : swapBack env w config x y = .ok (k, w')) :
    x ≤ k ∧ w'.tokens config.tokenA w.self = w.tokens config.tokenA w.self + (k - x) ∧
      w'.tokens config.tokenB w.self = w.tokens config.tokenB w.self - y ∧
      w'.self = w.self := by
  rcases swapBack_ok h with ⟨hle, rfl, rfl⟩ | ⟨_, out, hswap, rfl⟩
  · refine ⟨le_rfl, ?_, ?_, rfl⟩ <;> omega
  · obtain ⟨out', _, hamounts, _, hnonneg, hb, ha, _, hself⟩ :=
      swap_balances hc.pair_ne hc.tokens_ne.symm hswap
    obtain rfl : out = out' := by simpa using hamounts
    refine ⟨?_, ?_, hb, hself⟩ <;> omega

theorem payOut_balances (hc : ProperConfig w.self config) (hx : 0 ≤ x)
    (h : payOut w config dest x = .ok w') :
    w'.tokens config.tokenA w.self =
        w.tokens config.tokenA w.self - x + (if dest = w.self then x else 0) ∧
      w'.tokens config.tokenB w.self = w.tokens config.tokenB w.self := by
  rcases payOut_ok h with ⟨hle, rfl⟩ | ⟨_, tokens, ht, rfl⟩
  · have hzero : x = 0 := by omega
    simp [hzero]
  · exact ⟨Ledger.transfer_sender ht, Ledger.transfer_other ht hc.tokens_ne.symm⟩

/-- What a withdrawal removes it passes on, unless to the strategy itself. -/
theorem withdraw_balances (hc : ProperConfig w.self config)
    (h : withdraw env w x dest config = .ok (k, w')) :
    w'.tokens config.tokenA w.self =
        w.tokens config.tokenA w.self + (if dest = w.self then k else 0) ∧
      w'.tokens config.tokenB w.self = w.tokens config.tokenB w.self := by
  obtain ⟨a, b, u, u', hremove, hback, hpay⟩ := withdraw_ok h
  obtain ⟨ha, hb, hua, hub, hself⟩ := removeLiquidity_balances hc hremove
  rw [← hself] at hc
  obtain ⟨hk, hua', hub', hself'⟩ := swapBack_balances hc hb hback
  rw [← hself'] at hc
  obtain ⟨hwa, hwb⟩ := payOut_balances hc (ha.trans hk) hpay
  simp only [hself', hself] at hua' hub' hwa hwb
  constructor
  · rw [hwa]
    omega
  · omega

end Ledger

/-- Liquidity takes the largest amounts at the ratio of the reserves, and no
swap empties the pair. -/
structure RatioRouter (env : Env) : Prop where
  add : ∀ a b reserveA reserveB,
    env.addAmounts a b reserveA reserveB = some (optimalAmounts a b reserveA reserveB)
  swap_lt : ∀ x reserveIn reserveOut out, 0 ≤ x → 0 < reserveIn → 0 < reserveOut →
    env.amountOut x reserveIn reserveOut = some out → out < reserveOut

/-- The ratio after the swap asks for no less than what the swap pays. -/
def Matched (env : Env) (w : World) (amount : ℤ) (config : StrategyConfig) : Prop :=
  ∀ out, env.amountOut (amount.tdiv 2) (w.pair.reservesFrom config.tokenA).1
      (w.pair.reservesFrom config.tokenA).2 = some out →
    out * ((w.pair.reservesFrom config.tokenA).1 + amount.tdiv 2) ≤
      (amount - amount.tdiv 2) * ((w.pair.reservesFrom config.tokenA).2 - out)

theorem deposit_leaves_iff {env : Env} {w w' : World} {config : StrategyConfig} {amount k : ℤ}
    (hr : RatioRouter env) (ha : 0 < (w.pair.reservesFrom config.tokenA).1)
    (hb : 0 < (w.pair.reservesFrom config.tokenA).2) (hamount : 0 < amount)
    (hc : ProperConfig w.self config) (h : deposit env w amount config = .ok (k, w')) :
    w'.tokens config.tokenB w.self = w.tokens config.tokenB w.self ↔
      Matched env w amount config := by
  obtain ⟨out, b, hout, hnonneg, hbAdd, hamounts, _, _, hkept⟩ := deposit_balances hc h
  have hhalf : 0 ≤ amount.tdiv 2 := Int.tdiv_nonneg hamount.le (by decide)
  have hreserveA : 0 < (w.pair.reservesFrom config.tokenA).1 + amount.tdiv 2 := by omega
  have hreserveB : 0 < (w.pair.reservesFrom config.tokenA).2 - out := by
    have := hr.swap_lt _ _ _ _ hhalf ha hb hout
    omega
  have hle : b ≤ out := hbAdd ▸ min_le_right _ _
  rw [hr.add, Option.some.injEq, optimalAmounts_eq_self_iff hreserveA hreserveB] at hamounts
  have hmatched : Matched env w amount config ↔ out ≤ b := by
    simp only [Matched, hout, Option.some.injEq, forall_eq', ← hamounts,
      le_floorDiv_iff hreserveA]
  rw [hmatched, hkept]
  omega

end NekoStrategies.SoroswapBalances
