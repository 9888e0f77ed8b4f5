import NekoStrategies.ConstantProduct
import NekoStrategies.StrategyPositions

/-!
# What a Soroswap deposit authorises

The strategy authorises two transfers before it adds liquidity, and the router
pulls the amounts of its own ratio rule. The router caps both desired amounts;
the strategy caps only the second. The two rules agree exactly when the tokens
received for the first half cover the ratio for the second half.
-/
namespace NekoStrategies.SoroswapAuthorisation
open CheckedInteger SorobanHost ConstantProduct SoroswapPool

/-- What the swap of the first half of `amount` pays at reserves `ra`, `rb`. -/
def received (amount ra rb : ℤ) : ℤ := amountOut (amount.tdiv 2) ra rb

/-- The transfers authorised for adding liquidity after the swap. -/
def authorised (amount ra rb : ℤ) : ℤ × ℤ :=
  (amount - amount.tdiv 2, bToAdd (amount - amount.tdiv 2) (ra + amount.tdiv 2)
    (rb - received amount ra rb) (received amount ra rb))

/-- The transfers that the router makes when these are desired. -/
def pulled (amount ra rb : ℤ) : ℤ × ℤ :=
  optimalAmounts (authorised amount ra rb).1 (authorised amount ra rb).2
    (ra + amount.tdiv 2) (rb - received amount ra rb)

/-- With the tokens received, one more would overshoot the ratio for the second
half, and the ratio is computed without overflow. -/
def Affordable (amount ra rb : ℤ) : Prop :=
  i128.Holds ((amount - amount.tdiv 2) * (rb - received amount ra rb)) ∧
    (amount - amount.tdiv 2) * (rb - received amount ra rb) <
      (received amount ra rb + 1) * (ra + amount.tdiv 2)

instance (amount ra rb : ℤ) : Decidable (Affordable amount ra rb) :=
  inferInstanceAs (Decidable (_ ∧ _))

/-- A deposit that can be split and a pool whose reserve after the swap is
still an `i128`. -/
structure InRange (amount ra rb : ℤ) : Prop where
  amount_ge : 2 ≤ amount
  amount_holds : i128.Holds amount
  ra_pos : 0 < ra
  rb_pos : 0 < rb
  reserve_holds : i128.Holds (ra + amount.tdiv 2)

/-- The router's two rules. -/
structure ConstantProductRouter (env : Env) : Prop where
  swap : ∀ x reserveIn reserveOut,
    env.amountOut x reserveIn reserveOut = some (amountOut x reserveIn reserveOut)
  add : ∀ a b reserveA reserveB,
    env.addAmounts a b reserveA reserveB = some (optimalAmounts a b reserveA reserveB)

/-- The vault has transferred `amount`, the pair holds its reserves, and the
deadline is a time stamp. -/
structure Funded (env : Env) (w : World) (amount : ℤ) (config : StrategyConfig) (ra rb : ℤ) :
    Prop where
  tokens_ne : config.tokenA ≠ config.tokenB
  reserves : w.pair.reservesFrom config.tokenA = (ra, rb)
  deadline : u64.Holds (env.timestamp + 3600)
  held : amount ≤ w.tokens config.tokenA w.self
  backed : rb ≤ w.tokens config.tokenB config.pair

section Rules
variable {amount ra rb : ℤ}

theorem InRange.halves (h : InRange amount ra rb) :
    0 < amount.tdiv 2 ∧ 0 < amount - amount.tdiv 2 ∧ amount - amount.tdiv 2 ≤ amount := by
  have hge := h.amount_ge
  rw [Int.tdiv_eq_ediv_of_nonneg (by omega)]
  omega

theorem InRange.received_nonneg (h : InRange amount ra rb) : 0 ≤ received amount ra rb :=
  amountOut_nonneg h.halves.1.le h.ra_pos h.rb_pos.le

theorem InRange.received_lt (h : InRange amount ra rb) : received amount ra rb < rb :=
  amountOut_lt h.halves.1.le h.ra_pos h.rb_pos

theorem InRange.reserves_pos (h : InRange amount ra rb) :
    0 < ra + amount.tdiv 2 ∧ 0 < rb - received amount ra rb := by
  have := h.halves.1
  have := h.ra_pos
  have := h.received_lt
  omega

/-- Without overflow the strategy asks for the smaller of optimum and receipt. -/
theorem bToAdd_of_holds {rem a b out : ℤ} (hrem : 0 < rem) (ha : 0 < a) (hb : 0 < b)
    (h : i128.Holds (rem * b)) :
    bToAdd rem a b out = min (RoundedDivision.floorDiv (rem * b) a) out := by
  unfold bToAdd
  rw [Width.mulDivOrZero_of_holds (by decide) (mul_nonneg hrem.le hb.le) ha h]

theorem bToAdd_of_overflow {rem a b out : ℤ} (hout : 0 ≤ out) (h : ¬i128.Holds (rem * b)) :
    bToAdd rem a b out = 0 := by
  unfold bToAdd
  rw [Width.mulDivOrZero_of_not_holds h, min_eq_left hout]

theorem InRange.bToAdd_nonneg (h : InRange amount ra rb) :
    0 ≤ (authorised amount ra rb).2 := by
  obtain ⟨hra, hrb⟩ := h.reserves_pos
  have hrem := h.halves.2.1
  unfold authorised
  by_cases hholds : i128.Holds ((amount - amount.tdiv 2) * (rb - received amount ra rb))
  · rw [bToAdd_of_holds hrem hra hrb hholds]
    apply le_min
    · exact RoundedDivision.floorDiv_nonneg (mul_nonneg hrem.le hrb.le) hra
    · exact h.received_nonneg
  · rw [bToAdd_of_overflow h.received_nonneg hholds]

/-- Short of affordable tokens, the router takes less of the first one. -/
theorem InRange.pulled_lt (h : InRange amount ra rb) (hshort : ¬Affordable amount ra rb) :
    0 ≤ (pulled amount ra rb).1 ∧ (pulled amount ra rb).1 < (authorised amount ra rb).1 ∧
      (pulled amount ra rb).2 = (authorised amount ra rb).2 := by
  obtain ⟨hra, hrb⟩ := h.reserves_pos
  have hrem := h.halves.2.1
  have hnonneg := h.bToAdd_nonneg
  have hlt : (authorised amount ra rb).2 <
      RoundedDivision.floorDiv ((amount - amount.tdiv 2) * (rb - received amount ra rb))
        (ra + amount.tdiv 2) := by
    by_cases hholds : i128.Holds ((amount - amount.tdiv 2) * (rb - received amount ra rb))
    · have hover := (optimum_le_iff hra).not.mpr fun hlt => hshort ⟨hholds, hlt⟩
      unfold authorised
      rw [bToAdd_of_holds hrem hra hrb hholds, min_eq_right (not_le.mp hover).le]
      exact not_le.mp hover
    · -- the product exceeds every `i128`, the reserve among them
      unfold authorised
      rw [bToAdd_of_overflow h.received_nonneg hholds]
      have hprod := mul_pos hrem hrb
      have hreserve := h.reserve_holds
      apply Int.lt_of_add_one_le
      apply (RoundedDivision.le_floorDiv_iff hra).mpr
      simp only [i128, Width.Holds] at hholds hreserve
      omega
  have hpulled := optimalAmounts_of_lt hlt
  change pulled amount ra rb = _ at hpulled
  rw [hpulled]
  refine ⟨?_, floorDiv_lt_of_short hra hrb hlt, rfl⟩
  exact RoundedDivision.floorDiv_nonneg (mul_nonneg hnonneg hra.le) hrb

theorem InRange.pulled_eq (h : InRange amount ra rb) (hok : Affordable amount ra rb) :
    pulled amount ra rb = authorised amount ra rb := by
  obtain ⟨hra, hrb⟩ := h.reserves_pos
  unfold pulled authorised
  rw [bToAdd_of_holds h.halves.2.1 hra hrb hok.1]
  exact (optimalAmounts_min_iff hra hrb).mpr ((optimum_le_iff hra).mpr hok.2)

theorem InRange.pulled_eq_iff (h : InRange amount ra rb) :
    pulled amount ra rb = authorised amount ra rb ↔ Affordable amount ra rb := by
  constructor
  · intro heq
    by_contra hshort
    exact (h.pulled_lt hshort).2.1.ne (congrArg Prod.fst heq)
  · exact h.pulled_eq

end Rules

section Deposit
variable {env : Env} {w : World} {config : StrategyConfig} {amount ra rb : ℤ}

theorem swap_runs (hr : ConstantProductRouter env) (h : InRange amount ra rb)
    (hw : Funded env w amount config ra rb) :
    ∃ tokens, swapExactTokensForTokens env w
        [.transfer config.tokenA w.self config.pair (amount.tdiv 2)] config (amount.tdiv 2) minOut
        config.tokenA config.tokenB =
      .ok ([amount.tdiv 2, received amount ra rb], { w with
        tokens, pair := w.pair.move config.tokenA (amount.tdiv 2) (-received amount ra rb) }) := by
  obtain ⟨hhalf, hrem, hle⟩ := h.halves
  have hnonneg := h.received_nonneg
  have hlt := h.received_lt
  have hheld : amount.tdiv 2 ≤ w.tokens config.tokenA w.self := by
    have := hw.held
    omega
  obtain ⟨tokens, hpull⟩ : ∃ tokens,
      w.tokens.transfer config.tokenA w.self config.pair (amount.tdiv 2) = .ok tokens :=
    ⟨_, Ledger.transfer_eq_ok.mpr ⟨hhalf.le, hheld, rfl⟩⟩
  have hother : tokens config.tokenB config.pair = w.tokens config.tokenB config.pair := by
    rw [Ledger.transfer_apply hpull]
    simp [hw.tokens_ne.symm]
  have hbacked : received amount ra rb ≤ tokens config.tokenB config.pair := by
    have := hw.backed
    omega
  obtain ⟨tokens', hpay⟩ : ∃ tokens',
      tokens.transfer config.tokenB config.pair w.self (received amount ra rb) = .ok tokens' :=
    ⟨_, Ledger.transfer_eq_ok.mpr ⟨hnonneg, hbacked, rfl⟩⟩
  refine ⟨tokens', ?_⟩
  simp only [swapExactTokensForTokens, hw.reserves, hr.swap, bind_eq_ok, orFault_eq_ok,
    ensure_eq_ok, pure_eq_ok, Ledger.pull_eq_ok, exists_const]
  exact ⟨_, rfl, hnonneg, tokens, ⟨by simp, hpull⟩, tokens', hpay, rfl⟩

/-- Adding liquidity is rejected if the router wants another amount of the
first token, and goes by the authorisations if it wants what they say. -/
theorem addLiquidity_unauthorised {x y a b : ℤ} {auths : List AuthEntry}
    (hadd : env.addAmounts x y (w.pair.reservesFrom config.tokenA).1
      (w.pair.reservesFrom config.tokenA).2 = some (a, b)) (ha : 0 ≤ a) (hb : 0 ≤ b)
    (hauth : .transfer config.tokenA w.self config.pair a ∉ auths) :
    addLiquidity env w auths config x y minOut minOut = .error .unauthorised := by
  simp only [addLiquidity, hadd, bind_eq_error, orFault_eq_error, ensure_eq_error, orFault_eq_ok,
    ensure_eq_ok, Ledger.pull_eq_unauthorised]
  exact .inr ⟨(a, b), rfl, .inr ⟨(), ⟨ha, hb⟩, .inl hauth⟩⟩

theorem addLiquidity_authorised {x y : ℤ} {auths : List AuthEntry}
    (hadd : env.addAmounts x y (w.pair.reservesFrom config.tokenA).1
      (w.pair.reservesFrom config.tokenA).2 = some (x, y))
    (hx : .transfer config.tokenA w.self config.pair x ∈ auths)
    (hy : .transfer config.tokenB w.self config.pair y ∈ auths) :
    addLiquidity env w auths config x y minOut minOut ≠ .error .unauthorised := by
  simp [addLiquidity, hadd, Ledger.pull_eq_unauthorised, hx, hy, -bind_pure_comp]

theorem deposit_unauthorised_iff (hr : ConstantProductRouter env) (h : InRange amount ra rb)
    (hw : Funded env w amount config ra rb) :
    deposit env w amount config = .error .unauthorised ↔ ¬Affordable amount ra rb := by
  obtain ⟨tokens, hswap⟩ := swap_runs hr h hw
  obtain ⟨hhalf, hrem, hle⟩ := h.halves
  have hamount := h.amount_holds
  have hholds : i128.Holds (amount - amount.tdiv 2) := by
    simp only [i128, Width.Holds] at hamount ⊢
    omega
  let u : World := { w with
    tokens, pair := w.pair.move config.tokenA (amount.tdiv 2) (-received amount ra rb) }
  have hreserves :
      (w.pair.move config.tokenA (amount.tdiv 2) (-received amount ra rb)).reservesFrom
        config.tokenA = (ra + amount.tdiv 2, rb - received amount ra rb) := by
    simp only [Pair.reservesFrom_move, hw.reserves, sub_eq_add_neg]
  have hadd : env.addAmounts (authorised amount ra rb).1 (authorised amount ra rb).2
      (u.pair.reservesFrom config.tokenA).1 (u.pair.reservesFrom config.tokenA).2 =
        some (pulled amount ra rb) := by
    rw [hreserves, hr.add]
    rfl
  have hdep : deposit env w amount config = .error .unauthorised ↔
      addLiquidity env u
        [.transfer config.tokenA u.self config.pair (authorised amount ra rb).1,
          .transfer config.tokenB u.self config.pair (authorised amount ra rb).2]
        config (authorised amount ra rb).1 (authorised amount ra rb).2 minOut minOut =
          .error .unauthorised := by
    simp only [deposit, plainAdd_of_holds hw.deadline, plainSub_of_holds hholds, hswap, ok_bind,
      hreserves, List.getLast?_cons_cons, List.getLast?_singleton, Option.getD_some,
      bind_eq_error, plainSub_eq_error, pure_ne_error]
    simp [authorised, u]
  rw [hdep]
  constructor
  · intro hrejected hok
    rw [h.pulled_eq hok] at hadd
    exact addLiquidity_authorised hadd (by simp) (by simp) hrejected
  · intro hshort
    obtain ⟨hnonneg, hlt, hsame⟩ := h.pulled_lt hshort
    apply addLiquidity_unauthorised (a := (pulled amount ra rb).1) (b := (pulled amount ra rb).2)
      hadd hnonneg
    · rw [hsame]
      exact h.bToAdd_nonneg
    · simp [hlt.ne, hw.tokens_ne]

end Deposit

/-- The authorised amounts are the ones pulled, and the deposit is not rejected
for its authorisations, exactly when the swap has paid enough. -/
theorem authorised_exactly_iff {amount ra rb : ℤ} (h : InRange amount ra rb) :
    (pulled amount ra rb = authorised amount ra rb ↔ Affordable amount ra rb) ∧
      ∀ env w config, ConstantProductRouter env → Funded env w amount config ra rb →
        (deposit env w amount config ≠ .error .unauthorised ↔ Affordable amount ra rb) := by
  constructor
  · exact h.pulled_eq_iff
  · intro env w config hr hw
    rw [ne_eq, deposit_unauthorised_iff hr h hw, not_not]

section Sample
open StrategyPositions.Soroswap

/-- The sample world after a vault has transferred `amount`. -/
def fundedWorld (amount : ℤ) : World :=
  SoroswapContract.run sampleWorld [.transfer sampleAsset (.account 1) (.contract 0) amount]

theorem sampleEnv_router (signer : Address) : ConstantProductRouter (sampleEnv signer) :=
  ⟨fun _ _ _ => rfl, fun _ _ _ _ => rfl⟩

/-- A fifth of the pool can be deposited. -/
theorem authorised_exactly_iff_large :
    pulled 2000 10000 10000 = authorised 2000 10000 10000 ∧
      deposit (sampleEnv (.account 1)) (fundedWorld 2000) 2000 sampleConfig ≠
        .error .unauthorised := by
  have hrange : InRange 2000 10000 10000 := by
    constructor <;> decide
  have hfunded : Funded (sampleEnv (.account 1)) (fundedWorld 2000) 2000 sampleConfig 10000
      10000 := by
    constructor <;> decide +kernel
  obtain ⟨hpair, hdeposit⟩ := authorised_exactly_iff hrange
  constructor
  · exact hpair.mpr (by decide +kernel)
  · exact (hdeposit _ _ _ (sampleEnv_router _) hfunded).mpr (by decide +kernel)

/-- A deposit of 20 into reserves of 10000 is rejected: the swap pays 8 and the
ratio asks for 9. -/
theorem small_deposit_rejected :
    (¬∀ amount ra rb, InRange amount ra rb →
      pulled amount ra rb = authorised amount ra rb) ∧
    ¬∀ amount ra rb, InRange amount ra rb → ∀ env w config, ConstantProductRouter env →
      Funded env w amount config ra rb → deposit env w amount config ≠ .error .unauthorised := by
  have hrange : InRange 20 10000 10000 := by
    constructor <;> decide
  have hfunded : Funded (sampleEnv (.account 1)) (fundedWorld 20) 20 sampleConfig 10000
      10000 := by
    constructor <;> decide +kernel
  constructor
  · intro h
    exact absurd (h 20 10000 10000 hrange) (by decide +kernel)
  · intro h
    exact h 20 10000 10000 hrange _ _ _ (sampleEnv_router _) hfunded rfl

end Sample

end NekoStrategies.SoroswapAuthorisation
