import NekoStrategies.PositionBacking
import NekoStrategies.SoroswapLiquidity

/-!
# Leaving the Soroswap strategy

A vault that asks for its balance or more burns all its LP tokens, is paid all
that the pair gives for them and has no position left. Nothing in the strategy
can stop it: if the pair answers, the withdrawal commits, whoever left before
and however the reserves moved. What may be left at the end are the positions
that are not even worth one unit.
-/
namespace NekoStrategies.SoroswapExit
open CheckedInteger SorobanHost AmmPosition PositionBook LiquidityMarket
open SoroswapPool SoroswapContract SoroswapLiquidity StrategyPositions StrategyPositions.Soroswap
open TransactionalRun (Each)

/-- What the pair answers to an exit with `lp` LP tokens: the amounts paid for
them, and `out` of token_a for the second one. -/
structure Answers (config : StrategyConfig) (env : Env) (p : Pair) (lp a b out : ℤ) : Prop where
  removed : env.removed p lp = some (a, b)
  a_nonneg : 0 ≤ a
  b_nonneg : 0 ≤ b
  swapped : 0 < b → env.amountOut b ((liquidity config p).b - b) ((liquidity config p).a - a) =
    some out
  kept : b = 0 → out = 0
  out_nonneg : 0 ≤ out

section Ledger
variable {env : Env} {w w' : World} {config : StrategyConfig} {x y k : ℤ} {dest : Address}

/-- Reserves after LP tokens were removed, seen from token_b. -/
theorem reserves_removed (hc : ProperConfig w.self config) (hl : Listed config w.pair) {a b n : ℤ} :
    ({ w.pair.move config.tokenA (-a) (-b) with totalSupply := n } : Pair).reservesFrom
        config.tokenB =
      ((liquidity config w.pair).b - b, (liquidity config w.pair).a - a) := by
  have hlisted : Listed config { w.pair.move config.tokenA (-a) (-b) with totalSupply := n } := by
    unfold Listed
    rw [token0_move]
    exact hl
  have hmoved : liquidity config { w.pair.move config.tokenA (-a) (-b) with totalSupply := n } =
      ⟨(liquidity config w.pair).a + -a, (liquidity config w.pair).b + -b, n⟩ := liquidity_move
  have ha := congrArg LiquidityPool.a hmoved
  have hb := congrArg LiquidityPool.b hmoved
  rw [reservesFrom_other hc.tokens_ne hlisted]
  exact Prod.ext hb ha

theorem remove_carries (hc : ProperConfig w.self config) {auths : List AuthEntry}
    {lp a b aMin bMin : ℤ}
    (h : removeLiquidity env w auths config lp aMin bMin = .ok ((a, b), w')) :
    0 ≤ a ∧ 0 ≤ b ∧ w.tokens.Carried w'.tokens config.tokenA config.pair w.self a ∧
      w.tokens.Carried w'.tokens config.tokenB config.pair w.self b := by
  obtain ⟨t₁, t₂, t₃, ht₁, _, ht₂, ht₃, rfl⟩ := removeLiquidity_ok h
  refine ⟨(Ledger.transfer_eq_ok.mp ht₂).1, (Ledger.transfer_eq_ok.mp ht₃).1, ?_, ?_⟩
  · intro u
    have hstart : (t₁.add config.pair config.pair (-lp)) config.tokenA u =
        w.tokens config.tokenA u := by
      rw [Ledger.add_apply, Ledger.transfer_other ht₁ hc.lp_ne_a.symm]
      simp [hc.lp_ne_a.symm]
    dsimp only
    rw [Ledger.transfer_other ht₃ hc.tokens_ne, Ledger.carried_of_transfer ht₂ u, hstart]
  · intro u
    have hstart : (t₁.add config.pair config.pair (-lp)) config.tokenB u =
        w.tokens config.tokenB u := by
      rw [Ledger.add_apply, Ledger.transfer_other ht₁ hc.lp_ne_b.symm]
      simp [hc.lp_ne_b.symm]
    dsimp only
    rw [Ledger.carried_of_transfer ht₃ u, Ledger.transfer_other ht₂ hc.tokens_ne.symm, hstart]

theorem payOut_carries (hne : config.tokenA ≠ config.tokenB) (hx : 0 ≤ x)
    (h : payOut w config dest x = .ok w') :
    w.tokens.Carried w'.tokens config.tokenA w.self dest x ∧
      ∀ u, w'.tokens config.tokenB u = w.tokens config.tokenB u := by
  rcases payOut_ok h with ⟨hle, rfl⟩ | ⟨_, tokens, ht, rfl⟩
  · obtain rfl : x = 0 := by omega
    exact ⟨fun u => by simp, fun _ => rfl⟩
  · exact ⟨Ledger.carried_of_transfer ht, fun _ => Ledger.transfer_other ht hne.symm⟩

/-- What the pair gives for the LP tokens goes to the destination in token_a. -/
theorem withdraw_ledger (hc : ProperConfig w.self config) (hl : Listed config w.pair)
    (h : SoroswapPool.withdraw env w x dest config = .ok (k, w')) :
    ∃ a b out, Answers config env w.pair x a b out ∧ k = a + out ∧
      liquidity config w'.pair = ⟨(liquidity config w.pair).a - k, (liquidity config w.pair).b,
        w.pair.totalSupply - x⟩ ∧
      w.tokens.Carried w'.tokens config.tokenA config.pair dest k ∧
      ∀ u, w'.tokens config.tokenB u = w.tokens config.tokenB u := by
  obtain ⟨a, b, u, u', hremove, hback, hpay⟩ := SoroswapPool.withdraw_ok h
  obtain ⟨ha, hb, hua, hub⟩ := remove_carries hc hremove
  obtain ⟨t₁, t₂, t₃, ht₁, hab, ht₂, ht₃, hu⟩ := removeLiquidity_ok hremove
  have hself : u.self = w.self := by rw [hu]
  have hreserves : u.pair.reservesFrom config.tokenB =
      ((liquidity config w.pair).b - b, (liquidity config w.pair).a - a) := by
    rw [hu]
    exact reserves_removed hc hl
  have hpair : w'.pair = u'.pair := by
    rcases payOut_ok hpay with ⟨_, rfl⟩ | ⟨_, _, _, rfl⟩ <;> rfl
  have hremoved : liquidity config u.pair = ⟨(liquidity config w.pair).a - a,
      (liquidity config w.pair).b - b, w.pair.totalSupply - x⟩ := by
    rw [hu, liquidity_move, ← sub_eq_add_neg, ← sub_eq_add_neg]
  rcases swapBack_ok hback with ⟨hnone, rfl, rfl⟩ | ⟨hsome, out, hswap, rfl⟩
  · obtain rfl : b = 0 := by omega
    obtain ⟨hwa, hwb⟩ := payOut_carries hc.tokens_ne ha hpay
    rw [hself] at hwa
    refine ⟨k, 0, 0, ⟨hab, ha, le_rfl, fun h => absurd h (lt_irrefl 0), fun _ => rfl, le_rfl⟩,
      (add_zero k).symm, ?_, hua.trans hwa, ?_⟩
    · rw [hpair, hremoved, sub_zero]
    · intro v
      rw [hwb v, hub v]
      simp
  · obtain ⟨out', t₄, t₅, hout, ht₄, ht₅, hamounts, hu'⟩ := swap_ok hswap
    obtain rfl : out = out' := by simpa using hamounts
    have hout0 : 0 ≤ out := (Ledger.transfer_eq_ok.mp ht₅).1
    have hself' : u'.self = w.self := by rw [hu', hself]
    rw [hreserves] at hout
    obtain ⟨hwa, hwb⟩ := payOut_carries hc.tokens_ne (add_nonneg ha hout0) hpay
    rw [hself'] at hwa
    have hlu : Listed config u.pair := by
      unfold Listed
      rw [hu]
      dsimp only
      rw [token0_move]
      exact hl
    have hswapped : liquidity config u'.pair = ⟨(liquidity config u.pair).a - out,
        (liquidity config u.pair).b + b, u.pair.totalSupply⟩ := by
      rw [hu']
      simp [liquidity, reservesFrom_move_other hc.tokens_ne hlu, sub_eq_add_neg]
    have hsupply : u.pair.totalSupply = w.pair.totalSupply - x :=
      congrArg LiquidityPool.shares hremoved
    have hgained : w.tokens.Carried u'.tokens config.tokenA config.pair w.self (a + out) := by
      intro v
      rw [hu']
      dsimp only
      rw [Ledger.carried_of_transfer ht₅ v, Ledger.transfer_other ht₄ hc.tokens_ne, hua v, hself]
      split_ifs <;> ring
    have hspent : ∀ v, u'.tokens config.tokenB v = w.tokens config.tokenB v := by
      intro v
      rw [hu']
      dsimp only
      rw [Ledger.transfer_other ht₅ hc.tokens_ne.symm, Ledger.carried_of_transfer ht₄ v,
          hub v, hself]
      ring
    refine ⟨a, b, out, ⟨hab, ha, hb, fun _ => hout, fun h => absurd h hsome.ne', hout0⟩, rfl, ?_,
      hgained.trans hwa, ?_⟩
    · rw [hpair, hswapped, hremoved, hsupply]
      congr 1 <;> ring
    · intro v
      rw [hwb v, hspent v]

end Ledger

/-- A state from which vaults may leave: the pair owns its reserves, and the
strategy the LP tokens it attributes. -/
structure Ready (config : StrategyConfig) (w : World) : Prop where
  set_up : SetUp config w
  healthy : Healthy (view config w)
  backed : (positions w).total ≤ w.tokens config.pair w.self
  owns_a : (liquidity config w.pair).a ≤ w.tokens config.tokenA config.pair
  owns_b : (liquidity config w.pair).b ≤ w.tokens config.tokenB config.pair
  purse_a : 0 ≤ w.tokens config.tokenA w.self
  purse_b : 0 ≤ w.tokens config.tokenB w.self
  fits : (liquidity config w.pair).a ≤ i128.hi

section Service
variable {env : Env} {w w' : World} {config : StrategyConfig} {x a b out amount V k : ℤ}
  {vault dest : Address}

/-- A fair pair is not emptied by an exit. -/
theorem Answers.within (h : Answers config env w.pair x a b out) (hf : FairPair config env)
    (hp : (liquidity config w.pair).Open) (hx : 0 ≤ x) (hlt : x < w.pair.totalSupply) :
    a + out ≤ (liquidity config w.pair).a ∧ b ≤ (liquidity config w.pair).b := by
  obtain ⟨hxa, hxb⟩ := hf.remove _ _ _ _ hp hx h.removed
  have hT : 0 < w.pair.totalSupply := hp.shares_pos
  have ha : a < (liquidity config w.pair).a := by
    refine lt_of_mul_lt_mul_right (hxa.trans_lt ?_) hT.le
    rw [mul_comm (liquidity config w.pair).a]
    exact mul_lt_mul_of_pos_right hlt hp.a_pos
  have hb : b < (liquidity config w.pair).b := by
    refine lt_of_mul_lt_mul_right (hxb.trans_lt ?_) hT.le
    rw [mul_comm (liquidity config w.pair).b]
    exact mul_lt_mul_of_pos_right hlt hp.b_pos
  refine ⟨?_, hb.le⟩
  rcases h.b_nonneg.eq_or_lt with hzero | hpos
  · have hout := h.kept hzero.symm
    omega
  · have hproduct := hf.swap b _ _ out h.b_nonneg (by omega) (by omega) (h.swapped hpos)
    have hrest : 0 < ((liquidity config w.pair).b - b + b) *
        ((liquidity config w.pair).a - a - out) :=
      (mul_pos (by omega) (by omega)).trans_le hproduct
    have hleft := pos_of_mul_pos_right hrest (by omega)
    omega

theorem remove_served (hr : Ready config w) (h : Answers config env w.pair x a b out)
    (hx : 0 ≤ x) (hle : x ≤ (positions w).total) (ha : a ≤ (liquidity config w.pair).a)
    (hb : b ≤ (liquidity config w.pair).b) :
    ∃ u, removeLiquidity env w [.transfer config.pair w.self config.pair x] config x minOut minOut =
      .ok ((a, b), u) := by
  have hc := hr.set_up.proper
  obtain ⟨t₁, ht₁⟩ : ∃ t, w.tokens.transfer config.pair w.self config.pair x = .ok t :=
    ⟨_, Ledger.transfer_eq_ok.mpr ⟨hx, hle.trans hr.backed, rfl⟩⟩
  have hstart : ∀ t, t ≠ config.pair →
      (t₁.add config.pair config.pair (-x)) t config.pair = w.tokens t config.pair := by
    intro t ht
    rw [Ledger.add_apply, Ledger.transfer_other ht₁ ht]
    simp [ht]
  obtain ⟨t₂, ht₂⟩ : ∃ t, (t₁.add config.pair config.pair (-x)).transfer config.tokenA config.pair
      w.self a = .ok t := by
    refine ⟨_, Ledger.transfer_eq_ok.mpr ⟨h.a_nonneg, ?_, rfl⟩⟩
    rw [hstart _ hc.lp_ne_a.symm]
    exact ha.trans hr.owns_a
  obtain ⟨t₃, ht₃⟩ : ∃ t, t₂.transfer config.tokenB config.pair w.self b = .ok t := by
    refine ⟨_, Ledger.transfer_eq_ok.mpr ⟨h.b_nonneg, ?_, rfl⟩⟩
    rw [Ledger.transfer_other ht₂ hc.tokens_ne.symm, hstart _ hc.lp_ne_b.symm]
    exact hb.trans hr.owns_b
  simp only [removeLiquidity, bind_eq_ok, ensure_eq_ok, orFault_eq_ok, pure_eq_ok,
    Ledger.pull_eq_ok, exists_const, Prod.exists, Prod.mk.injEq]
  exact ⟨_, t₁, ⟨by simp, ht₁⟩, a, b, h.removed, ⟨h.a_nonneg, h.b_nonneg⟩, t₂, ht₂, t₃, ht₃,
    ⟨rfl, rfl⟩, rfl⟩

theorem swapBack_served (hr : Ready config w) (hf : FairPair config env)
    (h : Answers config env w.pair x a b out) (hx : 0 ≤ x) (hle : x ≤ (positions w).total)
    {u : World} (hu : removeLiquidity env w [.transfer config.pair w.self config.pair x] config x
      minOut minOut = .ok ((a, b), u)) :
    ∃ u', swapBack env u config a b = .ok (a + out, u') ∧ u'.self = w.self ∧
      a + out ≤ u'.tokens config.tokenA w.self := by
  have hc := hr.set_up.proper
  have hlt : x < w.pair.totalSupply := hle.trans_lt hr.healthy.locked
  obtain ⟨hwithin, _⟩ := h.within hf hr.healthy.liquid hx hlt
  obtain ⟨_, _, hua, hub⟩ := remove_carries hc hu
  obtain ⟨_, _, _, _, _, _, _, hu'⟩ := removeLiquidity_ok hu
  have hself : u.self = w.self := by rw [hu']
  have hpurseA := hr.purse_a
  have hpurseB := hr.purse_b
  have hownsA := hr.owns_a
  have ha := h.a_nonneg
  have hout := h.out_nonneg
  have hmineA : u.tokens config.tokenA w.self = w.tokens config.tokenA w.self + a := by
    rw [hua]
    simp [hc.pair_ne.symm]
  have hmineB : u.tokens config.tokenB w.self = w.tokens config.tokenB w.self + b := by
    rw [hub]
    simp [hc.pair_ne.symm]
  have htheirs : u.tokens config.tokenA config.pair = w.tokens config.tokenA config.pair - a := by
    rw [hua]
    simp [hc.pair_ne]
  unfold swapBack
  split_ifs with hpos
  · have hreserves : u.pair.reservesFrom config.tokenB =
        ((liquidity config w.pair).b - b, (liquidity config w.pair).a - a) := by
      rw [hu']
      exact reserves_removed hc hr.set_up.listed
    obtain ⟨t₄, ht₄⟩ : ∃ t, u.tokens.transfer config.tokenB u.self config.pair b = .ok t := by
      refine ⟨_, Ledger.transfer_eq_ok.mpr ⟨h.b_nonneg, ?_, rfl⟩⟩
      rw [hself, hmineB]
      omega
    have hstill : ∀ v, t₄ config.tokenA v = u.tokens config.tokenA v := fun v =>
      Ledger.transfer_other ht₄ hc.tokens_ne
    obtain ⟨t₅, ht₅⟩ : ∃ t, t₄.transfer config.tokenA config.pair u.self out = .ok t := by
      refine ⟨_, Ledger.transfer_eq_ok.mpr ⟨hout, ?_, rfl⟩⟩
      rw [hstill, htheirs]
      omega
    have htotal : i128.Holds (a + out) := by
      have hfits := hr.fits
      exact ⟨by simp only [i128]; omega, by omega⟩
    have hgained : t₅ config.tokenA w.self = w.tokens config.tokenA w.self + a + out := by
      rw [Ledger.carried_of_transfer ht₅, hstill, hmineA, hself]
      simp [hc.pair_ne.symm]
    simp only [swapExactTokensForTokens, hreserves, bind_eq_ok, ensure_eq_ok, orFault_eq_ok,
      plainAdd_eq_ok, pure_eq_ok, Ledger.pull_eq_ok, exists_const, Prod.exists, Prod.mk.injEq]
    refine ⟨_, ⟨[b, out], _, ⟨out, h.swapped hpos, hout, t₄, ⟨by simp, ht₄⟩, t₅, ht₅, rfl, rfl⟩,
      a + out, ⟨htotal, rfl⟩, rfl, rfl⟩, hself, ?_⟩
    dsimp only
    rw [hgained]
    omega
  · obtain rfl : out = 0 := h.kept (by have := h.b_nonneg; omega)
    refine ⟨u, by simp [pure, Except.pure], hself, ?_⟩
    rw [hmineA]
    omega

/-- Whatever part of the attributed LP tokens a vault burns, it is paid. -/
theorem pool_withdraw_served (dest : Address) (hr : Ready config w) (hf : FairPair config env)
    (hdeadline : u64.Holds (env.timestamp + 3600)) (h : Answers config env w.pair x a b out)
    (hx : 0 ≤ x) (hle : x ≤ (positions w).total) :
    ∃ u, SoroswapPool.withdraw env w x dest config = .ok (a + out, u) := by
  have hlt : x < w.pair.totalSupply := hle.trans_lt hr.healthy.locked
  obtain ⟨hwithin, hb⟩ := h.within hf hr.healthy.liquid hx hlt
  have ha : a ≤ (liquidity config w.pair).a := by
    have := h.out_nonneg
    omega
  obtain ⟨u, hu⟩ := remove_served hr h hx hle ha hb
  obtain ⟨u', hu', hself, hpurse⟩ := swapBack_served hr hf h hx hle hu
  obtain ⟨v, hv⟩ : ∃ v, payOut u' config dest (a + out) = .ok v := by
    unfold payOut
    split_ifs with hpos
    · simp only [bind_eq_ok, pure_eq_ok]
      rw [hself]
      exact ⟨_, _, Ledger.transfer_eq_ok.mpr ⟨hpos.le, hpurse, rfl⟩, rfl⟩
    · exact ⟨u', rfl⟩
  simp only [SoroswapPool.withdraw, bind_eq_ok, plainAdd_eq_ok, pure_eq_ok, Prod.exists,
    Prod.mk.injEq]
  exact ⟨v, _, ⟨hdeadline, rfl⟩, a, b, u, hu, a + out, u', hu', v, hv, rfl, rfl⟩

/-- A vault that asks for its balance or more is let out. -/
theorem withdraw_served (dest : Address) (hr : Ready config w) (hf : FairPair config env)
    (hdeadline : u64.Holds (env.timestamp + 3600))
    (h : Answers config env w.pair (getLpTokens w.storage vault) a b out)
    (hbalance : balance w vault = .ok V) (hV : 0 < V) (hle : V ≤ amount) :
    ∃ k w', SoroswapContract.withdraw env w amount vault dest = .ok (k, w') := by
  have hconfig := hr.set_up.configured
  simp only [balance, loadConfig, hconfig, orFault, ok_bind] at hbalance
  have hheld : getLpTokens w.storage vault ≠ 0 := by
    intro hzero
    rw [hzero] at hbalance
    simp [lpValueInA] at hbalance
    omega
  have hnonneg : 0 ≤ getLpTokens w.storage vault := hr.healthy.nonneg vault
  have htotal : getLpTokens w.storage vault ≤ (positions w).total :=
    hr.healthy.nonneg.amount_le_total
  obtain ⟨u, hu⟩ := pool_withdraw_served dest hr hf hdeadline h hnonneg htotal
  have hburn : proportionalBurn (getLpTokens w.storage vault) amount V =
      .ok (getLpTokens w.storage vault) := proportionalBurn_eq_ok.mpr (.inl ⟨hle, rfl⟩)
  have hnone : i128.Holds (getLpTokens w.storage vault - getLpTokens w.storage vault) := by
    rw [sub_self]
    decide
  obtain ⟨value, hvalue⟩ : ∃ value, lpValueInA
      { u with storage := setLpTokens u.storage vault 0 } 0 config = .ok value :=
    ⟨0, by simp [lpValueInA, pure, Except.pure]⟩
  simp only [SoroswapContract.withdraw, checkPositiveAmount, loadConfig, hconfig, bind_eq_ok,
    ensure_eq_ok, orFault_eq_ok, plainSub_eq_ok, pure_eq_ok, exists_const, Prod.exists,
    Prod.mk.injEq]
  refine ⟨value, _, by omega, config, rfl, hheld, V, hbalance, hV.ne', _, hburn, hheld, a + out, u,
    hu, 0, ⟨hnone, sub_self _⟩, value, ?_, rfl, rfl⟩
  simpa [getLpTokens, setLpTokens] using hvalue

/-- A withdrawal, of whatever amount, leaves a state from which the others may leave. -/
theorem Ready.after (hr : Ready config w) (hf : FairPair config env)
    (h : SoroswapContract.withdraw env w amount vault dest = .ok (k, w')) : Ready config w' := by
  have hc := hr.set_up.proper
  have hstep : step (.call env (.withdraw amount vault dest)) w = .ok w' :=
    forget_eq_ok.mpr ⟨k, h⟩
  obtain ⟨htoken0, heffect⟩ := withdraw_effect hr.set_up hr.healthy hf h
  have hsetUp := hr.set_up.step htoken0 hstep
  have hself : w'.self = w.self := (step_config hr.set_up.configured hstep).2
  obtain ⟨hpos, _, c, totalValue, burnt, paid, u, hconfig, _, _, hburn, _, hwd, hw'⟩ :=
    SoroswapContract.withdraw_ok h
  obtain rfl := Option.some.inj (hconfig.symm.trans hr.set_up.configured)
  obtain ⟨a, b, out, hanswers, rfl, hpool, hcarried, hkept⟩ :=
    withdraw_ledger hc hr.set_up.listed hwd
  have hlp := PositionBacking.Soroswap.withdraw_lp hc.lp_ne_a hc.lp_ne_b hwd
  have htokens : w'.tokens = u.tokens := by rw [hw']
  have hpair : w'.pair = u.pair := by rw [hw']
  have hpaid : 0 ≤ a + out := add_nonneg hanswers.a_nonneg hanswers.out_nonneg
  have htotal : (positions w').total = (positions w).total - burnt := by
    rw [hw']
    simp only [positions, setLpTokens, Attribution.total_set, getLpTokens]
    ring
  have hmine : w'.tokens c.tokenA w.self = w.tokens c.tokenA w.self +
      if w.self = dest then a + out else 0 := by
    rw [htokens, hcarried]
    simp [hc.pair_ne.symm]
  have htheirs : w'.tokens c.tokenA c.pair = w.tokens c.tokenA c.pair +
      (if c.pair = dest then a + out else 0) - (a + out) := by
    rw [htokens, hcarried]
    simp
  have hownsA := hr.owns_a
  have hbacked := hr.backed
  have hfits := hr.fits
  have hpurse := hr.purse_a
  refine ⟨hsetUp, heffect.healthy hr.healthy, ?_, ?_, ?_, ?_, ?_, ?_⟩
  · rw [hself, htokens, hlp, htotal]
    omega
  · rw [hpair, hpool, htheirs]
    dsimp only
    split_ifs <;> omega
  · rw [hpair, hpool, htokens, hkept]
    exact hr.owns_b
  · rw [hself, hmine]
    split_ifs <;> omega
  · rw [hself, htokens, hkept]
    exact hr.purse_b
  · rw [hpair, hpool]
    dsimp only
    omega

end Service

/-- A vault that leaves: its invocation, how much it asks for and where it is paid. -/
structure Leaver where
  env : Env
  vault : Address
  dest : Address
  amount : ℤ

def leave (l : Leaver) (w : World) : Outcome World :=
  invoke l.env w (.withdraw l.amount l.vault l.dest)

/-- It asks for no less than a positive balance, and the pair answers. -/
def Asks (config : StrategyConfig) (l : Leaver) (w : World) : Prop :=
  (∃ V, balance w l.vault = .ok V ∧ 0 < V ∧ V ≤ l.amount) ∧
    ∃ a b out, Answers config l.env w.pair (getLpTokens w.storage l.vault) a b out

/-- It has no position left and all others have theirs, and what the pair gives
for the LP tokens is where it should be. -/
def Left (config : StrategyConfig) (l : Leaver) (w w' : World) : Prop :=
  getLpTokens w'.storage l.vault = 0 ∧
  (∀ u, u ≠ l.vault → getLpTokens w'.storage u = getLpTokens w.storage u) ∧
  ∃ a b out, Answers config l.env w.pair (getLpTokens w.storage l.vault) a b out ∧
    w.tokens.Carried w'.tokens config.tokenA config.pair l.dest (a + out) ∧
    ∀ u, w'.tokens config.tokenB u = w.tokens config.tokenB u

section Queue
variable {config : StrategyConfig} {w w' : World} {l : Leaver}

theorem leave_ready (hr : Ready config w) (hf : FairPair config l.env)
    (h : leave l w = .ok w') : Ready config w' := by
  obtain ⟨k, hw⟩ := forget_eq_ok.mp h
  exact hr.after hf hw

theorem leave_left (hr : Ready config w) {V : ℤ} (hbalance : balance w l.vault = .ok V)
    (hle : V ≤ l.amount) (h : leave l w = .ok w') : Left config l w w' := by
  obtain ⟨k, hw⟩ := forget_eq_ok.mp h
  obtain ⟨_, _, c, totalValue, burnt, paid, u, hconfig, hvalue, _, hburn, _, hwd, hw'⟩ :=
    SoroswapContract.withdraw_ok hw
  obtain rfl := Option.some.inj (hconfig.symm.trans hr.set_up.configured)
  have htotal : totalValue = V := by
    simp only [balance, loadConfig, hconfig, orFault, ok_bind, hvalue] at hbalance
    exact Except.ok.inj hbalance
  obtain rfl : burnt = getLpTokens w.storage l.vault := by
    rcases proportionalBurn_eq_ok.mp hburn with ⟨_, hall⟩ | ⟨hlt, _⟩
    · exact hall
    · omega
  obtain ⟨a, b, out, hanswers, rfl, _, hcarried, hkept⟩ :=
    withdraw_ledger hr.set_up.proper hr.set_up.listed hwd
  refine ⟨?_, ?_, a, b, out, hanswers, ?_, ?_⟩
  · rw [hw']
    simp [getLpTokens, setLpTokens]
  · intro v hv
    rw [hw']
    simp [getLpTokens, setLpTokens, Attribution.amount_set_of_ne hv]
  · rw [hw']
    exact hcarried
  · rw [hw']
    exact hkept

theorem run_config (hconfig : w.storage.config = some config) (acts : List Action) :
    (run w acts).storage.config = some config ∧ (run w acts).self = w.self := by
  refine TransactionalRun.run_invariant_of_step
    (I := fun u : World => u.storage.config = some config ∧ u.self = w.self) ?_ ⟨hconfig, rfl⟩ acts
  rintro a s t ⟨hs, hself⟩ h
  obtain ⟨ht, hself'⟩ := step_config hs h
  exact ⟨ht, hself'.trans hself⟩

theorem run_lpHeld (hconfig : w.storage.config = some config) (acts : List Action) :
    PositionBacking.Soroswap.lpHeld (run w acts) = (run w acts).tokens config.pair w.self := by
  obtain ⟨hrun, hself⟩ := run_config hconfig acts
  rw [PositionBacking.Soroswap.lpHeld_eq hrun, hself]

end Queue

/-- After every run among fair traders, and whatever the order in which vaults
then ask for their balance or more: whenever it is a vault's turn, it has a
positive balance and the pair answers, its withdrawal commits, pays it all that
the pair gives for its LP tokens and leaves it no position and the others theirs. -/
theorem exits_never_blocked (w : World) (config : StrategyConfig) (acts : List Action)
    (ls : List Leaver) (hw : SetUp config w) (hh : Healthy (view config w))
    (hbacked : (positions w).total ≤ w.tokens config.pair w.self)
    (hacts : Each step (fun a u => Fair config a u ∧ PositionBacking.Soroswap.Admissible a u) w
      acts)
    (hownsA : (liquidity config (run w acts).pair).a ≤
      (run w acts).tokens config.tokenA config.pair)
    (hownsB : (liquidity config (run w acts).pair).b ≤
      (run w acts).tokens config.tokenB config.pair)
    (hpurseA : 0 ≤ (run w acts).tokens config.tokenA w.self)
    (hpurseB : 0 ≤ (run w acts).tokens config.tokenB w.self)
    (hfits : i128.Holds (liquidity config (run w acts).pair).a)
    (hls : ∀ l ∈ ls, FairPair config l.env ∧ u64.Holds (l.env.timestamp + 3600)) :
    Each leave (fun l u => Asks config l u → ∃ t, leave l u = .ok t ∧ Left config l u t)
      (run w acts) ls := by
  obtain ⟨hfair, hadmissible⟩ := TransactionalRun.each_and.mp hacts
  obtain ⟨hset, hhealthy⟩ := market.run_healthy hw hh hfair
  have hself : (run w acts).self = w.self := (run_config hw.configured acts).2
  have hready : Ready config (run w acts) := by
    refine ⟨hset, hhealthy, ?_, hownsA, hownsB, ?_, ?_, hfits.2⟩
    · rw [hself, ← run_lpHeld hw.configured acts]
      exact (PositionBacking.Soroswap.custody.run_covered
        ⟨config, hw.configured, hw.proper.lp_ne_a, hw.proper.lp_ne_b⟩
        ⟨hh.nonneg, by rwa [PositionBacking.Soroswap.lpHeld_eq hw.configured]⟩
        hadmissible).2.total_le
    · rw [hself]
      exact hpurseA
    · rw [hself]
      exact hpurseB
  have hserves : Each leave (fun l _ => FairPair config l.env ∧ u64.Holds (l.env.timestamp + 3600))
      (run w acts) ls := TransactionalRun.each_of_forall fun l hl _ => hls l hl
  refine TransactionalRun.each_of_invariant (I := Ready config) ?_ ?_ hready hserves
  · intro l s t hl hs h
    exact leave_ready hs hl.1 h
  · rintro l s ⟨hf, hdeadline⟩ hs ⟨⟨V, hbalance, hV, hle⟩, a, b, out, hanswers⟩
    obtain ⟨k, t, ht⟩ := withdraw_served l.dest hs hf hdeadline hanswers hbalance hV hle
    have hcommits : leave l s = .ok t := forget_eq_ok.mpr ⟨k, ht⟩
    exact ⟨t, hcommits, leave_left hs hbalance hle hcommits⟩

/-- Two vaults enter, and leave in the other order. -/
def sampleEntries : List Action :=
  [.transfer sampleAsset (.account 7) (.contract 0) 1000,
    .call (fairEnv (.account 7)) (.deposit 1000 (.account 7)),
    .transfer sampleAsset (.account 8) (.contract 0) 600,
    .call (fairEnv (.account 8)) (.deposit 600 (.account 8))]

def sampleFirst : Leaver := ⟨fairEnv (.account 8), .account 8, .account 9, 10000⟩

def sampleSecond : Leaver := ⟨fairEnv (.account 7), .account 7, .account 9, 10000⟩

theorem sampleEntries_fair : Each step
    (fun a u => Fair sampleConfig a u ∧ PositionBacking.Soroswap.Admissible a u) sampleWorld
    sampleEntries := by
  have hsound : ∀ signer, Sound (fairEnv signer) := by
    intro signer p a b lp h
    obtain ⟨hholds, rfl⟩ := Width.checked_eq_some.mp h
    exact hholds.1
  exact ⟨⟨trivial, trivial⟩, ⟨fairEnv_fair _, hsound _⟩, ⟨trivial, trivial⟩,
    ⟨fairEnv_fair _, hsound _⟩, trivial⟩

theorem exits_never_blocked_sample :
    (∃ t, leave sampleFirst (run sampleWorld sampleEntries) = .ok t ∧
      getLpTokens t.storage (.account 8) = 0) ∧
    ∃ t, leave sampleSecond (TransactionalRun.run leave (run sampleWorld sampleEntries)
        [sampleFirst]) = .ok t ∧ getLpTokens t.storage (.account 7) = 0 := by
  obtain ⟨hfirst, hsecond, _⟩ := exits_never_blocked sampleWorld sampleConfig sampleEntries
    [sampleFirst, sampleSecond] sampleWorld_setUp sampleWorld_healthy (by decide) sampleEntries_fair
    (by decide +kernel) (by decide +kernel) (by decide +kernel) (by decide +kernel)
    (by decide +kernel) (by simp [sampleFirst, sampleSecond, fairEnv_fair]; decide)
  constructor
  · obtain ⟨t, ht, hleft⟩ := hfirst ⟨⟨595, rfl, by decide, by decide⟩, 298, 256, 289,
      rfl, by decide, by decide, fun _ => rfl, by decide, by decide⟩
    exact ⟨t, ht, hleft.1⟩
  · obtain ⟨t, ht, hleft⟩ := hsecond ⟨⟨998, rfl, by decide, by decide⟩, 499, 452, 474,
      rfl, by decide, by decide, fun _ => rfl, by decide, by decide⟩
    exact ⟨t, ht, hleft.1⟩

end NekoStrategies.SoroswapExit
