import NekoStrategies.LiquidityMarket
import NekoStrategies.SoroswapBalances

/-!
# Soroswap calls as moves of the pair

A deposit is a swap and a joining of the pair's liquidity, a withdrawal a
leaving and a swap, whoever else trades at the pair in between. So the depth of
the pair never falls, and vaults that trade alone take no more token_a out than
they bring and hold, however they mix their calls.
-/
namespace NekoStrategies.SoroswapLiquidity
open CheckedInteger SorobanHost AmmPosition PositionBook TransactionalRun EventLog LiquidityPool
open LiquidityMarket
open SoroswapPool SoroswapContract SoroswapBalances StrategyPositions StrategyPositions.Soroswap

/-- The pair, seen from token_a. -/
def liquidity (config : StrategyConfig) (p : Pair) : LiquidityPool :=
  ⟨(p.reservesFrom config.tokenA).1, (p.reservesFrom config.tokenA).2, p.totalSupply⟩

/-- The pair is one of the two tokens. -/
def Listed (config : StrategyConfig) (p : Pair) : Prop :=
  p.token0 = config.tokenA ∨ p.token0 = config.tokenB

/-- The pair keeps its product through swaps, mints at most the proportional LP
tokens and pays at most the proportional part of both reserves. -/
structure FairPair (config : StrategyConfig) (env : Env) : Prop where
  swap : ∀ x reserveIn reserveOut out, 0 ≤ x → 0 < reserveIn → 0 < reserveOut →
    env.amountOut x reserveIn reserveOut = some out →
    reserveIn * reserveOut ≤ (reserveIn + x) * (reserveOut - out)
  mint : ∀ p a b lp, (liquidity config p).Open → 0 ≤ a → 0 ≤ b → env.lpMinted p a b = some lp →
    0 ≤ lp ∧ lp * (liquidity config p).a ≤ a * p.totalSupply ∧
      lp * (liquidity config p).b ≤ b * p.totalSupply
  remove : ∀ p lp a b, (liquidity config p).Open → 0 ≤ lp → env.removed p lp = some (a, b) →
    a * p.totalSupply ≤ lp * (liquidity config p).a ∧
      b * p.totalSupply ≤ lp * (liquidity config p).b

section Moves
variable {env : Env} {w w' : World} {auths : List AuthEntry} {config : StrategyConfig}
  {amount k x y : ℤ} {dest : Address} {p : Pair}

/-- Moving the pair by its second token moves the first one by the other amount. -/
theorem reservesFrom_move_other (hne : config.tokenA ≠ config.tokenB) (hl : Listed config p) :
    (p.move config.tokenB x y).reservesFrom config.tokenA =
      ((p.reservesFrom config.tokenA).1 + y, (p.reservesFrom config.tokenA).2 + x) := by
  rcases hl with h | h
  · simp [Pair.move, Pair.reservesFrom, h, hne]
  · simp [Pair.move, Pair.reservesFrom, h, hne.symm]

theorem reservesFrom_other (hne : config.tokenA ≠ config.tokenB) (hl : Listed config p) :
    p.reservesFrom config.tokenB =
      ((p.reservesFrom config.tokenA).2, (p.reservesFrom config.tokenA).1) := by
  rcases hl with h | h
  · simp [Pair.reservesFrom, h, hne]
  · simp [Pair.reservesFrom, h, hne.symm]

@[simp] theorem token0_move {token : Address} : (p.move token x y).token0 = p.token0 := by
  unfold Pair.move
  split_ifs <;> rfl

@[simp] theorem totalSupply_move {token : Address} :
    (p.move token x y).totalSupply = p.totalSupply := by
  unfold Pair.move
  split_ifs <;> rfl

/-- LP tokens are minted and burned beside a move of the reserves. -/
theorem liquidity_move {n : ℤ} :
    liquidity config { p.move config.tokenA x y with totalSupply := n } =
      ⟨(liquidity config p).a + x, (liquidity config p).b + y, n⟩ := by
  have hreserves := Pair.reservesFrom_move p config.tokenA x y
  have hsame : Pair.reservesFrom { p.move config.tokenA x y with totalSupply := n }
      config.tokenA = (p.move config.tokenA x y).reservesFrom config.tokenA := rfl
  rw [liquidity, hsame, hreserves]
  rfl

theorem swapA_move (hf : FairPair config env) (hp : (liquidity config w.pair).Open)
    {amounts : List ℤ}
    (h : swapExactTokensForTokens env w auths config x y config.tokenA config.tokenB =
      .ok (amounts, w')) :
    ∃ out, amounts = [x, out] ∧ w'.pair = w.pair.move config.tokenA x (-out) ∧ 0 ≤ x ∧
      LiquidityPool.Move (liquidity config w.pair) (liquidity config w'.pair) := by
  obtain ⟨out, tokens, tokens', hout, ht, _, rfl, rfl⟩ := swap_ok h
  have hx : 0 ≤ x := (Ledger.transfer_eq_ok.mp ht).1
  have hproduct := hf.swap _ _ _ _ hx hp.a_pos hp.b_pos hout
  refine ⟨out, rfl, rfl, hx, ?_⟩
  have hmoved : liquidity config (w.pair.move config.tokenA x (-out)) =
      ⟨(liquidity config w.pair).a + x, (liquidity config w.pair).b + -out,
        w.pair.totalSupply⟩ := by
    simp [liquidity]
  have ha := hp.a_pos
  dsimp only
  rw [hmoved]
  refine LiquidityPool.Move.swap (liquidity config w.pair) x (-out) (by omega) ?_
  rw [← sub_eq_add_neg]
  exact hproduct

theorem swapB_move (hf : FairPair config env) (hp : (liquidity config w.pair).Open)
    (hne : config.tokenA ≠ config.tokenB) (hl : Listed config w.pair) {amounts : List ℤ}
    (h : swapExactTokensForTokens env w auths config x y config.tokenB config.tokenA =
      .ok (amounts, w')) :
    ∃ out, amounts = [x, out] ∧ w'.pair = w.pair.move config.tokenB x (-out) ∧ 0 ≤ x ∧
      LiquidityPool.Move (liquidity config w.pair) (liquidity config w'.pair) := by
  obtain ⟨out, tokens, tokens', hout, ht, _, rfl, rfl⟩ := swap_ok h
  have hx : 0 ≤ x := (Ledger.transfer_eq_ok.mp ht).1
  rw [reservesFrom_other hne hl] at hout
  have hproduct := hf.swap _ _ _ _ hx hp.b_pos hp.a_pos hout
  refine ⟨out, rfl, rfl, hx, ?_⟩
  have hmoved : liquidity config (w.pair.move config.tokenB x (-out)) =
      ⟨(liquidity config w.pair).a + -out, (liquidity config w.pair).b + x,
        w.pair.totalSupply⟩ := by
    simp [liquidity, reservesFrom_move_other hne hl]
  have hb := hp.b_pos
  have hrest : 0 < (liquidity config w.pair).a + -out := by
    have hpos : 0 < ((liquidity config w.pair).b + x) * ((liquidity config w.pair).a - out) :=
      (mul_pos hp.b_pos hp.a_pos).trans_le hproduct
    have := pos_of_mul_pos_right hpos (by omega)
    omega
  dsimp only
  rw [hmoved]
  refine LiquidityPool.Move.swap (liquidity config w.pair) (-out) x hrest ?_
  calc (liquidity config w.pair).a * (liquidity config w.pair).b
      = (liquidity config w.pair).b * (liquidity config w.pair).a := mul_comm _ _
    _ ≤ ((liquidity config w.pair).b + x) * ((liquidity config w.pair).a - out) := hproduct
    _ = ((liquidity config w.pair).a + -out) * ((liquidity config w.pair).b + x) := by ring

/-- Liquidity is added in the authorised amounts, and what is minted for them the
strategy gets. -/
theorem add_move (hf : FairPair config env) (hc : ProperConfig w.self config)
    (hp : (liquidity config w.pair).Open) {aMin bMin : ℤ}
    (h : addLiquidity env w [.transfer config.tokenA w.self config.pair x,
      .transfer config.tokenB w.self config.pair y] config x y aMin bMin = .ok w') :
    ∃ lp, w'.pair = { w.pair.move config.tokenA x y with
        totalSupply := w.pair.totalSupply + lp } ∧
      w'.tokens config.pair w.self = w.tokens config.pair w.self + lp ∧
      w'.self = w.self ∧ 0 ≤ lp ∧
      LiquidityPool.Move (liquidity config w.pair) (liquidity config w'.pair) := by
  obtain ⟨a, b, lp, tokens, tokens', _, hautha, hauthb, ht, ht', hlp, rfl⟩ := addLiquidity_ok h
  obtain rfl : a = x := by simpa [hc.tokens_ne] using hautha
  obtain rfl : b = y := by simpa [hc.tokens_ne.symm] using hauthb
  have ha : 0 ≤ a := (Ledger.transfer_eq_ok.mp ht).1
  have hb : 0 ≤ b := (Ledger.transfer_eq_ok.mp ht').1
  obtain ⟨hlp0, hla, hlb⟩ := hf.mint _ _ _ _ hp ha hb hlp
  refine ⟨lp, rfl, ?_, rfl, hlp0, ?_⟩
  · dsimp only
    rw [Ledger.add_apply, Ledger.transfer_other ht' hc.lp_ne_b,
      Ledger.transfer_other ht hc.lp_ne_a]
    simp
  · dsimp only
    rw [liquidity_move]
    exact LiquidityPool.Move.join (liquidity config w.pair) a b lp ha hb hlp0 hla hlb

theorem remove_move (hf : FairPair config env) (hp : (liquidity config w.pair).Open)
    (hx : x < w.pair.totalSupply) {a b aMin bMin : ℤ}
    (h : removeLiquidity env w auths config x aMin bMin = .ok ((a, b), w')) :
    w'.pair = { w.pair.move config.tokenA (-a) (-b) with
        totalSupply := w.pair.totalSupply - x } ∧ 0 ≤ b ∧
      LiquidityPool.Move (liquidity config w.pair) (liquidity config w'.pair) := by
  obtain ⟨tokens, tokens', tokens'', ht, hab, _, ht'', rfl⟩ := removeLiquidity_ok h
  have hx0 : 0 ≤ x := (Ledger.transfer_eq_ok.mp ht).1
  have hb : 0 ≤ b := (Ledger.transfer_eq_ok.mp ht'').1
  obtain ⟨hxa, hxb⟩ := hf.remove _ _ _ _ hp hx0 hab
  refine ⟨rfl, hb, ?_⟩
  dsimp only
  rw [liquidity_move, ← sub_eq_add_neg, ← sub_eq_add_neg]
  exact LiquidityPool.Move.leave (liquidity config w.pair) a b x hx hxa hxb

end Moves

section Calls
variable {env : Env} {w w' : World} {config : StrategyConfig} {amount k x : ℤ} {dest : Address}

theorem deposit_moved (hf : FairPair config env) (hc : ProperConfig w.self config)
    (hp : (liquidity config w.pair).Open)
    (h : SoroswapPool.deposit env w amount config = .ok (k, w')) :
    0 ≤ k ∧ w'.pair.token0 = w.pair.token0 ∧
      Moved (liquidity config w.pair) (liquidity config w'.pair) k amount := by
  obtain ⟨swapOut, u, hswap, hadd, hk⟩ := SoroswapPool.deposit_ok h
  obtain ⟨out, rfl, hu, hhalf, hfirst⟩ := swapA_move hf hp hswap
  have hself : u.self = w.self := (swap_storage hswap).2.1
  rw [← hself] at hc
  obtain ⟨lp, hw', hgrown, hself', hlp, hsecond⟩ := add_move hf hc (hfirst.open hp) hadd
  obtain rfl : k = lp := by
    rw [hk, hself', hgrown]
    ring
  refine ⟨hlp, by rw [hw', hu]; simp, ?_⟩
  set b := bToAdd (amount - amount.tdiv 2) (u.pair.reservesFrom config.tokenA).1
    (u.pair.reservesFrom config.tokenA).2 ([amount.tdiv 2, out].getLast?.getD 0) with hb
  have hadded : b ≤ out := by
    rw [hb]
    exact min_le_right _ _
  have hpool : liquidity config w'.pair = ⟨(liquidity config w.pair).a + amount.tdiv 2 +
      (amount - amount.tdiv 2), (liquidity config w.pair).b + -out + b,
      w.pair.totalSupply + k⟩ := by
    rw [hw', hu, liquidity_move]
    simp [liquidity]
  constructor
  · exact (Relation.ReflTransGen.single hfirst).tail hsecond
  · rw [hpool]
    rfl
  · rw [hpool]
    dsimp only
    omega
  · rw [hpool]
    dsimp only
    omega

theorem withdraw_moved (hf : FairPair config env) (hc : ProperConfig w.self config)
    (hl : Listed config w.pair) (hp : (liquidity config w.pair).Open)
    (hx : x < w.pair.totalSupply)
    (h : SoroswapPool.withdraw env w x dest config = .ok (k, w')) :
    w'.pair.token0 = w.pair.token0 ∧
      Moved (liquidity config w.pair) (liquidity config w'.pair) (-x) (-k) := by
  obtain ⟨a, b, u, u', hremove, hback, hpay⟩ := SoroswapPool.withdraw_ok h
  obtain ⟨hu, hb, hfirst⟩ := remove_move hf hp hx hremove
  have hpair : w'.pair = u'.pair := by
    rcases payOut_ok hpay with ⟨_, rfl⟩ | ⟨_, _, _, rfl⟩ <;> rfl
  have hpool : liquidity config u.pair = ⟨(liquidity config w.pair).a - a,
      (liquidity config w.pair).b - b, w.pair.totalSupply - x⟩ := by
    rw [hu, liquidity_move, ← sub_eq_add_neg, ← sub_eq_add_neg]
  have htoken0 : u.pair.token0 = w.pair.token0 := by
    rw [hu]
    simp
  have hsupply : u.pair.totalSupply = w.pair.totalSupply + -x := by
    rw [hu, sub_eq_add_neg]
  rw [hpair]
  rcases swapBack_ok hback with ⟨hnone, rfl, rfl⟩ | ⟨_, out, hswap, rfl⟩
  · refine ⟨htoken0, .single hfirst, ?_, ?_, ?_⟩
    · rw [hpool]
      rfl
    · rw [hpool]
      rfl
    · rw [hpool]
      dsimp only
      omega
  · have hlu : Listed config u.pair := by
      unfold Listed
      rwa [htoken0]
    obtain ⟨out', hamounts, hu', _, hsecond⟩ :=
      swapB_move hf (hfirst.open hp) hc.tokens_ne hlu hswap
    obtain rfl : out = out' := by simpa using hamounts
    have hback : liquidity config u'.pair = ⟨(liquidity config u.pair).a + -out,
        (liquidity config u.pair).b + b, u.pair.totalSupply⟩ := by
      rw [hu']
      simp [liquidity, reservesFrom_move_other hc.tokens_ne hlu]
    refine ⟨?_, (Relation.ReflTransGen.single hfirst).tail hsecond, ?_, ?_, ?_⟩
    · rw [hu', token0_move, htoken0]
    · rw [hback]
      exact hsupply
    · rw [hback, hpool]
      dsimp only
      omega
    · rw [hback, hpool]
      dsimp only
      omega

end Calls

def view (config : StrategyConfig) (w : World) : View Address :=
  ⟨liquidity config w.pair, positions w, w.events⟩

/-- The strategy is set up on a pair of its two tokens. -/
structure SetUp (config : StrategyConfig) (w : World) : Prop where
  configured : w.storage.config = some config
  proper : ProperConfig w.self config
  listed : Listed config w.pair

/-- The pair is fair to everybody, and others leave the strategy its LP tokens. -/
def Fair (config : StrategyConfig) : Action → World → Prop
  | .call env _, _ => FairPair config env
  | .transfer _ _ _ _, _ => True
  | .others _ reserve0 reserve1 totalSupply, w =>
      Moves (liquidity config w.pair)
        (liquidity config { w.pair with reserve0, reserve1, totalSupply }) ∧
      (positions w).total < totalSupply

section Steps
variable {env : Env} {w w' : World} {config : StrategyConfig} {amount k : ℤ}
  {vault dest : Address} {a : Action}

theorem deposit_effect (hw : SetUp config w) (hh : Healthy (view config w))
    (hf : FairPair config env)
    (h : SoroswapContract.deposit env w amount vault = .ok (k, w')) :
    w'.pair.token0 = w.pair.token0 ∧
      Effect (some vault) none (view config w) (view config w') := by
  obtain ⟨_, c, minted, v, hc, hdep, rfl⟩ := SoroswapContract.deposit_ok h
  obtain rfl := Option.some.inj (hc.symm.trans hw.configured)
  obtain ⟨hnonneg, htoken0, hmoved⟩ := deposit_moved hf hw.proper hh.liquid hdep
  refine ⟨htoken0, .enter vault minted [.deposit strategyName amount vault] rfl hnonneg rfl ?_ ?_
    rfl⟩
  · simp [drawn]
  · rw [totalBrought_singleton]
    exact hmoved

theorem withdraw_effect (hw : SetUp config w) (hh : Healthy (view config w))
    (hf : FairPair config env)
    (h : SoroswapContract.withdraw env w amount vault dest = .ok (k, w')) :
    w'.pair.token0 = w.pair.token0 ∧
      Effect none (some vault) (view config w) (view config w') := by
  obtain ⟨hpos, _, c, totalValue, burnt, paid, v, hc, _, _, hburn, _, hwd, rfl⟩ :=
    SoroswapContract.withdraw_ok h
  obtain rfl := Option.some.inj (hc.symm.trans hw.configured)
  obtain ⟨hnonneg, hle⟩ := proportionalBurn_le (hh.nonneg vault) hpos hburn
  have hlt : burnt < w.pair.totalSupply :=
    (hle.trans hh.nonneg.amount_le_total).trans_lt hh.locked
  obtain ⟨htoken0, hmoved⟩ := withdraw_moved hf hw.proper hw.listed hh.liquid hlt hwd
  refine ⟨htoken0, .leave vault burnt [.withdraw strategyName paid vault] rfl hnonneg hle rfl ?_ ?_
    rfl⟩
  · simp [brought]
  · rw [totalDrawn_singleton]
    exact hmoved

theorem SetUp.step (hw : SetUp config w) (htoken0 : w'.pair.token0 = w.pair.token0)
    (h : step a w = .ok w') : SetUp config w' := by
  obtain ⟨hconfig, hself⟩ := step_config hw.configured h
  refine ⟨hconfig, hself ▸ hw.proper, ?_⟩
  unfold Listed
  rw [htoken0]
  exact hw.listed

/-- A committed step is a vault's entry or exit, or leaves the positions alone. -/
theorem market : Market step (view config) (SetUp config) (Fair config) (named depositOf)
    (named withdrawalOf) := by
  intro a w w' ha hw hh h
  have hunmoved : ∀ es, w'.pair = w.pair → positions w' = positions w →
      named depositOf a = none → named withdrawalOf a = none → w'.events = w.events ++ es →
      totalBrought es = 0 → totalDrawn es = 0 → SetUp config w' ∧
        Effect (named depositOf a) (named withdrawalOf a) (view config w) (view config w') := by
    intro es hpair hbook hd hwd hlog hbrought hdrawn
    have hpool : (view config w').pool = (view config w).pool := by rw [view, view, hpair]
    refine ⟨hw.step (by rw [hpair]) h, .others es hd hwd hlog hbrought hdrawn ?_ hbook ?_⟩
    · rw [hpool]
    · rw [hpool]
      exact hh.locked
  rcases a with ⟨env, c⟩ | ⟨token, sender, receiver, amount⟩ |
    ⟨tokens, reserve0, reserve1, totalSupply⟩
  · cases c with
    | construct asset initArgs =>
        have hnone := (construct_ok h).1
        rw [hw.configured] at hnone
        cases hnone
    | deposit amount vault =>
        obtain ⟨k, hv⟩ := forget_eq_ok.mp h
        obtain ⟨htoken0, heffect⟩ := deposit_effect hw hh ha hv
        exact ⟨hw.step htoken0 h, heffect⟩
    | withdraw amount vault dest =>
        obtain ⟨k, hv⟩ := forget_eq_ok.mp h
        obtain ⟨htoken0, heffect⟩ := withdraw_effect hw hh ha hv
        exact ⟨hw.step htoken0 h, heffect⟩
    | harvest sender data =>
        have hcall := h
        simp only [SoroswapContract.step, invoke, harvest, bind_eq_ok, pure_eq_ok] at hcall
        obtain ⟨_, _, price, _, rfl⟩ := hcall
        exact hunmoved [.harvest strategyName 0 sender price] rfl rfl rfl rfl rfl
          (by simp [brought]) (by simp [drawn])
    | asset | balance vault =>
        obtain ⟨_, rfl⟩ := readOnly_eq_ok.mp h
        exact hunmoved [] rfl rfl rfl rfl (by simp) rfl rfl
  · obtain ⟨_, tokens, _, rfl⟩ := guarded_eq_ok.mp h
    exact hunmoved [] rfl rfl rfl rfl (by simp) rfl rfl
  · obtain rfl := Except.ok.inj h
    exact ⟨hw.step rfl h, .others [] rfl rfl (by simp [view]) rfl rfl ha.1 rfl ha.2⟩

/-- Calls of a vault of `K` and token transfers go together with trading alone. -/
theorem alone_call {c : Call} {K : Address → Prop}
    (hc : (∃ amount vault, c = .deposit amount vault ∧ K vault) ∨
      ∃ amount vault dest, c = .withdraw amount vault dest ∧ K vault) :
    Alone step (view config) (named depositOf) (named withdrawalOf) K (.call env c) w := by
  rcases hc with ⟨amount, vault, rfl, hK⟩ | ⟨amount, vault, dest, rfl, hK⟩
  · refine ⟨?_, fun he => by cases he⟩
    rintro i (hi | hi)
    · cases hi
      exact hK
    · cases hi
  · refine ⟨?_, fun _ hl => by cases hl⟩
    rintro i (hi | hi)
    · cases hi
    · cases hi
      exact hK

theorem alone_transfer {token sender receiver : Address} {K : Address → Prop} :
    Alone step (view config) (named depositOf) (named withdrawalOf) K
      (.transfer token sender receiver amount) w := by
  refine ⟨?_, ?_⟩
  · rintro i (hi | hi) <;> cases hi
  · intro _ _ t ht
    obtain ⟨_, _, _, rfl⟩ := guarded_eq_ok.mp ht
    rfl

end Steps

/-- In every run of the strategy among fair traders the depth of the pair never
falls, and the product of the reserve parts behind a vault's LP tokens never
falls while no withdrawal of that vault commits. -/
theorem depth_never_falls (w : World) (config : StrategyConfig) (acts : List Action)
    (hw : SetUp config w) (hh : Healthy (view config w))
    (hacts : Each step (Fair config) w acts) :
    (liquidity config w.pair).depth ≤ (liquidity config (run w acts).pair).depth ∧
    ∀ vault, Each step (Spares step (named withdrawalOf) vault) w acts →
      (liquidity config w.pair).behind (getLpTokens w.storage vault) ≤
        (liquidity config (run w acts).pair).behind (getLpTokens (run w acts).storage vault) :=
  ⟨market.run_depth hw hh hacts, fun _ hspared => market.run_behind hw hh hacts hspared⟩

/-- Vaults that trade alone withdraw no more than they deposit and than the other
LP tokens leave of the reserves; if no LP tokens are theirs at the start, no more
than they deposit. -/
theorem colluders_take_no_more (K : Address → Prop) [DecidablePred K] (w : World)
    (config : StrategyConfig) (before acts : List Action) (hw : SetUp config w)
    (hh : Healthy (view config w)) (hbefore : Each step (Fair config) w before)
    (hacts : Each step (fun a u => Fair config a u ∧
      Alone step (view config) (named depositOf) (named withdrawalOf) K a u)
      (run w before) acts) :
    ∃ es, (run w (before ++ acts)).events = (run w before).events ++ es ∧
      (totalDrawn es + takeableBy K (view config (run w (before ++ acts))) : ℚ) ≤
        totalBrought es + takeableBy K (view config (run w before)) ∧
      ((positions (run w before)).sumOver K = 0 → totalDrawn es ≤ totalBrought es) := by
  obtain ⟨hw', hh'⟩ := market.run_healthy hw hh hbefore
  rw [show run w (before ++ acts) = run (run w before) acts from run_append]
  exact market.run_takes hw' hh' hacts

/-- The constant product pair, its LP tokens rounded down both ways. -/
def fairEnv (signer : Address) : Env :=
  { sampleEnv signer with
    lpMinted p a b := u128.checked (min
      (a * p.totalSupply / (p.reservesFrom sampleAsset).1)
      (b * p.totalSupply / (p.reservesFrom sampleAsset).2))
    removed p lp := some (lp * (p.reservesFrom sampleAsset).1 / p.totalSupply,
      lp * (p.reservesFrom sampleAsset).2 / p.totalSupply) }

theorem fairEnv_fair (signer : Address) : FairPair sampleConfig (fairEnv signer) where
  swap x reserveIn reserveOut out hx hin hout h := by
    obtain rfl := Option.some.inj h
    exact ConstantProduct.amountOut_product hx hin hout
  mint p a b lp hp ha hb h := by
    obtain ⟨hholds, rfl⟩ := Width.checked_eq_some.mp h
    refine ⟨hholds.1, ?_, ?_⟩
    · exact (mul_le_mul_of_nonneg_right (min_le_left _ _) hp.a_pos.le).trans
        (Int.ediv_mul_le _ hp.a_pos.ne')
    · exact (mul_le_mul_of_nonneg_right (min_le_right _ _) hp.b_pos.le).trans
        (Int.ediv_mul_le _ hp.b_pos.ne')
  remove p lp a b hp hlp h := by
    obtain ⟨rfl, rfl⟩ := Prod.mk.inj (Option.some.inj h)
    exact ⟨Int.ediv_mul_le _ hp.shares_pos.ne', Int.ediv_mul_le _ hp.shares_pos.ne'⟩

theorem sampleWorld_setUp : SetUp sampleConfig sampleWorld :=
  ⟨rfl, ⟨by decide, by decide, by decide, by decide⟩, .inl rfl⟩

theorem sampleWorld_healthy : Healthy (view sampleConfig sampleWorld) :=
  ⟨⟨by decide, by decide, by decide⟩, Attribution.Nonneg.empty, by decide⟩

/-- Two vaults deposit and one of them withdraws. -/
def sampleCalls : List Action :=
  [.transfer sampleAsset (.account 7) (.contract 0) 1000,
    .call (fairEnv (.account 7)) (.deposit 1000 (.account 7)),
    .transfer sampleAsset (.account 8) (.contract 0) 600,
    .call (fairEnv (.account 8)) (.deposit 600 (.account 8)),
    .call (fairEnv (.account 7)) (.withdraw 400 (.account 7) (.account 7))]

def sampleVaults (vault : Address) : Prop := vault = .account 7 ∨ vault = .account 8

instance : DecidablePred sampleVaults := fun _ => inferInstanceAs (Decidable (_ ∨ _))

theorem sampleCalls_fair : Each step (Fair sampleConfig) sampleWorld sampleCalls :=
  ⟨trivial, fairEnv_fair _, trivial, fairEnv_fair _, fairEnv_fair _, trivial⟩

theorem colluders_take_no_more_sample : ∃ es, (run sampleWorld sampleCalls).events = es ∧
    es.length = 3 ∧ totalDrawn es ≤ totalBrought es := by
  have halone : Each step (Alone step (view sampleConfig) (named depositOf) (named withdrawalOf)
      sampleVaults) sampleWorld sampleCalls :=
    ⟨alone_transfer, alone_call (.inl ⟨_, _, rfl, .inl rfl⟩), alone_transfer,
      alone_call (.inl ⟨_, _, rfl, .inr rfl⟩), alone_call (.inr ⟨_, _, _, rfl, .inl rfl⟩), trivial⟩
  obtain ⟨es, hlog, _, hnone⟩ := colluders_take_no_more sampleVaults sampleWorld sampleConfig []
    sampleCalls sampleWorld_setUp sampleWorld_healthy trivial
    (each_and.mpr ⟨sampleCalls_fair, halone⟩)
  obtain rfl : (run sampleWorld sampleCalls).events = es := hlog
  exact ⟨_, rfl, rfl, hnone rfl⟩

theorem depth_never_falls_sample :
    (liquidity sampleConfig sampleWorld.pair).depth ≤
      (liquidity sampleConfig (run sampleWorld sampleCalls).pair).depth :=
  (depth_never_falls sampleWorld sampleConfig sampleCalls sampleWorld_setUp sampleWorld_healthy
    sampleCalls_fair).1

end NekoStrategies.SoroswapLiquidity
