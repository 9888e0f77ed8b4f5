import NekoStrategies.AmmPosition
import NekoStrategies.Attribution

/-!
# The Soroswap pair as the strategy uses it

Half of a deposit is swapped, the rest is added as liquidity together with the
tokens received; a withdrawal removes liquidity and swaps back. The router and
the pair are other contracts: an `Env` carries the amounts they decide on, as
functions of the reserves they decide by, and the transfers, the reserves and
the LP tokens are carried out here. LP tokens are tokens of the pair.
-/
namespace NekoStrategies.SoroswapPool
open CheckedInteger SorobanHost

structure StrategyConfig where
  tokenA : Address
  tokenB : Address
  router : Address
  pair : Address
deriving DecidableEq, Repr

structure Storage where
  config : Option StrategyConfig
  lpTokens : Attribution Address

def Storage.empty : Storage := ⟨none, .empty⟩

/-- The state of the pair apart from its LP balances. -/
structure Pair where
  token0 : Address
  reserve0 : ℤ
  reserve1 : ℤ
  totalSupply : ℤ
deriving DecidableEq, Repr

/-- The reserve of `token` and the other one. -/
def Pair.reservesFrom (p : Pair) (token : Address) : ℤ × ℤ :=
  if p.token0 = token then (p.reserve0, p.reserve1) else (p.reserve1, p.reserve0)

/-- Move the reserve of `token` by `x` and the other one by `y`. -/
def Pair.move (p : Pair) (token : Address) (x y : ℤ) : Pair :=
  if p.token0 = token then { p with reserve0 := p.reserve0 + x, reserve1 := p.reserve1 + y }
  else { p with reserve0 := p.reserve0 + y, reserve1 := p.reserve1 + x }

@[simp] theorem Pair.reservesFrom_move (p : Pair) (token : Address) (x y : ℤ) :
    (p.move token x y).reservesFrom token =
      ((p.reservesFrom token).1 + x, (p.reservesFrom token).2 + y) := by
  unfold Pair.move Pair.reservesFrom
  split_ifs <;> simp_all

/-- What the router and the pair answer during one invocation. -/
structure Env where
  caller : Caller
  timestamp : ℤ
  /-- `router_pair_for` -/
  pairFor : Address → Address → Option Address
  /-- amount paid for a swap, by the amount in and the two reserves -/
  amountOut : ℤ → ℤ → ℤ → Option ℤ
  /-- amounts taken for desired ones, by the two reserves -/
  addAmounts : ℤ → ℤ → ℤ → ℤ → Option (ℤ × ℤ)
  /-- LP tokens minted for two amounts -/
  lpMinted : Pair → ℤ → ℤ → Option ℤ
  /-- amounts paid for LP tokens -/
  removed : Pair → ℤ → Option (ℤ × ℤ)

structure World where
  self : Address
  storage : Storage
  tokens : Ledger
  pair : Pair
  events : List Event

def World.emit (w : World) (e : Event) : World := { w with events := w.events ++ [e] }

section Router
variable (env : Env) (w : World) (auths : List AuthEntry) (config : StrategyConfig)

/-- `swap_exact_tokens_for_tokens(amount_in, amount_out_min, [token_in, token_out], ..)` -/
def swapExactTokensForTokens (amountIn amountOutMin : ℤ) (tokenIn tokenOut : Address) :
    Outcome (List ℤ × World) := do
  let (reserveIn, reserveOut) := w.pair.reservesFrom tokenIn
  let out ← orFault .callee (env.amountOut amountIn reserveIn reserveOut)
  ensure (amountOutMin ≤ out) .callee
  let tokens ← w.tokens.pull auths tokenIn w.self config.pair amountIn
  let tokens ← tokens.transfer tokenOut config.pair w.self out
  pure ([amountIn, out], { w with tokens, pair := w.pair.move tokenIn amountIn (-out) })

def addLiquidity (aDesired bDesired aMin bMin : ℤ) : Outcome World := do
  let (reserveA, reserveB) := w.pair.reservesFrom config.tokenA
  let (a, b) ← orFault .callee (env.addAmounts aDesired bDesired reserveA reserveB)
  ensure (aMin ≤ a ∧ bMin ≤ b) .callee
  let tokens ← w.tokens.pull auths config.tokenA w.self config.pair a
  let tokens ← tokens.pull auths config.tokenB w.self config.pair b
  let lp ← orFault .callee (env.lpMinted w.pair a b)
  pure { w with
    tokens := tokens.add config.pair w.self lp
    pair := { w.pair.move config.tokenA a b with totalSupply := w.pair.totalSupply + lp } }

def removeLiquidity (lp aMin bMin : ℤ) : Outcome ((ℤ × ℤ) × World) := do
  let tokens ← w.tokens.pull auths config.pair w.self config.pair lp
  let (a, b) ← orFault .callee (env.removed w.pair lp)
  ensure (aMin ≤ a ∧ bMin ≤ b) .callee
  let tokens := tokens.add config.pair config.pair (-lp)
  let tokens ← tokens.transfer config.tokenA config.pair w.self a
  let tokens ← tokens.transfer config.tokenB config.pair w.self b
  pure ((a, b), { w with
    tokens
    pair := { w.pair.move config.tokenA (-a) (-b) with totalSupply := w.pair.totalSupply - lp } })

end Router

/-- No slippage protection for MVP. -/
def minOut : ℤ := 0

/-- token_b to add next to `remainingA`. -/
def bToAdd (remainingA reserveA reserveB bReceived : ℤ) : ℤ :=
  min (i128.mulDivOrZero remainingA reserveB reserveA) bReceived

def deposit (env : Env) (w : World) (amount : ℤ) (config : StrategyConfig) :
    Outcome (ℤ × World) := do
  let _deadline ← plainAdd u64 env.timestamp 3600
  let swapAmount := amount.tdiv 2
  let remainingA ← plainSub i128 amount swapAmount
  let auths := [AuthEntry.transfer config.tokenA w.self config.pair swapAmount]
  let (swapOut, w) ← swapExactTokensForTokens env w auths config swapAmount minOut
    config.tokenA config.tokenB
  let bReceived := swapOut.getLast?.getD 0
  let (reserveA, reserveB) := w.pair.reservesFrom config.tokenA
  let b := bToAdd remainingA reserveA reserveB bReceived
  let lpBefore := w.tokens config.pair w.self
  let auths := [AuthEntry.transfer config.tokenA w.self config.pair remainingA,
    AuthEntry.transfer config.tokenB w.self config.pair b]
  let w ← addLiquidity env w auths config remainingA b minOut minOut
  let lpAfter := w.tokens config.pair w.self
  let lpMinted ← plainSub i128 lpAfter lpBefore
  pure (lpMinted, w)

/-- token_a gained from the token_b of a withdrawal. -/
def swapBack (env : Env) (w : World) (config : StrategyConfig) (aOut bOut : ℤ) :
    Outcome (ℤ × World) :=
  if 0 < bOut then do
    let auths := [AuthEntry.transfer config.tokenB w.self config.pair bOut]
    let (swapOut, w) ← swapExactTokensForTokens env w auths config bOut minOut
      config.tokenB config.tokenA
    let totalA ← plainAdd i128 aOut (swapOut.getLast?.getD 0)
    pure (totalA, w)
  else pure (aOut, w)

def payOut (w : World) (config : StrategyConfig) (dest : Address) (totalA : ℤ) :
    Outcome World :=
  if 0 < totalA then do
    let tokens ← w.tokens.transfer config.tokenA w.self dest totalA
    pure { w with tokens }
  else pure w

def withdraw (env : Env) (w : World) (lpToBurn : ℤ) (dest : Address) (config : StrategyConfig) :
    Outcome (ℤ × World) := do
  let _deadline ← plainAdd u64 env.timestamp 3600
  let auths := [AuthEntry.transfer config.pair w.self config.pair lpToBurn]
  let ((aOut, bOut), w) ← removeLiquidity env w auths config lpToBurn minOut minOut
  let (totalA, w) ← swapBack env w config aOut bOut
  let w ← payOut w config dest totalA
  pure (totalA, w)

/-- Value in token_a of `vaultLp` LP tokens at the spot price. -/
def lpValueInA (w : World) (vaultLp : ℤ) (config : StrategyConfig) : Outcome ℤ :=
  let totalLp := w.pair.totalSupply
  let (reserveA, reserveB) := w.pair.reservesFrom config.tokenA
  if vaultLp = 0 ∨ totalLp = 0 ∨ reserveB = 0 then pure 0
  else
    let shareA := i128.mulDivOrZero reserveA vaultLp totalLp
    let shareB := i128.mulDivOrZero reserveB vaultLp totalLp
    let bInA := i128.mulDivOrZero shareB reserveA reserveB
    plainAdd i128 shareA bInA

section Calls
variable {env : Env} {w w' : World} {auths : List AuthEntry} {config : StrategyConfig}
  {amount k x y : ℤ} {tokenIn tokenOut dest : Address}

theorem swap_ok {amounts : List ℤ}
    (h : swapExactTokensForTokens env w auths config x y tokenIn tokenOut = .ok (amounts, w')) :
    ∃ out tokens tokens',
      env.amountOut x (w.pair.reservesFrom tokenIn).1 (w.pair.reservesFrom tokenIn).2 =
        some out ∧
      w.tokens.transfer tokenIn w.self config.pair x = .ok tokens ∧
      tokens.transfer tokenOut config.pair w.self out = .ok tokens' ∧
      amounts = [x, out] ∧
      w' = { w with tokens := tokens', pair := w.pair.move tokenIn x (-out) } := by
  simp only [swapExactTokensForTokens, bind_eq_ok, ensure_eq_ok, orFault_eq_ok, pure_eq_ok,
    Ledger.pull_eq_ok, exists_const, Prod.mk.injEq] at h
  obtain ⟨out, hout, _, tokens, ⟨_, ht⟩, tokens', ht', rfl, rfl⟩ := h
  exact ⟨out, tokens, tokens', hout, ht, ht', rfl, rfl⟩

theorem addLiquidity_ok {aMin bMin : ℤ}
    (h : addLiquidity env w auths config x y aMin bMin = .ok w') :
    ∃ a b lp tokens tokens',
      env.addAmounts x y (w.pair.reservesFrom config.tokenA).1
        (w.pair.reservesFrom config.tokenA).2 = some (a, b) ∧
      .transfer config.tokenA w.self config.pair a ∈ auths ∧
      .transfer config.tokenB w.self config.pair b ∈ auths ∧
      w.tokens.transfer config.tokenA w.self config.pair a = .ok tokens ∧
      tokens.transfer config.tokenB w.self config.pair b = .ok tokens' ∧
      env.lpMinted w.pair a b = some lp ∧
      w' = { w with
        tokens := tokens'.add config.pair w.self lp
        pair := { w.pair.move config.tokenA a b with
          totalSupply := w.pair.totalSupply + lp } } := by
  simp only [addLiquidity, bind_eq_ok, ensure_eq_ok, orFault_eq_ok, pure_eq_ok,
    Ledger.pull_eq_ok, exists_const, Prod.exists] at h
  obtain ⟨a, b, hab, _, tokens, ⟨hautha, ht⟩, tokens', ⟨hauthb, ht'⟩, lp, hlp, rfl⟩ := h
  exact ⟨a, b, lp, tokens, tokens', hab, hautha, hauthb, ht, ht', hlp, rfl⟩

theorem removeLiquidity_ok {lp a b aMin bMin : ℤ}
    (h : removeLiquidity env w auths config lp aMin bMin = .ok ((a, b), w')) :
    ∃ tokens tokens' tokens'',
      w.tokens.transfer config.pair w.self config.pair lp = .ok tokens ∧
      env.removed w.pair lp = some (a, b) ∧
      (tokens.add config.pair config.pair (-lp)).transfer config.tokenA config.pair w.self a =
        .ok tokens' ∧
      tokens'.transfer config.tokenB config.pair w.self b = .ok tokens'' ∧
      w' = { w with
        tokens := tokens''
        pair := { w.pair.move config.tokenA (-a) (-b) with
          totalSupply := w.pair.totalSupply - lp } } := by
  simp only [removeLiquidity, bind_eq_ok, ensure_eq_ok, orFault_eq_ok, pure_eq_ok,
    Ledger.pull_eq_ok, exists_const, Prod.exists, Prod.mk.injEq] at h
  obtain ⟨tokens, ⟨_, ht⟩, a', b', hab, _, tokens', ht', tokens'', ht'', ⟨rfl, rfl⟩, rfl⟩ := h
  exact ⟨tokens, tokens', tokens'', ht, hab, ht', ht'', rfl⟩

theorem deposit_ok (h : deposit env w amount config = .ok (k, w')) :
    ∃ swapOut u, swapExactTokensForTokens env w
        [.transfer config.tokenA w.self config.pair (amount.tdiv 2)] config (amount.tdiv 2)
        minOut config.tokenA config.tokenB = .ok (swapOut, u) ∧
      addLiquidity env u
        [.transfer config.tokenA u.self config.pair (amount - amount.tdiv 2),
          .transfer config.tokenB u.self config.pair
            (bToAdd (amount - amount.tdiv 2) (u.pair.reservesFrom config.tokenA).1
              (u.pair.reservesFrom config.tokenA).2 (swapOut.getLast?.getD 0))]
        config (amount - amount.tdiv 2)
        (bToAdd (amount - amount.tdiv 2) (u.pair.reservesFrom config.tokenA).1
          (u.pair.reservesFrom config.tokenA).2 (swapOut.getLast?.getD 0)) minOut minOut =
          .ok w' ∧
      k = w'.tokens config.pair w'.self - u.tokens config.pair u.self := by
  simp only [deposit, bind_eq_ok, plainAdd_eq_ok, plainSub_eq_ok, pure_eq_ok, Prod.exists,
    Prod.mk.injEq] at h
  obtain ⟨_, _, _, ⟨_, rfl⟩, swapOut, u, hswap, u', hadd, _, ⟨_, rfl⟩, rfl, rfl⟩ := h
  exact ⟨swapOut, u, hswap, hadd, rfl⟩

theorem swapBack_ok (h : swapBack env w config x y = .ok (k, w')) :
    (y ≤ 0 ∧ k = x ∧ w' = w) ∨
      (0 < y ∧ ∃ out, swapExactTokensForTokens env w
          [.transfer config.tokenB w.self config.pair y] config y minOut config.tokenB
          config.tokenA = .ok ([y, out], w') ∧ k = x + out) := by
  unfold swapBack at h
  split_ifs at h with hy
  · simp only [bind_eq_ok, plainAdd_eq_ok, pure_eq_ok, Prod.exists, Prod.mk.injEq] at h
    obtain ⟨amounts, u, hswap, _, ⟨_, rfl⟩, rfl, rfl⟩ := h
    obtain ⟨out, _, _, _, _, _, rfl, _⟩ := swap_ok hswap
    exact .inr ⟨hy, out, hswap, rfl⟩
  · simp only [pure_eq_ok, Prod.mk.injEq] at h
    exact .inl ⟨not_lt.mp hy, h.1.symm, h.2.symm⟩

theorem payOut_ok (h : payOut w config dest x = .ok w') :
    (x ≤ 0 ∧ w' = w) ∨
      (0 < x ∧ ∃ tokens, w.tokens.transfer config.tokenA w.self dest x = .ok tokens ∧
        w' = { w with tokens }) := by
  unfold payOut at h
  split_ifs at h with hx
  · simp only [bind_eq_ok, pure_eq_ok] at h
    obtain ⟨tokens, ht, rfl⟩ := h
    exact .inr ⟨hx, tokens, ht, rfl⟩
  · exact .inl ⟨not_lt.mp hx, (pure_eq_ok.mp h).symm⟩

theorem withdraw_ok (h : withdraw env w x dest config = .ok (k, w')) :
    ∃ a b u u', removeLiquidity env w [.transfer config.pair w.self config.pair x] config x
        minOut minOut = .ok ((a, b), u) ∧
      swapBack env u config a b = .ok (k, u') ∧ payOut u' config dest k = .ok w' := by
  simp only [withdraw, bind_eq_ok, plainAdd_eq_ok, pure_eq_ok, Prod.exists, Prod.mk.injEq] at h
  obtain ⟨_, _, a, b, u, hremove, total, u', hswap, u'', hpay, rfl, rfl⟩ := h
  exact ⟨a, b, u, u', hremove, hswap, hpay⟩

/-- Nothing the router does touches the strategy's own storage. -/
theorem swap_storage {amounts : List ℤ}
    (h : swapExactTokensForTokens env w auths config x y tokenIn tokenOut = .ok (amounts, w')) :
    w'.storage = w.storage ∧ w'.self = w.self ∧ w'.events = w.events := by
  obtain ⟨_, _, _, _, _, _, _, rfl⟩ := swap_ok h
  exact ⟨rfl, rfl, rfl⟩

theorem deposit_storage (h : deposit env w amount config = .ok (k, w')) :
    w'.storage = w.storage ∧ w'.self = w.self ∧ w'.events = w.events := by
  obtain ⟨_, u, hswap, hadd, _⟩ := deposit_ok h
  obtain ⟨_, _, _, _, _, _, _, _, _, _, _, rfl⟩ := addLiquidity_ok hadd
  have hu := swap_storage hswap
  exact hu

theorem withdraw_storage (h : withdraw env w x dest config = .ok (k, w')) :
    w'.storage = w.storage ∧ w'.self = w.self ∧ w'.events = w.events := by
  obtain ⟨a, b, u, u', hremove, hswap, hpay⟩ := withdraw_ok h
  have hu : u.storage = w.storage ∧ u.self = w.self ∧ u.events = w.events := by
    obtain ⟨_, _, _, _, _, _, _, rfl⟩ := removeLiquidity_ok hremove
    exact ⟨rfl, rfl, rfl⟩
  have hu' : u'.storage = u.storage ∧ u'.self = u.self ∧ u'.events = u.events := by
    rcases swapBack_ok hswap with ⟨_, _, rfl⟩ | ⟨_, out, hback, _⟩
    · exact ⟨rfl, rfl, rfl⟩
    · exact swap_storage hback
  rcases payOut_ok hpay with ⟨_, rfl⟩ | ⟨_, tokens, _, rfl⟩
  · exact ⟨hu'.1.trans hu.1, hu'.2.1.trans hu.2.1, hu'.2.2.trans hu.2.2⟩
  · exact ⟨hu'.1.trans hu.1, hu'.2.1.trans hu.2.1, hu'.2.2.trans hu.2.2⟩

end Calls

end NekoStrategies.SoroswapPool
