import NekoStrategies.BlendReserves
import NekoStrategies.TransactionalRun

/-!
# The Blend strategy contract

The entry points of the contract over its storage, the token ledger and the
strategy's supply position in the Blend pool. The pool, the router and the
reward emission are code of other contracts: an `Env` carries what they answer
during one invocation, as functions of the requests made to them, and only the
token transfers and the position change are carried out here. Nothing restricts
these answers; a group of results that needs more of Blend says so.
-/
namespace NekoStrategies.BlendContract
open CheckedInteger RoundedDivision SorobanHost BlendReserves

def strategyName : String := "BlendStrategy"

/-- What the other contracts answer during one invocation. -/
structure Env where
  caller : Caller
  timestamp : ℤ
  /-- `get_reserve(asset).config.index` -/
  reserveIndex : ℤ
  /-- `get_reserve(asset).data.b_rate` -/
  bRate : ℤ
  /-- bTokens minted for a Supply request, or a failing pool call -/
  mint : ℤ → Option ℤ
  /-- bTokens due for a Withdraw request, or a failing pool call -/
  burn : ℤ → Option ℤ
  /-- BLND paid out by the pool's `claim` -/
  claim : Option ℤ
  /-- `router_pair_for(path)` -/
  pairFor : Option Address
  /-- amounts returned by `swap_exact_tokens_for_tokens(amount_in, amount_out_min, ..)` -/
  swap : ℤ → ℤ → Option (List ℤ)

structure World where
  self : Address
  storage : Storage
  tokens : Ledger
  /-- supply positions of the strategy in the pool, by reserve index -/
  supply : ℤ → Option ℤ
  events : List Event

/-- The strategy's bToken position in one reserve. -/
def World.position (w : World) (reserveIndex : ℤ) : ℤ := (w.supply reserveIndex).getD 0

def World.emit (w : World) (e : Event) : World := { w with events := w.events ++ [e] }

inductive RequestType where
  | supply
  | withdraw
deriving DecidableEq, Repr

structure Request where
  address : Address
  amount : ℤ
  requestType : RequestType
deriving DecidableEq, Repr

/-- bTokens burned and underlying paid for a Withdraw request: a request beyond
the position burns all of it and pays what it is worth. -/
def withdrawOutcome (position due amount bRate : ℤ) : ℤ × ℤ :=
  if due ≤ position then (due, amount)
  else (position, floorDiv (position * bRate) scalar12)

/-- `pool.submit(strategy, strategy, dest, [request])`. -/
def submit (env : Env) (w : World) (auths : List AuthEntry) (pool dest : Address)
    (request : Request) : Outcome World :=
  match request.requestType with
  | .supply => do
      let minted ← orFault .callee (env.mint request.amount)
      let tokens ← w.tokens.pull auths request.address w.self pool request.amount
      let supply := Function.update w.supply env.reserveIndex
        (some (w.position env.reserveIndex + minted))
      pure { w with tokens, supply }
  | .withdraw => do
      let due ← orFault .callee (env.burn request.amount)
      let position := w.position env.reserveIndex
      let (burnt, paid) := withdrawOutcome position due request.amount env.bRate
      let tokens ← w.tokens.transfer request.address pool dest paid
      let supply := Function.update w.supply env.reserveIndex (some (position - burnt))
      pure { w with tokens, supply }

/-- The minted bTokens are read back only when reinvesting. -/
def supply (env : Env) (w : World) (dest : Address) (amount : ℤ) (config : Config)
    (isReinvest : Bool) : Outcome (ℤ × World) := do
  let preSupplyAmount := if isReinvest then w.position config.reserveId else 0
  let auths := [AuthEntry.transfer config.asset w.self config.pool amount]
  let w ← submit env w auths config.pool dest ⟨config.asset, amount, .supply⟩
  if isReinvest then do
    let bTokensAmount ← okOr .underflowOverflow
      (i128.checkedSub (w.position config.reserveId) preSupplyAmount)
    pure (bTokensAmount, w)
  else pure (amount, w)

def poolWithdraw (env : Env) (w : World) (dest : Address) (amount : ℤ) (config : Config) :
    Outcome (ℤ × World) := do
  let w ← submit env w [] config.pool dest ⟨config.asset, amount, .withdraw⟩
  pure (amount, w)

/-- Emissions arrive as BLND on the strategy's own account. -/
def claim (env : Env) (w : World) (config : Config) : Outcome (ℤ × World) := do
  let claimed ← orFault .callee env.claim
  pure (claimed, { w with tokens := w.tokens.add config.blendToken w.self claimed })

/-- What the router does for a swap. -/
def routerSwap (env : Env) (w : World) (pair : Address) (amountIn amountOutMin : ℤ)
    (config : Config) : Outcome (List ℤ × Ledger) := do
  let auths := [AuthEntry.transfer config.blendToken w.self pair amountIn]
  let amounts ← orFault .callee (env.swap amountIn amountOutMin)
  let tokens ← w.tokens.pull auths config.blendToken w.self pair amountIn
  let tokens ← tokens.transfer config.asset pair w.self (amounts.getD 1 0)
  pure (amounts, tokens)

/-- However the router fails, the strategy panics. -/
def internalSwapExactTokensForTokens (env : Env) (w : World) (amountIn amountOutMin : ℤ)
    (config : Config) : Outcome (List ℤ × World) := do
  let pair ← orFault (.panic .soroswapPairError) env.pairFor
  let (amounts, tokens) ← tryInvoke (.panic .internalSwapError)
    (routerSwap env w pair amountIn amountOutMin config)
  pure (amounts, { w with tokens })

def performReinvest (env : Env) (w : World) (config : Config) (amountOutMin : ℤ) :
    Outcome (StrategyReserves × World) := do
  let blndBalance := w.tokens config.blendToken w.self
  if blndBalance < config.rewardThreshold then
    pure (getStrategyReserveUpdated w.storage env.bRate, w)
  else do
    let _deadline ← okOr .underflowOverflow (u64.checkedAdd env.timestamp 1)
    let (swapped, w) ← internalSwapExactTokensForTokens env w blndBalance amountOutMin config
    let amountOut ← okOr .internalSwapError swapped[1]?
    let (bTokensMinted, w) ← supply env w w.self amountOut config true
    let (reserves, storage) ← BlendReserves.harvest w.storage bTokensMinted env.bRate
    pure (reserves, { w with storage })

def isInitialized (s : Storage) : Prop := s.config.isSome

instance (s : Storage) : Decidable (isInitialized s) := inferInstanceAs (Decidable (_ = true))

/-- `init_args`: `[blend_pool, blend_token, soroswap_router, reward_threshold, keeper]` -/
def construct (env : Env) (w : World) (asset : Address) (initArgs : List Val) :
    Outcome World := do
  ensure (¬isInitialized w.storage) (.panic .invalidArgument)
  let pool ← initArg initArgs 0 Val.toAddress
  let blendToken ← initArg initArgs 1 Val.toAddress
  let router ← initArg initArgs 2 Val.toAddress
  let rewardThreshold ← initArg initArgs 3 Val.toI128
  let keeper ← initArg initArgs 4 Val.toAddress
  let reserveId := env.reserveIndex
  let claimId ← orFault .trap
    ((u32.checkedMul reserveId 2).bind fun x => u32.checkedAdd x 1)
  ensure (0 < rewardThreshold) (.panic .invalidArgument)
  let config : Config :=
    { asset, pool, reserveId, blendToken, router, claimIds := [claimId], rewardThreshold }
  pure { w with storage := { w.storage with config := some config, keeper := some keeper } }

def asset (w : World) : Outcome Address := do
  let config ← getConfig w.storage
  pure config.asset

/-- Send back what the plan does not use. -/
def refundExcess (tokens : Ledger) (asset self vault : Address)
    (amount optimalDepositAmount : ℤ) : Outcome Ledger :=
  if amount ≠ optimalDepositAmount then do
    let excess ← orFault .trap (i128.checkedSub amount optimalDepositAmount)
    tokens.transfer asset self vault excess
  else pure tokens

def deposit (env : Env) (w : World) (amount : ℤ) (vault : Address) : Outcome (ℤ × World) := do
  checkPositiveAmount amount
  requireAuth env.caller vault
  let config ← getConfig w.storage
  let reserves := getStrategyReserveUpdated w.storage env.bRate
  let (optimalDepositAmount, bTokensMinted) ← calculateOptimalDepositAmount amount reserves
  let tokens ← w.tokens.transfer config.asset vault w.self amount
  let tokens ← refundExcess tokens config.asset w.self vault amount optimalDepositAmount
  let (_, w) ← supply env { w with tokens } vault optimalDepositAmount config false
  let (vaultShares, reserves, storage) ←
    BlendReserves.deposit w.storage vault bTokensMinted reserves
  let underlyingBalance ← sharesToUnderlying vaultShares reserves
  pure (underlyingBalance,
    { w with storage }.emit (.deposit strategyName optimalDepositAmount vault))

/-- `i128::from_be_bytes` of a slice of exactly 16 bytes. -/
def fromBeBytes (bytes : List UInt8) : Outcome ℤ := do
  ensure (bytes.length = 16) .trap
  pure (asI128 (bytes.foldl (fun acc b => acc * 256 + b.toNat) 0))

def amountOutMin (data : Option (List UInt8)) : Outcome ℤ :=
  match data with
  | some (b :: bytes) => fromBeBytes (b :: bytes)
  | _ => pure 0

def pricePerShare (reserves : StrategyReserves) : Outcome ℤ :=
  if 0 < reserves.totalShares then do
    let totalU ← sharesToUnderlying reserves.totalShares reserves
    pure (((i128.checkedMul totalU scalar12).bind
      fun x => i128.checkedDiv x reserves.totalShares).getD 0)
  else pure 0

def harvest (env : Env) (w : World) (sender : Address) (data : Option (List UInt8)) :
    Outcome World := do
  let keeper ← getKeeper w.storage
  requireAuth env.caller keeper
  ensure (sender = keeper) (.err .notAuthorized)
  let config ← getConfig w.storage
  let (harvestedBlend, w) ← claim env w config
  let minOut ← amountOutMin data
  let (reservesAfter, w) ← performReinvest env w config minOut
  let price ← pricePerShare reservesAfter
  pure (w.emit (.harvest strategyName harvestedBlend keeper price))

def withdraw (env : Env) (w : World) (amount : ℤ) (vault dest : Address) :
    Outcome (ℤ × World) := do
  checkPositiveAmount amount
  requireAuth env.caller vault
  let config ← getConfig w.storage
  let reserves := getStrategyReserveUpdated w.storage env.bRate
  let (optimalWithdrawAmount, bTokensBurnt) ← calculateOptimalWithdrawAmount amount reserves
  let (_, w) ← poolWithdraw env w dest optimalWithdrawAmount config
  let (vaultShares, reserves, storage) ←
    BlendReserves.withdraw w.storage vault bTokensBurnt reserves
  let underlyingBalance ← sharesToUnderlying vaultShares reserves
  pure (underlyingBalance,
    { w with storage }.emit (.withdraw strategyName optimalWithdrawAmount vault))

def balance (env : Env) (w : World) (vault : Address) : Outcome ℤ :=
  let vaultShares := getVaultShares w.storage vault
  if 0 < vaultShares then do
    let _config ← getConfig w.storage
    sharesToUnderlying vaultShares (getStrategyReserveUpdated w.storage env.bRate)
  else pure 0

def setKeeper (env : Env) (w : World) (newKeeper : Address) : Outcome World := do
  let oldKeeper ← getKeeper w.storage
  requireAuth env.caller oldKeeper
  pure { w with storage := { w.storage with keeper := some newKeeper } }

inductive Call where
  | construct (asset : Address) (initArgs : List Val)
  | asset
  | deposit (amount : ℤ) (vault : Address)
  | harvest (sender : Address) (data : Option (List UInt8))
  | withdraw (amount : ℤ) (vault dest : Address)
  | balance (vault : Address)
  | setKeeper (newKeeper : Address)
  | getKeeper
deriving DecidableEq, Repr

/-- The world after a successful call. -/
def invoke (env : Env) (w : World) : Call → Outcome World
  | .construct asset initArgs => construct env w asset initArgs
  | .asset => do let _ ← asset w; pure w
  | .deposit amount vault => do let (_, w) ← deposit env w amount vault; pure w
  | .harvest sender data => harvest env w sender data
  | .withdraw amount vault dest => do let (_, w) ← withdraw env w amount vault dest; pure w
  | .balance vault => do let _ ← balance env w vault; pure w
  | .setKeeper newKeeper => setKeeper env w newKeeper
  | .getKeeper => do let _ ← BlendReserves.getKeeper w.storage; pure w

/-- A call of the strategy, or token movements that do not involve it. -/
inductive Action where
  | call (env : Env) (c : Call)
  | others (tokens : Ledger)

def step : Action → World → Outcome World
  | .call env c, w => invoke env w c
  | .others tokens, w => .ok { w with tokens }

abbrev run : World → List Action → World := TransactionalRun.run step

/-- The world right after the constructor ran on empty storage; a contract
that did not exist before has no position in the pool. -/
def Deployed (w : World) : Prop :=
  ∃ env w₀ asset initArgs, w₀.storage = .empty ∧ (∀ i, w₀.supply i = none) ∧
    construct env w₀ asset initArgs = .ok w

end NekoStrategies.BlendContract
