import NekoStrategies.AquariusPool
import NekoStrategies.PositionBook

/-!
# The Aquarius strategy contract

The entry points over the pool interaction, with the two admin functions. The
constructor resolves where the pool lists the two tokens and makes the strategy
its own admin.
-/
namespace NekoStrategies.AquariusContract
open CheckedInteger SorobanHost AmmPosition AquariusPool

def strategyName : String := "AquariusStrategy"

/-- 10% -/
def maxSlippageBps : ℤ := 1000

def u32Max : ℕ := 4294967295

def loadConfig (s : Storage) : Outcome StrategyConfig :=
  orFault (.panic .notInitialized) s.config

def saveConfig (s : Storage) (config : StrategyConfig) : Storage :=
  { s with config := some config }

def getShares (s : Storage) (vault : Address) : ℤ := s.shareTokens.amount vault

def setShares (s : Storage) (vault : Address) (shares : ℤ) : Storage :=
  { s with shareTokens := s.shareTokens.set vault shares }

def isInitialized (s : Storage) : Prop := s.config.isSome

instance (s : Storage) : Decidable (isInitialized s) := inferInstanceAs (Decidable (_ = true))

def validateSlippage (slippageBps : ℤ) : Outcome Unit :=
  ensure (slippageBps ≤ maxSlippageBps) (.panic .invalidArgument)

/-- The last positions at which the two tokens are listed. -/
def scanTokens (depositToken pairToken : Address) : List Address → ℕ → ℕ × ℕ → ℕ × ℕ
  | [], _, found => found
  | t :: ts, i, (depositIdx, pairIdx) =>
      scanTokens depositToken pairToken ts (i + 1)
        (if t = depositToken then i else depositIdx, if t = pairToken then i else pairIdx)

def resolveIndices (tokens : List Address) (depositToken pairToken : Address) :
    Outcome (ℕ × ℕ) := do
  let (depositIdx, pairIdx) := scanTokens depositToken pairToken tokens 0 (u32Max, u32Max)
  ensure (¬(depositIdx = u32Max ∨ pairIdx = u32Max)) (.panic .protocolAddressNotFound)
  pure (depositIdx, pairIdx)

/-- `init_args`: `[pool, pair_token, aqua_token, max_slippage_bps]` -/
def construct (w : World) (asset : Address) (initArgs : List Val) : Outcome World := do
  ensure (¬isInitialized w.storage) (.panic .invalidArgument)
  let pool ← initArg initArgs 0 Val.toAddress
  let pairToken ← initArg initArgs 1 Val.toAddress
  let aquaToken ← initArg initArgs 2 Val.toAddress
  let slippage ← initArg initArgs 3 Val.toU32
  validateSlippage slippage
  let (depositTokenIdx, pairTokenIdx) ← resolveIndices w.pool.tokens asset pairToken
  let config : StrategyConfig :=
    { depositToken := asset, depositTokenIdx, pairToken, pairTokenIdx, pool,
      shareToken := w.pool.shareId, aquaToken, maxSlippageBps := slippage, admin := w.self }
  pure { w with storage := saveConfig w.storage config }

def updateSlippage (env : Env) (w : World) (admin : Address) (newSlippageBps : ℤ) :
    Outcome World := do
  requireAuth env.caller admin
  let config ← loadConfig w.storage
  ensure (admin = config.admin) (.panic .notAuthorized)
  validateSlippage newSlippageBps
  let config := { config with maxSlippageBps := newSlippageBps }
  pure { w with storage := saveConfig w.storage config }

def sweep (env : Env) (w : World) (admin token dest : Address) (amount : ℤ) : Outcome World := do
  requireAuth env.caller admin
  let config ← loadConfig w.storage
  ensure (admin = config.admin) (.panic .notAuthorized)
  let tokens ← w.tokens.transfer token w.self dest amount
  pure { w with tokens }

def asset (w : World) : Outcome Address := do
  let config ← loadConfig w.storage
  pure config.depositToken

def deposit (env : Env) (w : World) (amount : ℤ) (vault : Address) : Outcome (ℤ × World) := do
  checkPositiveAmount amount
  let config ← loadConfig w.storage
  let (sharesMinted, w) ← AquariusPool.deposit env w amount config
  let prev := getShares w.storage vault
  let newShares ← plainAdd i128 prev sharesMinted
  let w := { w with storage := setShares w.storage vault newShares }
  let value ← sharesValueInDeposit w (getShares w.storage vault) config
  pure (value, w.emit (.deposit strategyName amount vault))

def withdraw (env : Env) (w : World) (amount : ℤ) (vault dest : Address) :
    Outcome (ℤ × World) := do
  checkPositiveAmount amount
  let config ← loadConfig w.storage
  let vaultShares := getShares w.storage vault
  ensure (vaultShares ≠ 0) (.err .insufficientBalance)
  let totalValue ← sharesValueInDeposit w vaultShares config
  ensure (totalValue ≠ 0) (.err .insufficientBalance)
  let sharesToBurn ← proportionalBurn vaultShares amount totalValue
  ensure (sharesToBurn ≠ 0) (.err .insufficientBalance)
  let (actualWithdrawn, w) ← AquariusPool.withdraw env w sharesToBurn dest config
  let newShares ← plainSub i128 vaultShares sharesToBurn
  let w := { w with storage := setShares w.storage vault newShares }
  let value ← sharesValueInDeposit w (getShares w.storage vault) config
  pure (value, w.emit (.withdraw strategyName actualWithdrawn vault))

def balance (w : World) (vault : Address) : Outcome ℤ := do
  let config ← loadConfig w.storage
  sharesValueInDeposit w (getShares w.storage vault) config

/-- `price_per_share` of a vault, scaled by 1e7. -/
def pricePerShare (w : World) (vaultShares : ℤ) (config : StrategyConfig) : Outcome ℤ :=
  if 0 < vaultShares then do
    let totalValue ← sharesValueInDeposit w vaultShares config
    pure (i128.mulDivOrZero totalValue 10000000 vaultShares)
  else pure 0

def harvest (env : Env) (w : World) (sender : Address) (_data : Option (List UInt8)) :
    Outcome World := do
  let config ← loadConfig w.storage
  let (aquaHarvested, w) ← claim env w sender config
  let price ← pricePerShare w (getShares w.storage sender) config
  pure (w.emit (.harvest strategyName aquaHarvested sender price))

inductive Call where
  | construct (asset : Address) (initArgs : List Val)
  | updateSlippage (admin : Address) (newSlippageBps : ℤ)
  | sweep (admin token dest : Address) (amount : ℤ)
  | asset
  | deposit (amount : ℤ) (vault : Address)
  | withdraw (amount : ℤ) (vault dest : Address)
  | balance (vault : Address)
  | harvest (sender : Address) (data : Option (List UInt8))
deriving DecidableEq, Repr

def invoke (env : Env) (w : World) : Call → Outcome World
  | .construct asset initArgs => construct w asset initArgs
  | .updateSlippage admin newSlippageBps => updateSlippage env w admin newSlippageBps
  | .sweep admin token dest amount => sweep env w admin token dest amount
  | .asset => do let _ ← asset w; pure w
  | .deposit amount vault => do let (_, w) ← deposit env w amount vault; pure w
  | .withdraw amount vault dest => do let (_, w) ← withdraw env w amount vault dest; pure w
  | .balance vault => do let _ ← balance w vault; pure w
  | .harvest sender data => harvest env w sender data

/-- A call, a token transfer that its sender authorises, or anything else that
happens to token balances and to the reserves and the supply of the pool. -/
inductive Action where
  | call (env : Env) (c : Call)
  | transfer (token sender receiver : Address) (amount : ℤ)
  | others (tokens : Ledger) (reserves : List ℤ) (totalShares : ℤ)

def step : Action → World → Outcome World
  | .call env c, w => invoke env w c
  | .transfer token sender receiver amount, w => do
      ensure (sender ≠ w.self) .unauthorised
      let tokens ← w.tokens.transfer token sender receiver amount
      pure { w with tokens }
  | .others tokens reserves totalShares, w =>
      .ok { w with tokens, pool := { w.pool with reserves, totalShares } }

abbrev run : World → List Action → World := TransactionalRun.run step

def Deployed (w : World) : Prop :=
  ∃ w₀ asset initArgs, w₀.storage = .empty ∧ construct w₀ asset initArgs = .ok w

end NekoStrategies.AquariusContract
