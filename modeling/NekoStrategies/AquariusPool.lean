import NekoStrategies.AmmPosition
import NekoStrategies.Attribution

/-!
# The Aquarius pool as the strategy uses it

As with Soroswap half of a deposit is swapped and the rest added as liquidity,
but the pool takes the desired amounts in full and refunds what it does not
use, its shares are a token of their own, and it pays AQUA rewards for the
strategy's whole position. Amounts that the pool decides on come from an `Env`,
as functions of the pool's state. Unsigned amounts are cast where the source
casts them.
-/
namespace NekoStrategies.AquariusPool
open CheckedInteger SorobanHost

structure StrategyConfig where
  depositToken : Address
  depositTokenIdx : ℕ
  pairToken : Address
  pairTokenIdx : ℕ
  pool : Address
  shareToken : Address
  aquaToken : Address
  maxSlippageBps : ℤ
  admin : Address
deriving DecidableEq, Repr

structure Storage where
  config : Option StrategyConfig
  shareTokens : Attribution Address

def Storage.empty : Storage := ⟨none, .empty⟩

/-- `get_tokens`, `get_reserves`, `get_total_shares` and `share_id`. -/
structure Pool where
  tokens : List Address
  reserves : List ℤ
  totalShares : ℤ
  shareId : Address
deriving DecidableEq, Repr

/-- `reserves.get(i).unwrap_or(0)` -/
def Pool.reserve (p : Pool) (i : ℕ) : ℤ := p.reserves[i]?.getD 0

/-- What the pool answers during one invocation. -/
structure Env where
  caller : Caller
  /-- `estimate_swap(in_idx, out_idx, in_amount)` -/
  estimateSwap : Pool → ℕ → ℕ → ℤ → Option ℤ
  /-- amount paid by `swap` -/
  swapOut : Pool → ℕ → ℕ → ℤ → Option ℤ
  estimateDeposit : Pool → List ℤ → Option ℤ
  /-- amounts used of the desired ones -/
  depositUses : Pool → List ℤ → Option (List ℤ)
  sharesMinted : Pool → List ℤ → Option ℤ
  /-- amounts paid for shares -/
  withdrawPays : Pool → ℤ → Option (List ℤ)
  /-- AQUA paid by `claim` -/
  claim : Option ℤ

structure World where
  self : Address
  storage : Storage
  tokens : Ledger
  pool : Pool
  events : List Event

def World.emit (w : World) (e : Event) : World := { w with events := w.events ++ [e] }

/-- Pull one amount of each token from the strategy. -/
def pullAll (auths : List AuthEntry) (self pool : Address) :
    List Address → List ℤ → Ledger → Outcome Ledger
  | token :: tokens, x :: xs, l => do
      let l ← l.pull auths token self pool (asI128 x)
      pullAll auths self pool tokens xs l
  | _, _, l => pure l

/-- Pay one amount of each token to the strategy. -/
def payAll (self pool : Address) : List Address → List ℤ → Ledger → Outcome Ledger
  | token :: tokens, x :: xs, l => do
      let l ← l.transfer token pool self x
      payAll self pool tokens xs l
  | _, _, l => pure l

section Calls
variable (env : Env) (w : World) (auths : List AuthEntry) (config : StrategyConfig)

def swap (inIdx outIdx : ℕ) (inAmount outMin : ℤ) : Outcome (ℤ × World) := do
  let tokenIn ← orFault .callee w.pool.tokens[inIdx]?
  let tokenOut ← orFault .callee w.pool.tokens[outIdx]?
  let out ← orFault .callee (env.swapOut w.pool inIdx outIdx inAmount)
  ensure (outMin ≤ out) .callee
  let tokens ← w.tokens.pull auths tokenIn w.self config.pool (asI128 inAmount)
  let tokens ← tokens.transfer tokenOut config.pool w.self out
  let reserves := (w.pool.reserves.modify inIdx (· + inAmount)).modify outIdx (· - out)
  pure (out, { w with tokens, pool := { w.pool with reserves } })

def poolDeposit (desired : List ℤ) (minShares : ℤ) : Outcome World := do
  ensure (desired.length = w.pool.tokens.length) .callee
  let tokens ← pullAll auths w.self config.pool w.pool.tokens desired w.tokens
  let used ← orFault .callee (env.depositUses w.pool desired)
  let tokens ← payAll w.self config.pool w.pool.tokens (List.zipWith (· - ·) desired used) tokens
  let shares ← orFault .callee (env.sharesMinted w.pool used)
  ensure (minShares ≤ shares) .callee
  pure { w with
    tokens := tokens.add w.pool.shareId w.self shares
    pool := { w.pool with
      reserves := List.zipWith (· + ·) w.pool.reserves used
      totalShares := w.pool.totalShares + shares } }

def poolWithdraw (shares : ℤ) (minAmounts : List ℤ) : Outcome (List ℤ × World) := do
  ensure (.burn w.pool.shareId w.self (asI128 shares) ∈ auths) .unauthorised
  ensure (0 ≤ asI128 shares ∧ asI128 shares ≤ w.tokens w.pool.shareId w.self) .callee
  let tokens := w.tokens.add w.pool.shareId w.self (-asI128 shares)
  let amounts ← orFault .callee (env.withdrawPays w.pool shares)
  ensure (minAmounts.length = amounts.length ∧ ∀ p ∈ minAmounts.zip amounts, p.1 ≤ p.2) .callee
  let tokens ← payAll w.self config.pool w.pool.tokens amounts tokens
  pure (amounts, { w with
    tokens
    pool := { w.pool with
      reserves := List.zipWith (· - ·) w.pool.reserves amounts
      totalShares := w.pool.totalShares - shares } })

end Calls

def bps : ℤ := 10000

def minWithSlippage (expected slippageBps : ℤ) : Outcome ℤ := do
  let kept ← plainSub u128 bps slippageBps
  pure (u128.mulDivOrZero expected kept bps)

/-- pair_token to add next to `remaining`. -/
def pairToAdd (remaining reserveDeposit reservePair pairReceived : ℤ) : ℤ :=
  let pairOptimal :=
    if 0 < reserveDeposit then i128.mulDivOrZero remaining reservePair reserveDeposit
    else pairReceived
  min pairOptimal pairReceived

/-- Amounts in the order in which the pool is assumed to list the tokens. -/
def inPoolOrder (config : StrategyConfig) (ofDeposit ofPair : ℤ) : List ℤ :=
  if config.depositTokenIdx = 0 then [ofDeposit, ofPair] else [ofPair, ofDeposit]

/-- Swap half of the deposit: the pair_token received. -/
def swapHalf (env : Env) (w : World) (swapAmount : ℤ) (config : StrategyConfig) :
    Outcome (ℤ × World) := do
  let estimatedPair ← orFault .callee
    (env.estimateSwap w.pool config.depositTokenIdx config.pairTokenIdx (asU128 swapAmount))
  let minPairOut ← minWithSlippage estimatedPair config.maxSlippageBps
  let auths := [AuthEntry.transfer config.depositToken w.self config.pool swapAmount]
  let (out, w) ← swap env w auths config config.depositTokenIdx config.pairTokenIdx
    (asU128 swapAmount) minPairOut
  pure (asI128 out, w)

def deposit (env : Env) (w : World) (amount : ℤ) (config : StrategyConfig) :
    Outcome (ℤ × World) := do
  let swapAmount := amount.tdiv 2
  let remaining ← plainSub i128 amount swapAmount
  let (pairReceived, w) ← swapHalf env w swapAmount config
  let reserveDeposit := asI128 (w.pool.reserve config.depositTokenIdx)
  let reservePair := asI128 (w.pool.reserve config.pairTokenIdx)
  let toAdd := pairToAdd remaining reserveDeposit reservePair pairReceived
  let desired := inPoolOrder config (asU128 remaining) (asU128 toAdd)
  let estimatedShares ← orFault .callee (env.estimateDeposit w.pool desired)
  let minShares ← minWithSlippage estimatedShares config.maxSlippageBps
  let sharesBefore := w.tokens config.shareToken w.self
  let auths := [AuthEntry.transfer config.depositToken w.self config.pool remaining,
    AuthEntry.transfer config.pairToken w.self config.pool toAdd]
  let w ← poolDeposit env w auths config desired minShares
  let sharesAfter := w.tokens config.shareToken w.self
  let minted ← plainSub i128 sharesAfter sharesBefore
  pure (minted, w)

/-- deposit_token gained from the pair_token of a withdrawal. -/
def swapBack (env : Env) (w : World) (config : StrategyConfig) (depositOut pairOut : ℤ) :
    Outcome (ℤ × World) :=
  if 0 < pairOut then do
    let estimated ← orFault .callee
      (env.estimateSwap w.pool config.pairTokenIdx config.depositTokenIdx (asU128 pairOut))
    let minFromSwap ← minWithSlippage estimated config.maxSlippageBps
    let auths := [AuthEntry.transfer config.pairToken w.self config.pool pairOut]
    let (swapped, w) ← swap env w auths config config.pairTokenIdx config.depositTokenIdx
      (asU128 pairOut) minFromSwap
    let total ← plainAdd i128 depositOut (asI128 swapped)
    pure (total, w)
  else pure (depositOut, w)

def payOut (w : World) (config : StrategyConfig) (dest : Address) (total : ℤ) :
    Outcome World :=
  if 0 < total then do
    let tokens ← w.tokens.transfer config.depositToken w.self dest total
    pure { w with tokens }
  else pure w

def withdraw (env : Env) (w : World) (sharesToBurn : ℤ) (dest : Address)
    (config : StrategyConfig) : Outcome (ℤ × World) := do
  let totalLp := w.pool.totalShares
  let expectedDeposit := u128.mulDivOrZero (w.pool.reserve config.depositTokenIdx)
    (asU128 sharesToBurn) totalLp
  let expectedPair := u128.mulDivOrZero (w.pool.reserve config.pairTokenIdx)
    (asU128 sharesToBurn) totalLp
  let minDepositOut ← minWithSlippage expectedDeposit config.maxSlippageBps
  let minPairOut ← minWithSlippage expectedPair config.maxSlippageBps
  let minAmounts := inPoolOrder config minDepositOut minPairOut
  let auths := [AuthEntry.burn config.shareToken w.self sharesToBurn]
  let (amountsOut, w) ← poolWithdraw env w auths config (asU128 sharesToBurn) minAmounts
  let depositOut := asI128 (amountsOut[config.depositTokenIdx]?.getD 0)
  let pairOut := asI128 (amountsOut[config.pairTokenIdx]?.getD 0)
  let (total, w) ← swapBack env w config depositOut pairOut
  let w ← payOut w config dest total
  pure (total, w)

/-- Value in deposit_token of `vaultShares` at the spot price. -/
def sharesValueInDeposit (w : World) (vaultShares : ℤ) (config : StrategyConfig) : Outcome ℤ :=
  let totalLp := asI128 w.pool.totalShares
  let reserveDeposit := asI128 (w.pool.reserve config.depositTokenIdx)
  let reservePair := asI128 (w.pool.reserve config.pairTokenIdx)
  if vaultShares = 0 ∨ totalLp = 0 ∨ reservePair = 0 then pure 0
  else do
    let shareDeposit :=
      u128.mulDivOrZero (asU128 reserveDeposit) (asU128 vaultShares) (asU128 totalLp)
    let sharePair := u128.mulDivOrZero (asU128 reservePair) (asU128 vaultShares) (asU128 totalLp)
    let pairInDeposit :=
      u128.mulDivOrZero sharePair (asU128 reserveDeposit) (asU128 reservePair)
    let value ← plainAdd u128 shareDeposit pairInDeposit
    pure (asI128 value)

/-- Claim the rewards of the whole position and forward them to `dest`. -/
def claim (env : Env) (w : World) (dest : Address) (config : StrategyConfig) :
    Outcome (ℤ × World) := do
  let claimed ← orFault .callee env.claim
  let tokens := w.tokens.add config.aquaToken w.self claimed
  let aquaHarvested := asI128 claimed
  if 0 < aquaHarvested then do
    let tokens ← tokens.transfer config.aquaToken w.self dest aquaHarvested
    pure (aquaHarvested, { w with tokens })
  else pure (aquaHarvested, { w with tokens })

end NekoStrategies.AquariusPool
