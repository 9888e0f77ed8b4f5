import NekoStrategies.StrategyPositions

/-!
# What the Aquarius strategy asks of its pool

Every swap, every addition and every removal passes the pool a minimum taken
from an estimate, and additions and removals a vector of amounts. The pool steps
of the strategy are written here as these requests and what follows them, and
the configuration that shapes the requests is followed along a run.
-/
namespace NekoStrategies.AquariusRequests
open CheckedInteger SorobanHost TransactionalRun AquariusPool AquariusContract AquariusCalls

/-- The minimum of a swap. -/
def swapMinimum (env : Env) (w : World) (config : StrategyConfig) (inIdx outIdx : ℕ)
    (inAmount : ℤ) : Outcome ℤ := do
  let estimated ← orFault .callee (env.estimateSwap w.pool inIdx outIdx inAmount)
  minWithSlippage estimated config.maxSlippageBps

/-- The least shares of an addition. -/
def sharesMinimum (env : Env) (w : World) (config : StrategyConfig) (desired : List ℤ) :
    Outcome ℤ := do
  let estimated ← orFault .callee (env.estimateDeposit w.pool desired)
  minWithSlippage estimated config.maxSlippageBps

/-- The least amount of the `i`-th token for removing `shares`. -/
def removalMinimum (w : World) (config : StrategyConfig) (shares : ℤ) (i : ℕ) : Outcome ℤ :=
  minWithSlippage (u128.mulDivOrZero (w.pool.reserve i) (asU128 shares) w.pool.totalShares)
    config.maxSlippageBps

def desired (config : StrategyConfig) (remaining toAdd : ℤ) : List ℤ :=
  inPoolOrder config (asU128 remaining) (asU128 toAdd)

def minAmounts (config : StrategyConfig) (minDepositOut minPairOut : ℤ) : List ℤ :=
  inPoolOrder config minDepositOut minPairOut

/-- What follows the requests of a deposit. -/
def addAndCount (env : Env) (w : World) (config : StrategyConfig) (remaining toAdd minShares : ℤ) :
    Outcome (ℤ × World) := do
  let sharesBefore := w.tokens config.shareToken w.self
  let auths := [AuthEntry.transfer config.depositToken w.self config.pool remaining,
    AuthEntry.transfer config.pairToken w.self config.pool toAdd]
  let w ← poolDeposit env w auths config (desired config remaining toAdd) minShares
  let sharesAfter := w.tokens config.shareToken w.self
  let minted ← plainSub i128 sharesAfter sharesBefore
  pure (minted, w)

/-- What follows the request of a removal. -/
def removeAndPay (env : Env) (w : World) (config : StrategyConfig) (shares : ℤ) (dest : Address)
    (minDepositOut minPairOut : ℤ) : Outcome (ℤ × World) := do
  let auths := [AuthEntry.burn config.shareToken w.self shares]
  let (amountsOut, w) ← poolWithdraw env w auths config (asU128 shares)
    (minAmounts config minDepositOut minPairOut)
  let depositOut := asI128 (amountsOut[config.depositTokenIdx]?.getD 0)
  let pairOut := asI128 (amountsOut[config.pairTokenIdx]?.getD 0)
  let (total, w) ← swapBack env w config depositOut pairOut
  let w ← payOut w config dest total
  pure (total, w)

/-- The strategy's pool steps make these requests. -/
structure Requests (config : StrategyConfig) : Prop where
  swapHalf : ∀ env w x, AquariusPool.swapHalf env w x config = (do
    let minPairOut ← swapMinimum env w config config.depositTokenIdx config.pairTokenIdx (asU128 x)
    let (out, w) ← swap env w [.transfer config.depositToken w.self config.pool x] config
      config.depositTokenIdx config.pairTokenIdx (asU128 x) minPairOut
    pure (asI128 out, w))
  deposit : ∀ env w amount, AquariusPool.deposit env w amount config = (do
    let remaining ← plainSub i128 amount (amount.tdiv 2)
    let (received, w) ← AquariusPool.swapHalf env w (amount.tdiv 2) config
    let toAdd := plannedPair config w remaining received
    let minShares ← sharesMinimum env w config (desired config remaining toAdd)
    addAndCount env w config remaining toAdd minShares)
  swapBack : ∀ env w depositOut pairOut, 0 < pairOut →
    AquariusPool.swapBack env w config depositOut pairOut = (do
      let minFromSwap ← swapMinimum env w config config.pairTokenIdx config.depositTokenIdx
        (asU128 pairOut)
      let (swapped, w) ← swap env w [.transfer config.pairToken w.self config.pool pairOut] config
        config.pairTokenIdx config.depositTokenIdx (asU128 pairOut) minFromSwap
      let total ← plainAdd i128 depositOut (asI128 swapped)
      pure (total, w))
  withdraw : ∀ env w shares dest, AquariusPool.withdraw env w shares dest config = (do
    let minDepositOut ← removalMinimum w config shares config.depositTokenIdx
    let minPairOut ← removalMinimum w config shares config.pairTokenIdx
    removeAndPay env w config shares dest minDepositOut minPairOut)

theorem requests (config : StrategyConfig) : Requests config where
  swapHalf env w x := by simp only [AquariusPool.swapHalf, swapMinimum, bind_assoc]
  deposit env w amount := by
    simp only [AquariusPool.deposit, sharesMinimum, addAndCount, desired, plannedPair, bind_assoc]
  swapBack env w depositOut pairOut hpos := by
    simp only [AquariusPool.swapBack, if_pos hpos, swapMinimum, bind_assoc]
  withdraw env w shares dest := by
    simp only [AquariusPool.withdraw, removalMinimum, removeAndPay, minAmounts]

/-- Along a run only the slippage of the configuration changes. -/
theorem run_config {w : World} {config : StrategyConfig} (acts : List Action)
    (hconfig : w.storage.config = some config) : ∃ slippage,
      (run w acts).storage.config = some { config with maxSlippageBps := slippage } ∧
        (run w acts).pool.tokens = w.pool.tokens := by
  refine run_invariant_of_step (I := fun v : World => ∃ slippage, v.storage.config =
    some { config with maxSlippageBps := slippage } ∧ v.pool.tokens = w.pool.tokens) ?_ ?_ acts
  · rintro a v v' ⟨slippage, hv, htokens⟩ hstep
    obtain ⟨slippage', hv', _, htokens', _⟩ := StrategyPositions.Aquarius.step_config hv hstep
    exact ⟨slippage', hv', htokens'.trans htokens⟩
  · exact ⟨config.maxSlippageBps, hconfig, rfl⟩

open StrategyPositions.Aquarius in
/-- The sample deployment, before construction and on a pool that lists `tokens`. -/
def sampleBefore (tokens : List Address) : World :=
  { sampleWorld with
    storage := .empty
    pool := { sampleWorld.pool with tokens } }

/-- Pool, pair token, AQUA token and a slippage of 1%. -/
def sampleArgs : List Val :=
  [.address (.contract 3), .address (.contract 2), .address (.contract 5), .u32 100]

end NekoStrategies.AquariusRequests
