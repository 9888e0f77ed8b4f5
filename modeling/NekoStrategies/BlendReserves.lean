import NekoStrategies.Attribution
import NekoStrategies.SorobanHost

/-!
# Share bookkeeping of the Blend strategy

The stored configuration, reserves, vault shares and keeper, the conversions
between underlying, bTokens and shares, the two planners of `utils.rs` and the
three bookkeeping operations of `reserves.rs`. Every division states its own
rounding; nothing here talks to another contract.
-/
namespace NekoStrategies.BlendReserves
open CheckedInteger SorobanHost

/-- 1 with 12 decimal places (Blend b_rate scale). -/
def scalar12 : ℤ := 1000000000000

theorem scalar12_pos : 0 < scalar12 := by decide

structure Config where
  asset : Address
  pool : Address
  reserveId : ℤ
  blendToken : Address
  router : Address
  claimIds : List ℤ
  rewardThreshold : ℤ
deriving DecidableEq, Repr

structure StrategyReserves where
  totalShares : ℤ
  totalBTokens : ℤ
  bRate : ℤ
deriving DecidableEq, Repr

/-- The instance and persistent entries of the contract. -/
structure Storage where
  config : Option Config
  reserves : Option StrategyReserves
  vaultPos : Attribution Address
  keeper : Option Address

def Storage.empty : Storage := ⟨none, none, .empty, none⟩

def getConfig (s : Storage) : Outcome Config := okOr .notInitialized s.config

def getKeeper (s : Storage) : Outcome Address := okOr .notInitialized s.keeper

def getVaultShares (s : Storage) (vault : Address) : ℤ := s.vaultPos.amount vault

def setVaultShares (s : Storage) (vault : Address) (shares : ℤ) : Storage :=
  { s with vaultPos := s.vaultPos.set vault shares }

def getStrategyReserves (s : Storage) : StrategyReserves := s.reserves.getD ⟨0, 0, 0⟩

def setStrategyReserves (s : Storage) (newReserves : StrategyReserves) : Storage :=
  { s with reserves := some newReserves }

/-- The stored totals at the pool's current rate. -/
def getStrategyReserveUpdated (s : Storage) (bRate : ℤ) : StrategyReserves :=
  { getStrategyReserves s with bRate := bRate }

namespace StrategyReserves

def bTokensToSharesDown (r : StrategyReserves) (amount : ℤ) : Outcome ℤ :=
  if r.totalShares = 0 ∨ r.totalBTokens = 0 then .ok amount
  else okOr .arithmeticError (fixedMulFloor amount r.totalShares r.totalBTokens)

def bTokensToSharesUp (r : StrategyReserves) (amount : ℤ) : Outcome ℤ :=
  if r.totalShares = 0 ∨ r.totalBTokens = 0 then .ok amount
  else okOr .arithmeticError (fixedMulCeil amount r.totalShares r.totalBTokens)

def sharesToBTokensDown (r : StrategyReserves) (amount : ℤ) : Outcome ℤ :=
  okOr .divisionByZero (fixedDivFloor amount r.totalShares r.totalBTokens)

def bTokensToUnderlyingDown (r : StrategyReserves) (amount : ℤ) : Outcome ℤ :=
  okOr .arithmeticError (fixedMulFloor amount r.bRate scalar12)

end StrategyReserves

def sharesToUnderlying (shares : ℤ) (reserves : StrategyReserves) : Outcome ℤ :=
  if reserves.totalShares = 0 ∨ reserves.totalBTokens = 0 then .ok 0
  else do
    let vaultBTokens ← reserves.sharesToBTokensDown shares
    reserves.bTokensToUnderlyingDown vaultBTokens

/-- bTokens that a deposit of `bTokensMinted` is trimmed to, so that they
convert to a whole number of shares. -/
def optimalBTokenAmount (bTokensMinted : ℤ) (reserves : StrategyReserves) : Outcome ℤ :=
  if reserves.totalShares = 0 then .ok bTokensMinted
  else do
    let sharesMinted ← reserves.bTokensToSharesDown bTokensMinted
    ensure (sharesMinted ≠ 0) (.err .invalidSharesMinted)
    okOr .arithmeticError
      (fixedMulCeil sharesMinted reserves.totalBTokens reserves.totalShares)

/-- Underlying to charge and bTokens to record for a deposit. -/
def calculateOptimalDepositAmount (depositAmount : ℤ) (reserves : StrategyReserves) :
    Outcome (ℤ × ℤ) := do
  let bTokensMinted ← okOr .arithmeticError
    (fixedMulFloor depositAmount scalar12 reserves.bRate)
  let bTokens ← optimalBTokenAmount bTokensMinted reserves
  ensure (0 < bTokens) (.err .bTokensAmountBelowMin)
  let optimalDepositAmt ← okOr .arithmeticError (fixedMulCeil bTokens reserves.bRate scalar12)
  pure (optimalDepositAmt, bTokens)

/-- Underlying to pay and bTokens to record for a withdrawal. -/
def calculateOptimalWithdrawAmount (withdrawAmount : ℤ) (reserves : StrategyReserves) :
    Outcome (ℤ × ℤ) := do
  let bTokensBurnt ← okOr .arithmeticError
    (fixedMulCeil withdrawAmount scalar12 reserves.bRate)
  let sharesBurnt ← reserves.bTokensToSharesUp bTokensBurnt
  let optimalBTokens ← okOr .arithmeticError
    (fixedMulFloor sharesBurnt reserves.totalBTokens reserves.totalShares)
  let optimalWithdrawAmount ← okOr .arithmeticError
    (fixedMulFloor optimalBTokens reserves.bRate scalar12)
  pure (optimalWithdrawAmount, optimalBTokens)

def setValidatedVaultShares (s : Storage) (vault : Address) (vaultShares : ℤ) :
    Outcome (ℤ × Storage) := do
  ensure (0 ≤ vaultShares) (.err .onlyPositiveAmountAllowed)
  pure (vaultShares, setVaultShares s vault vaultShares)

/-- Shares credited to the depositor: the first deposit locks 1000 of them. -/
def newVaultMintedShares (newMintedShares : ℤ) (reserves : StrategyReserves) : Outcome ℤ :=
  if reserves.totalShares = 0 then do
    ensure (1000 < newMintedShares) (.panic .invalidSharesMinted)
    okOr .underflowOverflow (i128.checkedSub newMintedShares 1000)
  else .ok newMintedShares

def deposit (s : Storage) (vault : Address) (bTokensAmount : ℤ)
    (reserves : StrategyReserves) : Outcome (ℤ × StrategyReserves × Storage) := do
  ensure (0 < bTokensAmount) (.err .bTokensAmountBelowMin)
  let oldVaultShares := getVaultShares s vault
  let newMintedShares ← reserves.bTokensToSharesDown bTokensAmount
  ensure (0 < newMintedShares) (.panic .invalidSharesMinted)
  let vaultMinted ← newVaultMintedShares newMintedShares reserves
  let totalShares ← okOr .underflowOverflow
    (i128.checkedAdd reserves.totalShares newMintedShares)
  let totalBTokens ← okOr .underflowOverflow
    (i128.checkedAdd reserves.totalBTokens bTokensAmount)
  let newVaultShares ← okOr .underflowOverflow (i128.checkedAdd oldVaultShares vaultMinted)
  let newReserves := { reserves with totalShares, totalBTokens }
  let (_, s) ← setValidatedVaultShares (setStrategyReserves s newReserves) vault newVaultShares
  pure (newVaultShares, newReserves, s)

def withdraw (s : Storage) (vault : Address) (bTokensAmount : ℤ)
    (reserves : StrategyReserves) : Outcome (ℤ × StrategyReserves × Storage) := do
  ensure (0 < bTokensAmount) (.err .bTokensAmountBelowMin)
  let vaultShares := getVaultShares s vault
  let shareAmount ← reserves.bTokensToSharesUp bTokensAmount
  ensure (¬(reserves.totalShares < shareAmount ∨ reserves.totalBTokens < bTokensAmount))
    (.err .insufficientBalance)
  let totalShares ← okOr .underflowOverflow (i128.checkedSub reserves.totalShares shareAmount)
  let totalBTokens ← okOr .underflowOverflow
    (i128.checkedSub reserves.totalBTokens bTokensAmount)
  ensure (¬vaultShares < shareAmount) (.err .insufficientBalance)
  let vaultShares ← okOr .underflowOverflow (i128.checkedSub vaultShares shareAmount)
  let newReserves := { reserves with totalShares, totalBTokens }
  let (_, s) ← setValidatedVaultShares (setStrategyReserves s newReserves) vault vaultShares
  pure (vaultShares, newReserves, s)

/-- Yield raises the bTokens and leaves the shares alone. -/
def harvest (s : Storage) (bTokensAmount bRate : ℤ) : Outcome (StrategyReserves × Storage) := do
  let reserves := getStrategyReserveUpdated s bRate
  ensure (0 < bTokensAmount) (.panic .bTokensAmountBelowMin)
  let totalBTokens ← okOr .underflowOverflow
    (i128.checkedAdd reserves.totalBTokens bTokensAmount)
  let reserves := { reserves with totalBTokens }
  pure (reserves, setStrategyReserves s reserves)

end NekoStrategies.BlendReserves
