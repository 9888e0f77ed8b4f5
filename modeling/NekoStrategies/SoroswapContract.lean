import NekoStrategies.PositionBook
import NekoStrategies.SoroswapPool

/-!
# The Soroswap strategy contract

The entry points over the pool interaction. Each vault owns the LP tokens that
its own deposits minted; the strategy holds all of them in the pair.
-/
namespace NekoStrategies.SoroswapContract
open CheckedInteger SorobanHost AmmPosition SoroswapPool

def strategyName : String := "SoroswapStrategy"

def loadConfig (s : Storage) : Outcome StrategyConfig :=
  orFault (.panic .notInitialized) s.config

def getLpTokens (s : Storage) (vault : Address) : ℤ := s.lpTokens.amount vault

def setLpTokens (s : Storage) (vault : Address) (lp : ℤ) : Storage :=
  { s with lpTokens := s.lpTokens.set vault lp }

def isInitialized (s : Storage) : Prop := s.config.isSome

instance (s : Storage) : Decidable (isInitialized s) := inferInstanceAs (Decidable (_ = true))

/-- `init_args`: `[router, token_b]` -/
def construct (env : Env) (w : World) (asset : Address) (initArgs : List Val) :
    Outcome World := do
  ensure (¬isInitialized w.storage) (.panic .invalidArgument)
  let router ← initArg initArgs 0 Val.toAddress
  let tokenB ← initArg initArgs 1 Val.toAddress
  let pair ← orFault .callee (env.pairFor asset tokenB)
  let config : StrategyConfig := { tokenA := asset, tokenB, router, pair }
  pure { w with storage := { w.storage with config := some config } }

def asset (w : World) : Outcome Address := do
  let config ← loadConfig w.storage
  pure config.tokenA

def deposit (env : Env) (w : World) (amount : ℤ) (vault : Address) : Outcome (ℤ × World) := do
  checkPositiveAmount amount
  let config ← loadConfig w.storage
  let (lpMinted, w) ← SoroswapPool.deposit env w amount config
  let prevLp := getLpTokens w.storage vault
  let newLp ← plainAdd i128 prevLp lpMinted
  let w := { w with storage := setLpTokens w.storage vault newLp }
  let value ← lpValueInA w (getLpTokens w.storage vault) config
  pure (value, w.emit (.deposit strategyName amount vault))

def withdraw (env : Env) (w : World) (amount : ℤ) (vault dest : Address) :
    Outcome (ℤ × World) := do
  checkPositiveAmount amount
  let config ← loadConfig w.storage
  let vaultLp := getLpTokens w.storage vault
  ensure (vaultLp ≠ 0) (.err .insufficientBalance)
  let totalValue ← lpValueInA w vaultLp config
  ensure (totalValue ≠ 0) (.err .insufficientBalance)
  let lpToBurn ← proportionalBurn vaultLp amount totalValue
  ensure (lpToBurn ≠ 0) (.err .insufficientBalance)
  let (actualWithdrawn, w) ← SoroswapPool.withdraw env w lpToBurn dest config
  let newLp ← plainSub i128 vaultLp lpToBurn
  let w := { w with storage := setLpTokens w.storage vault newLp }
  let value ← lpValueInA w (getLpTokens w.storage vault) config
  pure (value, w.emit (.withdraw strategyName actualWithdrawn vault))

def balance (w : World) (vault : Address) : Outcome ℤ := do
  let config ← loadConfig w.storage
  lpValueInA w (getLpTokens w.storage vault) config

/-- `price_per_share` of a vault, scaled by 1e7. -/
def pricePerShare (w : World) (vaultLp : ℤ) (config : StrategyConfig) : Outcome ℤ :=
  if 0 < vaultLp then do
    let totalValue ← lpValueInA w vaultLp config
    pure (i128.mulDivOrZero totalValue 10000000 vaultLp)
  else pure 0

/-- Fees are embedded in the reserves; nothing is claimed. -/
def harvest (w : World) (sender : Address) (_data : Option (List UInt8)) : Outcome World := do
  let config ← loadConfig w.storage
  let price ← pricePerShare w (getLpTokens w.storage sender) config
  pure (w.emit (.harvest strategyName 0 sender price))

inductive Call where
  | construct (asset : Address) (initArgs : List Val)
  | asset
  | deposit (amount : ℤ) (vault : Address)
  | withdraw (amount : ℤ) (vault dest : Address)
  | balance (vault : Address)
  | harvest (sender : Address) (data : Option (List UInt8))
deriving DecidableEq, Repr

def invoke (env : Env) (w : World) : Call → Outcome World
  | .construct asset initArgs => construct env w asset initArgs
  | .asset => do let _ ← asset w; pure w
  | .deposit amount vault => do let (_, w) ← deposit env w amount vault; pure w
  | .withdraw amount vault dest => do let (_, w) ← withdraw env w amount vault dest; pure w
  | .balance vault => do let _ ← balance w vault; pure w
  | .harvest sender data => harvest w sender data

/-- A call, a token transfer that its sender authorises, or anything else that
happens to token balances and to the reserves and the supply of the pair. -/
inductive Action where
  | call (env : Env) (c : Call)
  | transfer (token sender receiver : Address) (amount : ℤ)
  | others (tokens : Ledger) (reserve0 reserve1 totalSupply : ℤ)

def step : Action → World → Outcome World
  | .call env c, w => invoke env w c
  | .transfer token sender receiver amount, w => do
      ensure (sender ≠ w.self) .unauthorised
      let tokens ← w.tokens.transfer token sender receiver amount
      pure { w with tokens }
  | .others tokens reserve0 reserve1 totalSupply, w =>
      .ok { w with tokens, pair := { w.pair with reserve0, reserve1, totalSupply } }

abbrev run : World → List Action → World := TransactionalRun.run step

def Deployed (w : World) : Prop :=
  ∃ env w₀ asset initArgs, w₀.storage = .empty ∧ construct env w₀ asset initArgs = .ok w

section Calls
variable {env : Env} {w w' : World} {vault dest : Address} {amount k : ℤ}

theorem deposit_ok (h : deposit env w amount vault = .ok (k, w')) :
    0 < amount ∧ ∃ config minted u, w.storage.config = some config ∧
      SoroswapPool.deposit env w amount config = .ok (minted, u) ∧
      w' = { u with
        storage := setLpTokens w.storage vault (getLpTokens w.storage vault + minted)
        events := w.events ++ [.deposit strategyName amount vault] } := by
  simp only [deposit, checkPositiveAmount, loadConfig, bind_eq_ok, ensure_eq_ok, orFault_eq_ok,
    plainAdd_eq_ok, pure_eq_ok, exists_const, Prod.exists, Prod.mk.injEq] at h
  obtain ⟨hpos, config, hconfig, minted, u, hdep, _, ⟨_, rfl⟩, _, _, rfl, rfl⟩ := h
  have hu := deposit_storage hdep
  refine ⟨hpos, config, minted, u, hconfig, hdep, ?_⟩
  rw [← hu.1, ← hu.2.2]
  rfl

theorem withdraw_ok (h : withdraw env w amount vault dest = .ok (k, w')) :
    0 < amount ∧ getLpTokens w.storage vault ≠ 0 ∧ ∃ config totalValue burnt paid u,
      w.storage.config = some config ∧
      lpValueInA w (getLpTokens w.storage vault) config = .ok totalValue ∧ totalValue ≠ 0 ∧
      proportionalBurn (getLpTokens w.storage vault) amount totalValue = .ok burnt ∧
      burnt ≠ 0 ∧ SoroswapPool.withdraw env w burnt dest config = .ok (paid, u) ∧
      w' = { u with
        storage := setLpTokens w.storage vault (getLpTokens w.storage vault - burnt)
        events := w.events ++ [.withdraw strategyName paid vault] } := by
  simp only [withdraw, checkPositiveAmount, loadConfig, bind_eq_ok, ensure_eq_ok, orFault_eq_ok,
    plainSub_eq_ok, pure_eq_ok, exists_const, Prod.exists, Prod.mk.injEq] at h
  obtain ⟨hpos, config, hconfig, hlp, totalValue, hvalue, hvalue0, burnt, hburnt, hburnt0, paid,
    u, hwd, _, ⟨_, rfl⟩, _, _, rfl, rfl⟩ := h
  have hu := withdraw_storage hwd
  refine ⟨hpos, hlp, config, totalValue, burnt, paid, u, hconfig, hvalue, hvalue0, hburnt,
    hburnt0, hwd, ?_⟩
  rw [← hu.1, ← hu.2.2]
  rfl

theorem construct_ok {asset : Address} {initArgs : List Val}
    (h : construct env w asset initArgs = .ok w') :
    w.storage.config = none ∧ ∃ config,
      w' = { w with storage := { w.storage with config := some config } } := by
  simp only [construct, bind_eq_ok, ensure_eq_ok, pure_eq_ok, exists_const] at h
  obtain ⟨hnone, _, _, _, _, _, _, rfl⟩ := h
  exact ⟨by simpa [isInitialized] using hnone, _, rfl⟩

/-- Only deposits and withdrawals touch the vaults' LP tokens. -/
theorem invoke_ok {c : Call} (h : invoke env w c = .ok w') :
    w'.storage.lpTokens = w.storage.lpTokens ∨
    (∃ amount vault k, c = .deposit amount vault ∧ deposit env w amount vault = .ok (k, w')) ∨
    (∃ amount vault dest k, c = .withdraw amount vault dest ∧
      withdraw env w amount vault dest = .ok (k, w')) := by
  cases c with
  | construct asset initArgs =>
      simp only [invoke, construct, bind_eq_ok, pure_eq_ok] at h
      obtain ⟨_, _, _, _, _, _, _, _, rfl⟩ := h
      exact .inl rfl
  | deposit amount vault =>
      obtain ⟨k, hu⟩ := forget_eq_ok.mp h
      exact .inr (.inl ⟨amount, vault, k, rfl, hu⟩)
  | withdraw amount vault dest =>
      obtain ⟨k, hu⟩ := forget_eq_ok.mp h
      exact .inr (.inr ⟨amount, vault, dest, k, rfl, hu⟩)
  | harvest sender data =>
      simp only [invoke, harvest, bind_eq_ok, pure_eq_ok] at h
      obtain ⟨_, _, _, _, rfl⟩ := h
      exact .inl rfl
  | asset | balance vault =>
      obtain ⟨_, rfl⟩ := readOnly_eq_ok.mp h
      exact .inl rfl

end Calls

end NekoStrategies.SoroswapContract
