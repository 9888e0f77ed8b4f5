import NekoStrategies.PositionBook
import NekoStrategies.SorobanHost

/-!
# The Neko strategy contract

One lending position shared by all vaults: the strategy is the lender, and each
vault owns the bTokens its own deposits minted. The lending pool is another
contract; an `Env` carries its answers during one invocation.
-/
namespace NekoStrategies.NekoContract
open CheckedInteger SorobanHost PositionBook

def strategyName : String := "NekoStrategy"

/-- rwa-lending uses 12-decimal fixed-point arithmetic for b_rate. -/
def scalar12 : ℤ := 1000000000000

theorem scalar12_pos : 0 < scalar12 := by decide

structure Config where
  asset : Address
  lendingPool : Address
  rwaAsset : String
deriving DecidableEq, Repr

structure Storage where
  config : Option Config
  bTokens : Attribution Address

def Storage.empty : Storage := ⟨none, .empty⟩

def loadConfig (s : Storage) : Outcome Config := orFault (.panic .notInitialized) s.config

def getBTokens (s : Storage) (vault : Address) : ℤ := s.bTokens.amount vault

def setBTokens (s : Storage) (vault : Address) (bTokens : ℤ) : Storage :=
  { s with bTokens := s.bTokens.set vault bTokens }

/-- What the lending pool answers during one invocation. -/
structure Env where
  caller : Caller
  /-- `get_b_token_rate(rwa_asset)` before the pool is moved -/
  bRate : ℤ
  /-- the same after the pool was moved -/
  bRateAfter : ℤ
  /-- bTokens minted by `deposit` -/
  mint : ℤ → Option ℤ
  /-- underlying paid by `withdraw` -/
  pay : ℤ → Option ℤ

structure World where
  self : Address
  storage : Storage
  tokens : Ledger
  /-- bTokens of the strategy in the lending pool -/
  position : ℤ
  events : List Event

def World.emit (w : World) (e : Event) : World := { w with events := w.events ++ [e] }

def lendingDeposit (env : Env) (w : World) (auths : List AuthEntry) (config : Config)
    (amount : ℤ) : Outcome (ℤ × World) := do
  let minted ← orFault .callee (env.mint amount)
  let tokens ← w.tokens.pull auths config.asset w.self config.lendingPool amount
  pure (minted, { w with tokens, position := w.position + minted })

/-- The pool pays from its own account and needs no entry of the strategy's. -/
def lendingWithdraw (env : Env) (w : World) (_auths : List AuthEntry) (config : Config)
    (bTokens : ℤ) : Outcome (ℤ × World) := do
  let paid ← orFault .callee (env.pay bTokens)
  let tokens ← w.tokens.transfer config.asset config.lendingPool w.self paid
  pure (paid, { w with tokens, position := w.position - bTokens })

def isInitialized (s : Storage) : Prop := s.config.isSome

instance (s : Storage) : Decidable (isInitialized s) := inferInstanceAs (Decidable (_ = true))

/-- `init_args`: `[lending_pool, rwa_asset]` -/
def construct (w : World) (asset : Address) (initArgs : List Val) : Outcome World := do
  ensure (¬isInitialized w.storage) (.panic .invalidArgument)
  let lendingPool ← initArg initArgs 0 Val.toAddress
  let rwaAsset ← initArg initArgs 1 Val.toSymbol
  let config : Config := { asset, lendingPool, rwaAsset }
  pure { w with storage := { w.storage with config := some config } }

def asset (w : World) : Outcome Address := do
  let config ← loadConfig w.storage
  pure config.asset

def underlyingBalance (s : Storage) (vault : Address) (bRate : ℤ) : ℤ :=
  if getBTokens s vault = 0 then 0
  else i128.mulDivOrZero (getBTokens s vault) bRate scalar12

def deposit (env : Env) (w : World) (amount : ℤ) (vault : Address) : Outcome (ℤ × World) := do
  checkPositiveAmount amount
  let config ← loadConfig w.storage
  let auths := [AuthEntry.transfer config.asset w.self config.lendingPool amount]
  let (bTokensMinted, w) ← lendingDeposit env w auths config amount
  let prevB := getBTokens w.storage vault
  let newB ← plainAdd i128 prevB bTokensMinted
  let w := { w with storage := setBTokens w.storage vault newB }
  pure (underlyingBalance w.storage vault env.bRateAfter,
    w.emit (.deposit strategyName amount vault))

/-- Requested underlying as bTokens, rounded up by hand. -/
def bTokensToBurn (amount bRate : ℤ) : Outcome ℤ := do
  let product ← okOr .arithmeticError (i128.checkedMul amount scalar12)
  let rateLessOne ← plainSub i128 bRate 1
  let sum ← okOr .arithmeticError (i128.checkedAdd product rateLessOne)
  okOr .arithmeticError (i128.checkedDiv sum bRate)

def withdraw (env : Env) (w : World) (amount : ℤ) (vault dest : Address) :
    Outcome (ℤ × World) := do
  checkPositiveAmount amount
  let config ← loadConfig w.storage
  ensure (env.bRate ≠ 0) (.err .divisionByZero)
  let bToBurn ← bTokensToBurn amount env.bRate
  ensure (bToBurn ≠ 0) (.err .insufficientBalance)
  let vaultB := getBTokens w.storage vault
  ensure (vaultB ≠ 0) (.err .insufficientBalance)
  let bActual := min bToBurn vaultB
  let value ← okOr .arithmeticError (i128.checkedMul bActual env.bRate)
  let underlyingOut ← okOr .arithmeticError (i128.checkedDiv value scalar12)
  let auths := [AuthEntry.transfer config.asset config.lendingPool w.self underlyingOut]
  let (actualWithdrawn, w) ← lendingWithdraw env w auths config bActual
  let tokens ← w.tokens.transfer config.asset w.self dest actualWithdrawn
  let newB ← plainSub i128 vaultB bActual
  let w := { w with tokens, storage := setBTokens w.storage vault newB }
  pure (underlyingBalance w.storage vault env.bRateAfter,
    w.emit (.withdraw strategyName actualWithdrawn vault))

def balance (env : Env) (w : World) (vault : Address) : Outcome ℤ := do
  let _config ← loadConfig w.storage
  pure (underlyingBalance w.storage vault env.bRate)

/-- The yield is embedded in the rate; nothing is claimed. -/
def harvest (env : Env) (w : World) (sender : Address) (_data : Option (List UInt8)) :
    Outcome World := do
  let _config ← loadConfig w.storage
  pure (w.emit (.harvest strategyName 0 sender env.bRate))

inductive Call where
  | construct (asset : Address) (initArgs : List Val)
  | asset
  | deposit (amount : ℤ) (vault : Address)
  | withdraw (amount : ℤ) (vault dest : Address)
  | balance (vault : Address)
  | harvest (sender : Address) (data : Option (List UInt8))
deriving DecidableEq, Repr

def invoke (env : Env) (w : World) : Call → Outcome World
  | .construct asset initArgs => construct w asset initArgs
  | .asset => do let _ ← asset w; pure w
  | .deposit amount vault => do let (_, w) ← deposit env w amount vault; pure w
  | .withdraw amount vault dest => do let (_, w) ← withdraw env w amount vault dest; pure w
  | .balance vault => do let _ ← balance env w vault; pure w
  | .harvest sender data => harvest env w sender data

/-- A call, a token transfer that its sender authorises, or anything else that
happens to token balances elsewhere. The strategy itself never sends a transfer. -/
inductive Action where
  | call (env : Env) (c : Call)
  | transfer (token sender receiver : Address) (amount : ℤ)
  | others (tokens : Ledger)

def step : Action → World → Outcome World
  | .call env c, w => invoke env w c
  | .transfer token sender receiver amount, w => do
      ensure (sender ≠ w.self) .unauthorised
      let tokens ← w.tokens.transfer token sender receiver amount
      pure { w with tokens }
  | .others tokens, w => .ok { w with tokens }

abbrev run : World → List Action → World := TransactionalRun.run step

def Deployed (w : World) : Prop :=
  ∃ w₀ asset initArgs, w₀.storage = .empty ∧ construct w₀ asset initArgs = .ok w

section Calls
variable {env : Env} {w w' : World} {vault dest : Address} {amount k b : ℤ}

theorem lendingDeposit_ok {auths : List AuthEntry} {config : Config}
    (h : lendingDeposit env w auths config amount = .ok (k, w')) :
    env.mint amount = some k ∧ ∃ tokens,
      w.tokens.transfer config.asset w.self config.lendingPool amount = .ok tokens ∧
      w' = { w with tokens, position := w.position + k } := by
  simp only [lendingDeposit, bind_eq_ok, orFault_eq_ok, pure_eq_ok, Prod.mk.injEq] at h
  obtain ⟨minted, hm, tokens, ht, rfl, rfl⟩ := h
  exact ⟨hm, tokens, (Ledger.pull_eq_ok.mp ht).2, rfl⟩

theorem lendingWithdraw_ok {auths : List AuthEntry} {config : Config}
    (h : lendingWithdraw env w auths config b = .ok (k, w')) :
    env.pay b = some k ∧ ∃ tokens,
      w.tokens.transfer config.asset config.lendingPool w.self k = .ok tokens ∧
      w' = { w with tokens, position := w.position - b } := by
  simp only [lendingWithdraw, bind_eq_ok, orFault_eq_ok, pure_eq_ok, Prod.mk.injEq] at h
  obtain ⟨paid, hp, tokens, ht, rfl, rfl⟩ := h
  exact ⟨hp, tokens, ht, rfl⟩

theorem bTokensToBurn_ok (h : bTokensToBurn amount env.bRate = .ok b) :
    b = (amount * scalar12 + (env.bRate - 1)).tdiv env.bRate := by
  simp only [bTokensToBurn, bind_eq_ok, okOr_eq_ok, plainSub_eq_ok, Width.checkedMul_eq_some,
    Width.checkedAdd_eq_some, Width.checkedDiv_eq_some] at h
  obtain ⟨_, ⟨_, rfl⟩, _, ⟨_, rfl⟩, _, ⟨_, rfl⟩, _, _, rfl⟩ := h
  rfl

theorem deposit_ok (h : deposit env w amount vault = .ok (k, w')) :
    0 < amount ∧ ∃ config minted tokens,
      w.storage.config = some config ∧ env.mint amount = some minted ∧
      w.tokens.transfer config.asset w.self config.lendingPool amount = .ok tokens ∧
      k = underlyingBalance w'.storage vault env.bRateAfter ∧
      w' = { w with
        tokens
        position := w.position + minted
        storage := setBTokens w.storage vault (getBTokens w.storage vault + minted)
        events := w.events ++ [.deposit strategyName amount vault] } := by
  simp only [deposit, checkPositiveAmount, loadConfig, bind_eq_ok, ensure_eq_ok, orFault_eq_ok,
    plainAdd_eq_ok, pure_eq_ok, exists_const, Prod.exists, Prod.mk.injEq] at h
  obtain ⟨hpos, config, hconfig, minted, u, hdep, newB, ⟨_, rfl⟩, rfl, rfl⟩ := h
  obtain ⟨hm, tokens, ht, rfl⟩ := lendingDeposit_ok hdep
  exact ⟨hpos, config, minted, tokens, hconfig, hm, ht, rfl, rfl⟩

theorem withdraw_ok (h : withdraw env w amount vault dest = .ok (k, w')) :
    0 < amount ∧ env.bRate ≠ 0 ∧ getBTokens w.storage vault ≠ 0 ∧
    ∃ config bToBurn paid tokens tokens',
      w.storage.config = some config ∧
      bToBurn = (amount * scalar12 + (env.bRate - 1)).tdiv env.bRate ∧ bToBurn ≠ 0 ∧
      env.pay (min bToBurn (getBTokens w.storage vault)) = some paid ∧
      w.tokens.transfer config.asset config.lendingPool w.self paid = .ok tokens ∧
      tokens.transfer config.asset w.self dest paid = .ok tokens' ∧
      k = underlyingBalance w'.storage vault env.bRateAfter ∧
      w' = { w with
        tokens := tokens'
        position := w.position - min bToBurn (getBTokens w.storage vault)
        storage := setBTokens w.storage vault
          (getBTokens w.storage vault - min bToBurn (getBTokens w.storage vault))
        events := w.events ++ [.withdraw strategyName paid vault] } := by
  simp only [withdraw, checkPositiveAmount, loadConfig, bind_eq_ok, ensure_eq_ok, orFault_eq_ok,
    okOr_eq_ok, plainSub_eq_ok, pure_eq_ok, exists_const, Prod.exists, Prod.mk.injEq] at h
  obtain ⟨hpos, config, hconfig, hrate, bToBurn, hb, hb0, hv0, _, _, _, _, paid, u, hwd,
    tokens', ht', newB, ⟨_, rfl⟩, rfl, rfl⟩ := h
  obtain ⟨hp, tokens, ht, rfl⟩ := lendingWithdraw_ok hwd
  exact ⟨hpos, hrate, hv0, config, bToBurn, paid, tokens, tokens', hconfig,
    bTokensToBurn_ok hb, hb0, hp, ht, ht', rfl, rfl⟩

theorem construct_ok {asset : Address} {initArgs : List Val}
    (h : construct w asset initArgs = .ok w') :
    w.storage.config = none ∧ ∃ config,
      w' = { w with storage := { w.storage with config := some config } } := by
  simp only [construct, bind_eq_ok, ensure_eq_ok, pure_eq_ok, exists_const] at h
  obtain ⟨hnone, _, _, _, _, rfl⟩ := h
  exact ⟨by simpa [isInitialized] using hnone, _, rfl⟩

/-- Only deposits and withdrawals touch the vaults' bTokens. -/
theorem invoke_ok {c : Call} (h : invoke env w c = .ok w') :
    w'.storage.bTokens = w.storage.bTokens ∨
    (∃ amount vault k, c = .deposit amount vault ∧ deposit env w amount vault = .ok (k, w')) ∨
    (∃ amount vault dest k, c = .withdraw amount vault dest ∧
      withdraw env w amount vault dest = .ok (k, w')) := by
  cases c with
  | construct asset initArgs =>
      obtain ⟨_, config, rfl⟩ := construct_ok h
      exact .inl rfl
  | deposit amount vault =>
      obtain ⟨k, hu⟩ := forget_eq_ok.mp h
      exact .inr (.inl ⟨amount, vault, k, rfl, hu⟩)
  | withdraw amount vault dest =>
      obtain ⟨k, hu⟩ := forget_eq_ok.mp h
      exact .inr (.inr ⟨amount, vault, dest, k, rfl, hu⟩)
  | harvest sender data =>
      simp only [invoke, harvest, bind_eq_ok, pure_eq_ok] at h
      obtain ⟨_, _, rfl⟩ := h
      exact .inl rfl
  | asset | balance vault =>
      obtain ⟨_, rfl⟩ := readOnly_eq_ok.mp h
      exact .inl rfl

/-- The configuration is there to stay. -/
theorem step_config {config : Config} {a : Action} (hconfig : w.storage.config = some config)
    (h : step a w = .ok w') : w'.storage.config = some config ∧ w'.self = w.self := by
  rcases a with ⟨env, c⟩ | _ | _
  · cases c with
    | construct asset initArgs =>
        rw [(construct_ok h).1] at hconfig
        cases hconfig
    | deposit amount vault =>
        obtain ⟨k, hu⟩ := forget_eq_ok.mp h
        obtain ⟨_, _, _, _, _, _, _, _, rfl⟩ := deposit_ok hu
        exact ⟨hconfig, rfl⟩
    | withdraw amount vault dest =>
        obtain ⟨k, hu⟩ := forget_eq_ok.mp h
        obtain ⟨_, _, _, _, _, _, _, _, _, _, _, _, _, _, _, rfl⟩ := withdraw_ok hu
        exact ⟨hconfig, rfl⟩
    | harvest sender data =>
        simp only [step, invoke, harvest, bind_eq_ok, pure_eq_ok] at h
        obtain ⟨_, _, rfl⟩ := h
        exact ⟨hconfig, rfl⟩
    | asset | balance vault =>
        obtain ⟨_, rfl⟩ := readOnly_eq_ok.mp h
        exact ⟨hconfig, rfl⟩
  · obtain ⟨_, _, _, rfl⟩ := guarded_eq_ok.mp h
    exact ⟨hconfig, rfl⟩
  · obtain rfl := Except.ok.inj h
    exact ⟨hconfig, rfl⟩

end Calls

end NekoStrategies.NekoContract
