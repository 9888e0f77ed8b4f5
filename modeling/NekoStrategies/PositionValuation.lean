import NekoStrategies.SpotValue
import NekoStrategies.StrategyPositions

/-!
# What the valuations compute

The Soroswap and the Aquarius strategy value a vault's LP tokens by their parts
of the two reserves, the Neko strategy by a rate. All three go on with zero
when a product overflows, so a valuation that does not fail can be too small;
it is exact precisely if its products fit. The AMM strategies burn by it.
-/
namespace NekoStrategies.PositionValuation
open CheckedInteger RoundedDivision SorobanHost AmmPosition SpotValue

/-- LP tokens to burn of a holding for `amount`, given its valuation. -/
def decidedBurn (held amount : ℤ) (value : Outcome ℤ) : Outcome ℤ := do
  ensure (held ≠ 0) (.err .insufficientBalance)
  let totalValue ← value
  ensure (totalValue ≠ 0) (.err .insufficientBalance)
  let burnt ← proportionalBurn held amount totalValue
  ensure (burnt ≠ 0) (.err .insufficientBalance)
  pure burnt

/-- A valuation at a position is exact or fails, and no smaller position is worth more. -/
structure ExactOrFails (value balance : ℤ → Outcome ℤ) (exact : ℤ → ℤ) (held : ℤ) : Prop where
  exact_or_fails : ∀ k, value held = .ok k → k = exact held
  monotone : ∀ x k k', 0 ≤ x → x ≤ held → balance x = .ok k → balance held = .ok k' → k ≤ k'

/-- A withdrawal goes by the exact value: it is refused for lack of balance only
where the part to burn rounds to nothing, and it burns that part. -/
structure BurnsByValue (burn : ℤ → Outcome ℤ) (held exactValue : ℤ) : Prop where
  refused : ∀ amount, 1 ≤ exactValue → burn amount = .error (.err .insufficientBalance) →
    proportionalBurn held amount exactValue = .ok 0
  burns : ∀ amount s, burn amount = .ok s → proportionalBurn held amount exactValue = .ok s

section Decision
variable {held amount s : ℤ} {value : Outcome ℤ}

theorem decidedBurn_eq_ok : decidedBurn held amount value = .ok s ↔
    held ≠ 0 ∧ ∃ totalValue, value = .ok totalValue ∧ totalValue ≠ 0 ∧
      proportionalBurn held amount totalValue = .ok s ∧ s ≠ 0 := by
  simp only [decidedBurn, bind_eq_ok, ensure_eq_ok, pure_eq_ok, exists_const]
  constructor
  · rintro ⟨hheld, totalValue, hvalue, hvalue0, burnt, hburn, hburn0, rfl⟩
    exact ⟨hheld, totalValue, hvalue, hvalue0, hburn, hburn0⟩
  · rintro ⟨hheld, totalValue, hvalue, hvalue0, hburn, hburn0⟩
    exact ⟨hheld, totalValue, hvalue, hvalue0, s, hburn, hburn0, rfl⟩

theorem proportionalBurn_ne_insufficient {totalValue : ℤ} :
    proportionalBurn held amount totalValue ≠ .error (.err .insufficientBalance) := by
  unfold proportionalBurn
  split_ifs
  · simp
  · simp [okOr]

/-- The reasons to refuse for lack of balance. -/
theorem decidedBurn_refused
    (h : decidedBurn held amount value = .error (.err .insufficientBalance)) :
    held = 0 ∨ value = .error (.err .insufficientBalance) ∨ value = .ok 0 ∨
      ∃ totalValue, value = .ok totalValue ∧ proportionalBurn held amount totalValue = .ok 0 := by
  simp only [decidedBurn, bind_eq_error, ensure_eq_error, not_not, pure_ne_error, and_true] at h
  rcases h with hheld | ⟨_, _, hvalue | ⟨totalValue, hvalue, hzero | ⟨_, _, hburn⟩⟩⟩
  · exact .inl hheld
  · exact .inr (.inl hvalue)
  · exact .inr (.inr (.inl (hzero ▸ hvalue)))
  · rcases hburn with hburn | ⟨burnt, hburn, hzero | ⟨_, _, hfalse⟩⟩
    · exact absurd hburn proportionalBurn_ne_insufficient
    · exact .inr (.inr (.inr ⟨totalValue, hvalue, hzero ▸ hburn⟩))
    · exact hfalse.elim

/-- An exact valuation makes the burn exact. -/
theorem BurnsByValue.of_exact {burn : ℤ → Outcome ℤ} {exact : ℤ}
    (hburn : ∀ amount, burn amount = (do checkPositiveAmount amount
                                         decidedBurn held amount value))
    (hzero : held = 0 → exact = 0) (hfail : value ≠ .error (.err .insufficientBalance))
    (hexact : ∀ k, value = .ok k → k = exact) : BurnsByValue burn held exact where
  refused amount hpos hrefused := by
    rw [hburn, bind_eq_error] at hrefused
    rcases hrefused with hamount | ⟨_, _, hdecided⟩
    · simp [checkPositiveAmount] at hamount
    · rcases decidedBurn_refused hdecided with hheld | hvalue | hvalue | ⟨k, hvalue, hk⟩
      · have := hzero hheld
        omega
      · exact absurd hvalue hfail
      · have := hexact 0 hvalue
        omega
      · rwa [hexact k hvalue] at hk
  burns amount s hs := by
    rw [hburn, bind_eq_ok] at hs
    obtain ⟨_, _, hdecided⟩ := hs
    obtain ⟨_, k, hvalue, _, hk, _⟩ := decidedBurn_eq_ok.mp hdecided
    rwa [hexact k hvalue] at hk

/-- A valuation that never exceeds a monotone exact value is monotone where it is exact. -/
theorem ExactOrFails.of_exact {value balance : ℤ → Outcome ℤ} {exact : ℤ → ℤ}
    (hbalance : ∀ x, balance x = value x)
    (hle : ∀ x k, 0 ≤ x → x ≤ held → value x = .ok k → k ≤ exact x)
    (hmono : ∀ x, x ≤ held → exact x ≤ exact held)
    (hexact : ∀ k, value held = .ok k → k = exact held) :
    ExactOrFails value balance exact held where
  exact_or_fails := hexact
  monotone x k k' hx hxheld hk hk' := by
    rw [hbalance] at hk hk'
    calc k ≤ exact x := hle x k hx hxheld hk
      _ ≤ exact held := hmono x hxheld
      _ = k' := (hexact k' hk').symm

end Decision

/-- A position in LP tokens. -/
def IsHolding (x : ℤ) : Prop := 0 ≤ x ∧ i128.Holds x

instance (x : ℤ) : Decidable (IsHolding x) := inferInstanceAs (Decidable (_ ∧ _))

theorem IsHolding.part {x y : ℤ} (h : IsHolding y) (hx : 0 ≤ x) (hle : x ≤ y) : IsHolding x :=
  ⟨hx, i128_holds_of_le hx hle h.2⟩

/-- A valuation of positions is the machine's value read as signed, unless that overflows. -/
structure MachineValuation (w : Width) (a b T : ℤ) (value : ℤ → Outcome ℤ) : Prop where
  stocked : Stocked w a b T
  unsigned : ∀ x, 0 ≤ x → w.Holds x → u128.Holds x
  eq_ok : ∀ x k, IsHolding x → (value x = .ok k ↔
    w.Holds (machineValue w a b T x) ∧ asI128 (machineValue w a b T x) = k)

section Valuations
variable {w : Width} {a b T x held k : ℤ} {value balance : ℤ → Outcome ℤ}

theorem MachineValuation.spotValue_nonneg (h : MachineValuation w a b T value) (hx : 0 ≤ x) :
    0 ≤ spotValue a b T x :=
  SpotValue.spotValue_nonneg h.stocked.first_pos.le h.stocked.second_pos h.stocked.supply_pos hx

theorem MachineValuation.spotValue_mono (h : MachineValuation w a b T value) (hle : x ≤ held) :
    spotValue a b T x ≤ spotValue a b T held :=
  SpotValue.spotValue_mono h.stocked.first_pos.le h.stocked.second_pos h.stocked.supply_pos hle

/-- Neither an overflow nor the signed reading ever adds to the value. -/
theorem MachineValuation.le_spotValue (h : MachineValuation w a b T value) (hx : IsHolding x)
    (hk : value x = .ok k) : k ≤ spotValue a b T x := by
  obtain ⟨_, rfl⟩ := (h.eq_ok x k hx).mp hk
  calc asI128 (machineValue w a b T x)
      ≤ machineValue w a b T x := asI128_le (machineValue_nonneg h.stocked hx.1)
    _ ≤ spotValue a b T x := machineValue_le h.stocked hx.1

/-- The valuation is exact or fails where the parts fit and the whole is not one
that only the signed reading loses. -/
theorem MachineValuation.exact_iff (h : MachineValuation w a b T value) (hx : IsHolding x) :
    (∀ k, value x = .ok k → k = spotValue a b T x) ↔
      PartsFit w a b T x ∧ (w.Holds (spotValue a b T x) → i128.Holds (spotValue a b T x)) := by
  have hiff := machineValue_eq_iff h.stocked hx.1
  constructor
  · intro hexact
    have hfit : PartsFit w a b T x := by
      by_contra hover
      have hk := (h.eq_ok x _ hx).mpr ⟨machineValue_holds h.stocked hx.1 hover, rfl⟩
      -- the signed reading lowers the value, so it cannot make up for a lost part
      have hcast := asI128_le (machineValue_nonneg h.stocked hx.1)
      rw [hexact _ hk] at hcast
      exact hover (hiff.mp (le_antisymm (machineValue_le h.stocked hx.1) hcast))
    refine ⟨hfit, ?_⟩
    intro hsum
    have hmachine := hiff.mpr hfit
    have hk := (h.eq_ok x _ hx).mpr ⟨hmachine ▸ hsum, rfl⟩
    rw [← asI128_eq_iff, ← hmachine, hexact _ hk, hmachine]
  · rintro ⟨hfit, hrange⟩ k hk
    obtain ⟨hsum, rfl⟩ := (h.eq_ok x k hx).mp hk
    rw [hiff.mpr hfit] at hsum ⊢
    exact asI128_of_holds (hrange hsum)

/-- Exactness is all that is asked of a position and of its withdrawals. -/
theorem MachineValuation.faithful_iff {burn : ℤ → Outcome ℤ} (h : MachineValuation w a b T value)
    (hheld : IsHolding held) (hbalance : ∀ x, balance x = value x)
    (hburn : ∀ amount, burn amount = (do checkPositiveAmount amount
                                         decidedBurn held amount (value held)))
    (hfail : value held ≠ .error (.err .insufficientBalance)) :
    (ExactOrFails value balance (spotValue a b T) held ∧
      BurnsByValue burn held (spotValue a b T held)) ↔
    PartsFit w a b T held ∧
      (w.Holds (spotValue a b T held) → i128.Holds (spotValue a b T held)) := by
  rw [← h.exact_iff hheld]
  constructor
  · rintro ⟨hvalue, _⟩
    exact hvalue.exact_or_fails
  · intro hexact
    constructor
    · apply ExactOrFails.of_exact hbalance _ _ hexact
      · intro x k hx hle hk
        exact h.le_spotValue (hheld.part hx hle) hk
      · intro x hle
        exact h.spotValue_mono hle
    · apply BurnsByValue.of_exact hburn _ hfail hexact
      intro hzero
      rw [hzero]
      exact spotValue_zero

end Valuations

namespace Soroswap
open SoroswapPool SoroswapContract

def reserveA (w : World) (config : StrategyConfig) : ℤ := (w.pair.reservesFrom config.tokenA).1

def reserveB (w : World) (config : StrategyConfig) : ℤ := (w.pair.reservesFrom config.tokenA).2

/-- Reserves and supply as the pair reports them. -/
structure InRange (w : World) (config : StrategyConfig) : Prop where
  reserveA_pos : 0 < reserveA w config
  reserveA_holds : i128.Holds (reserveA w config)
  reserveB_pos : 0 < reserveB w config
  reserveB_holds : i128.Holds (reserveB w config)
  supply_pos : 0 < w.pair.totalSupply
  supply_holds : i128.Holds w.pair.totalSupply

/-- A vault with a position in a configured strategy. -/
structure Position (w : World) (config : StrategyConfig) (vault : Address) : Prop where
  configured : w.storage.config = some config
  in_range : InRange w config
  nonneg : 0 ≤ getLpTokens w.storage vault
  holds : i128.Holds (getLpTokens w.storage vault)

/-- Value in token_a of `lp` LP tokens, over unbounded integers. -/
def exactValue (w : World) (config : StrategyConfig) (lp : ℤ) : ℤ :=
  spotValue (reserveA w config) (reserveB w config) w.pair.totalSupply lp

/-- What `withdraw` burns. -/
def lpToBurn (w : World) (config : StrategyConfig) (vault : Address) (amount : ℤ) :
    Outcome ℤ := do
  checkPositiveAmount amount
  decidedBurn (getLpTokens w.storage vault) amount
    (lpValueInA w (getLpTokens w.storage vault) config)

/-- The rest of `withdraw`. -/
def burnAndPay (env : Env) (w : World) (config : StrategyConfig) (vault dest : Address)
    (lpToBurn : ℤ) : Outcome (ℤ × World) := do
  let (actualWithdrawn, u) ← SoroswapPool.withdraw env w lpToBurn dest config
  let newLp ← plainSub i128 (getLpTokens w.storage vault) lpToBurn
  let u := { u with storage := setLpTokens u.storage vault newLp }
  let value ← lpValueInA u (getLpTokens u.storage vault) config
  pure (value, u.emit (.withdraw strategyName actualWithdrawn vault))

/-- The balance of `vault` if it held `lp` LP tokens. -/
def balanceAt (w : World) (vault : Address) (lp : ℤ) : Outcome ℤ :=
  balance { w with storage := setLpTokens w.storage vault lp } vault

section Valuation
variable {w : World} {config : StrategyConfig} {vault : Address} {lp k : ℤ}

theorem withdraw_eq (env : Env) (amount : ℤ) (dest : Address)
    (hconfig : w.storage.config = some config) :
    SoroswapContract.withdraw env w amount vault dest =
      (do let s ← lpToBurn w config vault amount
          burnAndPay env w config vault dest s) := by
  simp only [SoroswapContract.withdraw, lpToBurn, burnAndPay, decidedBurn, loadConfig, hconfig,
    orFault, ok_bind, bind_assoc, pure_bind]

theorem InRange.stocked (h : InRange w config) :
    Stocked i128 (reserveA w config) (reserveB w config) w.pair.totalSupply :=
  ⟨i128_holds_zero, h.reserveA_pos, h.reserveB_pos, h.reserveB_holds, h.supply_pos,
    h.supply_holds⟩

theorem balanceAt_eq (hconfig : w.storage.config = some config) :
    balanceAt w vault lp = lpValueInA w lp config := by
  simp only [balanceAt, balance, loadConfig, setLpTokens, getLpTokens, hconfig, orFault, ok_bind,
    Attribution.amount_set_self]
  rfl

theorem lpValueInA_ne_insufficient :
    lpValueInA w lp config ≠ .error (.err .insufficientBalance) := by
  simp only [lpValueInA]
  split_ifs
  · simp
  · simp [plainAdd]

theorem machineValuation (h : InRange w config) :
    MachineValuation i128 (reserveA w config) (reserveB w config) w.pair.totalSupply
      fun lp => lpValueInA w lp config where
  stocked := h.stocked
  unsigned _ := u128_holds_of_i128
  eq_ok lp k _ := by
    by_cases hlp : lp = 0
    · rw [hlp, machineValue_zero h.stocked, asI128_of_holds i128_holds_zero]
      simp [lpValueInA, i128_holds_zero]
    · have hvalued : ¬(lp = 0 ∨ w.pair.totalSupply = 0 ∨ reserveB w config = 0) := by
        simp only [not_or]
        exact ⟨hlp, h.supply_pos.ne', h.reserveB_pos.ne'⟩
      have hsum : lpValueInA w lp config = plainAdd i128
          (machineParts i128 (reserveA w config) (reserveB w config) w.pair.totalSupply lp).1
          (machineParts i128 (reserveA w config) (reserveB w config) w.pair.totalSupply lp).2 :=
        if_neg hvalued
      rw [hsum, plainAdd_eq_ok]
      refine and_congr_right fun hholds => ?_
      rw [machineValue, asI128_of_holds hholds]

/-- The position of `vault` is valued exactly or not at all, and withdrawn by that value. -/
structure Faithful (w : World) (config : StrategyConfig) (vault : Address) : Prop where
  value : ExactOrFails (fun lp => lpValueInA w lp config) (balanceAt w vault)
    (exactValue w config) (getLpTokens w.storage vault)
  burn : BurnsByValue (lpToBurn w config vault) (getLpTokens w.storage vault)
    (exactValue w config (getLpTokens w.storage vault))

theorem faithful_iff (hp : Position w config vault) : Faithful w config vault ↔
    PartsFit i128 (reserveA w config) (reserveB w config) w.pair.totalSupply
      (getLpTokens w.storage vault) := by
  have hbalance : ∀ lp, balanceAt w vault lp = lpValueInA w lp config :=
    fun lp => balanceAt_eq hp.configured
  have hiff := (machineValuation hp.in_range).faithful_iff ⟨hp.nonneg, hp.holds⟩ hbalance
    (fun amount => (rfl : lpToBurn w config vault amount = _)) lpValueInA_ne_insufficient
  rw [imp_self, and_true] at hiff
  rw [← hiff]
  exact ⟨fun h => ⟨h.value, h.burn⟩, fun h => ⟨h.1, h.2⟩⟩

end Valuation

end Soroswap

namespace Aquarius
open AquariusPool AquariusContract

def reserveDeposit (w : World) (config : StrategyConfig) : ℤ :=
  w.pool.reserve config.depositTokenIdx

def reservePair (w : World) (config : StrategyConfig) : ℤ := w.pool.reserve config.pairTokenIdx

/-- Reserves and supply as the pool reports them. -/
structure InRange (w : World) (config : StrategyConfig) : Prop where
  reserveDeposit_pos : 0 < reserveDeposit w config
  reserveDeposit_holds : u128.Holds (reserveDeposit w config)
  reservePair_pos : 0 < reservePair w config
  reservePair_holds : u128.Holds (reservePair w config)
  supply_pos : 0 < w.pool.totalShares
  supply_holds : u128.Holds w.pool.totalShares

/-- A vault with a position in a configured strategy. -/
structure Position (w : World) (config : StrategyConfig) (vault : Address) : Prop where
  configured : w.storage.config = some config
  in_range : InRange w config
  nonneg : 0 ≤ getShares w.storage vault
  holds : i128.Holds (getShares w.storage vault)

/-- Value in deposit_token of `shares`, over unbounded integers. -/
def exactValue (w : World) (config : StrategyConfig) (shares : ℤ) : ℤ :=
  spotValue (reserveDeposit w config) (reservePair w config) w.pool.totalShares shares

/-- What `withdraw` burns. -/
def sharesToBurn (w : World) (config : StrategyConfig) (vault : Address) (amount : ℤ) :
    Outcome ℤ := do
  checkPositiveAmount amount
  decidedBurn (getShares w.storage vault) amount
    (sharesValueInDeposit w (getShares w.storage vault) config)

/-- The rest of `withdraw`. -/
def burnAndPay (env : Env) (w : World) (config : StrategyConfig) (vault dest : Address)
    (sharesToBurn : ℤ) : Outcome (ℤ × World) := do
  let (actualWithdrawn, u) ← AquariusPool.withdraw env w sharesToBurn dest config
  let newShares ← plainSub i128 (getShares w.storage vault) sharesToBurn
  let u := { u with storage := setShares u.storage vault newShares }
  let value ← sharesValueInDeposit u (getShares u.storage vault) config
  pure (value, u.emit (.withdraw strategyName actualWithdrawn vault))

/-- The balance of `vault` if it held `shares`. -/
def balanceAt (w : World) (vault : Address) (shares : ℤ) : Outcome ℤ :=
  balance { w with storage := setShares w.storage vault shares } vault

section Valuation
variable {w : World} {config : StrategyConfig} {vault : Address} {shares k : ℤ}

theorem withdraw_eq (env : Env) (amount : ℤ) (dest : Address)
    (hconfig : w.storage.config = some config) :
    AquariusContract.withdraw env w amount vault dest =
      (do let s ← sharesToBurn w config vault amount
          burnAndPay env w config vault dest s) := by
  simp only [AquariusContract.withdraw, sharesToBurn, burnAndPay, decidedBurn, loadConfig,
    hconfig, orFault, ok_bind, bind_assoc, pure_bind]

theorem InRange.stocked (h : InRange w config) :
    Stocked u128 (reserveDeposit w config) (reservePair w config) w.pool.totalShares :=
  ⟨u128_holds_zero, h.reserveDeposit_pos, h.reservePair_pos, h.reservePair_holds, h.supply_pos,
    h.supply_holds⟩

theorem balanceAt_eq (hconfig : w.storage.config = some config) :
    balanceAt w vault shares = sharesValueInDeposit w shares config := by
  simp only [balanceAt, balance, loadConfig, setShares, getShares, hconfig, orFault, ok_bind,
    Attribution.amount_set_self]
  rfl

theorem sharesValueInDeposit_ne_insufficient :
    sharesValueInDeposit w shares config ≠ .error (.err .insufficientBalance) := by
  simp only [sharesValueInDeposit]
  split_ifs
  · simp
  · simp only [plainAdd, ne_eq, bind_eq_error, orFault_eq_error, pure_ne_error, and_false,
      exists_false, or_false]
    simp

theorem machineValuation (h : InRange w config) :
    MachineValuation u128 (reserveDeposit w config) (reservePair w config) w.pool.totalShares
      fun shares => sharesValueInDeposit w shares config where
  stocked := h.stocked
  unsigned _ _ hholds := hholds
  eq_ok shares k hshares := by
    by_cases hzero : shares = 0
    · rw [hzero, machineValue_zero h.stocked]
      simp [sharesValueInDeposit, u128_holds_zero, asI128_of_holds i128_holds_zero]
    · have hvalued : ¬(shares = 0 ∨ asI128 w.pool.totalShares = 0 ∨
          asI128 (reservePair w config) = 0) := by
        simp only [not_or]
        exact ⟨hzero, asI128_ne_zero h.supply_holds h.supply_pos.ne',
          asI128_ne_zero h.reservePair_holds h.reservePair_pos.ne'⟩
      have hsum : sharesValueInDeposit w shares config =
          (do let value ← plainAdd u128
                (machineParts u128 (reserveDeposit w config) (reservePair w config)
                  w.pool.totalShares shares).1
                (machineParts u128 (reserveDeposit w config) (reservePair w config)
                  w.pool.totalShares shares).2
              pure (asI128 value)) := by
        have hdeposit := asU128_asI128 h.reserveDeposit_holds
        have hpair := asU128_asI128 h.reservePair_holds
        simp only [reserveDeposit, reservePair] at hvalued hdeposit hpair
        simp only [sharesValueInDeposit, machineParts, reserveDeposit, reservePair,
          if_neg hvalued, hdeposit, hpair, asU128_asI128 h.supply_holds,
          asU128_of_holds hshares.1 hshares.2]
      rw [hsum]
      simp only [bind_eq_ok, plainAdd_eq_ok, pure_eq_ok]
      constructor
      · rintro ⟨_, ⟨hholds, rfl⟩, rfl⟩
        exact ⟨hholds, rfl⟩
      · rintro ⟨hholds, rfl⟩
        exact ⟨_, ⟨hholds, rfl⟩, rfl⟩

/-- The valuation fits: its parts do, and a sum that leaves the range of the
result leaves that of the machine as well. -/
def ValueFits (w : World) (config : StrategyConfig) (shares : ℤ) : Prop :=
  PartsFit u128 (reserveDeposit w config) (reservePair w config) w.pool.totalShares shares ∧
    (i128.Holds (exactValue w config shares) ∨ ¬u128.Holds (exactValue w config shares))

instance (w : World) (config : StrategyConfig) (shares : ℤ) :
    Decidable (ValueFits w config shares) :=
  inferInstanceAs (Decidable (_ ∧ (_ ∨ ¬_)))

/-- The position of `vault` is valued exactly or not at all, and withdrawn by that value. -/
structure Faithful (w : World) (config : StrategyConfig) (vault : Address) : Prop where
  value : ExactOrFails (fun shares => sharesValueInDeposit w shares config) (balanceAt w vault)
    (exactValue w config) (getShares w.storage vault)
  burn : BurnsByValue (sharesToBurn w config vault) (getShares w.storage vault)
    (exactValue w config (getShares w.storage vault))

theorem faithful_iff (hp : Position w config vault) :
    Faithful w config vault ↔ ValueFits w config (getShares w.storage vault) := by
  have hbalance : ∀ shares, balanceAt w vault shares = sharesValueInDeposit w shares config :=
    fun shares => balanceAt_eq hp.configured
  have hiff := (machineValuation hp.in_range).faithful_iff ⟨hp.nonneg, hp.holds⟩ hbalance
    (fun amount => (rfl : sharesToBurn w config vault amount = _))
    sharesValueInDeposit_ne_insufficient
  rw [imp_iff_or_not] at hiff
  rw [ValueFits, exactValue, ← hiff]
  exact ⟨fun h => ⟨h.value, h.burn⟩, fun h => ⟨h.1, h.2⟩⟩

end Valuation

end Aquarius

namespace Neko
open NekoContract

/-- A vault with a position in a configured strategy, at a rate in range. -/
structure Position (env : Env) (w : World) (config : Config) (vault : Address) : Prop where
  configured : w.storage.config = some config
  rate_nonneg : 0 ≤ env.bRate
  rate_holds : i128.Holds env.bRate
  nonneg : 0 ≤ getBTokens w.storage vault
  holds : i128.Holds (getBTokens w.storage vault)

/-- Underlying behind `bTokens`, over unbounded integers. -/
def exactValue (bRate bTokens : ℤ) : ℤ := floorDiv (bTokens * bRate) scalar12

/-- What `vault` would be credited with if it held `bTokens`. -/
def valueAt (env : Env) (w : World) (vault : Address) (bTokens : ℤ) : Outcome ℤ :=
  .ok (underlyingBalance (setBTokens w.storage vault bTokens) vault env.bRate)

/-- The balance of `vault` if it held `bTokens`. -/
def balanceAt (env : Env) (w : World) (vault : Address) (bTokens : ℤ) : Outcome ℤ :=
  balance env { w with storage := setBTokens w.storage vault bTokens } vault

/-- The position of `vault` is valued exactly or not at all. -/
def Faithful (env : Env) (w : World) (vault : Address) : Prop :=
  ExactOrFails (valueAt env w vault) (balanceAt env w vault) (exactValue env.bRate)
    (getBTokens w.storage vault)

section Valuation
variable {env : Env} {w : World} {config : Config} {vault : Address} {b : ℤ}

theorem valueAt_eq (hrate : 0 ≤ env.bRate) (hb : 0 ≤ b) :
    valueAt env w vault b = .ok (i128.mulDivOrZero b env.bRate scalar12) := by
  simp only [valueAt, underlyingBalance, getBTokens, setBTokens, Attribution.amount_set_self]
  split_ifs with hzero
  · rw [Width.mulDivOrZero_of_holds i128_holds_zero (mul_nonneg hb hrate) scalar12_pos]
    · rw [hzero, zero_mul, floorDiv_zero]
    · rw [hzero, zero_mul]
      exact i128_holds_zero
  · rfl

theorem balanceAt_eq (hconfig : w.storage.config = some config) :
    balanceAt env w vault b = valueAt env w vault b := by
  simp only [balanceAt, balance, valueAt, loadConfig, setBTokens, hconfig, orFault, ok_bind]
  rfl

theorem faithful_iff (hp : Position env w config vault) :
    Faithful env w vault ↔ i128.Holds (getBTokens w.storage vault * env.bRate) := by
  obtain ⟨hconfig, hrate, _, hheld, _⟩ := hp
  have hiff := Width.mulDivOrZero_eq_iff i128_holds_zero (mul_nonneg hheld hrate) scalar12_pos
    (by decide : i128.Holds scalar12)
  constructor
  · intro hfaithful
    exact hiff.mp (hfaithful.exact_or_fails _ (valueAt_eq hrate hheld))
  · intro hholds
    have hbalance : ∀ b, balanceAt env w vault b = valueAt env w vault b :=
      fun b => balanceAt_eq hconfig
    apply ExactOrFails.of_exact hbalance
    · intro b k hb _ hk
      rw [valueAt_eq hrate hb, Except.ok.injEq] at hk
      exact hk ▸ Width.mulDivOrZero_le i128_holds_zero (mul_nonneg hb hrate) scalar12_pos
    · intro b hle
      exact floorDiv_mono scalar12_pos (mul_le_mul_of_nonneg_right hle hrate)
    · intro k hk
      rw [valueAt_eq hrate hheld, Except.ok.injEq] at hk
      exact hk ▸ hiff.mpr hholds

end Valuation

end Neko

/-- Each strategy values a position exactly or fails precisely if its products fit. -/
theorem valuation_exact_iff (soroswap : SoroswapPool.World)
    (soroswapConfig : SoroswapPool.StrategyConfig) (aquarius : AquariusPool.World)
    (aquariusConfig : AquariusPool.StrategyConfig) (env : NekoContract.Env)
    (neko : NekoContract.World) (nekoConfig : NekoContract.Config) (vault : Address)
    (hs : Soroswap.Position soroswap soroswapConfig vault)
    (ha : Aquarius.Position aquarius aquariusConfig vault)
    (hn : Neko.Position env neko nekoConfig vault) :
    ((∀ env amount dest, SoroswapContract.withdraw env soroswap amount vault dest =
        Soroswap.lpToBurn soroswap soroswapConfig vault amount >>=
          Soroswap.burnAndPay env soroswap soroswapConfig vault dest) ∧
      (Soroswap.Faithful soroswap soroswapConfig vault ↔
        PartsFit i128 (Soroswap.reserveA soroswap soroswapConfig)
          (Soroswap.reserveB soroswap soroswapConfig) soroswap.pair.totalSupply
          (SoroswapContract.getLpTokens soroswap.storage vault))) ∧
    ((∀ env amount dest, AquariusContract.withdraw env aquarius amount vault dest =
        Aquarius.sharesToBurn aquarius aquariusConfig vault amount >>=
          Aquarius.burnAndPay env aquarius aquariusConfig vault dest) ∧
      (Aquarius.Faithful aquarius aquariusConfig vault ↔
        Aquarius.ValueFits aquarius aquariusConfig
          (AquariusContract.getShares aquarius.storage vault))) ∧
    (Neko.Faithful env neko vault ↔
      i128.Holds (NekoContract.getBTokens neko.storage vault * env.bRate)) := by
  refine ⟨⟨?_, Soroswap.faithful_iff hs⟩, ⟨?_, Aquarius.faithful_iff ha⟩, Neko.faithful_iff hn⟩
  · intro env amount dest
    exact Soroswap.withdraw_eq env amount dest hs.configured
  · intro env amount dest
    exact Aquarius.withdraw_eq env amount dest ha.configured

def eighteen : ℤ := 10 ^ 18

def sampleVault : Address := .account 7

open StrategyPositions

/-- A deployment on tokens of 18 decimals: a vault owns one LP token of a pool of
`whole` tokens of each kind. -/
def Soroswap.sampleWorld (whole : ℤ) : SoroswapPool.World :=
  { StrategyPositions.Soroswap.sampleWorld with
    storage := ⟨some StrategyPositions.Soroswap.sampleConfig,
      Attribution.empty.set sampleVault eighteen⟩
    pair := ⟨StrategyPositions.Soroswap.sampleAsset, whole * eighteen, whole * eighteen,
      whole * eighteen⟩ }

def Aquarius.sampleWorld (whole : ℤ) : AquariusPool.World :=
  { StrategyPositions.Aquarius.sampleWorld with
    storage := ⟨some StrategyPositions.Aquarius.sampleConfig,
      Attribution.empty.set sampleVault eighteen⟩
    pool := { StrategyPositions.Aquarius.sampleWorld.pool with
      reserves := [whole * eighteen, whole * eighteen]
      totalShares := whole * eighteen } }

/-- A vault with `whole` bTokens. -/
def Neko.sampleWorld (whole : ℤ) : NekoContract.World :=
  { StrategyPositions.Neko.sampleWorld with
    storage := { StrategyPositions.Neko.sampleWorld.storage with
      bTokens := Attribution.empty.set sampleVault (whole * eighteen) } }

theorem Soroswap.sampleWorld_inRange :
    Soroswap.InRange (Soroswap.sampleWorld 100) StrategyPositions.Soroswap.sampleConfig ∧
      Soroswap.InRange (Soroswap.sampleWorld 1000) StrategyPositions.Soroswap.sampleConfig := by
  constructor <;> constructor <;> decide +kernel

theorem Aquarius.sampleWorld_inRange :
    Aquarius.InRange (Aquarius.sampleWorld 100) StrategyPositions.Aquarius.sampleConfig ∧
      Aquarius.InRange (Aquarius.sampleWorld 1000) StrategyPositions.Aquarius.sampleConfig := by
  constructor <;> constructor <;> decide +kernel

theorem Soroswap.sampleWorld_position (whole : ℤ)
    (h : Soroswap.InRange (Soroswap.sampleWorld whole) StrategyPositions.Soroswap.sampleConfig) :
    Soroswap.Position (Soroswap.sampleWorld whole) StrategyPositions.Soroswap.sampleConfig
      sampleVault := by
  have hheld : SoroswapContract.getLpTokens (Soroswap.sampleWorld whole).storage sampleVault =
      eighteen := Attribution.amount_set_self
  exact ⟨rfl, h, hheld ▸ by decide, hheld ▸ by decide⟩

theorem Aquarius.sampleWorld_position (whole : ℤ)
    (h : Aquarius.InRange (Aquarius.sampleWorld whole) StrategyPositions.Aquarius.sampleConfig) :
    Aquarius.Position (Aquarius.sampleWorld whole) StrategyPositions.Aquarius.sampleConfig
      sampleVault := by
  have hheld : AquariusContract.getShares (Aquarius.sampleWorld whole).storage sampleVault =
      eighteen := Attribution.amount_set_self
  exact ⟨rfl, h, hheld ▸ by decide, hheld ▸ by decide⟩

theorem valuation_exact_iff_sample :
    Soroswap.Faithful (Soroswap.sampleWorld 100) StrategyPositions.Soroswap.sampleConfig
      sampleVault ∧
    Aquarius.Faithful (Aquarius.sampleWorld 100) StrategyPositions.Aquarius.sampleConfig
      sampleVault ∧
    Neko.Faithful (StrategyPositions.Neko.sampleEnv sampleVault) (Neko.sampleWorld 100)
      sampleVault := by
  have hvaluation := valuation_exact_iff _ _ _ _
    (StrategyPositions.Neko.sampleEnv sampleVault) (Neko.sampleWorld 100) _ _
    (Soroswap.sampleWorld_position 100 Soroswap.sampleWorld_inRange.1)
    (Aquarius.sampleWorld_position 100 Aquarius.sampleWorld_inRange.1)
    ⟨rfl, by decide, by decide, by decide +kernel, by decide +kernel⟩
  exact ⟨hvaluation.1.2.mpr (by decide +kernel), hvaluation.2.1.2.mpr (by decide +kernel),
    hvaluation.2.2.mpr (by decide +kernel)⟩

/-- No valuation of a position is ever too small. -/
def ValuesExactly : Prop :=
  (∀ w config vault, Soroswap.Position w config vault → Soroswap.Faithful w config vault) ∧
  (∀ w config vault, Aquarius.Position w config vault → Aquarius.Faithful w config vault) ∧
  ∀ env w config vault, Neko.Position env w config vault → Neko.Faithful env w vault

/-- A thousandth of a pair of 1000 tokens of each kind is valued at nothing: the
products overflow. -/
theorem values_one_lp_at_zero : ¬ValuesExactly := by
  rintro ⟨hsoroswap, _, _⟩
  have hfaithful := hsoroswap _ _ _
    (Soroswap.sampleWorld_position 1000 Soroswap.sampleWorld_inRange.2)
  have hzero : SoroswapPool.lpValueInA (Soroswap.sampleWorld 1000) eighteen
      StrategyPositions.Soroswap.sampleConfig = .ok 0 := by decide +kernel
  have hexact : Soroswap.exactValue (Soroswap.sampleWorld 1000)
      StrategyPositions.Soroswap.sampleConfig eighteen = 2 * eighteen := by decide +kernel
  have hcontra := hfaithful.value.exact_or_fails 0 hzero
  exact absurd (hcontra.trans hexact) (by decide)

end NekoStrategies.PositionValuation
