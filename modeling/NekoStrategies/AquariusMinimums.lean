import NekoStrategies.AquariusRequests
import NekoStrategies.AquariusSlippage
import NekoStrategies.PositionValuation

/-!
# Whether the minimums of the Aquarius strategy bind

The slippage stays within its bound in every reachable state, so what is kept of
an estimate never underflows. The minimum itself falls to zero where a product
overflows: it is what the slippage leaves of the estimate exactly if the products
fit or nothing is left anyway. A valuation may lose one part to an overflow and
still let a withdrawal go on.
-/
namespace NekoStrategies.AquariusMinimums
open CheckedInteger RoundedDivision SorobanHost TransactionalRun AmmPosition
open AquariusPool AquariusContract AquariusCalls AquariusRequests AquariusSlippage
open PositionValuation.Aquarius

/-- The constructor's numbers fit their type. -/
def TypedArgs (initArgs : List Val) : Prop := ∀ x, .u32 x ∈ initArgs → u32.Holds x

/-- The slippage that an action sets fits its type. -/
def Typed : Action → Prop
  | .call _ (.updateSlippage _ newSlippageBps) => u32.Holds newSlippageBps
  | _ => True

/-- Reserves and supply fit their type. -/
structure PoolTyped (p : Pool) : Prop where
  reserves_hold : ∀ r ∈ p.reserves, u128.Holds r
  supply_holds : u128.Holds p.totalShares

/-- The slippage is within its bound, and the positions fit their type. -/
structure InBounds (w : World) (config : StrategyConfig) : Prop where
  configured : w.storage.config = some config
  slippage_nonneg : 0 ≤ config.maxSlippageBps
  slippage_le : config.maxSlippageBps ≤ maxSlippageBps
  positions_hold : ∀ vault, i128.Holds (getShares w.storage vault)

/-- Both products behind the minimum of a removal fit, or it is zero anyway. -/
def RemovalFits (p : Pool) (slippage shares : ℤ) (i : ℕ) : Prop :=
  part p shares i * (bps - slippage) < bps ∨
    u128.Holds (p.reserve i * shares) ∧ u128.Holds (part p shares i * (bps - slippage))

instance (p : Pool) (slippage shares : ℤ) (i : ℕ) : Decidable (RemovalFits p slippage shares i) :=
  inferInstanceAs (Decidable (_ ∨ _ ∧ _))

/-- Which minimums of a strategy are at least what the slippage leaves of the
exact estimate: of a removal by `removalFits`, of a swap or an addition by
`estimateFits`. -/
structure Minimums (w : World) (config : StrategyConfig) (removalFits : ℤ → ℕ → Prop)
    (estimateFits : ℤ → Prop) : Prop where
  slippage_le : config.maxSlippageBps ≤ maxSlippageBps
  no_underflow : plainSub u128 bps config.maxSlippageBps = .ok (bps - config.maxSlippageBps)
  removal : ∀ vault amount s i k, sharesToBurn w config vault amount = .ok s →
    removalMinimum w config s i = .ok k →
    (acceptable (part w.pool s i) config.maxSlippageBps ≤ k ↔ removalFits s i)
  swap : ∀ env u i j x e k, env.estimateSwap u.pool i j x = some e → u128.Holds e →
    swapMinimum env u config i j x = .ok k →
    (acceptable e config.maxSlippageBps ≤ k ↔ estimateFits e)
  addition : ∀ env u amounts e k, env.estimateDeposit u.pool amounts = some e → u128.Holds e →
    sharesMinimum env u config amounts = .ok k →
    (acceptable e config.maxSlippageBps ≤ k ↔ estimateFits e)

section Bounds
variable {env : Env} {w w' : World} {config : StrategyConfig} {vault dest : Address}
  {amount k : ℤ} {a : Action}

theorem deposit_stores (h : AquariusContract.deposit env w amount vault = .ok (k, w')) :
    ∃ n, i128.Holds n ∧ w'.storage = setShares w.storage vault n := by
  simp only [AquariusContract.deposit, bind_eq_ok, plainAdd_eq_ok, pure_eq_ok, Prod.exists,
    Prod.mk.injEq] at h
  obtain ⟨_, _, _, _, _, u, hdep, _, ⟨hholds, rfl⟩, _, _, rfl, rfl⟩ := h
  exact ⟨_, hholds, by rw [(poolStep_frame hdep).1]; rfl⟩

theorem withdraw_stores (h : AquariusContract.withdraw env w amount vault dest = .ok (k, w')) :
    ∃ n, i128.Holds n ∧ w'.storage = setShares w.storage vault n := by
  simp only [AquariusContract.withdraw, bind_eq_ok, plainSub_eq_ok, pure_eq_ok, Prod.exists,
    Prod.mk.injEq] at h
  obtain ⟨_, _, _, _, _, _, _, _, _, _, _, _, _, _, _, u, hwd, _, ⟨hholds, rfl⟩, _, _, rfl,
    rfl⟩ := h
  exact ⟨_, hholds, by rw [(poolExit_frame hwd).1]; rfl⟩

/-- A step leaves the positions alone or stores a checked value. -/
theorem step_positions (h : step a w = .ok w') :
    w'.storage.shareTokens = w.storage.shareTokens ∨ ∃ vault n, i128.Holds n ∧
      w'.storage.shareTokens = w.storage.shareTokens.set vault n := by
  rcases a with ⟨env, c⟩ | _ | _
  · rcases invoke_ok h with rfl | ⟨_, _, _, hc⟩ | ⟨_, _, _, hc⟩ | ⟨_, _, _, _, _, hc⟩ |
      ⟨_, vault, _, _, hc⟩ | ⟨_, vault, _, _, _, hc⟩ | ⟨_, _, _, hc⟩
    · exact .inl rfl
    · obtain ⟨_, _, _, _, _, _, rfl⟩ := construct_ok hc
      exact .inl rfl
    · obtain ⟨_, _, _, _, _, rfl⟩ := updateSlippage_ok hc
      exact .inl rfl
    · obtain ⟨_, _, _, _, _, _, rfl⟩ := sweep_ok hc
      exact .inl rfl
    · obtain ⟨n, hn, hstorage⟩ := deposit_stores hc
      exact .inr ⟨vault, n, hn, by rw [hstorage]; rfl⟩
    · obtain ⟨n, hn, hstorage⟩ := withdraw_stores hc
      exact .inr ⟨vault, n, hn, by rw [hstorage]; rfl⟩
    · exact .inl (by rw [(harvest_frame hc).1])
  · obtain ⟨_, _, _, rfl⟩ := guarded_eq_ok.mp h
    exact .inl rfl
  · obtain rfl := Except.ok.inj h
    exact .inl rfl

theorem step_inBounds (hb : ∃ config, InBounds w config) (ha : Typed a)
    (h : step a w = .ok w') : ∃ config, InBounds w' config := by
  obtain ⟨config, hconfig, hnonneg, hle, hholds⟩ := hb
  obtain ⟨slippage, hconfig', _, _, _, hslippage⟩ :=
    StrategyPositions.Aquarius.step_config hconfig h
  refine ⟨_, hconfig', ?_, ?_, ?_⟩
  · rcases hslippage with rfl | ⟨_, env, admin, rfl⟩
    · exact hnonneg
    · exact ha.1
  · rcases hslippage with rfl | ⟨hbound, _⟩
    · exact hle
    · exact hbound
  · intro v
    rcases step_positions h with hkept | ⟨vault, n, hn, hset⟩
    · rw [getShares, hkept]
      exact hholds v
    · rw [getShares, hset, Attribution.amount_set]
      split_ifs
      · exact hn
      · exact hholds v

theorem construct_inBounds {asset : Address} {initArgs : List Val} (hempty : w.storage = .empty)
    (hargs : TypedArgs initArgs) (h : construct w asset initArgs = .ok w') :
    ∃ config, InBounds w' config := by
  simp only [construct, validateSlippage, initArg, bind_eq_ok, ensure_eq_ok, orFault_eq_ok,
    pure_eq_ok, exists_const, Prod.exists] at h
  obtain ⟨_, _, _, _, _, _, _, slippage, hslippage, hle, _, _, _, rfl⟩ := h
  refine ⟨_, rfl, ?_, hle, ?_⟩
  · rw [Option.bind_eq_bind, Option.bind_eq_some_iff] at hslippage
    obtain ⟨v, hv, hx⟩ := hslippage
    cases v with
    | u32 x =>
        obtain rfl := Option.some.inj hx
        exact (hargs x (List.mem_of_getElem? hv)).1
    | address | i128 | symbol => cases hx
  · intro vault
    simp only [getShares, saveConfig, hempty, Storage.empty, Attribution.amount_empty]
    exact i128_holds_zero

theorem run_inBounds {acts : List Action} (hb : ∃ config, InBounds w config)
    (hacts : ∀ a ∈ acts, Typed a) : ∃ config, InBounds (run w acts) config :=
  run_invariant (C := fun a _ => Typed a) (fun _ _ _ ha hs h => step_inBounds hs ha h) hb
    (each_of_forall fun a ha _ => hacts a ha)

end Bounds

section Minimum
variable {w : World} {config : StrategyConfig} {vault : Address} {slippage e k s amount : ℤ}
  {i : ℕ}

theorem kept_holds (hm : 0 ≤ slippage) (hle : slippage ≤ maxSlippageBps) :
    u128.Holds (bps - slippage) ∧ 0 < bps - slippage := by
  simp only [u128, Width.Holds, bps, maxSlippageBps] at hle ⊢
  omega

theorem minWithSlippage_eq (hm : 0 ≤ slippage) (hle : slippage ≤ maxSlippageBps) :
    minWithSlippage e slippage = .ok (u128.mulDivOrZero e (bps - slippage) bps) := by
  simp only [minWithSlippage, plainSub_of_holds (kept_holds hm hle).1, ok_bind]
  rfl

theorem minimum_iff (hm : 0 ≤ slippage) (hle : slippage ≤ maxSlippageBps) (he : 0 ≤ e) :
    acceptable e slippage ≤ u128.mulDivOrZero e (bps - slippage) bps ↔
      u128.Holds (e * (bps - slippage)) := by
  have hproduct : 0 ≤ e * (bps - slippage) := mul_nonneg he (kept_holds hm hle).2.le
  have hbps : 0 < bps := by decide
  rw [← Width.mulDivOrZero_eq_iff u128_holds_zero hproduct hbps (by decide)]
  constructor
  · exact fun h => le_antisymm (Width.mulDivOrZero_le u128_holds_zero hproduct hbps) h
  · exact fun h => h.ge

/-- The minimum taken from an estimate of the pool. -/
theorem estimate_iff (hm : 0 ≤ slippage) (hle : slippage ≤ maxSlippageBps) (he : 0 ≤ e)
    (hk : minWithSlippage e slippage = .ok k) :
    acceptable e slippage ≤ k ↔ u128.Holds (e * (bps - slippage)) := by
  rw [minWithSlippage_eq hm hle, Except.ok.injEq] at hk
  exact hk ▸ minimum_iff hm hle he

/-- What the slippage leaves rounds to nothing. -/
theorem acceptable_nonpos_iff : acceptable e slippage ≤ 0 ↔ e * (bps - slippage) < bps := by
  have hlt := floorDiv_lt_iff (q := 1) (a := e * (bps - slippage)) (by decide : 0 < bps)
  rw [one_mul] at hlt
  rw [acceptable, ← hlt]
  omega

/-- Behind the minimum of a removal stand two products; if the first overflows the
minimum is zero. -/
theorem removalMinimum_iff_of_nonneg (hm : 0 ≤ slippage) (hle : slippage ≤ maxSlippageBps)
    (hr : 0 ≤ w.pool.reserve i) (hsupply : 0 < w.pool.totalShares) (hs : 0 ≤ s) :
    acceptable (part w.pool s i) slippage ≤ u128.mulDivOrZero
        (u128.mulDivOrZero (w.pool.reserve i) s w.pool.totalShares) (bps - slippage) bps ↔
      RemovalFits w.pool slippage s i := by
  have hproduct : 0 ≤ w.pool.reserve i * s := mul_nonneg hr hs
  have hpart : 0 ≤ part w.pool s i := part_nonneg hr hs hsupply
  unfold RemovalFits
  by_cases hholds : u128.Holds (w.pool.reserve i * s)
  · rw [Width.mulDivOrZero_of_holds u128_holds_zero hproduct hsupply hholds, ← part,
      minimum_iff hm hle hpart]
    simp only [hholds, true_and]
    constructor
    · exact .inr
    · rintro (hlt | hfits)
      · exact u128_holds_zero.of_le (by decide : u128.Holds bps)
          (mul_nonneg hpart (kept_holds hm hle).2.le) hlt.le
      · exact hfits
  · rw [Width.mulDivOrZero_of_not_holds hholds,
      Width.mulDivOrZero_of_holds u128_holds_zero (by simp) (by decide) (by simp; decide)]
    simp only [zero_mul, floorDiv_zero, hholds, false_and, or_false]
    exact acceptable_nonpos_iff

/-- Fewer than no shares are due nothing, and no minimum is negative. -/
theorem removalMinimum_of_neg (hm : 0 ≤ slippage) (hle : slippage ≤ maxSlippageBps)
    (hr : 0 ≤ w.pool.reserve i) (hsupply : 0 < w.pool.totalShares) (hs : s ≤ 0) :
    acceptable (part w.pool s i) slippage ≤ u128.mulDivOrZero
        (u128.mulDivOrZero (w.pool.reserve i) (asU128 s) w.pool.totalShares)
        (bps - slippage) bps ∧
      RemovalFits w.pool slippage s i := by
  have hkept : 0 ≤ bps - slippage := (kept_holds hm hle).2.le
  have hpart : part w.pool s i ≤ 0 :=
    (floorDiv_mono hsupply (mul_nonpos_of_nonneg_of_nonpos hr hs)).trans_eq (floorDiv_zero _)
  have hleft : part w.pool s i * (bps - slippage) < bps :=
    (mul_nonpos_of_nonpos_of_nonneg hpart hkept).trans_lt (by decide)
  have hcast : 0 ≤ asU128 s := Int.emod_nonneg s (by decide)
  have hexpected : 0 ≤ u128.mulDivOrZero (w.pool.reserve i) (asU128 s) w.pool.totalShares :=
    Width.mulDivOrZero_nonneg u128_holds_zero (mul_nonneg hr hcast) hsupply
  have hminimum := Width.mulDivOrZero_nonneg u128_holds_zero (mul_nonneg hexpected hkept)
    (by decide : 0 < bps)
  exact ⟨(acceptable_nonpos_iff.mpr hleft).trans hminimum, .inl hleft⟩

theorem removalMinimum_iff (hm : 0 ≤ config.maxSlippageBps)
    (hle : config.maxSlippageBps ≤ maxSlippageBps) (hr : 0 ≤ w.pool.reserve i)
    (hsupply : 0 < w.pool.totalShares) (hs : i128.Holds s)
    (h : removalMinimum w config s i = .ok k) :
    acceptable (part w.pool s i) config.maxSlippageBps ≤ k ↔
      RemovalFits w.pool config.maxSlippageBps s i := by
  rw [removalMinimum, minWithSlippage_eq hm hle, Except.ok.injEq] at h
  rw [← h]
  rcases le_total 0 s with hpos | hneg
  · rw [asU128_of_holds hpos hs]
    exact removalMinimum_iff_of_nonneg hm hle hr hsupply hpos
  · exact iff_of_true (removalMinimum_of_neg hm hle hr hsupply hneg).1
      (removalMinimum_of_neg hm hle hr hsupply hneg).2

/-- Only a pool with shares has positions of any value. -/
theorem supply_of_valued (h : sharesValueInDeposit w s config = .ok k) (hk : k ≠ 0) :
    w.pool.totalShares ≠ 0 := by
  intro hzero
  apply hk
  have hcast : asI128 w.pool.totalShares = 0 := by rw [hzero]; rfl
  simp only [sharesValueInDeposit, hcast, true_or, or_true, if_true, pure_eq_ok] at h
  exact h.symm

theorem sharesToBurn_ok (hholds : i128.Holds (getShares w.storage vault))
    (h : sharesToBurn w config vault amount = .ok s) :
    i128.Holds s ∧ w.pool.totalShares ≠ 0 := by
  simp only [sharesToBurn, bind_eq_ok, PositionValuation.decidedBurn_eq_ok] at h
  obtain ⟨_, _, _, value, hvalue, hvalue0, hburn, _⟩ := h
  refine ⟨?_, supply_of_valued hvalue hvalue0⟩
  rcases proportionalBurn_eq_ok.mp hburn with ⟨_, rfl⟩ | ⟨_, _, _, hs, rfl⟩
  · exact hholds
  · exact hs

theorem PoolTyped.reserve_nonneg {p : Pool} (h : PoolTyped p) : 0 ≤ p.reserve i := by
  unfold Pool.reserve
  cases hr : p.reserves[i]? with
  | none => exact le_rfl
  | some r => exact (h.reserves_hold r (List.mem_of_getElem? hr)).1

theorem InBounds.minimums (hb : InBounds w config) (hpool : PoolTyped w.pool) :
    Minimums w config (RemovalFits w.pool config.maxSlippageBps)
      fun e => u128.Holds (e * (bps - config.maxSlippageBps)) where
  slippage_le := hb.slippage_le
  no_underflow := plainSub_of_holds (kept_holds hb.slippage_nonneg hb.slippage_le).1
  removal vault amount s i k hs hk := by
    obtain ⟨hholds, hsupply⟩ := sharesToBurn_ok (hb.positions_hold vault) hs
    exact removalMinimum_iff hb.slippage_nonneg hb.slippage_le hpool.reserve_nonneg
      (lt_of_le_of_ne hpool.supply_holds.1 hsupply.symm) hholds hk
  swap env u i j x e k he hholds hk := by
    simp only [swapMinimum, he, orFault, ok_bind] at hk
    exact estimate_iff hb.slippage_nonneg hb.slippage_le hholds.1 hk
  addition env u amounts e k he hholds hk := by
    simp only [sharesMinimum, he, orFault, ok_bind] at hk
    exact estimate_iff hb.slippage_nonneg hb.slippage_le hholds.1 hk

end Minimum

/-- In every state of every run the slippage is within its bound, and a minimum is
at least what it leaves of the exact estimate exactly if the products fit. -/
theorem minimums_bind_iff (w₀ w : World) (asset : Address) (initArgs : List Val)
    (acts : List Action) (hempty : w₀.storage = .empty) (hargs : TypedArgs initArgs)
    (h : construct w₀ asset initArgs = .ok w) (hacts : ∀ a ∈ acts, Typed a)
    (hpool : PoolTyped (run w acts).pool) :
    ∃ config, (run w acts).storage.config = some config ∧ Requests config ∧
      (∀ env amount vault dest, AquariusContract.withdraw env (run w acts) amount vault dest =
        sharesToBurn (run w acts) config vault amount >>=
          burnAndPay env (run w acts) config vault dest) ∧
      Minimums (run w acts) config (RemovalFits (run w acts).pool config.maxSlippageBps)
        fun e => u128.Holds (e * (bps - config.maxSlippageBps)) := by
  obtain ⟨config, hb⟩ := run_inBounds (construct_inBounds hempty hargs h) hacts
  refine ⟨config, hb.configured, requests config, ?_, hb.minimums hpool⟩
  intro env amount vault dest
  exact PositionValuation.Aquarius.withdraw_eq env amount dest hb.configured

def sampleDeposit (amount : ℤ) : List Action :=
  [.transfer StrategyPositions.Aquarius.sampleAsset (.account 1) (.contract 0) amount,
    .call (StrategyPositions.Aquarius.sampleEnv (.account 1)) (.deposit amount (.account 1))]

/-- The sample pool grows to a thousand tokens of 18 decimals and a thousand of 6. -/
def sampleGrowth : Action :=
  .others (fun t h => if t ≠ .contract 4 ∧ h ≠ .contract 0 then 10 ^ 24 else 0)
    [10 ^ 21, 10 ^ 9] (10 ^ 18)

def sampleAfter (acts : List Action) : World := run StrategyPositions.Aquarius.sampleWorld acts

theorem sampleArgs_typed : TypedArgs sampleArgs := by
  intro x hx
  obtain rfl : x = 100 := by simpa [sampleArgs] using hx
  decide

theorem sampleDeposit_typed (amount : ℤ) : ∀ a ∈ sampleGrowth :: sampleDeposit amount, Typed a := by
  intro a ha
  simp only [sampleDeposit, List.mem_cons, List.not_mem_nil, or_false] at ha
  rcases ha with rfl | rfl | rfl <;> trivial

/-- For 500 of 2000 the shares are due 249 of the deposit token, and the minimum is 246. -/
theorem minimums_bind_iff_sample : ∃ s k,
    sharesToBurn (sampleAfter (sampleDeposit 2000)) StrategyPositions.Aquarius.sampleConfig
      (.account 1) 500 = .ok s ∧
    removalMinimum (sampleAfter (sampleDeposit 2000)) StrategyPositions.Aquarius.sampleConfig
      s 0 = .ok k ∧
    acceptable (part (sampleAfter (sampleDeposit 2000)).pool s 0) 100 ≤ k := by
  obtain ⟨config, hconfig, _, _, hminimums⟩ := minimums_bind_iff
    { StrategyPositions.Aquarius.sampleWorld with storage := .empty }
    StrategyPositions.Aquarius.sampleWorld StrategyPositions.Aquarius.sampleAsset sampleArgs
    (sampleDeposit 2000) rfl sampleArgs_typed rfl
    (fun a ha => sampleDeposit_typed 2000 a (List.mem_cons_of_mem _ ha))
    ⟨by decide +kernel, by decide +kernel⟩
  obtain rfl : StrategyPositions.Aquarius.sampleConfig = config := by
    have hsample : (sampleAfter (sampleDeposit 2000)).storage.config =
        some StrategyPositions.Aquarius.sampleConfig := by decide +kernel
    exact Option.some.inj (hsample.symm.trans hconfig)
  exact ⟨227, 246, by decide +kernel, by decide +kernel,
    (hminimums.removal (.account 1) 500 227 0 246 (by decide +kernel) (by decide +kernel)).mpr
      (by decide +kernel)⟩

/-- Every minimum is at least what the slippage leaves of the exact estimate. -/
def SlippageAlwaysBinds : Prop :=
  ∀ w₀ w asset initArgs acts config, w₀.storage = .empty → TypedArgs initArgs →
    construct w₀ asset initArgs = .ok w → (∀ a ∈ acts, Typed a) →
    PoolTyped (run w acts).pool → (run w acts).storage.config = some config →
    Minimums (run w acts) config (fun _ _ => True) fun _ => True

/-- Of about 500 deposit tokens due for all shares of a vault, no minimum is asked. -/
theorem minimum_falls_to_zero : ¬SlippageAlwaysBinds := by
  intro hbinds
  have hminimums := hbinds { StrategyPositions.Aquarius.sampleWorld with storage := .empty }
    StrategyPositions.Aquarius.sampleWorld StrategyPositions.Aquarius.sampleAsset sampleArgs
    (sampleGrowth :: sampleDeposit (10 ^ 21)) StrategyPositions.Aquarius.sampleConfig rfl
    sampleArgs_typed rfl (sampleDeposit_typed _) ⟨by decide +kernel, by decide +kernel⟩
    (by decide +kernel)
  have hle := (hminimums.removal (.account 1) (10 ^ 21) 333333333333333333 0 0
    (by decide +kernel) (by decide +kernel)).mpr trivial
  exact absurd hle (by decide +kernel)

end NekoStrategies.AquariusMinimums
