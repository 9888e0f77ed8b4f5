import NekoStrategies.BlendBalances
import NekoStrategies.NekoEconomics
import NekoStrategies.PositionBacking
import NekoStrategies.PositionValuation

/-!
# What all vaults are told they own

A balance is an appraisal of a vault's part of one pooled position. No appraisal
values the parts above the whole, so after any run the balances reported to any
vaults at one moment add up to at most the worth of what the strategy really
holds there: its supply position in Blend, its bTokens in the lending pool, its
LP tokens of a pair or a pool. For Blend the dead shares come on top.
-/
namespace NekoStrategies.ReportedBalances
open CheckedInteger RoundedDivision SorobanHost PositionBook SpotValue

section Appraisals
variable {a b d r T : ℤ}

theorem floorDiv_appraisal (hr : 0 ≤ r) (hd : 0 < d) : Appraisal fun x => floorDiv (x * r) d where
  zero := by simp
  add_le x y := by
    rw [add_mul]
    exact floorDiv_add_le hd
  mono x y h := floorDiv_mono hd (mul_le_mul_of_nonneg_right h hr)

theorem spotValue_appraisal (ha : 0 ≤ a) (hb : 0 < b) (hT : 0 < T) :
    Appraisal (spotValue a b T) where
  zero := spotValue_zero
  add_le _ _ := spotValue_add_le ha hb hT
  mono _ _ h := spotValue_mono ha hb hT h

end Appraisals

namespace Blend
open BlendReserves BlendContract BlendBooks BlendSolvency BlendBankRun BlendBalances SharePool

section Balances
variable {env : Env} {w : World} {k : Address → ℤ}

/-- In the books alone: all shares but the dead ones may belong to vaults. -/
theorem balances_within_books (hb : Backed 1000 (books w.storage)) (hr : 0 < env.bRate)
    (vaults : Finset Address) (hk : ∀ v ∈ vaults, balance env w v = .ok (k v)) :
    ∑ v ∈ vaults, k v + reported (books w.storage).totalShares (books w.storage).assets
        env.bRate 1000 ≤ floorDiv ((books w.storage).assets * env.bRate) scalar12 := by
  have hexact : ∀ v ∈ vaults, k v = exactBalance w.storage env.bRate v :=
    fun v hv => balance_exact hb (hk v hv)
  rcases hb.pos_or_zero (by decide) with hS | ⟨hS, hB⟩
  · have hzero : ∀ v ∈ vaults, k v = 0 := fun v hv =>
      (hexact v hv).trans (exactBalance_empty hb hS env.bRate v).2
    have hdead : reported 0 (books w.storage).assets env.bRate 1000 = 0 := by
      simp [reported, floorDiv]
    rw [Finset.sum_eq_zero hzero, hS, hdead, add_zero]
    apply floorDiv_nonneg (mul_nonneg _ hr.le) scalar12_pos
    rcases hb.books with ⟨_, _, hassets⟩ | ⟨_, hle⟩
    · exact hassets
    · omega
  · have happraisal : Appraisal
        (reported (books w.storage).totalShares (books w.storage).assets env.bRate) :=
      (floorDiv_appraisal hr.le scalar12_pos).comp (floorDiv_appraisal hB.le hS)
    have hcovered : Covered (books w.storage).held ((books w.storage).totalShares - 1000) :=
      ⟨hb.nonneg, by have := (hb.open_books hS).1; omega⟩
    have hsum := hcovered.sum_appraised_le happraisal vaults fun v hv => (hexact v hv).le
    have hadd := happraisal.add_le ((books w.storage).totalShares - 1000) 1000
    rw [sub_add_cancel] at hadd
    have hwhole : reported (books w.storage).totalShares (books w.storage).assets env.bRate
        (books w.storage).totalShares =
          floorDiv ((books w.storage).assets * env.bRate) scalar12 := by
      rw [reported, mul_comm (books w.storage).totalShares, floorDiv_self hS]
    linarith

end Balances

/-- Against Blend and at any rates: the balances reported at one moment to any
vaults, and the value of the dead shares, are within the value of the supply
position at the rate of that moment. -/
theorem balances_within_position (w₀ : World) (config : Config) (acts : List Action)
    (env : Env) (vaults : Finset Address) (k : Address → ℤ) (hw : Deployed w₀)
    (hconfig : w₀.storage.config = some config)
    (hacts : EveryCall (IsBlend config.reserveId) acts) (hr : 0 < env.bRate)
    (hk : ∀ v ∈ vaults, balance env (run w₀ acts) v = .ok (k v)) :
    ∑ v ∈ vaults, k v + reported (books (run w₀ acts).storage).totalShares
        (books (run w₀ acts).storage).assets env.bRate 1000 ≤
      floorDiv ((run w₀ acts).position config.reserveId * env.bRate) scalar12 := by
  have hb : Backed 1000 (books (run w₀ acts).storage) := run_backed acts (Deployed.backed hw)
  have hcovered := (run_covered hw hconfig hacts).2
  have hle : (books (run w₀ acts).storage).assets ≤ (run w₀ acts).position config.reserveId := by
    unfold surplus at hcovered
    omega
  exact (balances_within_books hb hr vaults hk).trans
    (floorDiv_mono scalar12_pos (mul_le_mul_of_nonneg_right hle hr.le))

theorem balances_within_position_sample :
    ∑ v ∈ {Address.account 1, Address.account 2}, (if v = .account 1 then 3300 else 2200) + 1100 ≤
      floorDiv ((run sampleWorld sampleActions).position 0 * 1100000000000) scalar12 := by
  have h := balances_within_position sampleWorld sampleConfig sampleActions
    (sampleEnv (.account 1)) {.account 1, .account 2}
    (fun v => if v = .account 1 then 3300 else 2200) sampleWorld_deployed rfl
    sampleActions_isBlend (by decide) (by
      intro v hv
      rcases Finset.mem_insert.mp hv with rfl | hv
      · rfl
      · obtain rfl := Finset.mem_singleton.mp hv
        rfl)
  exact h

end Blend

namespace Neko
open NekoContract NekoEconomics StrategyPositions.Neko

/-- Whatever rates the lending pool goes through: the balances reported at one
moment to any vaults are within the value of the strategy's bTokens at the rate
of that moment. -/
theorem balances_within_bTokens (w₀ : World) (acts : List Action) (env : Env)
    (vaults : Finset Address) (k : Address → ℤ) (hw : Deployed w₀) (hposition : w₀.position = 0)
    (hacts : ∀ a ∈ acts, MintsNonnegAction a) (hr : 0 ≤ env.bRate)
    (hk : ∀ v ∈ vaults, balance env (run w₀ acts) v = .ok (k v)) :
    ∑ v ∈ vaults, k v ≤ floorDiv ((run w₀ acts).position * env.bRate) scalar12 := by
  have hempty : w₀.storage.bTokens = .empty := deployed_empty hw
  have htotal : (run w₀ acts).storage.bTokens.total = (run w₀ acts).position := by
    apply run_position acts
    rw [hempty, hposition]
    rfl
  have hcovered : Covered (run w₀ acts).storage.bTokens (run w₀ acts).position :=
    ⟨run_nonneg (by rw [hempty]; exact Attribution.Nonneg.empty) hacts, htotal.le⟩
  refine hcovered.sum_appraised_le (floorDiv_appraisal hr scalar12_pos) vaults ?_
  intro v hv
  obtain ⟨_, _, heq⟩ := bind_eq_ok.mp (hk v hv)
  rw [← pure_eq_ok.mp heq, underlyingBalance]
  have hheld : 0 ≤ getBTokens (run w₀ acts).storage v * env.bRate :=
    mul_nonneg (hcovered.nonneg v) hr
  split_ifs with hzero
  · exact floorDiv_nonneg hheld scalar12_pos
  · exact Width.mulDivOrZero_le (by decide) hheld scalar12_pos

theorem balances_within_bTokens_sample :
    ∑ v ∈ {Address.account 1, Address.account 2}, (if v = .account 1 then 2200 else 0) ≤
      floorDiv ((run sampleWorld sampleBefore).position * 1100000000000) scalar12 := by
  apply balances_within_bTokens sampleWorld sampleBefore (sampleRateEnv (.account 1)) _
    (fun v => if v = .account 1 then 2200 else 0) sampleWorld_deployed rfl sampleBefore_mints
    (by decide)
  intro v hv
  rcases Finset.mem_insert.mp hv with rfl | hv
  · rfl
  · obtain rfl := Finset.mem_singleton.mp hv
    rfl

end Neko

section Amm
variable {w : Width} {a b T held : ℤ} {value : ℤ → Outcome ℤ} {m : Attribution Address}
  {k : Address → ℤ}

/-- Valuations by a machine, at the reserves and the supply of one moment. -/
theorem machine_balances_le (h : PositionValuation.MachineValuation w a b T value)
    (hm : Covered m held) (hheld : i128.Holds held) (vaults : Finset Address)
    (hk : ∀ v ∈ vaults, value (m.amount v) = .ok (k v)) :
    ∑ v ∈ vaults, k v ≤ spotValue a b T held := by
  have happraisal : Appraisal (spotValue a b T) :=
    spotValue_appraisal h.stocked.first_pos.le h.stocked.second_pos h.stocked.supply_pos
  refine hm.sum_appraised_le happraisal vaults fun v hv => ?_
  have hle : m.amount v ≤ held := hm.nonneg.amount_le_total.trans hm.total_le
  exact h.le_spotValue ⟨hm.nonneg v, i128_holds_of_le (hm.nonneg v) hle hheld⟩ (hk v hv)

end Amm

/-- Whatever happens to the reserves and the supply of the pool: the balances
that either strategy reports at one moment to any vaults are within the value of
its own LP tokens at the reserves of that moment. -/
theorem balances_within_liquidity :
    (∀ (w₀ : SoroswapPool.World) (acts : List SoroswapContract.Action)
        (config : SoroswapPool.StrategyConfig) (vaults : Finset Address) (k : Address → ℤ),
      let w := SoroswapContract.run w₀ acts
      SoroswapContract.Deployed w₀ → PositionBacking.Soroswap.Apart w₀ →
      0 ≤ PositionBacking.Soroswap.lpHeld w₀ →
      TransactionalRun.Each SoroswapContract.step PositionBacking.Soroswap.Admissible w₀ acts →
      w.storage.config = some config → PositionValuation.Soroswap.InRange w config →
      i128.Holds (PositionBacking.Soroswap.lpHeld w) →
      (∀ v ∈ vaults, SoroswapContract.balance w v = .ok (k v)) →
      ∑ v ∈ vaults, k v ≤
        PositionValuation.Soroswap.exactValue w config (PositionBacking.Soroswap.lpHeld w)) ∧
    (∀ (w₀ : AquariusPool.World) (acts : List AquariusContract.Action)
        (config : AquariusPool.StrategyConfig) (vaults : Finset Address) (k : Address → ℤ),
      let w := AquariusContract.run w₀ acts
      AquariusContract.Deployed w₀ → w₀.pool.shareId ∉ w₀.pool.tokens →
      0 ≤ PositionBacking.Aquarius.shareHeld w₀ →
      TransactionalRun.Each AquariusContract.step PositionBacking.Aquarius.Admissible w₀ acts →
      w.storage.config = some config → PositionValuation.Aquarius.InRange w config →
      i128.Holds (PositionBacking.Aquarius.shareHeld w) →
      (∀ v ∈ vaults, AquariusContract.balance w v = .ok (k v)) →
      ∑ v ∈ vaults, k v ≤
        PositionValuation.Aquarius.exactValue w config (PositionBacking.Aquarius.shareHeld w)) := by
  constructor
  · intro w₀ acts config vaults k w hw hapart hheld hacts hconfig hrange hholds hk
    have hstart : Covered (StrategyPositions.Soroswap.positions w₀)
        (PositionBacking.Soroswap.lpHeld w₀) := by
      rw [StrategyPositions.Soroswap.deployed_empty hw]
      exact ⟨Attribution.Nonneg.empty, hheld⟩
    have hcovered := (PositionBacking.Soroswap.custody.run_covered hapart hstart hacts).2
    refine machine_balances_le (PositionValuation.Soroswap.machineValuation hrange) hcovered
      hholds vaults fun v hv => ?_
    have hbalance := hk v hv
    simp only [SoroswapContract.balance, SoroswapContract.loadConfig, hconfig, orFault,
      ok_bind] at hbalance
    exact hbalance
  · intro w₀ acts config vaults k w hw hnot hheld hacts hconfig hrange hholds hk
    have hstart : Covered (StrategyPositions.Aquarius.positions w₀)
        (PositionBacking.Aquarius.shareHeld w₀) := by
      rw [StrategyPositions.Aquarius.deployed_empty hw]
      exact ⟨Attribution.Nonneg.empty, hheld⟩
    have hcovered := (PositionBacking.Aquarius.custody.run_covered
      (PositionBacking.Aquarius.Deployed.apart hw hnot) hstart hacts).2
    refine machine_balances_le (PositionValuation.Aquarius.machineValuation hrange) hcovered
      hholds vaults fun v hv => ?_
    have hbalance := hk v hv
    simp only [AquariusContract.balance, AquariusContract.loadConfig, hconfig, orFault,
      ok_bind] at hbalance
    exact hbalance

/-- A second vault enters each of the two pools. -/
def sampleSoroswap : List SoroswapContract.Action :=
  PositionBacking.Soroswap.sampleActions ++
    [.transfer StrategyPositions.Soroswap.sampleAsset (.account 2) (.contract 0) 3000,
      .call (StrategyPositions.Soroswap.sampleEnv (.account 2)) (.deposit 3000 (.account 2))]

def sampleAquarius : List AquariusContract.Action :=
  PositionBacking.Aquarius.sampleActions ++
    [.transfer StrategyPositions.Aquarius.sampleAsset (.account 2) (.contract 0) 3000,
      .call (StrategyPositions.Aquarius.sampleEnv (.account 2)) (.deposit 3000 (.account 2))]

theorem sampleSoroswap_admissible : TransactionalRun.Each SoroswapContract.step
    PositionBacking.Soroswap.Admissible StrategyPositions.Soroswap.sampleWorld sampleSoroswap :=
  TransactionalRun.each_append.mpr ⟨PositionBacking.Soroswap.sampleActions_admissible, trivial,
    StrategyPositions.Soroswap.sampleEnv_sound _, trivial⟩

theorem sampleAquarius_admissible : TransactionalRun.Each AquariusContract.step
    PositionBacking.Aquarius.Admissible StrategyPositions.Aquarius.sampleWorld sampleAquarius := by
  refine TransactionalRun.each_append.mpr ⟨?_, trivial,
    PositionBacking.Aquarius.sampleEnv_soundPool _, trivial⟩
  refine ⟨trivial, PositionBacking.Aquarius.sampleEnv_soundPool _, ?_,
    PositionBacking.Aquarius.sampleEnv_soundPool _, trivial⟩
  unfold PositionBacking.Aquarius.Admissible
  decide +kernel

/-- The balances of both vaults against the LP tokens of the strategy. -/
theorem balances_within_liquidity_sample :
    (∃ x y, SoroswapContract.balance (SoroswapContract.run
        StrategyPositions.Soroswap.sampleWorld sampleSoroswap) (.account 1) = .ok x ∧
      SoroswapContract.balance (SoroswapContract.run StrategyPositions.Soroswap.sampleWorld
        sampleSoroswap) (.account 2) = .ok y ∧
      x + y ≤ PositionValuation.Soroswap.exactValue
        (SoroswapContract.run StrategyPositions.Soroswap.sampleWorld sampleSoroswap)
        StrategyPositions.Soroswap.sampleConfig (PositionBacking.Soroswap.lpHeld
          (SoroswapContract.run StrategyPositions.Soroswap.sampleWorld sampleSoroswap))) ∧
    ∃ x y, AquariusContract.balance (AquariusContract.run
        StrategyPositions.Aquarius.sampleWorld sampleAquarius) (.account 1) = .ok x ∧
      AquariusContract.balance (AquariusContract.run StrategyPositions.Aquarius.sampleWorld
        sampleAquarius) (.account 2) = .ok y ∧
      x + y ≤ PositionValuation.Aquarius.exactValue
        (AquariusContract.run StrategyPositions.Aquarius.sampleWorld sampleAquarius)
        StrategyPositions.Aquarius.sampleConfig (PositionBacking.Aquarius.shareHeld
          (AquariusContract.run StrategyPositions.Aquarius.sampleWorld sampleAquarius)) := by
  constructor
  · obtain ⟨x, y, hx, hy⟩ : ∃ x y, SoroswapContract.balance (SoroswapContract.run
        StrategyPositions.Soroswap.sampleWorld sampleSoroswap) (.account 1) = .ok x ∧
        SoroswapContract.balance (SoroswapContract.run StrategyPositions.Soroswap.sampleWorld
          sampleSoroswap) (.account 2) = .ok y := ⟨_, _, rfl, rfl⟩
    have h := balances_within_liquidity.1 StrategyPositions.Soroswap.sampleWorld sampleSoroswap
      StrategyPositions.Soroswap.sampleConfig {.account 1, .account 2}
      (fun v => if v = .account 1 then x else y) StrategyPositions.Soroswap.sampleWorld_deployed
      ⟨_, rfl, by decide, by decide⟩ (by decide) sampleSoroswap_admissible (by rfl)
      (by constructor <;> decide +kernel) (by decide +kernel) (by simp [hx, hy])
    rw [Finset.sum_pair (by decide)] at h
    exact ⟨x, y, hx, hy, by simpa using h⟩
  · obtain ⟨x, y, hx, hy⟩ : ∃ x y, AquariusContract.balance (AquariusContract.run
        StrategyPositions.Aquarius.sampleWorld sampleAquarius) (.account 1) = .ok x ∧
        AquariusContract.balance (AquariusContract.run StrategyPositions.Aquarius.sampleWorld
          sampleAquarius) (.account 2) = .ok y := ⟨_, _, rfl, rfl⟩
    have h := balances_within_liquidity.2 StrategyPositions.Aquarius.sampleWorld sampleAquarius
      StrategyPositions.Aquarius.sampleConfig {.account 1, .account 2}
      (fun v => if v = .account 1 then x else y) StrategyPositions.Aquarius.sampleWorld_deployed
      (by decide) (by decide) sampleAquarius_admissible (by rfl)
      (by constructor <;> decide +kernel) (by decide +kernel) (by simp [hx, hy])
    rw [Finset.sum_pair (by decide)] at h
    exact ⟨x, y, hx, hy, by simpa using h⟩

end NekoStrategies.ReportedBalances
