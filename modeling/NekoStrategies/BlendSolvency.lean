import NekoStrategies.BlendBooks

/-!
# Recorded bTokens against the pool position

The strategy never reads back what a deposit or a withdrawal moved in the
pool: it records its own prediction. Assume of Blend only how it rounds. Then
every call leaves the position ahead of the record by at least as much as
before, and by exactly as much when the rate is at least 1.0, because the
prediction and the pool convert through the same two roundings.
-/
namespace NekoStrategies.BlendSolvency
open CheckedInteger RoundedDivision SorobanHost BlendReserves BlendContract BlendCalls
open BlendBooks SharePool

/-- Blend's side of one invocation: the reserve keeps its index, a Supply
request mints rounding down and a Withdraw request burns rounding up, where
either may also fail. -/
structure IsBlend (reserveId : ℤ) (env : Env) : Prop where
  rate_pos : 0 < env.bRate
  index_eq : env.reserveIndex = reserveId
  mint_eq : ∀ x m, env.mint x = some m → m = floorDiv (x * scalar12) env.bRate
  burn_eq : ∀ x m, env.burn x = some m → m = ceilDiv (x * scalar12) env.bRate

/-- Every call of the run meets `P` at its own environment. -/
def EveryCall (P : Env → Prop) (acts : List Action) : Prop :=
  ∀ env c, Action.call env c ∈ acts → P env

/-- bTokens in the pool beyond those recorded. -/
def surplus (reserveId : ℤ) (w : World) : ℤ :=
  w.position reserveId - (books w.storage).assets

section Position
variable {env : Env} {w w' : World} {config : Config} {c : Call} {amount k : ℤ}
  {vault dest : Address}

/-- A call that moves the position by `d` moves the surplus by what `d` exceeds
the change of the record. -/
theorem surplus_moved {reserveId d : ℤ} (hindex : env.reserveIndex = reserveId)
    (hsupply : w'.supply = movedSupply env w d) :
    surplus reserveId w' = surplus reserveId w +
      (d - ((books w'.storage).assets - (books w.storage).assets)) := by
  subst hindex
  have hposition : w'.position env.reserveIndex = w.position env.reserveIndex + d := by
    simp [World.position, hsupply, movedSupply]
  rw [surplus, surplus, hposition]
  ring

/-- Who writes the configuration and the keeper. -/
theorem invoke_control (h : invoke env w c = .ok w') :
    (w'.storage.config = w.storage.config ∧ w'.storage.keeper = w.storage.keeper ∧
      ∀ newKeeper, c ≠ .setKeeper newKeeper) ∨
    (w.storage.config = none ∧ ∃ asset initArgs, c = .construct asset initArgs) ∨
    ∃ keeper newKeeper, c = .setKeeper newKeeper ∧ w.storage.keeper = some keeper ∧
      env.caller.Authorises keeper ∧ w'.storage.config = w.storage.config ∧
      w'.storage.keeper = some newKeeper := by
  cases c with
  | construct asset args => exact .inr (.inl ⟨(construct_ok h).1, asset, args, rfl⟩)
  | deposit amount vault =>
      obtain ⟨k, hc⟩ := forget_eq_ok.mp h
      obtain ⟨_, _, _, x, n, minted, v, r, tokens, storage, _, _, _, hrec, _, rfl⟩ :=
        deposit_ok hc
      obtain ⟨_, _, _, _, _, _, _, _, _, _, _, rfl⟩ := deposit_recorded hrec
      exact .inl ⟨rfl, rfl, by simp⟩
  | withdraw amount vault dest =>
      obtain ⟨k, hc⟩ := forget_eq_ok.mp h
      obtain ⟨_, _, _, x, n, due, v, r, tokens, storage, _, _, _, _, hrec, _, rfl⟩ :=
        withdraw_ok hc
      obtain ⟨_, _, _, _, _, _, _, _, rfl⟩ := withdraw_recorded hrec
      exact .inl ⟨rfl, rfl, by simp⟩
  | harvest sender data =>
      obtain ⟨_, _, _, r, u, tokens, claimed, price, minOut, _, hre, _, rfl⟩ := harvest_ok h
      rcases performReinvest_ok hre with ⟨_, rfl⟩ |
        ⟨out, minted, n, tokens', storage, _, rfl, _, hrec⟩
      · exact .inl ⟨rfl, rfl, by simp⟩
      · obtain ⟨_, _, _, rfl⟩ := harvest_recorded hrec
        exact .inl ⟨rfl, rfl, by simp⟩
  | setKeeper newKeeper =>
      obtain ⟨keeper, hkeeper, hauth, rfl⟩ := setKeeper_ok h
      exact .inr (.inr ⟨keeper, newKeeper, rfl, hkeeper, hauth, rfl, rfl⟩)
  | asset | balance vault | getKeeper =>
      obtain ⟨_, rfl⟩ := readOnly_eq_ok.mp h
      exact .inl ⟨rfl, rfl, by simp⟩

theorem invoke_config (hconfig : w.storage.config = some config)
    (h : invoke env w c = .ok w') : w'.storage.config = some config := by
  rcases invoke_control h with ⟨hsame, _⟩ | ⟨hnone, _⟩ | ⟨_, _, _, _, _, hsame, _⟩
  · rwa [hsame]
  · rw [hnone] at hconfig
    cases hconfig
  · rwa [hsame]

theorem step_config {a : Action} (hconfig : w.storage.config = some config)
    (h : step a w = .ok w') : w'.storage.config = some config := by
  cases a with
  | call env c => exact invoke_config hconfig h
  | others tokens =>
      obtain rfl := Except.ok.inj h
      exact hconfig

theorem run_config (acts : List Action) (hconfig : w.storage.config = some config) :
    (run w acts).storage.config = some config :=
  TransactionalRun.run_invariant_of_step (I := fun w : World => w.storage.config = some config)
    (fun _ _ _ hs h => step_config hs h) hconfig acts

theorem Deployed.config_some (h : Deployed w) : ∃ config, w.storage.config = some config := by
  obtain ⟨_, _, _, _, _, _, hc⟩ := h
  obtain ⟨_, config, _, _, _, rfl⟩ := construct_ok hc
  exact ⟨config, rfl⟩

/-- A deposit's plan in exact numbers. -/
theorem deposit_plan_value {x n : ℤ} {r : StrategyReserves}
    (h : calculateOptimalDepositAmount amount r = .ok (x, n)) :
    0 < n ∧ x = ceilDiv (n * r.bRate) scalar12 := by
  obtain ⟨b, _, _, hn, hx⟩ := calculateOptimalDepositAmount_ok h
  exact ⟨hn, (fixedMulCeil_eq_some.mp hx).2.2.2.symm⟩

theorem withdraw_plan_value {x n : ℤ} {r : StrategyReserves}
    (h : calculateOptimalWithdrawAmount amount r = .ok (x, n)) :
    x = floorDiv (n * r.bRate) scalar12 := by
  obtain ⟨b, s, _, _, _, hx⟩ := calculateOptimalWithdrawAmount_ok h
  exact (fixedMulFloor_eq_some.mp hx).2.2.2.symm

theorem deposit_surplus (hblend : IsBlend config.reserveId env)
    (h : BlendContract.deposit env w amount vault = .ok (k, w')) :
    surplus config.reserveId w ≤ surplus config.reserveId w' ∧
      (scalar12 ≤ env.bRate → surplus config.reserveId w' = surplus config.reserveId w) := by
  obtain ⟨_, _, _, x, n, minted, v, r, tokens, storage, _, hplan, hm, hrec, _, hw⟩ :=
    deposit_ok h
  have hx : x = ceilDiv (n * env.bRate) scalar12 := (deposit_plan_value hplan).2
  have hminted := hblend.mint_eq x minted hm
  obtain ⟨_, _, _, _, _, _, _, _, rfl, _, _, rfl⟩ := deposit_recorded hrec
  have hassets : (books w'.storage).assets = (books w.storage).assets + n := by rw [hw]; rfl
  have hsupply : w'.supply = movedSupply env w minted := by rw [hw]
  rw [surplus_moved hblend.index_eq hsupply, hassets, hminted, hx]
  constructor
  · have hle := le_floorDiv_ceilDiv (n := n) hblend.rate_pos scalar12_pos
    omega
  · intro hrate
    have heq := floorDiv_ceilDiv_eq (n := n) scalar12_pos hrate
    omega

/-- A successful withdrawal never asks for more than the position: the request
goes through as asked, and burns at most what the strategy writes off. -/
theorem withdraw_uncapped (hblend : IsBlend config.reserveId env)
    (hcovered : 0 ≤ surplus config.reserveId w)
    (h : BlendContract.withdraw env w amount vault dest = .ok (k, w'))
    (hconfig : w.storage.config = some config) :
    ∃ x n due, calculateOptimalWithdrawAmount amount
        (getStrategyReserveUpdated w.storage env.bRate) = .ok (x, n) ∧
      env.burn x = some due ∧ due ≤ n ∧ (scalar12 ≤ env.bRate → due = n) ∧
      due ≤ w.position config.reserveId ∧
      w.tokens.transfer config.asset config.pool dest x = .ok w'.tokens ∧
      surplus config.reserveId w' = surplus config.reserveId w + (n - due) := by
  obtain ⟨_, _, config', x, n, due, v, r, tokens, storage, hconfig', hplan, hdue, htransfer,
    hrec, _, hw⟩ := withdraw_ok h
  obtain rfl : config = config' := Option.some.inj (hconfig.symm.trans hconfig')
  have hx := withdraw_plan_value hplan
  have hval := hblend.burn_eq x due hdue
  rw [hx] at hval
  have hle : due ≤ n := hval ▸ ceilDiv_floorDiv_le hblend.rate_pos scalar12_pos
  obtain ⟨hn, burnt, _, _, hnB, _, _, rfl, rfl⟩ := withdraw_recorded hrec
  have hposition : due ≤ w.position config.reserveId := by
    change n ≤ (books w.storage).assets at hnB
    unfold surplus at hcovered
    omega
  have houtcome : withdrawOutcome (w.position env.reserveIndex) due x env.bRate = (due, x) := by
    rw [hblend.index_eq]
    exact if_pos hposition
  rw [houtcome] at htransfer hw
  have hassets : (books w'.storage).assets = (books w.storage).assets - n := by rw [hw]; rfl
  refine ⟨x, n, due, hplan, hdue, hle, ?_, hposition, by rw [hw]; exact htransfer, ?_⟩
  · intro hrate
    exact hval.trans (ceilDiv_floorDiv_eq scalar12_pos hrate)
  · have hsupply : w'.supply = movedSupply env w (-due) := by rw [hw]
    rw [surplus_moved hblend.index_eq hsupply, hassets]
    ring

theorem harvest_surplus {sender : Address} {data : Option (List UInt8)}
    (hconfig : w.storage.config = some config) (hblend : IsBlend config.reserveId env)
    (h : BlendContract.harvest env w sender data = .ok w') :
    surplus config.reserveId w' = surplus config.reserveId w := by
  obtain ⟨_, _, config', r, u, tokens, claimed, price, minOut, hconfig', hre, _, rfl⟩ :=
    harvest_ok h
  obtain rfl : config = config' := Option.some.inj (hconfig.symm.trans hconfig')
  rcases performReinvest_ok hre with ⟨_, rfl⟩ |
    ⟨out, minted, n, tokens', storage, _, hu, hn, hrec⟩
  · rfl
  · obtain ⟨_, _, rfl, rfl⟩ := harvest_recorded hrec
    have hgrown : n = minted := by
      rw [hn, hu, ← hblend.index_eq]
      simp [World.position, movedSupply]
    have hassets : (books u.storage).assets = (books w.storage).assets + n := by rw [hu]; rfl
    have hsupply : u.supply = movedSupply env w minted := by
      rw [hu]
      rfl
    change surplus config.reserveId u = _
    rw [surplus_moved hblend.index_eq hsupply, hassets, hgrown]
    ring

/-- No call shrinks the surplus, and none changes it at a rate of at least 1. -/
theorem invoke_surplus (hconfig : w.storage.config = some config)
    (hblend : IsBlend config.reserveId env) (hcovered : 0 ≤ surplus config.reserveId w)
    (h : invoke env w c = .ok w') :
    surplus config.reserveId w ≤ surplus config.reserveId w' ∧
      (scalar12 ≤ env.bRate → surplus config.reserveId w' = surplus config.reserveId w) := by
  rcases invoke_ok h with rfl | ⟨asset, args, _, hc⟩ | ⟨amount, vault, k, _, hc⟩ |
    ⟨amount, vault, dest, k, _, hc⟩ | ⟨sender, data, _, hc⟩ | ⟨newKeeper, _, hc⟩
  · exact ⟨le_rfl, fun _ => rfl⟩
  · rw [(construct_ok hc).1] at hconfig
    cases hconfig
  · exact deposit_surplus hblend hc
  · obtain ⟨x, n, due, _, _, hle, heq, _, _, hmove⟩ :=
      withdraw_uncapped hblend hcovered hc hconfig
    exact ⟨by omega, fun hrate => by have := heq hrate; omega⟩
  · have he := harvest_surplus hconfig hblend hc
    exact ⟨he.ge, fun _ => he⟩
  · obtain ⟨keeper, _, _, rfl⟩ := setKeeper_ok hc
    exact ⟨le_rfl, fun _ => rfl⟩

end Position

section Runs
variable {w : World} {config : Config} {acts : List Action}

theorem Deployed.surplus_eq {reserveId : ℤ} (h : Deployed w) : surplus reserveId w = 0 := by
  have hbooks := Deployed.books_eq h
  obtain ⟨env, w₀, asset, initArgs, _, hsupply, hc⟩ := h
  obtain ⟨_, _, _, _, _, rfl⟩ := construct_ok hc
  simp only [surplus, hbooks, World.position, hsupply]
  rfl

theorem run_covered (hw : Deployed w) (hconfig : w.storage.config = some config)
    (hacts : EveryCall (IsBlend config.reserveId) acts) :
    (run w acts).storage.config = some config ∧
      0 ≤ surplus config.reserveId (run w acts) := by
  refine TransactionalRun.run_invariant
    (C := fun a _ => ∀ env c, a = .call env c → IsBlend config.reserveId env)
    (I := fun w : World => w.storage.config = some config ∧ 0 ≤ surplus config.reserveId w)
    ?_ ⟨hconfig, (Deployed.surplus_eq hw).ge⟩ ?_
  · intro a u u' hblend hu h
    cases a with
    | call env c =>
        have hsurplus := invoke_surplus hu.1 (hblend env c rfl) hu.2 h
        exact ⟨invoke_config hu.1 h, hu.2.trans hsurplus.1⟩
    | others tokens =>
        obtain rfl := Except.ok.inj h
        exact hu
  · apply TransactionalRun.each_of_forall
    rintro a ha _ env c rfl
    exact hacts env c ha

/-- At rates of at least 1.0 the record is exact. -/
theorem run_exact (hw : Deployed w) (hconfig : w.storage.config = some config)
    (hacts : EveryCall (IsBlend config.reserveId) acts)
    (hrates : EveryCall (fun env => scalar12 ≤ env.bRate) acts) :
    surplus config.reserveId (run w acts) = 0 := by
  refine (TransactionalRun.run_invariant
    (C := fun a _ => ∀ env c, a = .call env c →
      IsBlend config.reserveId env ∧ scalar12 ≤ env.bRate)
    (I := fun w : World => w.storage.config = some config ∧ surplus config.reserveId w = 0)
    ?_ ⟨hconfig, Deployed.surplus_eq hw⟩ ?_).2
  · intro a u u' hblend hu h
    cases a with
    | call env c =>
        obtain ⟨henv, hrate⟩ := hblend env c rfl
        have hsurplus := invoke_surplus hu.1 henv hu.2.ge h
        exact ⟨invoke_config hu.1 h, (hsurplus.2 hrate).trans hu.2⟩
    | others tokens =>
        obtain rfl := Except.ok.inj h
        exact hu
  · apply TransactionalRun.each_of_forall
    rintro a ha _ env c rfl
    exact ⟨hacts env c ha, hrates env c ha⟩

/-- Against Blend the recorded bTokens never exceed the position, no successful
withdrawal is cut down by the pool's cap, and at rates of at least 1.0 the
record and the position agree. -/
theorem supply_covers_books (w₀ : World) (config : Config) (acts : List Action)
    (hw : Deployed w₀) (hconfig : w₀.storage.config = some config)
    (hacts : EveryCall (IsBlend config.reserveId) acts) :
    let w := run w₀ acts
    let recordedBTokens := (getStrategyReserves w.storage).totalBTokens
    recordedBTokens ≤ w.position config.reserveId ∧
    (∀ env amount vault dest k w', IsBlend config.reserveId env →
      BlendContract.withdraw env w amount vault dest = .ok (k, w') →
      ∃ x n due, calculateOptimalWithdrawAmount amount
          (getStrategyReserveUpdated w.storage env.bRate) = .ok (x, n) ∧
        env.burn x = some due ∧ due ≤ w.position config.reserveId ∧
        w.tokens.transfer config.asset config.pool dest x = .ok w'.tokens) ∧
    (EveryCall (fun env => scalar12 ≤ env.bRate) acts →
      recordedBTokens = w.position config.reserveId) := by
  intro w recordedBTokens
  obtain ⟨hconfig', hcovered⟩ := run_covered hw hconfig hacts
  refine ⟨?_, ?_, ?_⟩
  · change 0 ≤ w.position config.reserveId - recordedBTokens at hcovered
    omega
  · intro env amount vault dest k w' hblend h
    obtain ⟨x, n, due, hplan, hdue, _, _, hposition, htransfer, _⟩ :=
      withdraw_uncapped hblend hcovered h hconfig'
    exact ⟨x, n, due, hplan, hdue, hposition, htransfer⟩
  · intro hrates
    have hexact : w.position config.reserveId - recordedBTokens = 0 :=
      run_exact hw hconfig hacts hrates
    omega

theorem sampleEnv_isBlend (signer : Address) : IsBlend 0 (sampleEnv signer) where
  rate_pos := (by decide : (0 : ℤ) < 1100000000000)
  index_eq := rfl
  mint_eq x m h := (Option.some.inj h).symm
  burn_eq x m h := (Option.some.inj h).symm

theorem sampleActions_isBlend : EveryCall (IsBlend 0) sampleActions := by
  intro env c hmem
  simp only [sampleActions, List.mem_cons, List.not_mem_nil, or_false, Action.call.injEq] at hmem
  rcases hmem with ⟨rfl, _⟩ | ⟨rfl, _⟩ | ⟨rfl, _⟩
  · exact sampleEnv_isBlend _
  · exact sampleEnv_isBlend _
  · exact sampleEnv_isBlend _

theorem supply_covers_books_sample :
    0 < (getStrategyReserves (run sampleWorld sampleActions).storage).totalBTokens ∧
      (getStrategyReserves (run sampleWorld sampleActions).storage).totalBTokens ≤
        (run sampleWorld sampleActions).position 0 :=
  ⟨by decide +kernel, (supply_covers_books sampleWorld sampleConfig sampleActions
    sampleWorld_deployed rfl sampleActions_isBlend).1⟩

end Runs

end NekoStrategies.BlendSolvency
