import NekoStrategies.StrategyPositions

/-!
# Who can act as the admin of an Aquarius strategy

The constructor makes the strategy its own admin. Both admin functions require
the admin's authorisation, and a contract gives it only by calling, or by a
`__check_auth` of its own: the strategy has none and never calls itself. So no
submitted call ever gets past it, in no reachable state, and nothing but those
two functions moves idle pair tokens out or changes the slippage.
-/
namespace NekoStrategies.AquariusAdmin
open CheckedInteger SorobanHost TransactionalRun AquariusPool AquariusContract AquariusCalls
open StrategyPositions.Aquarius

/-- How an address can authorise a submitted call of the strategy: as an account
that signs, as a contract with a `__check_auth`, or as another contract, which
may have invoked or pre-authorised the call. -/
inductive Stands (checksAuth : Address → Prop) (strategy : Address) : Address → Prop
  | account (key : ℕ) : Stands checksAuth strategy (.account key)
  | custom (a : Address) : checksAuth a → Stands checksAuth strategy a
  | invoker (a : Address) : a ≠ strategy → Stands checksAuth strategy a

/-- Everybody who authorises the call can. -/
def Submitted (checksAuth : Address → Prop) (strategy : Address) : Action → Prop
  | .call env _ => ∀ a, env.caller.Authorises a → Stands checksAuth strategy a
  | _ => True

/-- A contract without `__check_auth`. -/
def PlainContract (checksAuth : Address → Prop) (strategy : Address) : Prop :=
  (∀ key, strategy ≠ .account key) ∧ ¬checksAuth strategy

/-- Pair tokens that a committed sweep moves out. -/
def sweptOut : Action → World → ℤ
  | .call _ (.sweep _ token dest amount), w =>
      match w.storage.config with
      | some config => if token = config.pairToken ∧ dest ≠ w.self then amount else 0
      | none => 0
  | _, _ => 0

def idlePair (w : World) : ℤ :=
  match w.storage.config with
  | some config => w.tokens config.pairToken w.self
  | none => 0

/-- Some submitted calls sweep out all that is idle. -/
def Sweepable (checksAuth : Address → Prop) (w : World) : Prop :=
  ∃ acts, (∀ a ∈ acts, Submitted checksAuth w.self a) ∧
    idlePair w ≤ tally step sweptOut w acts

/-- Some submitted calls set the slippage to `bps`. -/
def Settable (checksAuth : Address → Prop) (w : World) (bps : ℤ) : Prop :=
  ∃ acts, (∀ a ∈ acts, Submitted checksAuth w.self a) ∧
    ((run w acts).storage.config.map StrategyConfig.maxSlippageBps) = some bps

/-- The purpose of the admin functions. -/
def Usable (checksAuth : Address → Prop) (w : World) : Prop :=
  Sweepable checksAuth w ∧ ∀ bps, 0 ≤ bps → bps ≤ maxSlippageBps → Settable checksAuth w bps

/-- The strategy is its own admin. -/
def OwnAdmin (config : StrategyConfig) (w : World) : Prop :=
  w.storage.config = some config ∧ config.admin = w.self

section Admin
variable {checksAuth : Address → Prop} {w w' : World} {config : StrategyConfig} {a : Action}
  {env : Env} {admin token dest : Address} {amount slippage : ℤ}

theorem not_stands (hplain : PlainContract checksAuth w.self) :
    ¬Stands checksAuth w.self w.self := by
  intro h
  generalize hself : w.self = self at h hplain
  cases h with
  | account key => exact hplain.1 key rfl
  | custom _ hcheck => exact hplain.2 hcheck
  | invoker _ hne => exact hne rfl

theorem sweep_fails (hplain : PlainContract checksAuth w.self) (hown : OwnAdmin config w)
    (hsub : ∀ a, env.caller.Authorises a → Stands checksAuth w.self a) :
    sweep env w admin token dest amount ≠ .ok w' := by
  intro h
  obtain ⟨c, _, hc, hauth, hadmin, _⟩ := sweep_ok h
  obtain rfl := Option.some.inj (hc.symm.trans hown.1)
  rw [hadmin, hown.2] at hauth
  exact not_stands hplain (hsub _ hauth)

theorem updateSlippage_fails (hplain : PlainContract checksAuth w.self)
    (hown : OwnAdmin config w)
    (hsub : ∀ a, env.caller.Authorises a → Stands checksAuth w.self a) :
    updateSlippage env w admin slippage ≠ .ok w' := by
  intro h
  obtain ⟨c, hc, hauth, hadmin, _⟩ := updateSlippage_ok h
  obtain rfl := Option.some.inj (hc.symm.trans hown.1)
  rw [hadmin, hown.2] at hauth
  exact not_stands hplain (hsub _ hauth)

/-- A submitted call sweeps nothing and leaves the configuration as it is. -/
theorem step_ownAdmin (hplain : PlainContract checksAuth w.self) (hown : OwnAdmin config w)
    (ha : Submitted checksAuth w.self a) (h : step a w = .ok w') :
    (OwnAdmin config w' ∧ w'.self = w.self) ∧ sweptOut a w = 0 := by
  obtain ⟨_, _, hself, _⟩ := step_config hown.1 h
  have hkeep : w'.storage.config = w.storage.config → OwnAdmin config w' ∧ w'.self = w.self :=
    fun hsame => ⟨⟨hsame.trans hown.1, hown.2.trans hself.symm⟩, hself⟩
  rcases a with ⟨env, c⟩ | ⟨token, sender, receiver, amount⟩ | ⟨tokens, reserves, supply⟩
  · cases c with
    | construct asset initArgs =>
        have hnone := (construct_ok h).1
        rw [hown.1] at hnone
        cases hnone
    | updateSlippage admin slippage => exact absurd h (updateSlippage_fails hplain hown ha)
    | sweep admin token dest amount => exact absurd h (sweep_fails hplain hown ha)
    | deposit amount vault =>
        obtain ⟨k, hv⟩ := forget_eq_ok.mp h
        obtain ⟨_, _, _, u, _, _, rfl⟩ := deposit_ok hv
        exact ⟨hkeep rfl, rfl⟩
    | withdraw amount vault dest =>
        obtain ⟨k, hv⟩ := forget_eq_ok.mp h
        obtain ⟨_, _, _, _, _, _, u, _, _, _, _, _, _, rfl⟩ := withdraw_ok hv
        exact ⟨hkeep rfl, rfl⟩
    | harvest sender data =>
        have hcall : AquariusContract.harvest env w sender data = .ok w' := h
        exact ⟨hkeep (by rw [(harvest_frame hcall).1]), rfl⟩
    | asset | balance vault =>
        obtain ⟨_, rfl⟩ := readOnly_eq_ok.mp h
        exact ⟨hkeep rfl, rfl⟩
  · obtain ⟨_, _, _, rfl⟩ := guarded_eq_ok.mp h
    exact ⟨hkeep rfl, rfl⟩
  · obtain rfl := Except.ok.inj h
    exact ⟨hkeep rfl, rfl⟩

theorem run_ownAdmin {acts : List Action} (hplain : PlainContract checksAuth w.self)
    (hown : OwnAdmin config w) (hacts : ∀ a ∈ acts, Submitted checksAuth w.self a) :
    (OwnAdmin config (run w acts) ∧ (run w acts).self = w.self) ∧
      tally step sweptOut w acts = 0 := by
  have hstep : ∀ a u u', Submitted checksAuth w.self a → OwnAdmin config u ∧ u.self = w.self →
      step a u = .ok u' → (OwnAdmin config u' ∧ u'.self = w.self) ∧ sweptOut a u = 0 := by
    rintro a u u' ha ⟨hu, hself⟩ h
    rw [← hself] at hplain ha ⊢
    exact step_ownAdmin hplain hu ha h
  have heach : Each step (fun a _ => Submitted checksAuth w.self a) w acts :=
    each_of_forall fun a ha _ => hacts a ha
  constructor
  · exact run_invariant (I := fun u => OwnAdmin config u ∧ u.self = w.self)
      (fun a u u' ha hu h => (hstep a u u' ha hu h).1) ⟨hown, rfl⟩ heach
  · exact tally_eq_zero (I := fun u => OwnAdmin config u ∧ u.self = w.self) hstep
      ⟨hown, rfl⟩ heach

theorem Deployed.ownAdmin (h : Deployed w) : ∃ config, OwnAdmin config w := by
  obtain ⟨w₀, asset, initArgs, _, hc⟩ := h
  obtain ⟨_, config, _, hadmin, _, _, rfl⟩ := construct_ok hc
  exact ⟨config, rfl, hadmin⟩

theorem not_sweepable (hplain : PlainContract checksAuth w.self) (hown : OwnAdmin config w)
    (hidle : 0 < idlePair w) : ¬Sweepable checksAuth w := by
  rintro ⟨acts, hacts, hswept⟩
  rw [(run_ownAdmin hplain hown hacts).2] at hswept
  omega

theorem settable_iff (hplain : PlainContract checksAuth w.self) (hown : OwnAdmin config w)
    (bps : ℤ) : Settable checksAuth w bps ↔ bps = config.maxSlippageBps := by
  constructor
  · rintro ⟨acts, hacts, hset⟩
    obtain ⟨⟨⟨hconfig, _⟩, _⟩, _⟩ := run_ownAdmin hplain hown hacts
    rw [hconfig] at hset
    exact (Option.some.inj hset).symm
  · rintro rfl
    refine ⟨[], by simp, ?_⟩
    change w.storage.config.map StrategyConfig.maxSlippageBps = _
    rw [hown.1]
    rfl

theorem not_usable (hplain : PlainContract checksAuth w.self) (hown : OwnAdmin config w) :
    ¬Usable checksAuth w := by
  rintro ⟨_, hset⟩
  have hzero := (settable_iff hplain hown 0).mp (hset 0 le_rfl (by decide))
  have hone := (settable_iff hplain hown 1).mp (hset 1 (by decide) (by decide))
  omega

end Admin

/-- In every reachable state of every deployed strategy the admin functions are
beyond reach: what is idle cannot be swept, and of all slippages only the one
that is already set is reached, by doing nothing. -/
theorem admin_out_of_reach (checksAuth : Address → Prop) (w₀ : World) (acts : List Action)
    (hw : Deployed w₀) (hplain : PlainContract checksAuth w₀.self)
    (hacts : ∀ a ∈ acts, Submitted checksAuth w₀.self a) :
    let w := run w₀ acts
    ¬Usable checksAuth w ∧ (0 < idlePair w → ¬Sweepable checksAuth w) ∧
      ∀ bps, Settable checksAuth w bps ↔
        w₀.storage.config.map StrategyConfig.maxSlippageBps = some bps := by
  intro w
  obtain ⟨config, hown₀⟩ := Deployed.ownAdmin hw
  obtain ⟨⟨hown, hself⟩, _⟩ := run_ownAdmin hplain hown₀ hacts
  rw [← hself] at hplain
  refine ⟨not_usable hplain hown, not_sweepable hplain hown, ?_⟩
  intro bps
  rw [settable_iff hplain hown, hown₀.1, Option.map_some, Option.some.injEq, eq_comm]

/-- The strategy of the sample after a deposit that leaves 80 of the pair token. -/
def sampleDeposit : List Action :=
  [.transfer sampleAsset (.account 1) (.contract 0) 2000,
    .call (sampleEnv (.account 1)) (.deposit 2000 (.account 1))]

def noChecksAuth (_ : Address) : Prop := False

theorem sampleWorld_plain : PlainContract noChecksAuth sampleWorld.self :=
  ⟨fun _ => by simp [sampleWorld], not_false⟩

theorem sampleDeposit_submitted :
    ∀ a ∈ sampleDeposit, Submitted noChecksAuth sampleWorld.self a := by
  intro a ha
  simp only [sampleDeposit, List.mem_cons, List.not_mem_nil, or_false] at ha
  rcases ha with rfl | rfl
  · trivial
  · rintro a (hsigned | hinvoked)
    · obtain rfl := List.mem_singleton.mp hsigned
      exact Stands.account 1
    · cases hinvoked

theorem admin_out_of_reach_sample :
    idlePair (run sampleWorld sampleDeposit) = 80 ∧
      ¬Sweepable noChecksAuth (run sampleWorld sampleDeposit) :=
  ⟨by decide +kernel, (admin_out_of_reach noChecksAuth sampleWorld sampleDeposit
    sampleWorld_deployed sampleWorld_plain sampleDeposit_submitted).2.1 (by decide +kernel)⟩

/-- The admin functions are usable wherever there is something to sweep. -/
def AdminUsable : Prop :=
  ∀ (checksAuth : Address → Prop) (w₀ : World) (acts : List Action), Deployed w₀ →
    PlainContract checksAuth w₀.self → (∀ a ∈ acts, Submitted checksAuth w₀.self a) →
    0 < idlePair (run w₀ acts) → Usable checksAuth (run w₀ acts)

/-- The sample's 80 pair tokens stay where they are. -/
theorem admin_locked_out : ¬AdminUsable := by
  intro h
  have husable := h noChecksAuth sampleWorld sampleDeposit sampleWorld_deployed
    sampleWorld_plain sampleDeposit_submitted (by decide +kernel)
  have hown : OwnAdmin sampleConfig sampleWorld := ⟨rfl, rfl⟩
  obtain ⟨⟨hown', hself⟩, _⟩ := run_ownAdmin sampleWorld_plain hown sampleDeposit_submitted
  exact not_usable (hself ▸ sampleWorld_plain) hown' husable

end NekoStrategies.AquariusAdmin
