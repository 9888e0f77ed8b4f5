import NekoStrategies.RewardAccrual
import NekoStrategies.StrategyPositions

/-!
# Who receives the AQUA of the pooled position

The pool pays rewards for the strategy's whole position, and a harvest forwards
all of them to whatever address it names. The pool's accruals are kept next to
the contract's state, with the shares of their moment, so that it can be said
whose rewards were paid: those of the address named, exactly when that address
has all the shares and had them whenever something accrued.
-/
namespace NekoStrategies.AquariusRewards
open CheckedInteger SorobanHost TransactionalRun RewardAccrual AquariusPool AquariusContract
open AquariusCalls StrategyPositions.Aquarius

/-- The state, with the accruals since the last claim. -/
structure Epoch where
  world : World
  accruals : Accruals Address

inductive RewardAction where
  | act (a : Action)
  | accrue (amount : ℤ)

def isHarvest : Action → Bool
  | .call _ (.harvest _ _) => true
  | _ => false

def rewardStep : RewardAction → Epoch → Outcome Epoch
  | .act a, e => do
      let w ← step a e.world
      pure { world := w, accruals := if isHarvest a then [] else e.accruals }
  | .accrue amount, e =>
      .ok { e with accruals := (amount, positions e.world) :: e.accruals }

/-- A claim pays what has accrued since the last one. -/
def SoundReward : RewardAction → Epoch → Prop
  | .act (.call env (.harvest _ _)), e =>
      Sound env ∧ i128.Holds (accrued e.accruals) ∧
        ∀ claimed, env.claim = some claimed → claimed = accrued e.accruals
  | .act a, _ => SoundAction a
  | .accrue amount, _ => 0 ≤ amount

/-- What a harvest adds to the AQUA of the address it names is a fair payment. -/
def Fair : RewardAction → Epoch → Prop
  | .act (.call env (.harvest sender data)), e =>
      ∀ config claimed e', e.world.storage.config = some config → env.claim = some claimed →
        rewardStep (.act (.call env (.harvest sender data))) e = .ok e' →
        FairPayment e.accruals (positions e.world) claimed
          (e'.world.tokens config.aquaToken sender - e.world.tokens config.aquaToken sender)
          sender
  | _, _ => True

/-- Nothing has accrued, or it all did while the address named had all shares, as
it has now. -/
def Exclusive : RewardAction → Epoch → Prop
  | .act (.call _ (.harvest sender _)), e =>
      accrued e.accruals = 0 ∨
        (0 < (positions e.world).total ∧
          (positions e.world).amount sender = (positions e.world).total ∧
          SoleEarner e.accruals sender)
  | _, _ => True

/-- Every harvest of every run is fair. -/
def RewardsGoToEarners : Prop :=
  ∀ (w₀ : World) (acts : List RewardAction), Deployed w₀ → Proper w₀ →
    Each rewardStep SoundReward ⟨w₀, []⟩ acts → Each rewardStep Fair ⟨w₀, []⟩ acts

def Invariant (e : Epoch) : Prop :=
  Proper e.world ∧ (positions e.world).Nonneg ∧ WellFormed e.accruals

section Harvests
variable {env : Env} {e e' : Epoch} {w w' : World} {sender : Address}
  {data : Option (List UInt8)} {config : StrategyConfig} {claimed : ℤ} {a : RewardAction}

theorem harvest_receives (hconfig : w.storage.config = some config)
    (hclaim : env.claim = some claimed) (hnonneg : 0 ≤ claimed) (hholds : i128.Holds claimed)
    (h : harvest env w sender data = .ok w') :
    w'.tokens config.aquaToken sender - w.tokens config.aquaToken sender = claimed := by
  obtain ⟨config', k, u, price, hconfig', hpaid, _, rfl⟩ := harvest_ok h
  obtain rfl := Option.some.inj (hconfig.symm.trans hconfig')
  obtain ⟨claimed', hclaim', rfl, hcase⟩ := claim_ok hpaid
  obtain rfl := Option.some.inj (hclaim.symm.trans hclaim')
  rw [asI128_of_holds hholds] at hcase
  rcases hcase with ⟨hle, rfl⟩ | ⟨_, tokens, ht, rfl⟩
  · have hzero : claimed = 0 := by omega
    simp [World.emit, Ledger.add_apply, hzero]
  · simp only [World.emit]
    rw [Ledger.transfer_apply ht, Ledger.add_apply]
    by_cases hself : sender = w.self
    · simp [hself]
    · simp [hself]

theorem step_invariant (ha : SoundReward a e) (he : Invariant e)
    (h : rewardStep a e = .ok e') : Invariant e' := by
  obtain ⟨hproper, hnonneg, haccruals⟩ := he
  cases a with
  | act a =>
      simp only [rewardStep, bind_eq_ok, pure_eq_ok] at h
      obtain ⟨w, hw, rfl⟩ := h
      have hsound : SoundAction a := by
        rcases a with ⟨env, c⟩ | _ | _
        · cases c with
          | harvest sender data => exact ha.1
          | construct | updateSlippage | sweep | asset | deposit | withdraw | balance => exact ha
        · trivial
        · trivial
      obtain ⟨hproper', hnonneg'⟩ := bookkeeping.step_nonneg hsound hproper hnonneg hw
      refine ⟨hproper', hnonneg', ?_⟩
      dsimp only
      split_ifs
      · intro p hp
        exact absurd hp List.not_mem_nil
      · exact haccruals
  | accrue amount =>
      obtain rfl := Except.ok.inj h
      refine ⟨hproper, hnonneg, ?_⟩
      intro p hp
      rcases List.mem_cons.mp hp with rfl | hp
      · exact ⟨ha, hnonneg⟩
      · exact haccruals p hp

theorem harvest_fair_iff (he : Invariant e)
    (hs : SoundReward (.act (.call env (.harvest sender data))) e)
    (h : rewardStep (.act (.call env (.harvest sender data))) e = .ok e') :
    Fair (.act (.call env (.harvest sender data))) e ↔
      Exclusive (.act (.call env (.harvest sender data))) e := by
  obtain ⟨⟨config, hconfig, _⟩, hnonneg, haccruals⟩ := he
  obtain ⟨_, hholds, hclaims⟩ := hs
  have hstep := h
  simp only [rewardStep, step, invoke, bind_eq_ok, pure_eq_ok] at h
  obtain ⟨w, hharvest, rfl⟩ := h
  obtain ⟨config', k, u, price, hconfig', hpaid, _, _⟩ := harvest_ok hharvest
  obtain ⟨claimed, hclaim, _, _⟩ := claim_ok hpaid
  obtain rfl := hclaims claimed hclaim
  have hreceived := harvest_receives hconfig hclaim (accrued_nonneg haccruals) hholds hharvest
  refine Iff.trans ?_ (fair_whole_iff haccruals hnonneg)
  constructor
  · intro hfair
    have := hfair config _ _ hconfig hclaim hstep
    rwa [hreceived] at this
  · intro hfair config'' claimed' e'' hconfig'' hclaim' hstep'
    obtain rfl := Option.some.inj (hconfig.symm.trans hconfig'')
    obtain rfl := Option.some.inj (hclaim.symm.trans hclaim')
    obtain rfl := Except.ok.inj (hstep.symm.trans hstep')
    rwa [hreceived]

theorem action_fair (he : Invariant e) (hs : SoundReward a e) (hx : Exclusive a e) :
    Fair a e := by
  cases a with
  | act a =>
      rcases a with ⟨env, c⟩ | _ | _
      · cases c with
        | harvest sender data =>
            intro config claimed e' hconfig hclaim h
            exact (harvest_fair_iff he hs h).mpr hx config claimed e' hconfig hclaim h
        | construct | updateSlippage | sweep | asset | deposit | withdraw | balance => trivial
      · trivial
      · trivial
  | accrue amount => trivial

end Harvests

/-- Runs of exclusive harvests are fair, and no other harvest that commits is. -/
theorem fair_iff_exclusive (w₀ : World) (acts : List RewardAction) (hw : Deployed w₀)
    (hproper : Proper w₀) (hs : Each rewardStep SoundReward ⟨w₀, []⟩ acts) :
    (Each rewardStep Exclusive ⟨w₀, []⟩ acts → Each rewardStep Fair ⟨w₀, []⟩ acts) ∧
      ∀ pre env sender data post e',
        acts = pre ++ .act (.call env (.harvest sender data)) :: post →
        let e := run rewardStep ⟨w₀, []⟩ pre
        rewardStep (.act (.call env (.harvest sender data))) e = .ok e' →
        (Fair (.act (.call env (.harvest sender data))) e ↔
          Exclusive (.act (.call env (.harvest sender data))) e) := by
  have hstart : Invariant ⟨w₀, []⟩ := by
    refine ⟨hproper, ?_, ?_⟩
    · rw [deployed_empty hw]
      exact Attribution.Nonneg.empty
    · intro p hp
      exact absurd hp List.not_mem_nil
  constructor
  · intro hx
    apply each_of_invariant (I := Invariant) (C := fun a e => SoundReward a e ∧ Exclusive a e)
    · intro a e e' ha he h
      exact step_invariant ha.1 he h
    · intro a e ha he
      exact action_fair he ha.1 ha.2
    · exact hstart
    · exact each_and.mpr ⟨hs, hx⟩
  · intro pre env sender data post e' hacts e h
    subst hacts
    obtain ⟨hpre, ha, _⟩ := each_append.mp hs
    have he : Invariant e := by
      apply run_invariant (I := Invariant) (C := SoundReward) _ hstart hpre
      intro a e e' ha he h
      exact step_invariant ha he h
    exact harvest_fair_iff he ha h

section Sample

/-- A deposit by one vault, 500 AQUA accrued to it, and a harvest. -/
def sampleActions (harvester : Address) : List RewardAction :=
  [.act (.transfer sampleAsset (.account 1) (.contract 0) 2000),
    .act (.call (sampleEnv (.account 1)) (.deposit 2000 (.account 1))),
    .accrue 500,
    .act (.call (sampleEnv harvester) (.harvest harvester none))]

theorem sampleActions_sound (harvester : Address) :
    Each rewardStep SoundReward ⟨sampleWorld, []⟩ (sampleActions harvester) := by
  refine ⟨trivial, sampleEnv_sound _, ?_, ⟨sampleEnv_sound _, ?_, ?_⟩, trivial⟩
  · exact (by decide : (0 : ℤ) ≤ 500)
  · decide +kernel
  · intro claimed h
    exact (Option.some.inj h).symm

/-- The depositor may harvest. -/
theorem fair_iff_exclusive_depositor :
    Each rewardStep Fair ⟨sampleWorld, []⟩ (sampleActions (.account 1)) := by
  apply (fair_iff_exclusive sampleWorld _ sampleWorld_deployed sampleWorld_proper
    (sampleActions_sound (.account 1))).1
  refine ⟨trivial, trivial, trivial, .inr ⟨by decide +kernel, by decide +kernel, ?_⟩, trivial⟩
  intro p hp
  obtain rfl := List.mem_singleton.mp hp
  right
  intro j hj
  exact Attribution.amount_set_of_ne hj

/-- An account without shares harvests everything. -/
theorem stranger_harvests : ¬RewardsGoToEarners := by
  intro h
  obtain ⟨_, _, _, hfair, _⟩ := h sampleWorld _ sampleWorld_deployed sampleWorld_proper
    (sampleActions_sound (.account 9))
  have hpaid := (hfair sampleConfig 500 _ rfl rfl rfl).paid_nonpos rfl
  exact absurd hpaid (by decide +kernel)

end Sample

end NekoStrategies.AquariusRewards
