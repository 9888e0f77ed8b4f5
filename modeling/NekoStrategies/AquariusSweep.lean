import NekoStrategies.PositionBacking

/-!
# What a sweep may take

A sweep is there to move stuck tokens, yet it transfers any token of the
strategy, the pool's share token included. The share tokens of the vaults stay
complete through a sweep exactly when it is of another token, stays with the
strategy, or takes no more than the vaults leave over; and so they do over every
run whose sweeps are of that kind.
-/
namespace NekoStrategies.AquariusSweep
open CheckedInteger SorobanHost TransactionalRun PositionBook AquariusPool AquariusContract
open AquariusCalls StrategyPositions.Aquarius PositionBacking.Aquarius

/-- Every vault can still have its whole position burned, all of them together. -/
def Exitable (w : World) : Prop :=
  (positions w).total ≤ shareHeld w ∧ ∀ vault, getShares w.storage vault ≤ shareHeld w

/-- Sound answers of the pool, and nobody else takes share tokens from the
strategy. -/
def Sound (a : Action) (w : World) : Prop :=
  match a with
  | .call env _ => SoundPool env
  | .transfer _ _ _ _ => True
  | .others tokens _ _ => shareHeld w ≤ shareHeld { w with tokens }

/-- A sweep of the run leaves the vaults their shares. -/
def SweepSpares : Action → World → Prop
  | .call _ (.sweep _ token dest amount), w => SparesShares w token dest amount
  | _, _ => True

/-- The strategy as it is deployed: the pool does not list its own share token. -/
def Start (w : World) : Prop :=
  Deployed w ∧ w.pool.shareId ∉ w.pool.tokens ∧ 0 ≤ shareHeld w

/-- The purpose of a sweep: whatever is swept in a run, every vault stays exitable. -/
def SweepsOnlyStuckTokens : Prop :=
  ∀ w₀ acts, Start w₀ → Each step Sound w₀ acts → Exitable (run w₀ acts)

section Sweeps
variable {w w₀ : World} {acts : List Action}

theorem admissible_of_spares (a : Action) (w : World) (hs : Sound a w) (hspares : SweepSpares a w) :
    Admissible a w := by
  rcases a with ⟨env, c⟩ | _ | _
  · cases c with
    | sweep => exact ⟨hs, hspares⟩
    | construct | updateSlippage | asset | deposit | withdraw | balance | harvest => exact hs
  · trivial
  · exact hs

theorem exitable_of_covered (h : Covered (positions w) (shareHeld w)) : Exitable w :=
  ⟨h.total_le, fun _ => h.nonneg.amount_le_total.trans h.total_le⟩

theorem run_covered (hw : Start w₀)
    (hacts : Each step (fun a w => Sound a w ∧ SweepSpares a w) w₀ acts) :
    Apart (run w₀ acts) ∧ Covered (positions (run w₀ acts)) (shareHeld (run w₀ acts)) := by
  obtain ⟨hdeployed, hnot, hheld⟩ := hw
  have hcovered : Covered (positions w₀) (shareHeld w₀) := by
    rw [deployed_empty hdeployed]
    exact ⟨Attribution.Nonneg.empty, hheld⟩
  exact (custody.restrict fun a w h => admissible_of_spares a w h.1 h.2).run_covered
    (PositionBacking.Aquarius.Deployed.apart hdeployed hnot) hcovered hacts

end Sweeps

/-- Over every run whose sweeps leave the vaults their shares, every state it
reaches is exitable; and from such a state a committed sweep leaves an exitable
one exactly if it leaves the vaults their shares. -/
theorem sweeps_keep_positions (w₀ : World) (acts : List Action) (hw : Start w₀)
    (hacts : Each step (fun a w => Sound a w ∧ SweepSpares a w) w₀ acts) :
    (∀ pre, pre <+: acts → Exitable (run w₀ pre)) ∧
      ∀ env admin token dest amount w',
        sweep env (run w₀ acts) admin token dest amount = .ok w' →
        (Exitable w' ↔ SparesShares (run w₀ acts) token dest amount) := by
  constructor
  · rintro pre ⟨post, rfl⟩
    exact exitable_of_covered (run_covered hw (each_append.mp hacts).1).2
  · intro env admin token dest amount w' h
    obtain ⟨⟨_, config, hconfig, _⟩, hcovered⟩ := run_covered hw hacts
    rw [← sweep_covers_iff hconfig hcovered.total_le h]
    obtain ⟨_, _, _, _, _, _, rfl⟩ := sweep_ok h
    refine ⟨And.left, fun htotal => exitable_of_covered ⟨hcovered.nonneg, htotal⟩⟩

/-- One vault deposits 2000 for 908 shares, which leaves 80 of the pair token;
then the admin sweeps. -/
def sampleSweep (token : Address) (amount : ℤ) : List Action :=
  [.transfer sampleAsset (.account 1) (.contract 0) 2000,
    .call (sampleEnv (.account 1)) (.deposit 2000 (.account 1)),
    .call (sampleEnv (.contract 0)) (.sweep (.contract 0) token (.account 9) amount)]

theorem sampleWorld_start : Start sampleWorld :=
  ⟨sampleWorld_deployed, by decide, by decide⟩

/-- What was left over is swept, as it is meant to be. -/
theorem sweeps_keep_positions_sample :
    Exitable (run sampleWorld (sampleSweep (.contract 2) 80)) := by
  have hpool := PositionBacking.Aquarius.sampleEnv_soundPool
  refine (sweeps_keep_positions sampleWorld _ sampleWorld_start ?_).1 _ (List.prefix_refl _)
  refine ⟨⟨trivial, trivial⟩, ⟨hpool _, trivial⟩, ⟨hpool _, ?_⟩, trivial⟩
  intro config hconfig
  obtain rfl : sampleConfig = config := Option.some.inj hconfig
  exact .inl (by decide)

/-- After the sweep of one share token the vault's 908 shares are not all there. -/
theorem sweep_takes_shares : ¬SweepsOnlyStuckTokens := by
  have hpool := PositionBacking.Aquarius.sampleEnv_soundPool
  intro h
  have hexit := h sampleWorld (sampleSweep (.contract 4) 1) sampleWorld_start
    ⟨trivial, hpool _, hpool _, trivial⟩
  exact absurd hexit.1 (by decide +kernel)

end NekoStrategies.AquariusSweep
