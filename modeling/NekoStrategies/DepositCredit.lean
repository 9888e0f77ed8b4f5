import NekoStrategies.AquariusBalances
import NekoStrategies.SoroswapBalances

/-!
# Whose money a deposit credits

A deposit spends what the strategy holds and credits the vault it names. The
two belong together only if the vault has just transferred the amount; nothing
checks that. An address that never paid is left without a position exactly by
the runs in which no deposit names it while the strategy holds enough.
-/
namespace NekoStrategies.DepositCredit
open CheckedInteger SorobanHost PositionBook TransactionalRun StrategyPositions

section Law
variable {σ α : Type} (step : α → σ → Outcome σ) (positions : σ → Attribution Address)
  (start : σ → Prop) (sound : α → Prop) (depositOf : α → Option (ℤ × Address))
  (paymentOf : α → σ → Option (ℤ × Address)) (held : σ → ℤ)

/-- A transfer of the deposit token from `x` to the strategy goes through. -/
def Pays (x : Address) (a : α) (w : σ) : Prop :=
  ∃ amount w', paymentOf a w = some (amount, x) ∧ 0 < amount ∧ step a w = .ok w'

def NeverPays (x : Address) (w : σ) (acts : List α) : Prop :=
  Each step (fun a w => ¬Pays step paymentOf x a w) w acts

/-- An address that never pays has no position. -/
def OnlyPayersHold : Prop :=
  ∀ (w₀ : σ) (acts : List α) (x : Address), start w₀ → (∀ a ∈ acts, sound a) →
    NeverPays step paymentOf x w₀ acts → (positions (run step w₀ acts)).amount x = 0

/-- If the action deposits for `x`, then for nothing or for more than there is. -/
def Unfunded (x : Address) (a : α) (w : σ) : Prop :=
  ∀ amount, depositOf a = some (amount, x) → amount ≤ 0 ∨ held w < amount

/-- The address has no position if it never pays, provided each deposit for it
finds too little in the strategy as long as it has not paid. -/
def OnlyPayersHoldIfUnfunded (x : Address) : Prop :=
  ∀ (w₀ : σ) (acts : List α), start w₀ → (∀ a ∈ acts, sound a) →
    (∀ pre a post, acts = pre ++ a :: post → NeverPays step paymentOf x w₀ pre →
      Unfunded depositOf held x a (run step w₀ pre)) →
    NeverPays step paymentOf x w₀ acts → (positions (run step w₀ acts)).amount x = 0

variable {step positions start sound depositOf paymentOf held}
  {I : σ → Prop} {debited : α → Option Address}

/-- Deposits that find too little do not commit, so nothing is credited. -/
theorem bookkeeping_credits {x : Address}
    (h : Bookkeeping step positions I sound (named depositOf) debited)
    (hstart : ∀ w, start w → I w ∧ positions w = .empty)
    (hcommits : ∀ a amount x w w', sound a → I w → depositOf a = some (amount, x) →
      step a w = .ok w' → 0 < amount ∧ amount ≤ held w) :
    OnlyPayersHoldIfUnfunded step positions start sound depositOf paymentOf held x := by
  intro w₀ acts hw hacts hunfunded hnever
  obtain ⟨hI, hempty⟩ := hstart w₀ hw
  have hnonneg : (positions w₀).Nonneg := hempty ▸ Attribution.Nonneg.empty
  have hzero : (positions w₀).amount x = 0 := by
    rw [hempty]
    exact Attribution.amount_empty
  apply h.run_amount_eq_zero hI hnonneg hzero
  rw [each_iff_forall_split]
  rintro pre a post rfl
  refine ⟨hacts a (by simp), ?_⟩
  intro hnamed w' hstep
  obtain ⟨⟨amount, x'⟩, hdeposit, rfl⟩ := Option.map_eq_some_iff.mp hnamed
  have hpre : ∀ b ∈ pre, sound b := by
    intro b hb
    exact hacts b (by simp [hb])
  obtain ⟨hIpre, _⟩ := h.run_nonneg hI hnonneg hpre
  obtain ⟨hpos, hheld⟩ := hcommits a amount x' _ w' (hacts a (by simp)) hIpre hdeposit hstep
  rcases hunfunded pre a post rfl (each_append.mp hnever).1 amount hdeposit with hle | hlt
  · exact hle.not_gt hpos
  · exact hlt.not_ge hheld

end Law

namespace Neko
open NekoContract

/-- Transfers of the deposit token to the strategy, with their senders. -/
def paymentOf : Action → World → Option (ℤ × Address)
  | .transfer token sender receiver amount, w =>
      if w.storage.config.map Config.asset = some token ∧ receiver = w.self then
        some (amount, sender)
      else none
  | _, _ => none

/-- The strategy's balance of the deposit token. -/
def held (w : World) : ℤ := (w.storage.config.map fun c => w.tokens c.asset w.self).getD 0

theorem deposit_held (a : Action) (amount : ℤ) (x : Address) (w w' : World)
    (ha : StrategyPositions.Neko.depositOf a = some (amount, x)) (h : step a w = .ok w') :
    0 < amount ∧ amount ≤ held w := by
  rcases a with ⟨env, c⟩ | _ | _
  · cases c with
    | deposit amount' vault =>
        obtain ⟨rfl, rfl⟩ := Prod.mk.inj (Option.some.inj ha)
        obtain ⟨k, hu⟩ := forget_eq_ok.mp h
        obtain ⟨hpos, config, minted, tokens, hconfig, _, ht, _⟩ := deposit_ok hu
        refine ⟨hpos, ?_⟩
        rw [held, hconfig]
        exact (Ledger.transfer_eq_ok.mp ht).2.1
    | construct | asset | withdraw | balance | harvest => cases ha
  · cases ha
  · cases ha

end Neko

namespace Soroswap
open SoroswapPool SoroswapContract

def paymentOf : Action → World → Option (ℤ × Address)
  | .transfer token sender receiver amount, w =>
      if w.storage.config.map StrategyConfig.tokenA = some token ∧ receiver = w.self then
        some (amount, sender)
      else none
  | _, _ => none

def held (w : World) : ℤ := (w.storage.config.map fun c => w.tokens c.tokenA w.self).getD 0

theorem deposit_held (a : Action) (amount : ℤ) (x : Address) (w w' : World)
    (hw : StrategyPositions.Soroswap.Proper w)
    (ha : StrategyPositions.Soroswap.depositOf a = some (amount, x)) (h : step a w = .ok w') :
    0 < amount ∧ amount ≤ held w := by
  rcases a with ⟨env, c⟩ | _ | _
  · cases c with
    | deposit amount' vault =>
        obtain ⟨rfl, rfl⟩ := Prod.mk.inj (Option.some.inj ha)
        obtain ⟨k, hu⟩ := forget_eq_ok.mp h
        obtain ⟨hpos, config, minted, v, hconfig, hdep, _⟩ := SoroswapContract.deposit_ok hu
        obtain ⟨config', hconfig', hc⟩ := hw
        obtain rfl := Option.some.inj (hconfig.symm.trans hconfig')
        obtain ⟨_, _, _, _, _, _, hle, _⟩ := SoroswapBalances.deposit_balances hc hdep
        refine ⟨hpos, ?_⟩
        rw [held, hconfig]
        exact hle
    | construct | asset | withdraw | balance | harvest => cases ha
  · cases ha
  · cases ha

end Soroswap

namespace Aquarius
open AquariusPool AquariusContract

def paymentOf : Action → World → Option (ℤ × Address)
  | .transfer token sender receiver amount, w =>
      if w.storage.config.map StrategyConfig.depositToken = some token ∧ receiver = w.self then
        some (amount, sender)
      else none
  | _, _ => none

def held (w : World) : ℤ :=
  (w.storage.config.map fun c => w.tokens c.depositToken w.self).getD 0

/-- The amount of a deposit is an `i128`. -/
def TypedAction (a : Action) : Prop :=
  StrategyPositions.Aquarius.SoundAction a ∧
    ∀ amount x, StrategyPositions.Aquarius.depositOf a = some (amount, x) → i128.Holds amount

theorem deposit_held (a : Action) (amount : ℤ) (x : Address) (w w' : World)
    (ht : TypedAction a) (hw : AquariusBalances.Paired w)
    (ha : StrategyPositions.Aquarius.depositOf a = some (amount, x)) (h : step a w = .ok w') :
    0 < amount ∧ amount ≤ held w := by
  have hholds := ht.2 amount x ha
  rcases a with ⟨env, c⟩ | _ | _
  · cases c with
    | deposit amount' vault =>
        obtain ⟨rfl, rfl⟩ := Prod.mk.inj (Option.some.inj ha)
        obtain ⟨k, hu⟩ := forget_eq_ok.mp h
        obtain ⟨hpos, config, minted, v, hconfig, hdep, _⟩ := AquariusCalls.deposit_ok hu
        obtain ⟨config', hconfig', hc, hl⟩ := hw
        obtain rfl := Option.some.inj (hconfig.symm.trans hconfig')
        refine ⟨hpos, ?_⟩
        rw [held, hconfig]
        exact AquariusBalances.deposit_funded hl hc hpos hholds hdep
    | construct | updateSlippage | sweep | asset | withdraw | balance | harvest => cases ha
  · cases ha
  · cases ha

theorem bookkeeping : Bookkeeping step StrategyPositions.Aquarius.positions
    AquariusBalances.Paired TypedAction (named StrategyPositions.Aquarius.depositOf)
    (named StrategyPositions.Aquarius.withdrawalOf) := by
  apply StrategyPositions.Aquarius.bookkeeping.restrict
  · rintro w ⟨config, hconfig, hc, _⟩
    exact ⟨config, hconfig, hc⟩
  · intro a ha
    exact ha.1
  · intro a w w' _ hw h
    exact AquariusBalances.step_paired hw h

end Aquarius

/-- In each contract an address that never pays has no position, as long as no
deposit for it finds its amount in the strategy. -/
theorem unfunded_credits_nothing (x : Address) :
    OnlyPayersHoldIfUnfunded NekoContract.step StrategyPositions.Neko.positions
        NekoContract.Deployed StrategyPositions.Neko.SoundAction StrategyPositions.Neko.depositOf
        Neko.paymentOf Neko.held x ∧
      OnlyPayersHoldIfUnfunded SoroswapContract.step StrategyPositions.Soroswap.positions
        (fun w => SoroswapContract.Deployed w ∧ StrategyPositions.Soroswap.Proper w)
        StrategyPositions.Soroswap.SoundAction StrategyPositions.Soroswap.depositOf
        Soroswap.paymentOf Soroswap.held x ∧
      OnlyPayersHoldIfUnfunded AquariusContract.step StrategyPositions.Aquarius.positions
        (fun w => AquariusContract.Deployed w ∧ AquariusBalances.Paired w)
        Aquarius.TypedAction StrategyPositions.Aquarius.depositOf Aquarius.paymentOf
        Aquarius.held x := by
  refine ⟨?_, ?_, ?_⟩
  · apply bookkeeping_credits StrategyPositions.Neko.bookkeeping
    · intro w hw
      exact ⟨trivial, StrategyPositions.Neko.deployed_empty hw⟩
    · intro a amount x w w' _ _ ha h
      exact Neko.deposit_held a amount x w w' ha h
  · apply bookkeeping_credits StrategyPositions.Soroswap.bookkeeping
    · intro w hw
      exact ⟨hw.2, StrategyPositions.Soroswap.deployed_empty hw.1⟩
    · intro a amount x w w' _ hw ha h
      exact Soroswap.deposit_held a amount x w w' hw ha h
  · apply bookkeeping_credits Aquarius.bookkeeping
    · intro w hw
      exact ⟨hw.2, StrategyPositions.Aquarius.deployed_empty hw.1⟩
    · intro a amount x w w' ht hw ha h
      exact Aquarius.deposit_held a amount x w w' ht hw ha h

/-- Account 9 finds too little for its deposit, and account 1 spends what it paid. -/
def nekoRefused : List NekoContract.Action :=
  [.transfer StrategyPositions.Neko.sampleAsset (.account 1) (.contract 0) 2000,
    .call (StrategyPositions.Neko.sampleEnv (.account 9)) (.deposit 3000 (.account 9)),
    .call (StrategyPositions.Neko.sampleEnv (.account 1)) (.deposit 2000 (.account 1))]

def soroswapRefused : List SoroswapContract.Action :=
  [.transfer StrategyPositions.Soroswap.sampleAsset (.account 1) (.contract 0) 2000,
    .call (StrategyPositions.Soroswap.sampleEnv (.account 9)) (.deposit 3000 (.account 9)),
    .call (StrategyPositions.Soroswap.sampleEnv (.account 1)) (.deposit 2000 (.account 1))]

def aquariusRefused : List AquariusContract.Action :=
  [.transfer StrategyPositions.Aquarius.sampleAsset (.account 1) (.contract 0) 2000,
    .call (StrategyPositions.Aquarius.sampleEnv (.account 9)) (.deposit 3000 (.account 9)),
    .call (StrategyPositions.Aquarius.sampleEnv (.account 1)) (.deposit 2000 (.account 1))]

theorem unfunded_credits_nothing_sample :
    (StrategyPositions.Neko.positions (run NekoContract.step
      StrategyPositions.Neko.sampleWorld nekoRefused)).amount (.account 9) = 0 ∧
    (StrategyPositions.Soroswap.positions (run SoroswapContract.step
      StrategyPositions.Soroswap.sampleWorld soroswapRefused)).amount (.account 9) = 0 ∧
    (StrategyPositions.Aquarius.positions (run AquariusContract.step
      StrategyPositions.Aquarius.sampleWorld aquariusRefused)).amount (.account 9) = 0 := by
  refine ⟨?_, ?_, ?_⟩
  · refine (unfunded_credits_nothing (.account 9)).1 StrategyPositions.Neko.sampleWorld
      nekoRefused StrategyPositions.Neko.sampleWorld_deployed ?_
      (fun pre a post hsplit _ => each_iff_forall_split.mp ?_ pre a post hsplit) ?_
    · simp [nekoRefused, StrategyPositions.Neko.SoundAction, StrategyPositions.Neko.sampleEnv_sound]
    · refine ⟨?_, ?_, ?_, trivial⟩
      · intro amount hdeposit
        cases hdeposit
      · intro amount hdeposit
        cases hdeposit
        exact .inr (by decide +kernel)
      · intro amount hdeposit
        cases hdeposit
    · simp [nekoRefused, NeverPays, Each, Pays, Neko.paymentOf]
  · refine (unfunded_credits_nothing (.account 9)).2.1 StrategyPositions.Soroswap.sampleWorld
      soroswapRefused ⟨StrategyPositions.Soroswap.sampleWorld_deployed,
        StrategyPositions.Soroswap.sampleWorld_proper⟩ ?_
      (fun pre a post hsplit _ => each_iff_forall_split.mp ?_ pre a post hsplit) ?_
    · simp [soroswapRefused, StrategyPositions.Soroswap.SoundAction,
        StrategyPositions.Soroswap.sampleEnv_sound]
    · refine ⟨?_, ?_, ?_, trivial⟩
      · intro amount hdeposit
        cases hdeposit
      · intro amount hdeposit
        cases hdeposit
        exact .inr (by decide +kernel)
      · intro amount hdeposit
        cases hdeposit
    · simp [soroswapRefused, NeverPays, Each, Pays, Soroswap.paymentOf]
  · refine (unfunded_credits_nothing (.account 9)).2.2 StrategyPositions.Aquarius.sampleWorld
      aquariusRefused ⟨StrategyPositions.Aquarius.sampleWorld_deployed,
        AquariusBalances.sampleWorld_paired⟩ ?_
      (fun pre a post hsplit _ => each_iff_forall_split.mp ?_ pre a post hsplit) ?_
    · simp [aquariusRefused, Aquarius.TypedAction, StrategyPositions.Aquarius.SoundAction,
        StrategyPositions.Aquarius.sampleEnv_sound, StrategyPositions.Aquarius.depositOf]
      decide
    · refine ⟨?_, ?_, ?_, trivial⟩
      · intro amount hdeposit
        cases hdeposit
      · intro amount hdeposit
        cases hdeposit
        exact .inr (by decide +kernel)
      · intro amount hdeposit
        cases hdeposit
    · simp [aquariusRefused, NeverPays, Each, Pays, Aquarius.paymentOf]

/-- One account transfers 2000, and another one deposits them for itself. -/
theorem stranger_deposits :
    ¬OnlyPayersHold NekoContract.step StrategyPositions.Neko.positions NekoContract.Deployed
        StrategyPositions.Neko.SoundAction Neko.paymentOf ∧
      ¬OnlyPayersHold SoroswapContract.step StrategyPositions.Soroswap.positions
        (fun w => SoroswapContract.Deployed w ∧ StrategyPositions.Soroswap.Proper w)
        StrategyPositions.Soroswap.SoundAction Soroswap.paymentOf ∧
      ¬OnlyPayersHold AquariusContract.step StrategyPositions.Aquarius.positions
        (fun w => AquariusContract.Deployed w ∧ AquariusBalances.Paired w)
        Aquarius.TypedAction Aquarius.paymentOf := by
  refine ⟨?_, ?_, ?_⟩
  · intro h
    have hnone := h StrategyPositions.Neko.sampleWorld
      [.transfer StrategyPositions.Neko.sampleAsset (.account 1) (.contract 0) 2000,
        .call (StrategyPositions.Neko.sampleEnv (.account 9)) (.deposit 2000 (.account 9))]
      (.account 9) StrategyPositions.Neko.sampleWorld_deployed
      (by simp [StrategyPositions.Neko.SoundAction, StrategyPositions.Neko.sampleEnv_sound])
      (by simp [NeverPays, Each, Pays, Neko.paymentOf])
    exact absurd hnone (by decide +kernel)
  · intro h
    have hnone := h StrategyPositions.Soroswap.sampleWorld
      [.transfer StrategyPositions.Soroswap.sampleAsset (.account 1) (.contract 0) 2000,
        .call (StrategyPositions.Soroswap.sampleEnv (.account 9)) (.deposit 2000 (.account 9))]
      (.account 9) ⟨StrategyPositions.Soroswap.sampleWorld_deployed,
        StrategyPositions.Soroswap.sampleWorld_proper⟩
      (by
        simp [StrategyPositions.Soroswap.SoundAction, StrategyPositions.Soroswap.sampleEnv_sound])
      (by simp [NeverPays, Each, Pays, Soroswap.paymentOf])
    exact absurd hnone (by decide +kernel)
  · intro h
    have hnone := h StrategyPositions.Aquarius.sampleWorld
      [.transfer StrategyPositions.Aquarius.sampleAsset (.account 1) (.contract 0) 2000,
        .call (StrategyPositions.Aquarius.sampleEnv (.account 9)) (.deposit 2000 (.account 9))]
      (.account 9) ⟨StrategyPositions.Aquarius.sampleWorld_deployed,
        AquariusBalances.sampleWorld_paired⟩
      (by
        simp [Aquarius.TypedAction, StrategyPositions.Aquarius.SoundAction,
          StrategyPositions.Aquarius.sampleEnv_sound, StrategyPositions.Aquarius.depositOf]
        decide)
      (by simp [NeverPays, Each, Pays, Aquarius.paymentOf])
    exact absurd hnone (by decide +kernel)

end NekoStrategies.DepositCredit
