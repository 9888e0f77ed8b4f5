import NekoStrategies.AquariusBalances
import NekoStrategies.SoroswapBalances

/-!
# When the strategy's own balances are transient

A vault visits an AMM strategy by transferring an amount and depositing it, or
by withdrawing. What a deposit cannot add as liquidity stays in the strategy,
attributed to nobody. It stays exactly when the half swapped does not match the
ratio of the reserves after the swap.
-/
namespace NekoStrategies.TransientBalances
open SorobanHost TransactionalRun StrategyPositions

/-- A vault's transfer and deposit in one, a withdrawal, or any other action. -/
inductive Visit (ε α : Type) where
  | deposit (env : ε) (amount : ℤ) (vault : Address)
  | withdraw (env : ε) (amount : ℤ) (vault dest : Address)
  | other (a : α)

section Law
variable {ε α σ : Type} (visit : Visit ε α → σ → Outcome σ) (start : σ → Prop)
  (sound leavesNothing matched : Visit ε α → σ → Prop) (reports : σ → σ → Address → ℤ → Prop)

/-- No visit leaves anything behind. -/
def HeldTransiently : Prop :=
  ∀ (w₀ : σ) (visits : List (Visit ε α)), start w₀ → Each visit sound w₀ visits →
    Each visit leavesNothing w₀ visits

/-- If its visits are matched the run leaves nothing behind. Of the visits that
commit after it every deposit does if it is not matched, and every withdrawal if
besides it reports a payment. -/
def TransientIfMatched (w₀ : σ) (visits : List (Visit ε α)) : Prop :=
  start w₀ → Each visit sound w₀ visits →
    (Each visit matched w₀ visits → Each visit leavesNothing w₀ visits) ∧
    (∀ env amount vault w', sound (.deposit env amount vault) (run visit w₀ visits) →
      visit (.deposit env amount vault) (run visit w₀ visits) = .ok w' →
      (leavesNothing (.deposit env amount vault) (run visit w₀ visits) ↔
        matched (.deposit env amount vault) (run visit w₀ visits))) ∧
    ∀ env amount vault dest w', sound (.withdraw env amount vault dest) (run visit w₀ visits) →
      visit (.withdraw env amount vault dest) (run visit w₀ visits) = .ok w' →
      ∃ paid, reports (run visit w₀ visits) w' vault paid ∧
        (leavesNothing (.withdraw env amount vault dest) (run visit w₀ visits) ↔
          matched (.withdraw env amount vault dest) (run visit w₀ visits) ∨ paid = 0)

variable {visit start sound leavesNothing matched reports}

theorem transientIfMatched_of_step {I : σ → Prop} {w₀ : σ} {visits : List (Visit ε α)}
    (hstart : ∀ w, start w → I w)
    (hkeeps : ∀ v w w', I w → visit v w = .ok w' → I w')
    (hmatched : ∀ v w, I w → sound v w → matched v w → leavesNothing v w)
    (hdeposit : ∀ env amount vault w w', I w → sound (.deposit env amount vault) w →
      visit (.deposit env amount vault) w = .ok w' → leavesNothing (.deposit env amount vault) w →
      matched (.deposit env amount vault) w)
    (hwithdraw : ∀ env amount vault dest w w', I w → sound (.withdraw env amount vault dest) w →
      visit (.withdraw env amount vault dest) w = .ok w' → ∃ paid, reports w w' vault paid ∧
        (leavesNothing (.withdraw env amount vault dest) w ↔
          matched (.withdraw env amount vault dest) w ∨ paid = 0)) :
    TransientIfMatched visit start sound leavesNothing matched reports w₀ visits := by
  intro hw hsound
  have hI : I (run visit w₀ visits) := run_invariant_of_step hkeeps (hstart w₀ hw) visits
  refine ⟨?_, ?_, ?_⟩
  · intro hrun
    apply each_of_invariant (I := I) (C := fun v w => sound v w ∧ matched v w)
    · intro v w w' _ hI hv
      exact hkeeps v w w' hI hv
    · intro v w hv hI
      exact hmatched v w hI hv.1 hv.2
    · exact hstart w₀ hw
    · exact each_and.mpr ⟨hsound, hrun⟩
  · intro env amount vault w' hs hv
    constructor
    · exact hdeposit env amount vault _ w' hI hs hv
    · exact hmatched _ _ hI hs
  · intro env amount vault dest w' hs hv
    exact hwithdraw env amount vault dest _ w' hI hs hv

end Law

namespace Soroswap
open SoroswapPool SoroswapContract SoroswapBalances StrategyPositions.Soroswap

def visit : Visit Env Action → World → Outcome World
  | .deposit env amount vault, w => do
      let config ← loadConfig w.storage
      let w ← step (.transfer config.tokenA vault w.self amount) w
      step (.call env (.deposit amount vault)) w
  | .withdraw env amount vault dest, w => step (.call env (.withdraw amount vault dest)) w
  | .other a, w => step a w

/-- The router and the pair behave when a deposit is made. -/
def SoundVisit : Visit Env Action → World → Prop
  | .deposit env _ _, w => RatioRouter env ∧ ∀ config, w.storage.config = some config →
      0 < (w.pair.reservesFrom config.tokenA).1 ∧ 0 < (w.pair.reservesFrom config.tokenA).2
  | _, _ => True

/-- Both balances are the same before and after. -/
def LeavesNothing : Visit Env Action → World → Prop
  | .other _, _ => True
  | v, w => ∀ config, w.storage.config = some config → ∀ w', visit v w = .ok w' →
      w'.tokens config.tokenA w.self = w.tokens config.tokenA w.self ∧
        w'.tokens config.tokenB w.self = w.tokens config.tokenB w.self

def MatchedVisit : Visit Env Action → World → Prop
  | .deposit env amount _, w => ∀ config, w.storage.config = some config →
      Matched env w amount config
  | .withdraw _ _ _ dest, w => dest ≠ w.self
  | .other _, _ => True

def Reports (w w' : World) (vault : Address) (paid : ℤ) : Prop :=
  w'.events = w.events ++ [.withdraw strategyName paid vault]

section Visits
variable {env : Env} {w w' : World} {amount : ℤ} {vault dest : Address}
  {config : StrategyConfig}

theorem visit_proper {v : Visit Env Action} (hw : Proper w) (h : visit v w = .ok w') :
    Proper w' := by
  cases v with
  | deposit env amount vault =>
      simp only [visit, bind_eq_ok] at h
      obtain ⟨_, _, u, hu, h⟩ := h
      exact step_proper (step_proper hw hu) h
  | withdraw env amount vault dest =>
      exact step_proper (a := .call env (.withdraw amount vault dest)) hw h
  | other a => exact step_proper (a := a) hw h

/-- The two balances around a deposit and its transfer. -/
theorem deposit_visit (hconfig : w.storage.config = some config)
    (h : visit (.deposit env amount vault) w = .ok w') :
    ∃ u minted u', SoroswapPool.deposit env u amount config = .ok (minted, u') ∧ 0 < amount ∧
      u.self = w.self ∧ u.pair = w.pair ∧ u.storage = w.storage ∧ w'.tokens = u'.tokens ∧
      u.tokens config.tokenA w.self = w.tokens config.tokenA w.self + amount ∧
      ∀ token, token ≠ config.tokenA →
        u.tokens token w.self = w.tokens token w.self := by
  simp only [visit, step, invoke, loadConfig, hconfig, orFault, ok_bind, bind_eq_ok,
    ensure_eq_ok, pure_eq_ok, exists_const, Prod.exists] at h
  obtain ⟨u, ⟨hne, tokens, ht, rfl⟩, k, u', hdep, rfl⟩ := h
  obtain ⟨hpos, config', minted, v, hconfig', hpool, rfl⟩ := SoroswapContract.deposit_ok hdep
  obtain rfl := Option.some.inj (hconfig.symm.trans hconfig')
  refine ⟨_, minted, v, hpool, hpos, rfl, rfl, rfl, rfl, ?_, ?_⟩
  · exact Ledger.transfer_receiver ht hne.symm
  · intro token htoken
    exact Ledger.transfer_other ht htoken

theorem deposit_visit_iff (hw : Proper w) (hs : SoundVisit (.deposit env amount vault) w)
    (h : visit (.deposit env amount vault) w = .ok w') :
    LeavesNothing (.deposit env amount vault) w ↔ MatchedVisit (.deposit env amount vault) w := by
  obtain ⟨config, hconfig, hc⟩ := hw
  obtain ⟨u, minted, u', hdep, hpos, hself, hpair, _, htokens, ha, hother⟩ :=
    deposit_visit hconfig h
  obtain ⟨hra, hrb⟩ := hs.2 config hconfig
  rw [← hpair] at hra hrb
  rw [← hself] at hc
  have hleaves := deposit_leaves_iff hs.1 hra hrb hpos hc hdep
  obtain ⟨_, _, _, _, _, _, _, hspent, _⟩ := deposit_balances hc hdep
  have hb := hother config.tokenB hc.tokens_ne.symm
  rw [hself] at hleaves hspent
  have hleft : LeavesNothing (.deposit env amount vault) w ↔
      w'.tokens config.tokenA w.self = w.tokens config.tokenA w.self ∧
        w'.tokens config.tokenB w.self = w.tokens config.tokenB w.self := by
    simp only [LeavesNothing, hconfig, h, Option.some.injEq, Except.ok.injEq, forall_eq']
  have hmatched : MatchedVisit (.deposit env amount vault) w ↔ Matched env u amount config := by
    simp only [MatchedVisit, Matched, hconfig, hpair, Option.some.injEq, forall_eq']
  rw [hleft, hmatched, ← hleaves, htokens, hspent, ha, hb]
  constructor
  · exact And.right
  · intro hl
    exact ⟨by omega, hl⟩

theorem withdraw_visit_iff (hw : Proper w)
    (h : visit (.withdraw env amount vault dest) w = .ok w') :
    ∃ paid, Reports w w' vault paid ∧ (LeavesNothing (.withdraw env amount vault dest) w ↔
      MatchedVisit (.withdraw env amount vault dest) w ∨ paid = 0) := by
  obtain ⟨config, hconfig, hc⟩ := hw
  obtain ⟨k, hu⟩ := forget_eq_ok.mp h
  obtain ⟨_, _, config', _, burnt, paid, v, hconfig', _, _, _, _, hwd, hw'⟩ :=
    SoroswapContract.withdraw_ok hu
  obtain rfl := Option.some.inj (hconfig.symm.trans hconfig')
  obtain ⟨ha, hb⟩ := withdraw_balances hc hwd
  have htokens : w'.tokens = v.tokens := by rw [hw']
  have hleft : LeavesNothing (.withdraw env amount vault dest) w ↔
      w'.tokens config.tokenA w.self = w.tokens config.tokenA w.self ∧
        w'.tokens config.tokenB w.self = w.tokens config.tokenB w.self := by
    simp only [LeavesNothing, hconfig, h, Option.some.injEq, Except.ok.injEq, forall_eq']
  refine ⟨paid, by rw [Reports, hw'], ?_⟩
  rw [hleft, htokens, ha, hb, MatchedVisit]
  split_ifs with hd <;> simp [hd]

theorem visit_leaves {v : Visit Env Action} (hw : Proper w) (hs : SoundVisit v w)
    (hm : MatchedVisit v w) : LeavesNothing v w := by
  cases v with
  | deposit env amount vault =>
      intro config hconfig w' h
      exact (deposit_visit_iff hw hs h).mpr hm config hconfig w' h
  | withdraw env amount vault dest =>
      intro config hconfig w' h
      obtain ⟨_, _, hiff⟩ := withdraw_visit_iff hw h
      exact hiff.mpr (.inl hm) config hconfig w' h
  | other a => trivial

end Visits

end Soroswap

namespace Aquarius
open AquariusPool AquariusContract AquariusCalls AquariusBalances StrategyPositions.Aquarius

def visit : Visit Env Action → World → Outcome World
  | .deposit env amount vault, w => do
      let config ← loadConfig w.storage
      let w ← step (.transfer config.depositToken vault w.self amount) w
      step (.call env (.deposit amount vault)) w
  | .withdraw env amount vault dest, w => step (.call env (.withdraw amount vault dest)) w
  | .other a, w => step a w

/-- The pool behaves. -/
def SoundVisit : Visit Env Action → World → Prop
  | .deposit env amount _, w => RatioPool env ∧ ∀ config, w.storage.config = some config →
      Stocked w.pool amount config
  | .withdraw env _ _ _, _ => RatioPool env
  | .other _, _ => True

/-- Both balances are the same before and after. -/
def LeavesNothing : Visit Env Action → World → Prop
  | .other _, _ => True
  | v, w => ∀ config, w.storage.config = some config → ∀ w', visit v w = .ok w' →
      w'.tokens config.depositToken w.self = w.tokens config.depositToken w.self ∧
        w'.tokens config.pairToken w.self = w.tokens config.pairToken w.self

def MatchedVisit : Visit Env Action → World → Prop
  | .deposit env amount _, w => ∀ config, w.storage.config = some config →
      Matched env w amount config
  | .withdraw _ _ _ dest, w => dest ≠ w.self
  | .other _, _ => True

def Reports (w w' : World) (vault : Address) (paid : ℤ) : Prop :=
  w'.events = w.events ++ [.withdraw strategyName paid vault]

section Visits
variable {env : Env} {w w' : World} {amount : ℤ} {vault dest : Address}
  {config : StrategyConfig}

theorem visit_paired {v : Visit Env Action} (hw : Paired w) (h : visit v w = .ok w') :
    Paired w' := by
  cases v with
  | deposit env amount vault =>
      simp only [visit, bind_eq_ok] at h
      obtain ⟨_, _, u, hu, h⟩ := h
      exact step_paired (step_paired hw hu) h
  | withdraw env amount vault dest =>
      exact step_paired (a := .call env (.withdraw amount vault dest)) hw h
  | other a => exact step_paired (a := a) hw h

/-- The two balances around a deposit and its transfer. -/
theorem deposit_visit (hconfig : w.storage.config = some config)
    (h : visit (.deposit env amount vault) w = .ok w') :
    ∃ u minted u', AquariusPool.deposit env u amount config = .ok (minted, u') ∧ 0 < amount ∧
      SameFrame w u ∧ u.pool = w.pool ∧ w'.tokens = u'.tokens ∧
      u.tokens config.depositToken w.self = w.tokens config.depositToken w.self + amount ∧
      ∀ token, token ≠ config.depositToken →
        u.tokens token w.self = w.tokens token w.self := by
  simp only [visit, step, invoke, loadConfig, hconfig, orFault, ok_bind, bind_eq_ok,
    ensure_eq_ok, pure_eq_ok, exists_const, Prod.exists] at h
  obtain ⟨u, ⟨hne, tokens, ht, rfl⟩, k, u', hdep, rfl⟩ := h
  obtain ⟨hpos, config', minted, v, hconfig', hpool, rfl⟩ := AquariusCalls.deposit_ok hdep
  obtain rfl := Option.some.inj (hconfig.symm.trans hconfig')
  refine ⟨_, minted, v, hpool, hpos, SameFrame.refl w, rfl, rfl, ?_, ?_⟩
  · exact Ledger.transfer_receiver ht hne.symm
  · intro token htoken
    exact Ledger.transfer_other ht htoken

theorem deposit_visit_iff (hw : Paired w) (hs : SoundVisit (.deposit env amount vault) w)
    (h : visit (.deposit env amount vault) w = .ok w') :
    LeavesNothing (.deposit env amount vault) w ↔ MatchedVisit (.deposit env amount vault) w := by
  obtain ⟨config, hconfig, hc, hl⟩ := hw
  obtain ⟨u, minted, u', hdep, hpos, ⟨_, hself, _, htokens, hid⟩, hpool, htokens', hd, hother⟩ :=
    deposit_visit hconfig h
  have hp := hother config.pairToken (hl.ne hc.tokens_nodup).symm
  have hleaves := deposit_leaves_iff hs.1 (hl.congr htokens) (hc.congr hself htokens hid)
    (hpool ▸ hs.2 config hconfig) hpos hdep
  rw [hself, hd, hp] at hleaves
  have hleft : LeavesNothing (.deposit env amount vault) w ↔
      w'.tokens config.depositToken w.self = w.tokens config.depositToken w.self ∧
        w'.tokens config.pairToken w.self = w.tokens config.pairToken w.self := by
    simp only [LeavesNothing, hconfig, h, Option.some.injEq, Except.ok.injEq, forall_eq']
  have hmatched : MatchedVisit (.deposit env amount vault) w ↔ Matched env u amount config := by
    simp only [MatchedVisit, Matched, hconfig, hpool, Option.some.injEq, forall_eq']
  rw [hleft, hmatched, ← hleaves, htokens', add_sub_cancel_right]

theorem withdraw_visit_iff (hw : Paired w) (hr : RatioPool env)
    (h : visit (.withdraw env amount vault dest) w = .ok w') :
    ∃ paid, Reports w w' vault paid ∧ (LeavesNothing (.withdraw env amount vault dest) w ↔
      MatchedVisit (.withdraw env amount vault dest) w ∨ paid = 0) := by
  obtain ⟨config, hconfig, hc, hl⟩ := hw
  obtain ⟨k, hu⟩ := forget_eq_ok.mp h
  obtain ⟨_, _, config', _, burnt, paid, v, hconfig', _, _, _, _, hwd, hw'⟩ :=
    AquariusCalls.withdraw_ok hu
  obtain rfl := Option.some.inj (hconfig.symm.trans hconfig')
  obtain ⟨ha, hb⟩ := withdraw_balances hr hl hc hwd
  have htokens : w'.tokens = v.tokens := by rw [hw']
  have hleft : LeavesNothing (.withdraw env amount vault dest) w ↔
      w'.tokens config.depositToken w.self = w.tokens config.depositToken w.self ∧
        w'.tokens config.pairToken w.self = w.tokens config.pairToken w.self := by
    simp only [LeavesNothing, hconfig, h, Option.some.injEq, Except.ok.injEq, forall_eq']
  refine ⟨paid, by rw [Reports, hw'], ?_⟩
  rw [hleft, htokens, ha, hb, MatchedVisit]
  split_ifs with hd <;> simp [hd]

theorem visit_leaves {v : Visit Env Action} (hw : Paired w) (hs : SoundVisit v w)
    (hm : MatchedVisit v w) : LeavesNothing v w := by
  cases v with
  | deposit env amount vault =>
      intro config hconfig w' h
      exact (deposit_visit_iff hw hs h).mpr hm config hconfig w' h
  | withdraw env amount vault dest =>
      intro config hconfig w' h
      obtain ⟨_, _, hiff⟩ := withdraw_visit_iff hw hs h
      exact hiff.mpr (.inl hm) config hconfig w' h
  | other a => trivial

end Visits

end Aquarius

/-- In either strategy a deposit is transient exactly when its halves match, and a
withdrawal unless it pays the strategy itself. -/
theorem transient_if_matched (w : SoroswapPool.World)
    (visits : List (Visit SoroswapPool.Env SoroswapContract.Action)) (w' : AquariusPool.World)
    (visits' : List (Visit AquariusPool.Env AquariusContract.Action)) :
    TransientIfMatched Soroswap.visit
        (fun w => SoroswapContract.Deployed w ∧ StrategyPositions.Soroswap.Proper w)
        Soroswap.SoundVisit Soroswap.LeavesNothing Soroswap.MatchedVisit Soroswap.Reports w visits ∧
      TransientIfMatched Aquarius.visit
        (fun w => AquariusContract.Deployed w ∧ AquariusBalances.Paired w)
        Aquarius.SoundVisit Aquarius.LeavesNothing Aquarius.MatchedVisit Aquarius.Reports w'
        visits' := by
  constructor
  · apply transientIfMatched_of_step (I := StrategyPositions.Soroswap.Proper)
    · intro w hw
      exact hw.2
    · intro v w w' hw hv
      exact Soroswap.visit_proper hw hv
    · intro v w hw hs hm
      exact Soroswap.visit_leaves hw hs hm
    · intro env amount vault w w' hw hs hv hleaves
      exact (Soroswap.deposit_visit_iff hw hs hv).mp hleaves
    · intro env amount vault dest w w' hw _ hv
      exact Soroswap.withdraw_visit_iff hw hv
  · apply transientIfMatched_of_step (I := AquariusBalances.Paired)
    · intro w hw
      exact hw.2
    · intro v w w' hw hv
      exact Aquarius.visit_paired hw hv
    · intro v w hw hs hm
      exact Aquarius.visit_leaves hw hs hm
    · intro env amount vault w w' hw hs hv hleaves
      exact (Aquarius.deposit_visit_iff hw hs hv).mp hleaves
    · intro env amount vault dest w w' hw hs hv
      exact Aquarius.withdraw_visit_iff hw hs hv

section Sample
open ConstantProduct

theorem sampleEnv_ratioRouter (signer : Address) :
    SoroswapBalances.RatioRouter (StrategyPositions.Soroswap.sampleEnv signer) where
  add _ _ _ _ := rfl
  swap_lt x reserveIn reserveOut out hx hin hout h := by
    obtain rfl := Option.some.inj h
    exact amountOut_lt hx hin hout

theorem sampleEnv_ratioPool (signer : Address) :
    AquariusBalances.RatioPool (StrategyPositions.Aquarius.sampleEnv signer) where
  uses _ _ _ := rfl
  swap_lt p i j x out hx hi hj h := by
    obtain ⟨_, rfl⟩ := CheckedInteger.Width.checked_eq_some.mp h
    exact amountOut_lt hx hi hj
  swap_holds p i j x out h := by
    obtain ⟨hholds, rfl⟩ := CheckedInteger.Width.checked_eq_some.mp h
    exact hholds
  pays_holds p x amounts h := by
    simp only [StrategyPositions.Aquarius.sampleEnv, Option.ite_none_right_eq_some] at h
    obtain ⟨hholds, heq⟩ := h
    obtain rfl := Option.some.inj heq
    exact hholds

/-- A deposit of 200 into reserves of 10000 leaves nothing: the swap pays 98 and
the ratio asks for 98. -/
theorem transient_if_matched_sample :
    Each Soroswap.visit Soroswap.LeavesNothing StrategyPositions.Soroswap.sampleWorld
        [.deposit (StrategyPositions.Soroswap.sampleEnv (.account 1)) 200 (.account 1)] ∧
      Each Aquarius.visit Aquarius.LeavesNothing StrategyPositions.Aquarius.sampleWorld
        [.deposit (StrategyPositions.Aquarius.sampleEnv (.account 1)) 200 (.account 1)] := by
  obtain ⟨hsoroswap, haquarius⟩ := transient_if_matched StrategyPositions.Soroswap.sampleWorld
    [.deposit (StrategyPositions.Soroswap.sampleEnv (.account 1)) 200 (.account 1)]
    StrategyPositions.Aquarius.sampleWorld
    [.deposit (StrategyPositions.Aquarius.sampleEnv (.account 1)) 200 (.account 1)]
  constructor
  · refine (hsoroswap ⟨StrategyPositions.Soroswap.sampleWorld_deployed,
      StrategyPositions.Soroswap.sampleWorld_proper⟩ ?_).1 ?_
    · refine ⟨⟨sampleEnv_ratioRouter _, ?_⟩, trivial⟩
      intro config hconfig
      obtain rfl := Option.some.inj hconfig
      decide +kernel
    · refine ⟨?_, trivial⟩
      intro config hconfig
      obtain rfl := Option.some.inj hconfig
      intro out hout
      obtain rfl := Option.some.inj hout
      decide +kernel
  · refine (haquarius ⟨StrategyPositions.Aquarius.sampleWorld_deployed,
      AquariusBalances.sampleWorld_paired⟩ ?_).1 ?_
    · refine ⟨⟨sampleEnv_ratioPool _, ?_⟩, trivial⟩
      intro config hconfig
      obtain rfl := Option.some.inj hconfig
      constructor <;> decide +kernel
    · refine ⟨?_, trivial⟩
      intro config hconfig
      obtain rfl := Option.some.inj hconfig
      intro out hout
      obtain rfl := Option.some.inj hout
      decide +kernel

/-- A deposit of 2000 into reserves of 10000 leaves 80: the swap pays 906 and the
ratio asks for 826. -/
theorem large_deposit_leaves :
    ¬HeldTransiently Soroswap.visit
        (fun w => SoroswapContract.Deployed w ∧ StrategyPositions.Soroswap.Proper w)
        Soroswap.SoundVisit Soroswap.LeavesNothing ∧
      ¬HeldTransiently Aquarius.visit
        (fun w => AquariusContract.Deployed w ∧ AquariusBalances.Paired w)
        Aquarius.SoundVisit Aquarius.LeavesNothing := by
  constructor
  · intro h
    obtain ⟨hleaves, _⟩ := h StrategyPositions.Soroswap.sampleWorld
      [.deposit (StrategyPositions.Soroswap.sampleEnv (.account 1)) 2000 (.account 1)]
      ⟨StrategyPositions.Soroswap.sampleWorld_deployed,
        StrategyPositions.Soroswap.sampleWorld_proper⟩
      (by
        refine ⟨⟨sampleEnv_ratioRouter _, ?_⟩, trivial⟩
        intro config hconfig
        obtain rfl := Option.some.inj hconfig
        decide +kernel)
    exact absurd (hleaves StrategyPositions.Soroswap.sampleConfig rfl _ rfl).2 (by decide +kernel)
  · intro h
    obtain ⟨hleaves, _⟩ := h StrategyPositions.Aquarius.sampleWorld
      [.deposit (StrategyPositions.Aquarius.sampleEnv (.account 1)) 2000 (.account 1)]
      ⟨StrategyPositions.Aquarius.sampleWorld_deployed,
        AquariusBalances.sampleWorld_paired⟩
      (by
        refine ⟨⟨sampleEnv_ratioPool _, ?_⟩, trivial⟩
        intro config hconfig
        obtain rfl := Option.some.inj hconfig
        constructor <;> decide +kernel)
    exact absurd (hleaves StrategyPositions.Aquarius.sampleConfig rfl _ rfl).2 (by decide +kernel)

end Sample

end NekoStrategies.TransientBalances
