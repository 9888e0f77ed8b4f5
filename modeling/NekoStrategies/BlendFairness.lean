import NekoStrategies.BlendPlans
import NekoStrategies.BlendSolvency

/-!
# What a vault keeps through any run

At whatever rates and whatever others do in between, the bTokens behind a
vault's shares follow what its own deposits and withdrawals record. They fall
short of it by at most one bToken for each of these; only the founder of the
pool pays more, the 1000 shares that are locked. And they exceed it by at most
the yield and one bToken for each trade of others.
-/
namespace NekoStrategies.BlendFairness
open CheckedInteger RoundedDivision SorobanHost BlendReserves BlendContract BlendCalls
open BlendBooks BlendPlans SharePool

/-- The bTokens of a plan. -/
def planned : Outcome (ℤ × ℤ) → ℤ
  | .ok (_, n) => n
  | .error _ => 0

/-- The bTokens that a harvest records. -/
def yielded (env : Env) (w : World) (sender : Address) (data : Option (List UInt8)) : ℤ :=
  match BlendContract.harvest env w sender data with
  | .ok w' => (books w'.storage).assets - (books w.storage).assets
  | .error _ => 0

/-- What a call records, and for whom. -/
def flow : Action → World → Flow Address
  | .call env (.deposit amount vault), w => .enter vault
      (planned (calculateOptimalDepositAmount amount
        (getStrategyReserveUpdated w.storage env.bRate)))
  | .call env (.withdraw amount vault _), w => .leave vault
      (planned (calculateOptimalWithdrawAmount amount
        (getStrategyReserveUpdated w.storage env.bRate)))
  | .call env (.harvest sender data), w => .yield (yielded env w sender data)
  | _, _ => .yield 0

/-- The bTokens behind the shares of a vault. -/
def stake (w : World) (vault : Address) : ℚ :=
  (books w.storage).worth (getVaultShares w.storage vault)

/-- The bTokens behind the shares of a class of vaults. -/
def classStake (C : Address → Prop) [DecidablePred C] (w : World) : ℚ :=
  (books w.storage).worth ((books w.storage).held.sumOver C)

section Trades
variable {s s' : Storage} {vault : Address} {amount x n v rate : ℤ} {r' : StrategyReserves}
  {w w' : World} {a : Action}

theorem deposit_tight (hb : Backed 1000 (books s))
    (hplan : calculateOptimalDepositAmount amount (getStrategyReserveUpdated s rate) = .ok (x, n))
    (h : BlendReserves.deposit s vault n (getStrategyReserveUpdated s rate) = .ok (v, r', s')) :
    Tight (books s) (books s') (.enter vault n) := by
  intro hS
  have hB : 0 < (books s).assets := hS.trans_le (hb.open_books hS).2
  obtain ⟨b, k, _, hdown, hval, hnb, hn, _⟩ :=
    deposit_plan_open (r := getStrategyReserveUpdated s rate) hS hB hplan
  have hagain := deposit_recomputed (r := getStrategyReserveUpdated s rate) hS hB hn.le hnb hval
    hdown
  obtain ⟨_, minted, credited, hminted, _, hcredited, rfl, _, rfl, _, _, rfl⟩ := deposit_recorded h
  obtain rfl : k = minted := Except.ok.inj (hagain.symm.trans hminted)
  obtain ⟨_, rfl⟩ := (newVaultMintedShares_ok hcredited).resolve_left fun hz => hS.ne' hz.1
  have hchange : getVaultShares s vault + credited - (books s).held.amount vault = credited :=
    add_sub_cancel_left _ _
  simp only [books_recorded, Attribution.amount_set_self, hchange]
  rw [hval]
  exact ceilDiv_sub_one_mul_lt _ hS

theorem withdraw_tight (hb : Backed 1000 (books s))
    (hplan : calculateOptimalWithdrawAmount amount (getStrategyReserveUpdated s rate) = .ok (x, n))
    (h : BlendReserves.withdraw s vault n (getStrategyReserveUpdated s rate) = .ok (v, r', s')) :
    Tight (books s) (books s') (.leave vault n) := by
  intro hS
  have hB : 0 < (books s).assets := hS.trans_le (hb.open_books hS).2
  obtain ⟨b, k, _, _, hk, hval, hfit, _⟩ :=
    withdraw_plan_open (r := getStrategyReserveUpdated s rate) hS hB hplan
  obtain ⟨hn, burnt, hburnt, _, _, _, rfl, rfl, rfl⟩ := withdraw_recorded h
  have hagain := withdraw_recomputed (r := getStrategyReserveUpdated s rate) hS hB hn.le hval hk
    hfit
  obtain rfl : k = burnt := Except.ok.inj (hagain.symm.trans hburnt)
  have hchange : (books s).held.amount vault - (getVaultShares s vault - k) = k :=
    sub_sub_cancel _ _
  simp only [books_recorded, Attribution.amount_set_self, hchange]
  rw [hval]
  exact lt_floorDiv_add_one_mul _ hS

theorem step_flow (hb : Backed 1000 (books w.storage)) (h : step a w = .ok w') :
    (books w'.storage = books w.storage ∧ flow a w = .yield 0) ∨
      (Move 1000 (books w.storage) (flow a w) (books w'.storage) ∧
        Tight (books w.storage) (books w'.storage) (flow a w)) := by
  cases a with
  | others tokens =>
      obtain rfl := Except.ok.inj h
      exact .inl ⟨rfl, rfl⟩
  | call env c =>
      cases c with
      | construct asset initArgs =>
          obtain ⟨_, config, keeper, _, _, rfl⟩ := construct_ok h
          exact .inl ⟨rfl, rfl⟩
      | deposit amount vault =>
          obtain ⟨k, hc⟩ := forget_eq_ok.mp h
          obtain ⟨_, _, config, x, n, minted, v, r, tokens, storage, _, hplan, _, hrec, _, rfl⟩ :=
            deposit_ok hc
          have hflow : flow (.call env (.deposit amount vault)) w = .enter vault n := by
            simp only [flow, hplan, planned]
          rw [hflow]
          exact .inr ⟨deposit_move hb hrec, deposit_tight hb hplan hrec⟩
      | withdraw amount vault dest =>
          obtain ⟨k, hc⟩ := forget_eq_ok.mp h
          obtain ⟨_, _, config, x, n, due, v, r, tokens, storage, _, hplan, _, _, hrec, _, rfl⟩ :=
            withdraw_ok hc
          have hflow : flow (.call env (.withdraw amount vault dest)) w = .leave vault n := by
            simp only [flow, hplan, planned]
          rw [hflow]
          exact .inr ⟨withdraw_move hb hrec, withdraw_tight hb hplan hrec⟩
      | harvest sender data =>
          have hc : BlendContract.harvest env w sender data = .ok w' := h
          have hflow : flow (.call env (.harvest sender data)) w =
              .yield ((books w'.storage).assets - (books w.storage).assets) := by
            simp only [flow, yielded, hc]
          obtain ⟨_, _, config, r, v, tokens, claimed, price, minOut, _, hre, _, rfl⟩ :=
            harvest_ok hc
          rw [hflow]
          rcases performReinvest_ok hre with ⟨_, rfl⟩ |
            ⟨out, minted, n, tokens', storage, _, rfl, _, hrec⟩
          · left
            refine ⟨rfl, ?_⟩
            change Flow.yield ((books w.storage).assets - (books w.storage).assets) = _
            rw [sub_self]
          · right
            have hmove : Move 1000 (books w.storage) (.yield n) (books storage) :=
              harvest_move hrec
            have hassets : (books storage).assets = (books w.storage).assets + n := by
              obtain ⟨_, _, rfl, rfl⟩ := harvest_recorded hrec
              rfl
            refine ⟨?_, trivial⟩
            change Move 1000 _ (.yield ((books storage).assets - (books w.storage).assets)) _
            rw [hassets, add_sub_cancel_left]
            exact hmove
      | setKeeper newKeeper =>
          obtain ⟨keeper, _, _, rfl⟩ := setKeeper_ok h
          exact .inl ⟨rfl, rfl⟩
      | asset | balance vault | getKeeper =>
          obtain ⟨_, rfl⟩ := readOnly_eq_ok.mp h
          exact .inl ⟨rfl, rfl⟩

theorem step_stake (u : Address) (hb : Backed 1000 (books w.storage)) (h : step a w = .ok w') :
    stake w u + (flow a w).gain u ≤ stake w' u + (flow a w).cost 1000 (books w.storage) u := by
  rcases step_flow hb h with ⟨hsame, hflow⟩ | ⟨hmove, htight⟩
  · have hshares : getVaultShares w'.storage u = getVaultShares w.storage u :=
      congrArg (fun p => p.held.amount u) hsame
    rw [hflow, stake, stake, hsame, hshares]
    exact le_rfl
  · exact hmove.stake_le (by decide) hb htight

theorem step_class (C : Address → Prop) [DecidablePred C] (hb : Backed 1000 (books w.storage))
    (h : step a w = .ok w') :
    classStake C w' ≤ classStake C w + (flow a w).classGain C +
      (flow a w).windfall (books w.storage) C := by
  rcases step_flow hb h with ⟨hsame, hflow⟩ | ⟨hmove, htight⟩
  · rw [hflow, classStake, classStake, hsame]
    simp [Flow.classGain, Flow.windfall]
  · exact hmove.class_gain_le (by decide) hb htight

end Trades

/-- From every reachable state, at any rates and whatever the pool, the keeper and
other vaults do: the bTokens behind a vault's shares are at least what they were
and what its own trades record, less one bToken for each of these and, if it
founds the pool, the 1000 locked ones. -/
theorem stake_falls_by_dust (w₀ : World) (before acts : List Action) (vault : Address)
    (hw : Deployed w₀) :
    let w := run w₀ before
    stake w vault + TransactionalRun.tally step (fun a u => ((flow a u).gain vault : ℚ)) w acts ≤
      stake (run w acts) vault +
        TransactionalRun.tally step
          (fun a u => ((flow a u).cost 1000 (books u.storage) vault : ℚ)) w acts := by
  intro w
  have hany : TransactionalRun.Each step (fun _ _ => True) w acts :=
    TransactionalRun.each_of_forall fun _ _ _ => trivial
  have htally := TransactionalRun.tally_le_of_potential
    (I := fun u : World => Backed 1000 (books u.storage)) (P := fun u : World => -stake u vault)
    (f := fun a u => ((flow a u).gain vault : ℚ))
    (g := fun a u => ((flow a u).cost 1000 (books u.storage) vault : ℚ)) ?_
    (run_backed before (Deployed.backed hw)) hany
  · linarith
  · intro a u u' _ hu h
    refine ⟨step_backed a u u' hu h, ?_⟩
    have := step_stake vault hu h
    linarith

/-- Two vaults trading in turn. -/
def sampleTrades : List Action :=
  [.call (sampleEnv (.account 2)) (.deposit 1105 (.account 2)),
    .call (sampleEnv (.account 1)) (.withdraw 777 (.account 1) (.account 1)),
    .call (sampleEnv (.account 2)) (.withdraw 1234 (.account 2) (.account 2))]

theorem stake_falls_by_dust_sample :
    stake (run sampleWorld sampleActions) (.account 2) = 2000 ∧
      2000 + TransactionalRun.tally step (fun a u => ((flow a u).gain (.account 2) : ℚ))
          (run sampleWorld sampleActions) sampleTrades ≤
        stake (run (run sampleWorld sampleActions) sampleTrades) (.account 2) +
          TransactionalRun.tally step
            (fun a u => ((flow a u).cost 1000 (books u.storage) (.account 2) : ℚ))
            (run sampleWorld sampleActions) sampleTrades := by
  have hstake : stake (run sampleWorld sampleActions) (.account 2) = 2000 := by
    decide +kernel
  refine ⟨hstake, ?_⟩
  rw [← hstake]
  exact stake_falls_by_dust sampleWorld sampleActions _ (.account 2) sampleWorld_deployed

/-- From every reachable state, at any rates and whatever others do: the bTokens
behind the shares of any class of vaults grow by at most what their own trades
record, the yield of the harvests, and one bToken for each trade of others; the
first trade of all may also find yield that came before it. -/
theorem class_gains_by_windfall (w₀ : World) (before acts : List Action) (C : Address → Prop)
    [DecidablePred C] (hw : Deployed w₀) :
    let w := run w₀ before
    classStake C (run w acts) ≤ classStake C w +
      TransactionalRun.tally step (fun a u => ((flow a u).classGain C +
        (flow a u).windfall (books u.storage) C : ℚ)) w acts := by
  intro w
  have hany : TransactionalRun.Each step (fun _ _ => True) w acts :=
    TransactionalRun.each_of_forall fun _ _ _ => trivial
  have hloss := TransactionalRun.le_add_tally
    (I := fun u : World => Backed 1000 (books u.storage)) (P := fun u : World => -classStake C u)
    (g := fun a u => ((flow a u).classGain C + (flow a u).windfall (books u.storage) C : ℚ)) ?_
    (run_backed before (Deployed.backed hw)) hany
  · linarith
  · intro a u u' _ hu h
    refine ⟨step_backed a u u' hu h, ?_⟩
    have := step_class C hu h
    linarith

theorem class_gains_by_windfall_sample :
    classStake (fun v => v = .account 2) (run sampleWorld sampleActions) = 2000 ∧
      classStake (fun v => v = .account 2) (run (run sampleWorld sampleActions) sampleTrades) ≤
        2000 + TransactionalRun.tally step
          (fun a u => ((flow a u).classGain (fun v => v = .account 2) +
            (flow a u).windfall (books u.storage) (fun v => v = .account 2) : ℚ))
          (run sampleWorld sampleActions) sampleTrades := by
  have hstake : classStake (fun v => v = .account 2) (run sampleWorld sampleActions) = 2000 := by
    decide +kernel
  refine ⟨hstake, ?_⟩
  rw [← hstake]
  exact class_gains_by_windfall sampleWorld sampleActions sampleTrades _ sampleWorld_deployed

end NekoStrategies.BlendFairness
