import NekoStrategies.BlendAuthority
import NekoStrategies.BlendSolvency

/-!
# Colluding vaults gain nothing from rounding

Take any class of vaults that trade among themselves at one rate. The exact
value of their shares is a potential: a deposit raises it by at most what the
strategy keeps, and a withdrawal lowers it by at least what the pool pays,
because the class never owns more than all shares.
-/
namespace NekoStrategies.BlendNoProfit
open CheckedInteger RoundedDivision SorobanHost BlendReserves BlendContract BlendCalls
open BlendBooks BlendSolvency SharePool

/-- Underlying that a deposit keeps. -/
def kept : Action → World → ℚ
  | .call env (.deposit amount _), w =>
      match calculateOptimalDepositAmount amount
          (getStrategyReserveUpdated w.storage env.bRate) with
      | .ok (x, _) => x
      | .error _ => 0
  | _, _ => 0

/-- Underlying that the pool pays for the request of a withdrawal. -/
def poolPays (env : Env) (w : World) (x : ℤ) : ℤ :=
  match env.burn x with
  | some due => (withdrawOutcome (w.position env.reserveIndex) due x env.bRate).2
  | none => 0

def paidOut : Action → World → ℚ
  | .call env (.withdraw amount _ _), w =>
      match calculateOptimalWithdrawAmount amount
          (getStrategyReserveUpdated w.storage env.bRate) with
      | .ok (x, _) => poolPays env w x
      | .error _ => 0
  | _, _ => 0

/-- Deposits and withdrawals of the vaults in `C` at the rate `r`; other parties
may move tokens in between. -/
def Trade (C : Address → Prop) (r reserveId : ℤ) : Action → Prop
  | .call env (.deposit _ vault) => C vault ∧ env.bRate = r ∧ IsBlend reserveId env
  | .call env (.withdraw _ vault _) => C vault ∧ env.bRate = r ∧ IsBlend reserveId env
  | .call _ _ => False
  | .others _ => True

/-- `kept` and `paidOut` are what a trade that commits moves. -/
def Settled (a : Action) (w w' : World) : Prop :=
  match a with
  | .call _ (.deposit _ vault) => ∃ (config : Config) (x : ℤ), w.storage.config = some config ∧
      kept a w = x ∧ w.tokens.Moved w'.tokens config.asset vault config.pool x
  | .call _ (.withdraw _ _ dest) => ∃ (config : Config) (x : ℤ),
      w.storage.config = some config ∧ paidOut a w = x ∧
      w.tokens.Moved w'.tokens config.asset config.pool dest x
  | _ => True

theorem step_settled {a : Action} {w w' : World} (h : step a w = .ok w') : Settled a w w' := by
  rcases a with ⟨env, c⟩ | tokens
  · cases c with
    | deposit amount vault =>
        obtain ⟨k, hu⟩ := forget_eq_ok.mp h
        obtain ⟨config, x, n, hconfig, hplan, _, hmoved, _⟩ := BlendAuthority.deposit_charged hu
        refine ⟨config, x, hconfig, ?_, hmoved⟩
        simp only [kept, hplan]
    | withdraw amount vault dest =>
        obtain ⟨k, hu⟩ := forget_eq_ok.mp h
        obtain ⟨_, _, config, x, n, due, _, _, _, _, hconfig, hplan, hdue, htransfer, _, _, rfl⟩ :=
          withdraw_ok hu
        refine ⟨config, _, hconfig, ?_, Ledger.transfer_apply htransfer⟩
        simp only [paidOut, hplan, poolPays, hdue]
    | _ => trivial
  · trivial

section Potential
variable (C : Address → Prop) [DecidablePred C] (r : ℤ)

/-- The exact value in underlying of the shares of `C`. -/
def holding (s : Storage) : ℚ :=
  s.vaultPos.sumOver C * (getStrategyReserves s).totalBTokens * r /
    ((getStrategyReserves s).totalShares * scalar12)

variable {C r}

theorem holding_eq_worth {s : Storage} :
    holding C r s = (books s).worth ((books s).held.sumOver C) * (r / scalar12) := by
  simp only [holding, worth, books]
  ring

variable {env : Env} {w w' : World} {vault dest : Address} {amount k x n reserveId : ℤ}

theorem scale_nonneg (hr : 0 < r) : (0 : ℚ) ≤ r / scalar12 := by
  have hK : (0 : ℚ) ≤ scalar12 := by exact_mod_cast scalar12_pos.le
  have hr' : (0 : ℚ) ≤ r := by exact_mod_cast hr.le
  exact div_nonneg hr' hK

theorem worth_le_charge {q : StrategyReserves} (hrate : q.bRate = r)
    (h : calculateOptimalDepositAmount amount q = .ok (x, n)) :
    (n : ℚ) * (r / scalar12) ≤ x := by
  have hK : (0 : ℚ) < scalar12 := by exact_mod_cast scalar12_pos
  have hx := (deposit_plan_value h).2
  have hcost := le_ceilDiv_mul (n * q.bRate) scalar12_pos
  rw [← hx, hrate] at hcost
  rw [← mul_div_assoc, div_le_iff₀ hK]
  exact_mod_cast hcost

theorem poolPays_le (hblend : IsBlend reserveId env) (hx : 0 ≤ x) : poolPays env w x ≤ x := by
  unfold poolPays
  cases hdue : env.burn x with
  | none => exact hx
  | some due =>
      dsimp only [withdrawOutcome]
      split_ifs with hcap
      · exact le_rfl
      · rw [hblend.burn_eq x due hdue, not_le, lt_ceilDiv_iff hblend.rate_pos] at hcap
        exact (floorDiv_lt_iff scalar12_pos).mpr (by linarith) |>.le

/-- The plan of a withdrawal asks for at most what its bTokens are worth. -/
theorem payment_le_worth {q : StrategyReserves} (hrate : q.bRate = r)
    (h : calculateOptimalWithdrawAmount amount q = .ok (x, n)) :
    (x : ℚ) ≤ n * (r / scalar12) := by
  have hK : (0 : ℚ) < scalar12 := by exact_mod_cast scalar12_pos
  have hcost := floorDiv_mul_le (n * q.bRate) scalar12_pos
  rw [← withdraw_plan_value h, hrate] at hcost
  rw [← mul_div_assoc, le_div_iff₀ hK]
  exact_mod_cast hcost

/-- Shares exist, or nothing is left over from before the first deposit. -/
def Clean (s : Storage) : Prop :=
  0 < (getStrategyReserves s).totalShares ∨
    ((getStrategyReserves s).totalShares = 0 ∧ (getStrategyReserves s).totalBTokens = 0)

theorem deposit_holding (hr : 0 < r) (hb : Backed 1000 (books w.storage))
    (hopen : Clean w.storage) (hC : C vault) (hrate : env.bRate = r)
    (h : BlendContract.deposit env w amount vault = .ok (k, w')) :
    holding C r w'.storage ≤
      kept (.call env (.deposit amount vault)) w + holding C r w.storage := by
  obtain ⟨_, _, config, x, n, minted, v, q, tokens, storage, _, hplan, _, hrec, _, rfl⟩ :=
    deposit_ok h
  have hworth := Move.worth_enter_le (C := C) (by decide) hb (hopen.imp_right And.right) hC
    (deposit_move hb hrec)
  have hcharge := worth_le_charge (q := getStrategyReserveUpdated w.storage env.bRate) hrate hplan
  have hkept : kept (.call env (.deposit amount vault)) w = x := by
    simp only [kept, hplan]
  rw [holding_eq_worth, holding_eq_worth, hkept]
  have hscaled := mul_le_mul_of_nonneg_right hworth (scale_nonneg hr)
  linarith

theorem withdraw_holding (hr : 0 < r) (hb : Backed 1000 (books w.storage)) (hC : C vault)
    (hrate : env.bRate = r) (hblend : IsBlend reserveId env)
    (h : BlendContract.withdraw env w amount vault dest = .ok (k, w')) :
    paidOut (.call env (.withdraw amount vault dest)) w + holding C r w'.storage ≤
      holding C r w.storage := by
  obtain ⟨_, _, config, x, n, due, v, q, tokens, storage, _, hplan, _, htransfer, hrec, _,
    rfl⟩ := withdraw_ok h
  have hworth := Move.worth_leave_le (C := C) (by decide) hb hC (withdraw_move hb hrec)
  have hpayment := payment_le_worth (q := getStrategyReserveUpdated w.storage env.bRate) hrate
    hplan
  have hx : 0 ≤ x := by
    rw [withdraw_plan_value hplan]
    refine floorDiv_nonneg (mul_nonneg ?_ hblend.rate_pos.le) scalar12_pos
    exact (withdraw_recorded hrec).1.le
  have hpaid : paidOut (.call env (.withdraw amount vault dest)) w ≤ x := by
    simp only [paidOut, hplan]
    exact_mod_cast poolPays_le hblend hx
  rw [holding_eq_worth, holding_eq_worth]
  have hscaled := mul_le_mul_of_nonneg_right hworth (scale_nonneg hr)
  linarith

theorem step_holding {a : Action} (hr : 0 < r) (hb : Backed 1000 (books w.storage))
    (hopen : Clean w.storage) (ha : Trade C r reserveId a) (h : step a w = .ok w') :
    (Backed 1000 (books w'.storage) ∧ Clean w'.storage) ∧
      paidOut a w + holding C r w'.storage ≤ kept a w + holding C r w.storage := by
  have hb' := step_backed a w w' hb h
  cases a with
  | others tokens =>
      obtain rfl := Except.ok.inj h
      exact ⟨⟨hb', hopen⟩, le_rfl⟩
  | call env c =>
      cases c with
      | deposit amount vault =>
          obtain ⟨hC, hrate, hblend⟩ := ha
          obtain ⟨k, hu⟩ := forget_eq_ok.mp h
          refine ⟨⟨hb', .inl ?_⟩, ?_⟩
          · obtain ⟨_, _, _, _, _, _, _, _, _, _, _, _, _, hrec, _, rfl⟩ := deposit_ok hu
            exact (deposit_move hb hrec).opens (by decide) hb (.inr fun _ => by simp)
          · simpa [paidOut] using deposit_holding hr hb hopen hC hrate hu
      | withdraw amount vault dest =>
          obtain ⟨hC, hrate, hblend⟩ := ha
          obtain ⟨k, hu⟩ := forget_eq_ok.mp h
          refine ⟨⟨hb', .inl ?_⟩, ?_⟩
          · obtain ⟨_, _, _, _, _, _, _, _, _, _, _, _, _, _, hrec, _, rfl⟩ := withdraw_ok hu
            exact (withdraw_move hb hrec).opens (by decide) hb (.inr fun _ => by simp)
          · simpa [kept] using withdraw_holding hr hb hC hrate hblend hu
      | construct asset initArgs => exact ha.elim
      | asset => exact ha.elim
      | harvest sender data => exact ha.elim
      | balance vault => exact ha.elim
      | setKeeper newKeeper => exact ha.elim
      | getKeeper => exact ha.elim

/-- A run of such trades pays out no more than it kept and the class held. -/
theorem trades_holding {trades : List Action} (hr : 0 < r) (hb : Backed 1000 (books w.storage))
    (hopen : Clean w.storage) (htrades : ∀ a ∈ trades, Trade C r reserveId a) :
    TransactionalRun.tally step paidOut w trades + holding C r (run w trades).storage ≤
      TransactionalRun.tally step kept w trades + holding C r w.storage := by
  refine TransactionalRun.tally_le_of_potential (P := fun w : World => holding C r w.storage)
    (C := fun a _ => Trade C r reserveId a)
    (I := fun w : World => Backed 1000 (books w.storage) ∧ Clean w.storage) ?_ ⟨hb, hopen⟩ ?_
  · intro a u u' ha hu h
    exact step_holding hr hu.1 hu.2 ha h
  · apply TransactionalRun.each_of_forall
    intro a ha _
    exact htrades a ha

/-- From every reachable state in which shares exist or nothing is left over,
and at any constant rate, what colluding vaults are paid and still hold after
any deposits and withdrawals is at most what they were charged and held; and these
are the amounts that the trades move. -/
theorem rounding_never_pays (w₀ : World) (before trades : List Action)
    (C : Address → Prop) [DecidablePred C] (r reserveId : ℤ) (hw : Deployed w₀) (hr : 0 < r)
    (hopen : Clean (run w₀ before).storage)
    (htrades : ∀ a ∈ trades, Trade C r reserveId a) :
    let w := run w₀ before
    TransactionalRun.tally step paidOut w trades + holding C r (run w trades).storage ≤
        TransactionalRun.tally step kept w trades + holding C r w.storage ∧
      TransactionalRun.Each step (fun a u => ∀ u', step a u = .ok u' → Settled a u u')
        w trades :=
  ⟨trades_holding hr (run_backed before (Deployed.backed hw)) hopen htrades,
    TransactionalRun.each_of_forall fun _ _ _ _ => step_settled⟩

/-- Both depositors of the sample collude and trade on. -/
def sampleTrades : List Action :=
  [.call (sampleEnv (.account 2)) (.deposit 3301 (.account 2)),
    .call (sampleEnv (.account 1)) (.withdraw 1000 (.account 1) (.account 3))]

theorem rounding_never_pays_sample :
    (run (run sampleWorld sampleActions) sampleTrades).events.length = 5 ∧
      TransactionalRun.tally step paidOut (run sampleWorld sampleActions) sampleTrades +
          holding (fun _ => True) 1100000000000
            (run (run sampleWorld sampleActions) sampleTrades).storage ≤
        TransactionalRun.tally step kept (run sampleWorld sampleActions) sampleTrades +
          holding (fun _ => True) 1100000000000 (run sampleWorld sampleActions).storage := by
  refine ⟨by decide +kernel, (rounding_never_pays sampleWorld sampleActions
    sampleTrades (fun _ => True) 1100000000000 0 sampleWorld_deployed (by decide)
    (.inl (by decide +kernel)) ?_).1⟩
  intro a ha
  simp only [sampleTrades, List.mem_cons, List.not_mem_nil, or_false] at ha
  rcases ha with rfl | rfl
  · exact ⟨trivial, rfl, sampleEnv_isBlend _⟩
  · exact ⟨trivial, rfl, sampleEnv_isBlend _⟩

end Potential

end NekoStrategies.BlendNoProfit
