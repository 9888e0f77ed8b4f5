import NekoStrategies.BlendFlows
import NekoStrategies.EventLog

/-!
# The accounts of a Blend run

What the committed calls of a whole run add up to, in three accounts: what an
account was charged and paid, by the plans of its trades; what the pool took in,
by the log of events; and where the claimed rewards are. The first two are about
runs against Blend, where no payment is cut down; the third holds whatever the
other contracts answer.
-/
namespace NekoStrategies.BlendLedger
open CheckedInteger SorobanHost BlendReserves BlendContract BlendCalls BlendBooks
open BlendSolvency BlendFlows EventLog
open TransactionalRun (tally Each)

/-- The underlying of a plan. -/
def underlying : Outcome (ℤ × ℤ) → ℤ
  | .ok (x, _) => x
  | .error _ => 0

/-- What a trade adds to the account of `u`: the planned payment of a withdrawal
to it, less the planned charge of a deposit for it. -/
def settled (u : Address) : Action → World → ℤ
  | .call env (.deposit amount vault), w => if vault = u then
      -underlying (calculateOptimalDepositAmount amount
        (getStrategyReserveUpdated w.storage env.bRate)) else 0
  | .call env (.withdraw amount _ dest), w => if dest = u then
      underlying (calculateOptimalWithdrawAmount amount
        (getStrategyReserveUpdated w.storage env.bRate)) else 0
  | _, _ => 0

/-- Nothing but a trade concerns the account of `u` in `t`, and `u` is no pair. -/
def Quiet (t u : Address) : Action → World → Prop
  | .call env _, _ => env.pairFor ≠ some u
  | .others tokens, w => tokens t u = w.tokens t u

section Accounts
variable {config : Config} {w w' : World} {u t : Address} {a : Action}

theorem idle_settled {env : Env} {c : Call} (h : Idle c) :
    settled u (.call env c) w = 0 := by
  cases c with
  | deposit | withdraw => exact h.elim
  | _ => rfl

theorem harvested_asset {self : Address} {pair : Option Address} {claimed : ℤ} {l l' : Ledger}
    (h : Harvested config self pair claimed l l') (hne : config.asset ≠ config.blendToken)
    (hpool : u ≠ config.pool) (hpair : pair ≠ some u) : l' config.asset u = l config.asset u := by
  rcases h with ⟨_, rfl⟩ | ⟨_, dex, sold, out, hdex, _, _, hsold, hpaid⟩
  · rw [Ledger.add_apply]
    simp [hne]
  · have hdexu : u ≠ dex := by
      rintro rfl
      exact hpair hdex
    rw [hpaid, hsold, Ledger.add_apply]
    simp [hne, hpool, hdexu]

theorem step_account (hconfig : w.storage.config = some config)
    (hcovered : 0 ≤ surplus config.reserveId w) (hne : config.asset ≠ config.blendToken)
    (hpool : u ≠ config.pool) (hblend : ∀ env c, a = .call env c → IsBlend config.reserveId env)
    (ha : Quiet config.asset u a w) (h : step a w = .ok w') :
    w'.tokens config.asset u = w.tokens config.asset u + settled u a w := by
  cases a with
  | others tokens =>
      obtain rfl := Except.ok.inj h
      simpa [settled, Quiet] using ha
  | call env c =>
      rcases invoke_flow h with hidle | ⟨amount, vault, k, rfl, hc⟩ |
        ⟨amount, vault, dest, k, rfl, hc⟩ | ⟨sender, data, rfl, hc⟩
      · rw [(idle_flow hidle h).1, idle_settled hidle, add_zero]
      · obtain ⟨_, x, n, hplan, _, _, hmoved, _⟩ := deposit_flow hconfig hc
        rw [hmoved]
        simp only [settled, hplan, underlying, hpool, and_false, if_false, true_and, eq_comm]
        split_ifs <;> omega
      · obtain ⟨x, n, due, hplan, _, _, _, _, ht, _⟩ :=
          withdraw_uncapped (hblend env _ rfl) hcovered hc hconfig
        rw [Ledger.transfer_apply ht]
        simp only [settled, hplan, underlying, hpool, and_false, if_false, true_and, eq_comm]
        split_ifs <;> omega
      · obtain ⟨claimed, price, hflow, _⟩ := harvest_flow hconfig hc
        rw [harvested_asset hflow hne hpool ha]
        simp [settled]

theorem step_covered (hw : w.storage.config = some config ∧ 0 ≤ surplus config.reserveId w)
    (hblend : ∀ env c, a = .call env c → IsBlend config.reserveId env) (h : step a w = .ok w') :
    w'.storage.config = some config ∧ 0 ≤ surplus config.reserveId w' := by
  refine ⟨step_config hw.1 h, ?_⟩
  cases a with
  | others tokens =>
      obtain rfl := Except.ok.inj h
      exact hw.2
  | call env c => exact hw.2.trans (invoke_surplus hw.1 (hblend env c rfl) hw.2 h).1

theorem each_isBlend {acts : List Action} {w : World}
    (h : EveryCall (IsBlend config.reserveId) acts) :
    Each step (fun a _ => ∀ env c, a = .call env c → IsBlend config.reserveId env) w acts := by
  apply TransactionalRun.each_of_forall
  rintro a ha _ env c rfl
  exact h env c ha

/-- From every reachable state and over any run against Blend, at any rates: the
underlying of an account that is neither the pool nor a pair changes by exactly
what the plans of the committed trades charge and pay it. For the strategy's own
account that is nothing but what it is a vault or a destination of. -/
theorem accounts_follow_plans (w₀ : World) (config : Config) (before acts : List Action)
    (u : Address) (hw : Deployed w₀) (hconfig : w₀.storage.config = some config)
    (hbefore : EveryCall (IsBlend config.reserveId) before)
    (hacts : EveryCall (IsBlend config.reserveId) acts) (hne : config.asset ≠ config.blendToken)
    (hpool : u ≠ config.pool) (hquiet : Each step (Quiet config.asset u) (run w₀ before) acts) :
    (run (run w₀ before) acts).tokens config.asset u =
      (run w₀ before).tokens config.asset u + tally step (settled u) (run w₀ before) acts := by
  refine TransactionalRun.eq_add_tally (P := fun w : World => w.tokens config.asset u)
    (I := fun w => w.storage.config = some config ∧ 0 ≤ surplus config.reserveId w) ?_
    (run_covered hw hconfig hbefore) (TransactionalRun.each_and.mpr ⟨each_isBlend hacts, hquiet⟩)
  intro a s s' ha hs h
  exact ⟨step_covered hs ha.1 h, step_account hs.1 hs.2 hne hpool ha.1 ha.2 h⟩

/-- Account 3 is paid what account 1 withdraws to it. -/
theorem accounts_follow_plans_sample :
    (run sampleWorld sampleActions).tokens sampleAsset (.account 3) = 1000000 + 1100 := by
  have h := accounts_follow_plans sampleWorld sampleConfig [] sampleActions (.account 3)
    sampleWorld_deployed rfl (by simp [EveryCall]) sampleActions_isBlend (by decide) (by decide)
    ⟨nofun, nofun, nofun, trivial⟩
  have htally : tally step (settled (.account 3)) sampleWorld sampleActions = 1100 := by
    decide +kernel
  change _ = _ + tally step (settled (.account 3)) sampleWorld sampleActions at h
  rw [htally] at h
  exact h

end Accounts

/-- Trades and movements that leave the pool's own account aside. -/
def SparesPool (config : Config) : Action → World → Prop
  | .call env (.deposit _ vault), _ => vault ≠ config.pool ∧ env.pairFor ≠ some config.pool
  | .call env (.withdraw _ _ dest), _ => dest ≠ config.pool ∧ env.pairFor ≠ some config.pool
  | .call env _, _ => env.pairFor ≠ some config.pool
  | .others tokens, w => tokens config.asset config.pool = w.tokens config.asset config.pool

/-- Between two states the pool took in what the log brings less what it draws,
and what harvests reinvest. -/
def PoolReported (config : Config) (s : World) (log : List Event) (t : World) : Prop :=
  s.tokens config.asset config.pool + totalBrought log ≤
      t.tokens config.asset config.pool + totalDrawn log ∧
    (NoHarvest log → s.tokens config.asset config.pool + totalBrought log =
      t.tokens config.asset config.pool + totalDrawn log)

section Log
variable {config : Config} {w w' : World} {a : Action}

theorem step_reported (hw : w.storage.config = some config ∧ 0 ≤ surplus config.reserveId w)
    (hself : config.pool ≠ w.self)
    (hblend : ∀ env c, a = .call env c → IsBlend config.reserveId env)
    (ha : SparesPool config a w) (h : step a w = .ok w') :
    ∃ log, w'.events = w.events ++ log ∧ PoolReported config w log w' := by
  cases a with
  | others tokens =>
      obtain rfl := Except.ok.inj h
      refine ⟨[], by simp, ?_⟩
      have hsame : tokens config.asset config.pool = w.tokens config.asset config.pool := ha
      simp [PoolReported, hsame]
  | call env c =>
      rcases invoke_flow h with hidle | ⟨amount, vault, k, rfl, hc⟩ |
        ⟨amount, vault, dest, k, rfl, hc⟩ | ⟨sender, data, rfl, hc⟩
      · obtain ⟨htokens, hevents, _⟩ := idle_flow hidle h
        refine ⟨[], by simp [hevents], ?_⟩
        simp [PoolReported, htokens]
      · obtain ⟨_, x, n, _, _, _, hmoved, hevents, _⟩ := deposit_flow hw.1 hc
        refine ⟨_, hevents, ?_⟩
        have hpool := hmoved config.asset config.pool
        simp only [Ne.symm ha.1, true_and, if_true, if_false, sub_zero] at hpool
        simp [PoolReported, hpool, brought, drawn]
      · obtain ⟨x, n, due, hplan, _, _, _, _, ht, _⟩ :=
          withdraw_uncapped (hblend env _ rfl) hw.2 hc hw.1
        obtain ⟨y, m, _, hplan', _, _, hevents, _⟩ := withdraw_flow hw.1 hc
        obtain ⟨rfl, rfl⟩ := Prod.mk.inj (Except.ok.inj (hplan.symm.trans hplan'))
        refine ⟨_, hevents, ?_⟩
        have hpool := Ledger.transfer_apply ht config.asset config.pool
        simp only [Ne.symm ha.1, true_and, if_true, if_false, and_false, add_zero] at hpool
        simp [PoolReported, hpool, brought, drawn]
      · obtain ⟨claimed, price, hflow, hevents, _⟩ := harvest_flow hw.1 hc
        refine ⟨_, hevents, ?_, ?_⟩
        · have hle := hflow.le hself ha config.asset
          simpa [brought, drawn] using hle
        · intro hnone
          exact absurd rfl (hnone _ (List.mem_singleton_self _) _ _ _ _)

/-- Over any run against Blend the log accounts for the pool: the pool's underlying
grows by at least what the new deposits report less what the new withdrawals
report, and by exactly that if no harvest is reported. -/
theorem log_accounts_for_pool (w₀ : World) (config : Config) (before acts : List Action)
    (hw : Deployed w₀) (hconfig : w₀.storage.config = some config)
    (hself : config.pool ≠ (run w₀ before).self)
    (hbefore : EveryCall (IsBlend config.reserveId) before)
    (hacts : EveryCall (IsBlend config.reserveId) acts)
    (hspares : Each step (SparesPool config) (run w₀ before) acts) :
    ∃ log, (run (run w₀ before) acts).events = (run w₀ before).events ++ log ∧
      PoolReported config (run w₀ before) log (run (run w₀ before) acts) := by
  refine run_reports (L := World.events) (R := PoolReported config)
    (I := fun s => (s.storage.config = some config ∧ 0 ≤ surplus config.reserveId s) ∧
      config.pool ≠ s.self) ?_ ?_ ?_ ⟨run_covered hw hconfig hbefore, hself⟩
    (TransactionalRun.each_and.mpr ⟨each_isBlend hacts, hspares⟩)
  · intro s
    simp [PoolReported]
  · intro s t u log log' h h'
    refine ⟨?_, ?_⟩
    · simp only [totalBrought_append, totalDrawn_append]
      linarith [h.1, h'.1]
    · intro hnone
      obtain ⟨hlog, hlog'⟩ := noHarvest_append.mp hnone
      simp only [totalBrought_append, totalDrawn_append]
      linarith [h.2 hlog, h'.2 hlog']
  · intro a s t ha hs h
    refine ⟨⟨step_covered hs.1 ha.1 h, ?_⟩, step_reported hs.1 hs.2 ha.1 ha.2 h⟩
    rw [step_self hs.1.1 h]
    exact hs.2

theorem log_accounts_for_pool_sample :
    ∃ log, (run sampleWorld sampleActions).events = [] ++ log ∧
      PoolReported sampleConfig sampleWorld log (run sampleWorld sampleActions) :=
  log_accounts_for_pool sampleWorld sampleConfig [] sampleActions sampleWorld_deployed rfl
    (by decide) (by simp [EveryCall]) sampleActions_isBlend
    ⟨⟨by decide, nofun⟩, ⟨by decide, nofun⟩, ⟨by decide, nofun⟩, trivial⟩

end Log

/-- The only pair is `dex`, and rewards move through the strategy alone. -/
def SparesRewards (config : Config) (dex : Address) : Action → World → Prop
  | .call env _, _ => ∀ pair, env.pairFor = some pair → pair = dex
  | .others tokens, w => tokens config.blendToken w.self = w.tokens config.blendToken w.self ∧
      tokens config.blendToken dex = w.tokens config.blendToken dex

/-- The rewards claimed between two states are with the strategy or were sold to
the pair, and after a harvest the strategy keeps less than the threshold. -/
structure RewardsKept (config : Config) (dex : Address) (s : World) (log : List Event)
    (t : World) : Prop where
  conserved : t.tokens config.blendToken s.self + t.tokens config.blendToken dex =
    s.tokens config.blendToken s.self + s.tokens config.blendToken dex + totalHarvested log
  sold : s.tokens config.blendToken dex ≤ t.tokens config.blendToken dex
  backlog : s.tokens config.blendToken s.self < config.rewardThreshold ∨ ¬NoHarvest log →
    t.tokens config.blendToken s.self < config.rewardThreshold
  self_eq : t.self = s.self

section Rewards
variable {config : Config} {w w' : World} {a : Action} {dex : Address}

theorem RewardsKept.refl (s : World) : RewardsKept config dex s [] s := by
  refine ⟨by simp, le_rfl, ?_, rfl⟩
  rintro (hlow | hharvest)
  · exact hlow
  · exact absurd (by simp [NoHarvest]) hharvest

theorem RewardsKept.trans {s t u : World} {log log' : List Event}
    (h : RewardsKept config dex s log t) (h' : RewardsKept config dex t log' u) :
    RewardsKept config dex s (log ++ log') u := by
  have hconserved := h'.conserved
  have hbacklog := h'.backlog
  rw [h.self_eq] at hconserved hbacklog
  refine ⟨?_, h.sold.trans h'.sold, ?_, h'.self_eq.trans h.self_eq⟩
  · rw [hconserved, h.conserved, totalHarvested_append]
    ring
  · rw [noHarvest_append, not_and_or, ← or_assoc]
    rintro (hbefore | hlater)
    · exact hbacklog (.inl (h.backlog hbefore))
    · exact hbacklog (.inr hlater)

/-- Trades of the asset leave the rewards where they are. -/
theorem rewards_of_same {s t : World} {log : List Event} (hself : t.self = s.self)
    (hlog : totalHarvested log = 0) (hnone : NoHarvest log)
    (hkept : ∀ u, u = s.self ∨ u = dex →
      t.tokens config.blendToken u = s.tokens config.blendToken u) :
    RewardsKept config dex s log t := by
  refine ⟨?_, (hkept dex (.inr rfl)).ge, ?_, hself⟩
  · rw [hkept s.self (.inl rfl), hkept dex (.inr rfl), hlog, add_zero]
  · rw [hkept s.self (.inl rfl)]
    rintro (hlow | hharvest)
    · exact hlow
    · exact absurd hnone hharvest

/-- A harvest claims, and sells all it has or keeps less than the threshold. -/
theorem harvested_rewards {self : Address} {pair : Option Address} {claimed : ℤ} {l l' : Ledger}
    (h : Harvested config self pair claimed l l') (hne : config.asset ≠ config.blendToken)
    (hdex : dex ≠ self) (hpair : ∀ p, pair = some p → p = dex)
    (hthreshold : 0 < config.rewardThreshold) :
    l' config.blendToken self + l' config.blendToken dex =
        l config.blendToken self + l config.blendToken dex + claimed ∧
      l config.blendToken dex ≤ l' config.blendToken dex ∧
      l' config.blendToken self < config.rewardThreshold := by
  rcases h with ⟨hlow, rfl⟩ | ⟨_, p, sold, out, hp, hrewards, _, hsold, hpaid⟩
  · simp only [Ledger.add_apply, true_and, hdex, if_true, if_false, add_zero]
    exact ⟨by ring, le_rfl, hlow⟩
  · obtain rfl := hpair p hp
    rw [hpaid, hpaid, hsold, hsold, Ledger.add_apply, Ledger.add_apply]
    simp only [Ne.symm hne, hdex, Ne.symm hdex, true_and, false_and, if_true, if_false, add_zero,
      sub_zero]
    refine ⟨by ring, by omega, by omega⟩

theorem step_rewards (hconfig : w.storage.config = some config)
    (hthreshold : 0 < config.rewardThreshold) (hne : config.asset ≠ config.blendToken)
    (hdex : dex ≠ w.self) (ha : SparesRewards config dex a w) (h : step a w = .ok w') :
    ∃ log, w'.events = w.events ++ log ∧ RewardsKept config dex w log w' := by
  cases a with
  | others tokens =>
      obtain rfl := Except.ok.inj h
      refine ⟨[], by simp, rewards_of_same rfl rfl (by simp [NoHarvest]) ?_⟩
      rintro u (rfl | rfl)
      · exact ha.1
      · exact ha.2
  | call env c =>
      rcases invoke_flow h with hidle | ⟨amount, vault, k, rfl, hc⟩ |
        ⟨amount, vault, dest, k, rfl, hc⟩ | ⟨sender, data, rfl, hc⟩
      · obtain ⟨htokens, hevents, hself⟩ := idle_flow hidle h
        refine ⟨[], by simp [hevents], rewards_of_same hself rfl (by simp [NoHarvest]) ?_⟩
        intro u _
        rw [htokens]
      · obtain ⟨_, x, n, _, _, _, hmoved, hevents, hself⟩ := deposit_flow hconfig hc
        refine ⟨_, hevents, rewards_of_same hself rfl (by simp [NoHarvest]) ?_⟩
        intro u _
        rw [hmoved]
        simp [Ne.symm hne]
      · obtain ⟨x, n, paid, _, _, hmoved, hevents, hself⟩ := withdraw_flow hconfig hc
        refine ⟨_, hevents, rewards_of_same hself rfl (by simp [NoHarvest]) ?_⟩
        intro u _
        rw [hmoved]
        simp [Ne.symm hne]
      · obtain ⟨claimed, price, hflow, hevents, hself⟩ := harvest_flow hconfig hc
        obtain ⟨hsum, hle, hlow⟩ := harvested_rewards hflow hne hdex ha hthreshold
        exact ⟨_, hevents, by simpa [harvested] using hsum, hle, fun _ => hlow, hself⟩

theorem Deployed.threshold_pos (hw : Deployed w) (hconfig : w.storage.config = some config) :
    0 < config.rewardThreshold := by
  obtain ⟨env, w₀, asset, initArgs, _, _, hc⟩ := hw
  simp only [construct, bind_eq_ok, ensure_eq_ok, orFault_eq_ok, pure_eq_ok,
    exists_const] at hc
  obtain ⟨_, pool, _, blendToken, _, router, _, threshold, _, keeper, _, claimId, _, hpos,
    rfl⟩ := hc
  obtain rfl := Option.some.inj hconfig
  exact hpos

/-- Over any run, whatever the pool and the router answer and whoever calls: the
rewards that the log reports as claimed are with the strategy or were sold to
the pair, the pair never pays any back, and from the first harvest on the
strategy keeps less than the threshold. -/
theorem rewards_kept_or_sold (w₀ : World) (config : Config) (before acts : List Action)
    (dex : Address) (hw : Deployed w₀) (hconfig : w₀.storage.config = some config)
    (hne : config.asset ≠ config.blendToken) (hdex : dex ≠ (run w₀ before).self)
    (hspares : Each step (SparesRewards config dex) (run w₀ before) acts) :
    ∃ log, (run (run w₀ before) acts).events = (run w₀ before).events ++ log ∧
      RewardsKept config dex (run w₀ before) log (run (run w₀ before) acts) := by
  have hthreshold := Deployed.threshold_pos hw hconfig
  refine run_reports (L := World.events) (R := RewardsKept config dex)
    (I := fun s => s.storage.config = some config ∧ dex ≠ s.self) RewardsKept.refl
    (fun s t u log log' => RewardsKept.trans) ?_ ⟨run_config before hconfig, hdex⟩ hspares
  intro a s s' ha hs h
  refine ⟨⟨step_config hs.1 h, ?_⟩, step_rewards hs.1 hthreshold hne hs.2 ha h⟩
  rw [step_self hs.1 h]
  exact hs.2

def samplePair : Address := .contract 9

/-- The keeper's harvest of 40 rewards, sold at a price of 2. -/
def sampleHarvest : Action :=
  .call { sampleEnv sampleKeeper with
      claim := some 40
      pairFor := some samplePair
      swap := fun x _ => some [x, 2 * x] }
    (.harvest sampleKeeper none)

theorem rewards_kept_or_sold_sample :
    (run (run sampleWorld sampleActions) [sampleHarvest]).tokens sampleConfig.blendToken
        samplePair = 40 ∧
      ∃ log, (run (run sampleWorld sampleActions) [sampleHarvest]).events =
          (run sampleWorld sampleActions).events ++ log ∧
        RewardsKept sampleConfig samplePair (run sampleWorld sampleActions) log
          (run (run sampleWorld sampleActions) [sampleHarvest]) := by
  refine ⟨by decide +kernel, ?_⟩
  apply rewards_kept_or_sold sampleWorld sampleConfig sampleActions [sampleHarvest] samplePair
    sampleWorld_deployed rfl (by decide) (by decide)
  exact ⟨fun pair hp => (Option.some.inj hp).symm, trivial⟩

end Rewards

end NekoStrategies.BlendLedger
