import NekoStrategies.BlendSolvency

/-!
# Where the tokens of the Blend strategy go

A deposit carries its charge from the vault to the pool, a withdrawal its
payment from the pool to the destination, and a harvest the rewards to the pair
and what they sell for to the pool; the strategy itself is passed through. From
these three flows follows what an account outside can lose over a whole run: no
more than it offers itself.
-/
namespace NekoStrategies.BlendFlows
open CheckedInteger SorobanHost BlendReserves BlendContract BlendCalls BlendBooks
open BlendSolvency
open TransactionalRun (tally Each)

/-- The tokens after a harvest: the claimed rewards stay below the threshold, or
all rewards go to a pair and what it pays goes to the pool. -/
def Harvested (config : Config) (self : Address) (pair : Option Address) (claimed : ℤ)
    (l l' : Ledger) : Prop :=
  let rewards := l config.blendToken self + claimed
  let received := l.add config.blendToken self claimed
  (rewards < config.rewardThreshold ∧ l' = received) ∨
    (config.rewardThreshold ≤ rewards ∧ ∃ dex sold out, pair = some dex ∧ 0 ≤ rewards ∧ 0 ≤ out ∧
      received.Moved sold config.blendToken self dex rewards ∧
      sold.Moved l' config.asset dex config.pool out)

section Calls
variable {env : Env} {w w' : World} {vault dest sender : Address} {amount k x : ℤ}
  {config : Config} {tokens : Ledger} {c : Call}

theorem refundExcess_ok {l : Ledger} {t self : Address}
    (h : refundExcess l t self vault amount x = .ok tokens) :
    x ≤ amount ∧ l.Moved tokens t self vault (amount - x) := by
  unfold refundExcess at h
  split_ifs at h with hne
  · simp only [bind_eq_ok, orFault_eq_ok, Width.checkedSub_eq_some] at h
    obtain ⟨_, ⟨_, rfl⟩, ht⟩ := h
    have hnonneg := (Ledger.transfer_eq_ok.mp ht).1
    exact ⟨by omega, Ledger.transfer_apply ht⟩
  · obtain rfl := not_not.mp hne
    obtain rfl := pure_eq_ok.mp h
    exact ⟨le_rfl, fun t' h' => by simp⟩

/-- In and out again: what is left is the charge, from the vault to the pool. -/
theorem deposit_flow (hconfig : w.storage.config = some config)
    (h : BlendContract.deposit env w amount vault = .ok (k, w')) :
    env.caller.Authorises vault ∧ ∃ x n, calculateOptimalDepositAmount amount
        (getStrategyReserveUpdated w.storage env.bRate) = .ok (x, n) ∧
      0 ≤ x ∧ x ≤ amount ∧ w.tokens.Moved w'.tokens config.asset vault config.pool x ∧
      w'.events = w.events ++ [.deposit strategyName x vault] ∧ w'.self = w.self := by
  simp only [BlendContract.deposit, checkPositiveAmount, requireAuth, getConfig, bind_eq_ok,
    ensure_eq_ok, okOr_eq_ok, pure_eq_ok, exists_const, Prod.exists, Prod.mk.injEq] at h
  obtain ⟨_, hauth, c, hc, x, n, hplan, t₁, ht₁, t₂, ht₂, _, u, hsupply, _, _, _, _, _, _, _,
    rfl⟩ := h
  obtain rfl := Option.some.inj (hc.symm.trans hconfig)
  obtain ⟨_, t₃, _, ht₃, rfl⟩ := supply_ok hsupply
  obtain ⟨hle, hrefund⟩ := refundExcess_ok ht₂
  have hpull : t₂.Moved t₃ c.asset w.self c.pool x := Ledger.transfer_apply ht₃
  refine ⟨hauth, x, n, hplan, (Ledger.transfer_eq_ok.mp ht₃).1, hle, ?_, rfl, rfl⟩
  intro t h
  dsimp only [World.emit]
  rw [hpull, hrefund, Ledger.transfer_apply ht₁]
  split_ifs <;> omega

/-- A withdrawal goes from the pool to its destination directly. -/
theorem withdraw_flow (hconfig : w.storage.config = some config)
    (h : BlendContract.withdraw env w amount vault dest = .ok (k, w')) :
    ∃ x n paid, calculateOptimalWithdrawAmount amount
        (getStrategyReserveUpdated w.storage env.bRate) = .ok (x, n) ∧
      0 ≤ paid ∧ w.tokens.Moved w'.tokens config.asset config.pool dest paid ∧
      w'.events = w.events ++ [.withdraw strategyName x vault] ∧ w'.self = w.self := by
  obtain ⟨_, _, c, x, n, due, v, r, tokens, storage, hc, hplan, _, ht, _, _, rfl⟩ := withdraw_ok h
  obtain rfl := Option.some.inj (hc.symm.trans hconfig)
  exact ⟨x, n, _, hplan, (Ledger.transfer_eq_ok.mp ht).1, Ledger.transfer_apply ht, rfl, rfl⟩

/-- All rewards are sold, at no less than the router is asked for, and what they
sell for goes to the pool. -/
theorem performReinvest_flow {r : StrategyReserves} {minOut : ℤ}
    (h : performReinvest env w config minOut = .ok (r, w')) :
    w'.self = w.self ∧ w'.events = w.events ∧
      ((w.tokens config.blendToken w.self < config.rewardThreshold ∧ w'.tokens = w.tokens) ∨
        (config.rewardThreshold ≤ w.tokens config.blendToken w.self ∧ ∃ dex amounts sold out,
          env.pairFor = some dex ∧
          env.swap (w.tokens config.blendToken w.self) minOut = some amounts ∧
          amounts[1]? = some out ∧ 0 ≤ w.tokens config.blendToken w.self ∧ 0 ≤ out ∧
          w.tokens.Moved sold config.blendToken w.self dex
            (w.tokens config.blendToken w.self) ∧
          sold.Moved w'.tokens config.asset dex config.pool out)) := by
  unfold performReinvest at h
  dsimp only at h
  split_ifs at h with hlow
  · obtain ⟨_, rfl⟩ := Prod.mk.inj (pure_eq_ok.mp h)
    exact ⟨rfl, rfl, .inl ⟨hlow, rfl⟩⟩
  · simp only [internalSwapExactTokensForTokens, routerSwap, supply, submit, bind_eq_ok,
      orFault_eq_ok, tryInvoke_eq_ok, okOr_eq_ok, pure_eq_ok, if_true, Prod.exists, Prod.mk.injEq,
      Ledger.pull_eq_ok] at h
    obtain ⟨_, _, _, u, ⟨dex, hdex, _, t₂, ⟨amounts, hswap, t₁, ⟨_, ht₁⟩, _, ht₂, rfl, rfl⟩, rfl,
      rfl⟩, out, hout, n, u', ⟨_, ⟨minted, _, t₃, ⟨_, ht₃⟩, rfl⟩, _, _, _, rfl⟩, _, storage, _, _,
      rfl⟩ := h
    refine ⟨rfl, rfl, .inr ⟨not_lt.mp hlow, dex, amounts, t₁, out, hdex, hswap, hout,
      (Ledger.transfer_eq_ok.mp ht₁).1, (Ledger.transfer_eq_ok.mp ht₃).1,
      Ledger.transfer_apply ht₁, ?_⟩⟩
    have hpaid : amounts.getD 1 0 = out := by
      rw [List.getD_eq_getElem?_getD, hout, Option.getD_some]
    rw [hpaid] at ht₂
    exact (Ledger.transfer_apply ht₂).trans (Ledger.transfer_apply ht₃)

theorem harvest_reinvests {data : Option (List UInt8)} (hconfig : w.storage.config = some config)
    (h : BlendContract.harvest env w sender data = .ok w') :
    ∃ claimed minOut r u price, env.claim = some claimed ∧ amountOutMin data = .ok minOut ∧
      performReinvest env { w with tokens := w.tokens.add config.blendToken w.self claimed }
        config minOut = .ok (r, u) ∧
      w' = u.emit (.harvest strategyName claimed sender price) := by
  simp only [BlendContract.harvest, BlendReserves.getKeeper, requireAuth, getConfig, bind_eq_ok,
    ensure_eq_ok, okOr_eq_ok, pure_eq_ok, exists_const, Prod.exists] at h
  obtain ⟨keeper, _, _, rfl, c, hc, _, u, hclaim, minOut, hmin, r, u', hreinvest, price, _,
    rfl⟩ := h
  obtain rfl := Option.some.inj (hc.symm.trans hconfig)
  simp only [claim, bind_eq_ok, orFault_eq_ok, pure_eq_ok, Prod.mk.injEq] at hclaim
  obtain ⟨claimed, hclaimed, rfl, rfl⟩ := hclaim
  exact ⟨claimed, minOut, r, u', price, hclaimed, hmin, hreinvest, rfl⟩

theorem harvest_flow {data : Option (List UInt8)} (hconfig : w.storage.config = some config)
    (h : BlendContract.harvest env w sender data = .ok w') :
    ∃ claimed price, Harvested config w.self env.pairFor claimed w.tokens w'.tokens ∧
      w'.events = w.events ++ [.harvest strategyName claimed sender price] ∧
      w'.self = w.self := by
  obtain ⟨claimed, minOut, r, u, price, _, _, hreinvest, rfl⟩ := harvest_reinvests hconfig h
  obtain ⟨hself, hevents, hflow⟩ := performReinvest_flow hreinvest
  have hrewards : (w.tokens.add config.blendToken w.self claimed) config.blendToken w.self =
      w.tokens config.blendToken w.self + claimed := by
    simp [Ledger.add_apply]
  simp only [hrewards] at hflow
  refine ⟨claimed, price, ?_, ?_, hself⟩
  · rcases hflow with hlow | ⟨hhigh, dex, amounts, sold, out, hdex, _, _, hnonneg⟩
    · exact .inl hlow
    · exact .inr ⟨hhigh, dex, sold, out, hdex, hnonneg⟩
  · simp only [World.emit, hevents]

/-- The calls that move no tokens. -/
def Idle : Call → Prop
  | .deposit _ _ | .withdraw _ _ _ | .harvest _ _ => False
  | _ => True

theorem idle_flow (hc : Idle c) (h : invoke env w c = .ok w') :
    w'.tokens = w.tokens ∧ w'.events = w.events ∧ w'.self = w.self := by
  cases c with
  | construct asset initArgs =>
      obtain ⟨_, config, keeper, _, _, rfl⟩ := construct_ok h
      exact ⟨rfl, rfl, rfl⟩
  | setKeeper newKeeper =>
      obtain ⟨keeper, _, _, rfl⟩ := setKeeper_ok h
      exact ⟨rfl, rfl, rfl⟩
  | asset | balance vault | getKeeper =>
      obtain ⟨_, rfl⟩ := readOnly_eq_ok.mp h
      exact ⟨rfl, rfl, rfl⟩
  | deposit | withdraw | harvest => exact hc.elim

theorem invoke_flow (h : invoke env w c = .ok w') :
    Idle c ∨
    (∃ amount vault k, c = .deposit amount vault ∧
      BlendContract.deposit env w amount vault = .ok (k, w')) ∨
    (∃ amount vault dest k, c = .withdraw amount vault dest ∧
      BlendContract.withdraw env w amount vault dest = .ok (k, w')) ∨
    ∃ sender data, c = .harvest sender data ∧
      BlendContract.harvest env w sender data = .ok w' := by
  cases c with
  | deposit amount vault =>
      obtain ⟨k, hc⟩ := forget_eq_ok.mp h
      exact .inr (.inl ⟨amount, vault, k, rfl, hc⟩)
  | withdraw amount vault dest =>
      obtain ⟨k, hc⟩ := forget_eq_ok.mp h
      exact .inr (.inr (.inl ⟨amount, vault, dest, k, rfl, hc⟩))
  | harvest sender data => exact .inr (.inr (.inr ⟨sender, data, rfl, h⟩))
  | construct | asset | balance | setKeeper | getKeeper => exact .inl trivial

theorem step_self {a : Action} (hconfig : w.storage.config = some config)
    (h : step a w = .ok w') : w'.self = w.self := by
  cases a with
  | others tokens =>
      obtain rfl := Except.ok.inj h
      rfl
  | call env c =>
      rcases invoke_flow h with hidle | ⟨amount, vault, k, rfl, hc⟩ |
        ⟨amount, vault, dest, k, rfl, hc⟩ | ⟨sender, data, rfl, hc⟩
      · exact (idle_flow hidle h).2.2
      · obtain ⟨_, _, _, _, _, _, _, _, hself⟩ := deposit_flow hconfig hc
        exact hself
      · obtain ⟨_, _, _, _, _, _, _, hself⟩ := withdraw_flow hconfig hc
        exact hself
      · obtain ⟨_, _, _, _, hself⟩ := harvest_flow hconfig hc
        exact hself

end Calls

/-- The underlying that `u` offers by a deposit it authorises. -/
def offered (u : Address) : Action → World → ℤ
  | .call env (.deposit amount vault), _ =>
      if vault = u ∧ env.caller.Authorises u then amount else 0
  | _, _ => 0

/-- `u` is no pair of the call, and takes nothing out of its account elsewhere. -/
def Outside (u : Address) : Action → World → Prop
  | .call env _, _ => env.pairFor ≠ some u
  | .others tokens, w => ∀ t, w.tokens t u ≤ tokens t u

section Wallets
variable {config : Config} {w w' : World} {u t : Address} {a : Action}

theorem Harvested.le {self : Address} {pair : Option Address} {claimed : ℤ} {l l' : Ledger}
    (h : Harvested config self pair claimed l l') (hself : u ≠ self) (hpair : pair ≠ some u)
    (t : Address) : l t u ≤ l' t u := by
  rcases h with ⟨_, rfl⟩ | ⟨_, dex, sold, out, hdex, hrewards, hout, hsold, hpaid⟩
  · rw [Ledger.add_apply]
    simp [hself]
  · have hne : u ≠ dex := by
      rintro rfl
      exact hpair hdex
    rw [hpaid, hsold, Ledger.add_apply]
    simp only [hself, hne, and_false, if_false]
    split_ifs <;> omega

theorem Idle.offered_eq {env : Env} {c : Call} (h : Idle c) :
    offered u (.call env c) w = 0 := by
  cases c with
  | deposit => exact h.elim
  | _ => rfl

theorem step_wallet (hconfig : w.storage.config = some config) (hself : u ≠ w.self)
    (hpool : u ≠ config.pool) (ha : Outside u a w) (h : step a w = .ok w') (t : Address) :
    w.tokens t u ≤ w'.tokens t u + if t = config.asset then offered u a w else 0 := by
  cases a with
  | others tokens =>
      obtain rfl := Except.ok.inj h
      simpa [offered] using ha t
  | call env c =>
      rcases invoke_flow h with hidle | ⟨amount, vault, k, rfl, hc⟩ |
        ⟨amount, vault, dest, k, rfl, hc⟩ | ⟨sender, data, rfl, hc⟩
      · rw [(idle_flow hidle h).1, hidle.offered_eq, ite_self, add_zero]
      · obtain ⟨hauth, x, n, _, hx, hle, hmoved, _⟩ := deposit_flow hconfig hc
        rw [hmoved]
        simp only [offered]
        by_cases hvault : vault = u
        · subst hvault
          simp only [hauth, and_self, and_true, if_true, hpool, and_false, if_false]
          split_ifs <;> omega
        · simp only [hvault, Ne.symm hvault, hpool, false_and, and_false, if_false]
          simp
      · obtain ⟨x, n, paid, _, hpaid, hmoved, _⟩ := withdraw_flow hconfig hc
        rw [hmoved]
        simp only [hpool, and_false, if_false, offered]
        split_ifs <;> omega
      · obtain ⟨claimed, price, hflow, _⟩ := harvest_flow hconfig hc
        simpa [offered] using hflow.le hself ha t

/-- From every state and over any run, whatever the pool, the pairs and the reward
emission answer and whoever calls: an account other than the strategy, the pool
and the pairs loses nothing of any token but the asset, and of the asset at most
the amounts of committed deposits that it authorised itself. -/
theorem wallet_loses_at_most_offered (w : World) (config : Config) (acts : List Action)
    (u : Address) (hconfig : w.storage.config = some config) (hself : u ≠ w.self)
    (hpool : u ≠ config.pool) (hacts : Each step (Outside u) w acts) :
    (∀ t, t ≠ config.asset → w.tokens t u ≤ (run w acts).tokens t u) ∧
      w.tokens config.asset u ≤
        (run w acts).tokens config.asset u + tally step (offered u) w acts := by
  have hstep : ∀ a s s', Outside u a s → s.storage.config = some config ∧ u ≠ s.self →
      step a s = .ok s' → (s'.storage.config = some config ∧ u ≠ s'.self) ∧
        ∀ t, s.tokens t u ≤ s'.tokens t u + if t = config.asset then offered u a s else 0 := by
    rintro a s s' ha ⟨hc, hs⟩ h
    refine ⟨⟨step_config hc h, ?_⟩, step_wallet hc hs hpool ha h⟩
    rwa [step_self hc h]
  constructor
  · intro t ht
    refine (TransactionalRun.run_invariant (I := fun s => (s.storage.config = some config ∧
      u ≠ s.self) ∧ w.tokens t u ≤ s.tokens t u) ?_ ⟨⟨hconfig, hself⟩, le_rfl⟩ hacts).2
    intro a s s' ha hs h
    obtain ⟨hs', hle⟩ := hstep a s s' ha hs.1 h
    have hle := hle t
    rw [if_neg ht, add_zero] at hle
    exact ⟨hs', hs.2.trans hle⟩
  · refine TransactionalRun.le_add_tally (P := fun s : World => s.tokens config.asset u)
      (I := fun s => s.storage.config = some config ∧ u ≠ s.self) ?_ ⟨hconfig, hself⟩ hacts
    intro a s s' ha hs h
    obtain ⟨hs', hle⟩ := hstep a s s' ha hs h
    have hle := hle config.asset
    rw [if_pos rfl] at hle
    exact ⟨hs', hle⟩

/-- Account 1 offers 5500 and takes out 1100 for account 3. -/
theorem wallet_loses_at_most_offered_sample :
    sampleWorld.tokens sampleAsset (.account 1) ≤
      (run sampleWorld sampleActions).tokens sampleAsset (.account 1) + 5500 := by
  have h := wallet_loses_at_most_offered sampleWorld sampleConfig sampleActions (.account 1) rfl
    (by decide) (by decide) ⟨nofun, nofun, nofun, trivial⟩
  have htally : tally step (offered (.account 1)) sampleWorld sampleActions = 5500 := by
    decide +kernel
  rw [htally] at h
  exact h.2

end Wallets

end NekoStrategies.BlendFlows
