import NekoStrategies.BlendSolvency

/-!
# Who may move what in the Blend strategy

Shares belong to vaults and yield to the keeper. A deposit and a withdrawal
need the vault whose entry they write, a harvest and a handover need the
keeper stored when they run, and no call rewrites the configuration. The
keeper itself changes hands during a run: `handovers` lists the handovers in
order, and each of them is authorised by the keeper it replaces.
-/
namespace NekoStrategies.BlendAuthority
open CheckedInteger RoundedDivision SorobanHost BlendReserves BlendContract BlendCalls
open BlendBooks BlendSolvency SharePool

section Effects
variable {env : Env} {w w' : World} {a : Action} {vault dest : Address} {amount k : ℤ}

/-- `n` bTokens are recorded together with the shares they convert to, 1000 of
which are nobody's if they are the first. -/
def Mints (w w' : World) (vault : Address) : Prop :=
  let r := getStrategyReserves w.storage
  let r' := getStrategyReserves w'.storage
  ∃ n s, 0 < n ∧ 0 < s ∧ r.bTokensToSharesDown n = .ok s ∧
    r'.totalBTokens = r.totalBTokens + n ∧ r'.totalShares = r.totalShares + s ∧
    getVaultShares w'.storage vault =
      getVaultShares w.storage vault + if r.totalShares = 0 then s - 1000 else s

/-- `n` bTokens are written off together with the shares they convert to. -/
def Burns (w w' : World) (vault : Address) : Prop :=
  let r := getStrategyReserves w.storage
  let r' := getStrategyReserves w'.storage
  ∃ n s, 0 < n ∧ 0 < s ∧ r.bTokensToSharesUp n = .ok s ∧
    r'.totalBTokens = r.totalBTokens - n ∧ r'.totalShares = r.totalShares - s ∧
    getVaultShares w'.storage vault = getVaultShares w.storage vault - s

/-- The vault paid the pool what the deposit planned to charge, and nobody
else paid or received anything. -/
def Charged (env : Env) (w w' : World) (amount : ℤ) (vault : Address) : Prop :=
  ∃ config charged n, w.storage.config = some config ∧
    calculateOptimalDepositAmount amount (getStrategyReserveUpdated w.storage env.bRate) =
      .ok (charged, n) ∧
    0 ≤ charged ∧ w.tokens.Moved w'.tokens config.asset vault config.pool charged ∧
    w'.events = w.events ++ [.deposit strategyName charged vault]

theorem deposit_charged (h : BlendContract.deposit env w amount vault = .ok (k, w')) :
    Charged env w w' amount vault := by
  simp only [BlendContract.deposit, checkPositiveAmount, requireAuth, getConfig, bind_eq_ok,
    ensure_eq_ok, okOr_eq_ok, pure_eq_ok, exists_const, Prod.exists, Prod.mk.injEq] at h
  obtain ⟨_, _, config, hconfig, x, n, hplan, t₁, hpull, t₂, hrefund, _, u, hsupply,
    v, r, storage, _, b, _, _, rfl⟩ := h
  obtain ⟨minted, tokens, _, hpay, rfl⟩ := supply_ok hsupply
  dsimp only at hpay
  refine ⟨config, x, n, hconfig, hplan, (Ledger.transfer_eq_ok.mp hpay).1, ?_, rfl⟩
  intro t holder
  have hback : t₂ t holder = t₁ t holder +
      (if t = config.asset ∧ holder = vault then amount - x else 0) -
      if t = config.asset ∧ holder = w.self then amount - x else 0 := by
    unfold refundExcess at hrefund
    split_ifs at hrefund with hne
    · simp only [bind_eq_ok, orFault_eq_ok, Width.checkedSub_eq_some] at hrefund
      obtain ⟨_, ⟨_, rfl⟩, ht⟩ := hrefund
      exact Ledger.transfer_apply ht t holder
    · obtain rfl := pure_eq_ok.mp hrefund
      obtain rfl := not_not.mp hne
      simp
  change tokens t holder = _
  rw [Ledger.transfer_apply hpay, hback, Ledger.transfer_apply hpull]
  split_ifs <;> ring

theorem deposit_mints (h : BlendContract.deposit env w amount vault = .ok (k, w')) :
    Mints w w' vault ∧ getVaultShares w.storage vault < getVaultShares w'.storage vault ∧
      ∀ u, u ≠ vault → getVaultShares w'.storage u = getVaultShares w.storage u := by
  obtain ⟨_, _, config, x, n, minted, v, r, tokens, storage, _, _, _, hrec, _, rfl⟩ := deposit_ok h
  obtain ⟨hn, s, credited, hdown, hs, hcredited, rfl, _, rfl, _, _, rfl⟩ := deposit_recorded hrec
  have hcredit : credited = if (getStrategyReserves w.storage).totalShares = 0
      then s - 1000 else s := by
    rcases newVaultMintedShares_ok hcredited with ⟨hS, _, rfl⟩ | ⟨hS, rfl⟩
    · exact (if_pos hS).symm
    · exact (if_neg hS).symm
  have hpos : 0 < credited := by
    rcases newVaultMintedShares_ok hcredited with ⟨_, hlock, rfl⟩ | ⟨_, rfl⟩
    · exact sub_pos.mpr hlock
    · exact hs
  have hself : (w.storage.vaultPos.set vault (getVaultShares w.storage vault + credited)).amount
      vault = getVaultShares w.storage vault + credited := Attribution.amount_set_self
  refine ⟨⟨n, s, hn, hs, hdown, rfl, rfl, hself.trans (by rw [hcredit])⟩, ?_, ?_⟩
  · exact (lt_add_of_pos_right _ hpos).trans_eq hself.symm
  · exact fun u hu => Attribution.amount_set_of_ne hu

theorem withdraw_burns (hb : Backed 1000 (books w.storage))
    (h : BlendContract.withdraw env w amount vault dest = .ok (k, w')) :
    Burns w w' vault ∧ getVaultShares w'.storage vault < getVaultShares w.storage vault ∧
      ∀ u, u ≠ vault → getVaultShares w'.storage u = getVaultShares w.storage u := by
  obtain ⟨_, _, config, x, n, due, v, r, tokens, storage, _, _, _, _, hrec, _, rfl⟩ :=
    withdraw_ok h
  obtain ⟨hn, s, hup, hsS, hnB, _, rfl, rfl, rfl⟩ := withdraw_recorded hrec
  have hs : 0 < s := by
    rcases hb.pos_or_zero (by decide) with hS | ⟨hS, hB⟩
    · exact (bTokensToSharesUp_empty hS hup) ▸ hn
    · rw [bTokensToSharesUp_open hS hB hup]
      exact ceilDiv_pos (mul_pos hn hS) hB
  have hself : (w.storage.vaultPos.set vault (getVaultShares w.storage vault - s)).amount
      vault = getVaultShares w.storage vault - s := Attribution.amount_set_self
  refine ⟨⟨n, s, hn, hs, hup, rfl, rfl, hself⟩, ?_, ?_⟩
  · exact hself.trans_lt (sub_lt_self _ hs)
  · exact fun u hu => Attribution.amount_set_of_ne hu

theorem step_effect (hb : Backed 1000 (books w.storage)) (h : step a w = .ok w') :
    books w'.storage = books w.storage ∨
    (∃ env amount vault, a = .call env (.deposit amount vault) ∧
      env.caller.Authorises vault ∧ Charged env w w' amount vault ∧ Mints w w' vault ∧
      getVaultShares w.storage vault < getVaultShares w'.storage vault ∧
      ∀ u, u ≠ vault → getVaultShares w'.storage u = getVaultShares w.storage u) ∨
    (∃ env amount vault dest, a = .call env (.withdraw amount vault dest) ∧
      env.caller.Authorises vault ∧ Burns w w' vault ∧
      getVaultShares w'.storage vault < getVaultShares w.storage vault ∧
      ∀ u, u ≠ vault → getVaultShares w'.storage u = getVaultShares w.storage u) ∨
    ∃ env sender data, a = .call env (.harvest sender data) ∧
      w.storage.keeper = some sender ∧ env.caller.Authorises sender ∧
      (books w'.storage).totalShares = (books w.storage).totalShares ∧
      ∀ u, getVaultShares w'.storage u = getVaultShares w.storage u := by
  cases a with
  | others tokens =>
      obtain rfl := Except.ok.inj h
      exact .inl rfl
  | call env c =>
      rcases invoke_ok h with rfl | ⟨asset, args, rfl, hc⟩ | ⟨amount, vault, k, rfl, hc⟩ |
        ⟨amount, vault, dest, k, rfl, hc⟩ | ⟨sender, data, rfl, hc⟩ | ⟨newKeeper, rfl, hc⟩
      · exact .inl rfl
      · obtain ⟨_, config, keeper, _, _, rfl⟩ := construct_ok hc
        exact .inl rfl
      · obtain ⟨hmint, hlt, hframe⟩ := deposit_mints hc
        exact .inr (.inl ⟨env, amount, vault, rfl, (deposit_ok hc).2.1, deposit_charged hc,
          hmint, hlt, hframe⟩)
      · obtain ⟨hburn, hlt, hframe⟩ := withdraw_burns hb hc
        exact .inr (.inr (.inl ⟨env, amount, vault, dest, rfl, (withdraw_ok hc).2.1, hburn,
          hlt, hframe⟩))
      · obtain ⟨hkeeper, hauth, config, r, u, tokens, claimed, price, minOut, _, hre, _, rfl⟩ :=
          harvest_ok hc
        rcases performReinvest_ok hre with ⟨_, rfl⟩ |
          ⟨out, minted, n, tokens', storage, _, rfl, _, hrec⟩
        · exact .inl rfl
        · obtain ⟨_, _, rfl, rfl⟩ := harvest_recorded hrec
          exact .inr (.inr (.inr ⟨env, sender, data, rfl, hkeeper, hauth, rfl, fun _ => rfl⟩))
      · obtain ⟨keeper, _, _, rfl⟩ := setKeeper_ok hc
        exact .inl rfl

end Effects

/-- A committed `set_keeper` call: who stood behind it and whom it put in. -/
structure Handover where
  caller : Caller
  newKeeper : Address
deriving DecidableEq, Repr

def handoverOf : Action → World → List Handover
  | .call env (.setKeeper newKeeper), _ => [⟨env.caller, newKeeper⟩]
  | _, _ => []

/-- The handovers of a run that commit, in order. -/
def handovers : World → List Action → List Handover := TransactionalRun.outputs step handoverOf

/-- The handovers lead from one keeper to another, each authorised by the
keeper it replaces. -/
def Leads (first : Address) : List Handover → Address → Prop
  | [], last => first = last
  | h :: hs, last => h.caller.Authorises first ∧ Leads h.newKeeper hs last

section Keeper
variable {w w' : World} {a : Action} {config : Config} {keeper : Address}

theorem step_keeper (hconfig : w.storage.config = some config)
    (hkeeper : w.storage.keeper = some keeper) (h : step a w = .ok w') :
    (handoverOf a w' = [] ∧ w'.storage.keeper = some keeper) ∨
      ∃ handover, handoverOf a w' = [handover] ∧ handover.caller.Authorises keeper ∧
        w'.storage.keeper = some handover.newKeeper := by
  cases a with
  | others tokens =>
      obtain rfl := Except.ok.inj h
      exact .inl ⟨rfl, hkeeper⟩
  | call env c =>
      rcases invoke_control h with ⟨_, hsame, hother⟩ | ⟨hnone, _⟩ |
        ⟨old, newKeeper, rfl, hold, hauth, _, hnew⟩
      · refine .inl ⟨?_, hsame.trans hkeeper⟩
        cases c with
        | setKeeper newKeeper => exact absurd rfl (hother newKeeper)
        | _ => rfl
      · rw [hnone] at hconfig
        cases hconfig
      · obtain rfl : old = keeper := Option.some.inj (hold.symm.trans hkeeper)
        exact .inr ⟨⟨env.caller, newKeeper⟩, rfl, hauth, hnew⟩

theorem construct_keeper {env : Env} {asset : Address} {initArgs : List Val}
    (h : construct env w asset initArgs = .ok w') :
    ∃ first, initArgs[4]? = some (.address first) ∧ w'.storage.keeper = some first := by
  simp only [construct, initArg, bind_eq_ok, ensure_eq_ok, orFault_eq_ok, pure_eq_ok,
    exists_const] at h
  obtain ⟨_, pool, _, blendToken, _, router, _, threshold, _, keeper, harg, claimId, _, _,
    rfl⟩ := h
  obtain ⟨v, hv, hkeeper⟩ := Option.bind_eq_some_iff.mp harg
  cases v with
  | address first => exact ⟨first, hv, congrArg some (Option.some.inj hkeeper).symm⟩
  | _ => cases hkeeper

/-- By induction on the run: its handovers lead to the keeper it ends with. -/
theorem run_keeper (acts : List Action) (hconfig : w.storage.config = some config)
    (hkeeper : w.storage.keeper = some keeper) :
    ∃ last, (run w acts).storage.keeper = some last ∧ Leads keeper (handovers w acts) last := by
  induction acts generalizing w keeper with
  | nil => exact ⟨keeper, hkeeper, rfl⟩
  | cons a acts ih =>
      rw [run, TransactionalRun.run_cons, handovers]
      cases h : step a w with
      | error e =>
          rw [TransactionalRun.outputs_cons_error h]
          exact ih hconfig hkeeper
      | ok t =>
          have hconfig' := step_config hconfig h
          rw [TransactionalRun.outputs_cons_ok h]
          rcases step_keeper hconfig hkeeper h with ⟨hnone, hsame⟩ | ⟨handover, hone, hauth, hnew⟩
          · rw [hnone]
            exact ih hconfig' hsame
          · rw [hone]
            obtain ⟨last, hlast, hleads⟩ := ih hconfig' hnew
            exact ⟨last, hlast, hauth, hleads⟩

end Keeper

section Authority
variable {w w' : World} {a : Action} {vault : Address}

theorem shares_decrease (hb : Backed 1000 (books w.storage)) (h : step a w = .ok w')
    (hlt : getVaultShares w'.storage vault < getVaultShares w.storage vault) :
    ∃ env amount dest, a = .call env (.withdraw amount vault dest) ∧
      env.caller.Authorises vault := by
  rcases step_effect hb h with hsame |
    ⟨env, amount, u, rfl, hauth, _, _, hrise, hframe⟩ |
    ⟨env, amount, u, dest, rfl, hauth, _, _, hframe⟩ | ⟨_, _, _, _, _, _, _, hframe⟩
  · have heq : getVaultShares w'.storage vault = getVaultShares w.storage vault :=
      congrArg (fun b : SharePool Address => b.held.amount vault) hsame
    omega
  · have hne : vault ≠ u := fun he => by
      subst he
      omega
    have := hframe vault hne
    omega
  · obtain rfl : vault = u := by
      by_contra hne
      have := hframe vault hne
      omega
    exact ⟨env, amount, dest, rfl, hauth⟩
  · have := hframe vault
    omega

theorem shares_increase (hb : Backed 1000 (books w.storage)) (h : step a w = .ok w')
    (hlt : getVaultShares w.storage vault < getVaultShares w'.storage vault) :
    ∃ env amount, a = .call env (.deposit amount vault) ∧ env.caller.Authorises vault ∧
      Charged env w w' amount vault := by
  rcases step_effect hb h with hsame |
    ⟨env, amount, u, rfl, hauth, hcharged, _, _, hframe⟩ |
    ⟨env, amount, u, dest, rfl, hauth, _, hfall, hframe⟩ | ⟨_, _, _, _, _, _, _, hframe⟩
  · have heq : getVaultShares w'.storage vault = getVaultShares w.storage vault :=
      congrArg (fun b : SharePool Address => b.held.amount vault) hsame
    omega
  · obtain rfl : vault = u := by
      by_contra hne
      have := hframe vault hne
      omega
    exact ⟨env, amount, rfl, hauth, hcharged⟩
  · have hne : vault ≠ u := fun he => by
      subst he
      omega
    have := hframe vault hne
    omega
  · have := hframe vault
    omega

theorem bTokens_change (hb : Backed 1000 (books w.storage)) (h : step a w = .ok w')
    (hne : (getStrategyReserves w'.storage).totalBTokens ≠
      (getStrategyReserves w.storage).totalBTokens) :
    (∃ vault, Mints w w' vault ∨ Burns w w' vault) ∨
      ∃ env sender data, a = .call env (.harvest sender data) ∧
        w.storage.keeper = some sender ∧ env.caller.Authorises sender := by
  rcases step_effect hb h with hsame |
    ⟨_, _, vault, _, _, _, hmint, _⟩ | ⟨_, _, vault, _, _, _, hburn, _⟩ |
    ⟨env, sender, data, rfl, hkeeper, hauth, _⟩
  · exact absurd (congrArg SharePool.assets hsame) hne
  · exact .inl ⟨vault, .inl hmint⟩
  · exact .inl ⟨vault, .inr hburn⟩
  · exact .inr ⟨env, sender, data, rfl, hkeeper, hauth⟩

end Authority

/-- Over every run from the constructor, whoever calls: shares fall only in a
withdrawal and rise only in a deposit that their vault authorised and paid for;
bTokens come or go without shares only in a harvest of the keeper of that
moment; the keeper of that moment is led to from the constructor's by handovers
that each replaced keeper authorised; and the configuration is the
constructor's. -/
theorem authority_over_runs (env₀ : Env) (blank w₀ : World) (asset : Address)
    (initArgs : List Val) (hblank : blank.storage = .empty)
    (hc : construct env₀ blank asset initArgs = .ok w₀) (acts : List Action) :
    let w := run w₀ acts
    (∀ a w', step a w = .ok w' →
      (∀ vault, getVaultShares w'.storage vault < getVaultShares w.storage vault →
        ∃ env amount dest, a = .call env (.withdraw amount vault dest) ∧
          env.caller.Authorises vault) ∧
      (∀ vault, getVaultShares w.storage vault < getVaultShares w'.storage vault →
        ∃ env amount, a = .call env (.deposit amount vault) ∧ env.caller.Authorises vault ∧
          Charged env w w' amount vault) ∧
      ((getStrategyReserves w'.storage).totalBTokens ≠
          (getStrategyReserves w.storage).totalBTokens →
        (∃ vault, Mints w w' vault ∨ Burns w w' vault) ∨
          ∃ env sender data, a = .call env (.harvest sender data) ∧
            w.storage.keeper = some sender ∧ env.caller.Authorises sender)) ∧
    (∃ first last, initArgs[4]? = some (.address first) ∧ w.storage.keeper = some last ∧
      Leads first (handovers w₀ acts) last) ∧
    w.storage.config.isSome ∧ w.storage.config = w₀.storage.config := by
  intro w
  have hb : Backed 1000 (books w.storage) := run_backed acts (construct_backed hblank hc).2
  obtain ⟨first, hfirst, hkeeper⟩ := construct_keeper hc
  obtain ⟨_, config, _, _, _, hw₀⟩ := construct_ok hc
  have hconfig : w₀.storage.config = some config := by rw [hw₀]
  have hrun : w.storage.config = some config := run_config acts hconfig
  obtain ⟨last, hlast, hleads⟩ := run_keeper acts hconfig hkeeper
  refine ⟨?_, ⟨first, last, hfirst, hlast, hleads⟩, by rw [hrun]; rfl, by rw [hrun, hconfig]⟩
  intro a w' h
  exact ⟨fun vault => shares_decrease hb h, fun vault => shares_increase hb h,
    bTokens_change hb h⟩

/-- A deposit and two handovers, the second by the keeper of the first. -/
def sampleHandovers : List Action :=
  [.call (sampleEnv (.account 1)) (.deposit 5500 (.account 1)),
    .call (sampleEnv sampleKeeper) (.setKeeper (.account 5)),
    .call (sampleEnv sampleKeeper) (.setKeeper (.account 6)),
    .call (sampleEnv (.account 5)) (.setKeeper (.account 7))]

/-- The former keeper's second handover is not among those that commit. -/
theorem authority_over_runs_sample :
    (∃ first last, some (Val.address sampleKeeper) = some (.address first) ∧
      (run sampleWorld sampleHandovers).storage.keeper = some last ∧
      Leads first (handovers sampleWorld sampleHandovers) last) ∧
    handovers sampleWorld sampleHandovers =
      [⟨⟨[sampleKeeper], none⟩, .account 5⟩, ⟨⟨[.account 5], none⟩, .account 7⟩] :=
  ⟨(authority_over_runs (sampleEnv sampleKeeper) { sampleWorld with storage := .empty }
    sampleWorld sampleAsset [.address samplePool, .address (.contract 3),
      .address (.contract 4), .i128 1, .address sampleKeeper] rfl rfl sampleHandovers).2.1,
    by decide +kernel⟩

end NekoStrategies.BlendAuthority
