import NekoStrategies.BlendBalances

/-!
# Which deposits the Blend strategy admits

A deposit converts its amount to bTokens and these to shares. It is admitted
exactly if it buys at least one share, or more than the locked ones if it is the
first: below that the planner or the bookkeeper refuses it, and from there on
nothing but an overflow, the token or the pool can stop it.
-/
namespace NekoStrategies.BlendAdmission
open CheckedInteger RoundedDivision SorobanHost BlendReserves BlendContract BlendCalls
open BlendBooks BlendSolvency BlendBankRun BlendPlans BlendBalances SharePool

/-- bTokens that an amount converts to. -/
def converted (amount r : ℤ) : ℤ := floorDiv (amount * scalar12) r

/-- `b` bTokens are worth a share, or found the pool. -/
def BuysShares (S B b : ℤ) : Prop := (S = 0 ∧ 1000 < b) ∨ (0 < S ∧ B ≤ b * S)

/-- Shares that `b` bTokens buy, the bTokens these cost and the shares credited. -/
def sharesBought (S B b : ℤ) : ℤ := if S = 0 then b else floorDiv (b * S) B

def bTokensBought (S B b : ℤ) : ℤ := if S = 0 then b else ceilDiv (sharesBought S B b * B) S

def sharesCredited (S B b : ℤ) : ℤ := if S = 0 then b - 1000 else sharesBought S B b

/-- The products and sums computed for a deposit by a holder of `v` shares and for
the balance reported after it. Those left out are smaller. -/
structure Fits (S B r v amount : ℤ) : Prop where
  amount_holds : i128.Holds (amount * scalar12)
  shares_hold : 0 < S → i128.Holds (converted amount r * S)
  totalShares_holds : i128.Holds (S + sharesBought S B (converted amount r))
  totalBTokens_holds : i128.Holds (B + bTokensBought S B (converted amount r))
  held_holds : i128.Holds ((v + sharesCredited S B (converted amount r)) *
    (B + bTokensBought S B (converted amount r)))
  value_holds : i128.Holds (floorDiv ((v + sharesCredited S B (converted amount r)) *
    (B + bTokensBought S B (converted amount r))) (S + sharesBought S B (converted amount r)) * r)

section Plan
variable {q : StrategyReserves} {amount x n s b : ℤ}

/-- The shares that the bookkeeper mints for a plan. -/
structure Planned (q : StrategyReserves) (x n s : ℤ) : Prop where
  converts : q.bTokensToSharesDown n = .ok s
  bTokens_pos : 0 < n
  shares_pos : 0 < s
  founds : q.totalShares = 0 → 1000 < s
  charge_nonneg : 0 ≤ x

theorem charge_holds (hr : 0 < q.bRate) (hn : 0 ≤ n) (hnb : n ≤ converted amount q.bRate)
    (ha : i128.Holds (amount * scalar12)) :
    fixedMulCeil n q.bRate scalar12 = some (ceilDiv (n * q.bRate) scalar12) := by
  have hnr : 0 ≤ n * q.bRate := mul_nonneg hn hr.le
  apply fixedMulCeil_of_holds hnr scalar12_pos
  refine i128_holds_of_le hnr ?_ ha
  exact (mul_le_mul_of_nonneg_right hnb hr.le).trans (floorDiv_mul_le _ hr)

theorem plan_founds (hS : q.totalShares = 0) (hr : 0 < q.bRate) (ha : 0 < amount)
    (hb : b = converted amount q.bRate) (hbuys : 1000 < b)
    (hfit : i128.Holds (amount * scalar12)) :
    ∃ x, calculateOptimalDepositAmount amount q = .ok (x, b) ∧ Planned q x b b := by
  have hbr : 0 ≤ b * q.bRate := mul_nonneg (by omega) hr.le
  refine ⟨ceilDiv (b * q.bRate) scalar12, ?_, ?_, by omega, by omega, fun _ => hbuys,
    ceilDiv_nonneg hbr scalar12_pos⟩
  · simp only [calculateOptimalDepositAmount, optimalBTokenAmount, hS, if_true, bind_eq_ok,
      ensure_eq_ok, okOr_eq_ok, pure_eq_ok, exists_const]
    refine ⟨b, ?_, b, rfl, by omega, _, charge_holds hr (by omega) hb.le hfit, rfl⟩
    rw [hb]
    exact fixedMulFloor_of_holds (mul_nonneg ha.le scalar12_pos.le) hr hfit
  · simp [StrategyReserves.bTokensToSharesDown, hS]

theorem plan_buys (hS : 0 < q.totalShares) (hSB : q.totalShares ≤ q.totalBTokens)
    (hr : 0 < q.bRate) (ha : 0 < amount) (hb : b = converted amount q.bRate)
    (hbuys : q.totalBTokens ≤ b * q.totalShares) (hfit : i128.Holds (amount * scalar12))
    (hbS : i128.Holds (b * q.totalShares)) :
    ∃ x, calculateOptimalDepositAmount amount q =
        .ok (x, bTokensBought q.totalShares q.totalBTokens b) ∧
      Planned q x (bTokensBought q.totalShares q.totalBTokens b)
        (sharesBought q.totalShares q.totalBTokens b) := by
  have hB : 0 < q.totalBTokens := hS.trans_le hSB
  have hb0 : 0 ≤ b := hb ▸ floorDiv_nonneg (mul_nonneg ha.le scalar12_pos.le) hr
  simp only [bTokensBought, sharesBought, if_neg hS.ne']
  set s := floorDiv (b * q.totalShares) q.totalBTokens with hs
  set n := ceilDiv (s * q.totalBTokens) q.totalShares with hn
  have hs1 : 1 ≤ s := (le_floorDiv_iff hB).mpr (by linarith)
  have hn0 : 0 < n := ceilDiv_pos (mul_pos (by omega) hB) hS
  have hnb : n ≤ b := ceilDiv_floorDiv_le hS hB
  have hsB : i128.Holds (s * q.totalBTokens) :=
    i128_holds_of_le (mul_nonneg (by omega) hB.le) (floorDiv_mul_le _ hB) hbS
  have hdown : q.bTokensToSharesDown b = .ok s := bTokensToSharesDown_ok hS hB hb0 hbS
  refine ⟨ceilDiv (n * q.bRate) scalar12, ?_, ?_⟩
  · simp only [calculateOptimalDepositAmount, optimalBTokenAmount, hS.ne', if_false, bind_eq_ok,
      ensure_eq_ok, okOr_eq_ok, pure_eq_ok, exists_const]
    refine ⟨b, ?_, n, ⟨s, hdown, by omega, ?_⟩, hn0, _, charge_holds hr hn0.le (hb ▸ hnb) hfit, rfl⟩
    · rw [hb]
      exact fixedMulFloor_of_holds (mul_nonneg ha.le scalar12_pos.le) hr hfit
    · exact fixedMulCeil_of_holds (mul_nonneg (by omega) hB.le) hS hsB
  · exact ⟨deposit_recomputed hS hB hn0.le hnb hn hdown, hn0, by omega, by omega,
      ceilDiv_nonneg (mul_nonneg hn0.le hr.le) scalar12_pos⟩

theorem plan_succeeds (hopen : q.totalShares = 0 ∨
      (0 < q.totalShares ∧ q.totalShares ≤ q.totalBTokens)) (hr : 0 < q.bRate) (ha : 0 < amount)
    (hbuys : BuysShares q.totalShares q.totalBTokens (converted amount q.bRate)) {v : ℤ}
    (hfits : Fits q.totalShares q.totalBTokens q.bRate v amount) :
    ∃ x n s, calculateOptimalDepositAmount amount q = .ok (x, n) ∧ Planned q x n s ∧
      n = bTokensBought q.totalShares q.totalBTokens (converted amount q.bRate) ∧
      s = sharesBought q.totalShares q.totalBTokens (converted amount q.bRate) := by
  rcases hbuys with ⟨hS, hlock⟩ | ⟨hS, hprice⟩
  · obtain ⟨x, hplan, hp⟩ := plan_founds hS hr ha rfl hlock hfits.amount_holds
    refine ⟨x, _, _, hplan, hp, ?_, ?_⟩
    · simp [bTokensBought, hS]
    · simp [sharesBought, hS]
  · have hSB := (hopen.resolve_left hS.ne').2
    obtain ⟨x, hplan, hp⟩ := plan_buys hS hSB hr ha rfl hprice hfits.amount_holds
      (hfits.shares_hold hS)
    exact ⟨x, _, _, hplan, hp, rfl, rfl⟩

end Plan

section Forward
variable {env : Env} {w : World} {config : Config} {vault : Address} {amount x n b s k : ℤ}
  {q : StrategyReserves}

theorem transfer_succeeds {l : Ledger} {t a : Address} (dest : Address) (hx : 0 ≤ x)
    (hle : x ≤ l t a) : ∃ l', l.transfer t a dest x = .ok l' :=
  ⟨_, Ledger.transfer_eq_ok.mpr ⟨hx, hle, rfl⟩⟩

/-- With the amount on its account a vault is charged and refunded. -/
theorem charge_succeeds (hx : 0 ≤ x) (hle : x ≤ amount) (ha : i128.Holds amount)
    (hfunds : amount ≤ w.tokens config.asset vault) (hself : 0 ≤ w.tokens config.asset w.self)
    {minted : ℤ} (hmint : env.mint x = some minted) :
    ∃ t₁ t₂ u, w.tokens.transfer config.asset vault w.self amount = .ok t₁ ∧
      refundExcess t₁ config.asset w.self vault amount x = .ok t₂ ∧
      supply env { w with tokens := t₂ } vault x config false = .ok (x, u) ∧
      u.storage = w.storage := by
  obtain ⟨t₁, ht₁⟩ := transfer_succeeds (l := w.tokens) w.self (hx.trans hle) hfunds
  have hreceived : amount ≤ t₁ config.asset w.self := by
    rw [Ledger.transfer_apply ht₁]
    by_cases hv : w.self = vault
    · subst hv
      simpa using hfunds
    · simp [hv, hself]
  have hrefund : ∃ t₂, refundExcess t₁ config.asset w.self vault amount x = .ok t₂ ∧
      x ≤ t₂ config.asset w.self := by
    unfold refundExcess
    split_ifs with hne
    · have hexcess : i128.Holds (amount - x) :=
        i128_holds_of_le (by omega) (by omega) ha
      obtain ⟨t₂, ht₂⟩ := transfer_succeeds (l := t₁) (t := config.asset) (a := w.self)
        (x := amount - x) vault (by omega) (by omega)
      refine ⟨t₂, ?_, ?_⟩
      · rw [Width.checkedSub, Width.checked_of_holds hexcess]
        exact ht₂
      · rw [Ledger.transfer_apply ht₂]
        simp only [true_and, if_true]
        split_ifs <;> omega
    · exact ⟨t₁, rfl, by omega⟩
  obtain ⟨t₂, ht₂, hleft⟩ := hrefund
  obtain ⟨t₃, ht₃⟩ := transfer_succeeds (l := t₂) (t := config.asset) (a := w.self) config.pool
    hx hleft
  refine ⟨t₁, t₂, { w with
    tokens := t₃
    supply := movedSupply env { w with tokens := t₂ } minted }, ht₁, ht₂, ?_, rfl⟩
  simp only [supply, submit, bind_eq_ok, orFault_eq_ok, pure_eq_ok, Bool.false_eq_true, if_false,
    Ledger.pull_eq_ok, List.mem_singleton, Prod.mk.injEq, true_and]
  exact ⟨_, ⟨minted, hmint, t₃, ht₃, rfl⟩, rfl⟩

theorem newVaultMintedShares_succeeds (hfounds : q.totalShares = 0 → 1000 < s)
    (hfit : i128.Holds (q.totalShares + s)) :
    newVaultMintedShares s q = .ok (if q.totalShares = 0 then s - 1000 else s) := by
  unfold newVaultMintedShares
  split_ifs with hzero
  · have hlock := hfounds hzero
    have hless : i128.Holds (s - 1000) := i128_holds_of_le (by omega) (by omega) hfit
    simp only [bind_eq_ok, ensure_eq_ok, okOr_eq_ok, Width.checkedSub_eq_some, exists_const]
    exact ⟨hlock, hless, trivial⟩
  · rfl

theorem record_succeeds (storage : Storage) (vault : Address) {c : ℤ} (hp : Planned q x n s)
    (hc : c = if q.totalShares = 0 then s - 1000 else s) (hB : 0 ≤ q.totalBTokens)
    (hr : 0 < q.bRate) (hv : 0 ≤ getVaultShares storage vault)
    (hvS : getVaultShares storage vault ≤ q.totalShares)
    (hSfit : i128.Holds (q.totalShares + s)) (hBfit : i128.Holds (q.totalBTokens + n))
    (hheld : i128.Holds ((getVaultShares storage vault + c) * (q.totalBTokens + n)))
    (hvalue : i128.Holds (floorDiv ((getVaultShares storage vault + c) * (q.totalBTokens + n))
      (q.totalShares + s) * q.bRate)) :
    ∃ v r s' k, BlendReserves.deposit storage vault n q = .ok (v, r, s') ∧
      sharesToUnderlying v r = .ok k := by
  obtain ⟨hdown, hn, hs, hfounds, _⟩ := hp
  have hcredit := newVaultMintedShares_succeeds hfounds hSfit
  rw [← hc] at hcredit
  have hbounds : 0 ≤ c ∧ c ≤ s := by
    rw [hc]
    split_ifs with hzero
    · have hlock := hfounds hzero
      omega
    · omega
  have hvfit : i128.Holds (getVaultShares storage vault + c) :=
    i128_holds_of_le (by omega) (by omega) hSfit
  obtain ⟨k, hk⟩ := sharesToUnderlying_of_holds
    (q := ⟨q.totalShares + s, q.totalBTokens + n, q.bRate⟩)
    (v := getVaultShares storage vault + c) (by omega) (by dsimp only; omega)
    (by dsimp only; omega) hr hheld hvalue
  refine ⟨_, _, recorded storage vault (getVaultShares storage vault + c)
    ⟨q.totalShares + s, q.totalBTokens + n, q.bRate⟩, k, ?_, hk⟩
  simp only [BlendReserves.deposit, setValidatedVaultShares, bind_eq_ok, ensure_eq_ok,
    okOr_eq_ok, pure_eq_ok, Width.checkedAdd_eq_some, exists_const, Prod.exists, Prod.mk.injEq]
  exact ⟨hn, s, hdown, hs, c, hcredit, _, ⟨hSfit, rfl⟩, _, ⟨hBfit, rfl⟩, _, ⟨hvfit, rfl⟩, _, _,
    ⟨by omega, rfl, rfl⟩, rfl, rfl, rfl⟩

theorem sharesToUnderlying_holds {v : ℤ} (hS : 0 < q.totalShares) (hB : 0 < q.totalBTokens)
    (h : sharesToUnderlying v q = .ok k) : i128.Holds (v * q.totalBTokens) ∧
      i128.Holds (floorDiv (v * q.totalBTokens) q.totalShares * q.bRate) := by
  rw [sharesToUnderlying, if_neg (by omega)] at h
  simp only [StrategyReserves.sharesToBTokensDown, StrategyReserves.bTokensToUnderlyingDown,
    bind_eq_ok, okOr_eq_ok, fixedDivFloor_eq_some, fixedMulFloor_eq_some] at h
  obtain ⟨b, ⟨_, hvB, _, rfl⟩, _, hvalue, _⟩ := h
  exact ⟨hvB, hvalue⟩

end Forward

section Admission
variable {env : Env} {w w' : World} {config : Config} {vault : Address} {amount k n s : ℤ}

/-- What is planned and recorded of a deposit is what its bTokens buy. -/
theorem bought_of_recorded {x c : ℤ} (hb : Backed 1000 (books w.storage))
    (hplan : calculateOptimalDepositAmount amount (getStrategyReserveUpdated w.storage env.bRate) =
      .ok (x, n))
    (hn : 0 < n)
    (hdown : (getStrategyReserveUpdated w.storage env.bRate).bTokensToSharesDown n = .ok s)
    (hs : 0 < s)
    (hcredited : newVaultMintedShares s (getStrategyReserveUpdated w.storage env.bRate) = .ok c) :
    let S := (books w.storage).totalShares
    let B := (books w.storage).assets
    let b := converted amount env.bRate
    BuysShares S B b ∧ i128.Holds (amount * scalar12) ∧ (0 < S → i128.Holds (b * S)) ∧
      n = bTokensBought S B b ∧ s = sharesBought S B b ∧ c = sharesCredited S B b := by
  intro S B b
  rcases hb.pos_or_zero (by decide) with hS | ⟨hS, hB⟩
  · obtain ⟨b', hfloor, hopt, _, _⟩ := calculateOptimalDepositAmount_ok hplan
    obtain ⟨_, rfl⟩ := (optimalBTokenAmount_ok hopt).resolve_right fun hne => hne.1 hS
    obtain rfl := bTokensToSharesDown_empty hS hdown
    obtain ⟨_, hlock, hc⟩ := (newVaultMintedShares_ok hcredited).resolve_right fun hne => hne.1 hS
    obtain ⟨_, hfit, _, hval⟩ := fixedMulFloor_eq_some.mp hfloor
    have hval : b = s := hval
    have hempty : S = 0 := hS
    refine ⟨.inl ⟨hS, hval ▸ hlock⟩, hfit, fun hpos => absurd hS hpos.ne', ?_, ?_, ?_⟩
    · simp [bTokensBought, hempty, hval]
    · simp [sharesBought, hempty, hval]
    · simp [sharesCredited, hempty, hval, hc]
  · obtain ⟨b', m, hfloor, hbuys, hval, hnb, _, _⟩ :=
      deposit_plan_open (r := getStrategyReserveUpdated w.storage env.bRate) hS hB hplan
    have hagain := deposit_recomputed (r := getStrategyReserveUpdated w.storage env.bRate) hS hB
      hn.le hnb hval hbuys
    obtain rfl : m = s := Except.ok.inj (hagain.symm.trans hdown)
    obtain ⟨_, hfit, _, hconverted⟩ := fixedMulFloor_eq_some.mp hfloor
    obtain rfl : b = b' := hconverted
    have hshares : m = floorDiv (b * S) B := bTokensToSharesDown_open hS hB hbuys
    have hone : 1 ≤ floorDiv (b * S) B := hshares ▸ hs
    rw [le_floorDiv_iff hB, one_mul] at hone
    have hopen : S ≠ 0 := hS.ne'
    have hc : c = m := by
      obtain ⟨_, hc⟩ := (newVaultMintedShares_ok hcredited).resolve_left fun hz => hopen hz.1
      exact hc
    have hbought : m = sharesBought S B b := by rw [sharesBought, if_neg hopen, hshares]
    refine ⟨.inr ⟨hS, hone⟩, hfit, fun _ => bTokensToSharesDown_holds hS hB hbuys, ?_, hbought, ?_⟩
    · rw [bTokensBought, if_neg hopen, ← hbought]
      exact hval
    · rw [sharesCredited, if_neg hopen, ← hbought, hc]

/-- What commits buys shares and has computed nothing that does not fit. -/
theorem deposit_fits (hb : Backed 1000 (books w.storage))
    (h : BlendContract.deposit env w amount vault = .ok (k, w')) :
    BuysShares (books w.storage).totalShares (books w.storage).assets
        (converted amount env.bRate) ∧
      Fits (books w.storage).totalShares (books w.storage).assets env.bRate
        (getVaultShares w.storage vault) amount := by
  obtain ⟨_, _, _, x, n, minted, v, r, tokens, storage, _, hplan, _, hrec, hk, _⟩ := deposit_ok h
  obtain ⟨hn, s, c, hdown, hs, hcredited, rfl, _, rfl, hSfit, hBfit, _⟩ := deposit_recorded hrec
  obtain ⟨hbuys, hfit, hshares, rfl, rfl, rfl⟩ := bought_of_recorded hb hplan hn hdown hs hcredited
  have hnonneg : 0 ≤ (books w.storage).totalShares ∧ 0 ≤ (books w.storage).assets := by
    rcases hb.books with ⟨hS, _, hassets⟩ | ⟨htotal, hle⟩
    · exact ⟨hS.ge, hassets⟩
    · have := hb.total_nonneg
      omega
  obtain ⟨hheld, hvalue⟩ := sharesToUnderlying_holds
    (by exact add_pos_of_nonneg_of_pos hnonneg.1 hs)
    (by exact add_pos_of_nonneg_of_pos hnonneg.2 hn) hk
  exact ⟨hbuys, hfit, hshares, hSfit, hBfit, hheld, hvalue⟩

theorem deposit_succeeds (hb : Backed 1000 (books w.storage))
    (hconfig : w.storage.config = some config) (hr : 0 < env.bRate) (ha : 0 < amount)
    (hauth : env.caller.Authorises vault)
    (hbuys : BuysShares (books w.storage).totalShares (books w.storage).assets
      (converted amount env.bRate))
    (hfits : Fits (books w.storage).totalShares (books w.storage).assets env.bRate
      (getVaultShares w.storage vault) amount)
    (hfunds : amount ≤ w.tokens config.asset vault) (hself : 0 ≤ w.tokens config.asset w.self)
    (hmint : ∀ x n, calculateOptimalDepositAmount amount
      (getStrategyReserveUpdated w.storage env.bRate) = .ok (x, n) →
      ∃ m, env.mint x = some m) :
    ∃ out, BlendContract.deposit env w amount vault = .ok out := by
  set q := getStrategyReserveUpdated w.storage env.bRate with hq
  have hB : 0 ≤ q.totalBTokens := by
    rcases hb.books with ⟨_, _, hassets⟩ | ⟨htotal, hle⟩
    · exact hassets
    · have := hb.total_nonneg
      change 0 ≤ (books w.storage).assets
      omega
  have hopen : q.totalShares = 0 ∨ (0 < q.totalShares ∧ q.totalShares ≤ q.totalBTokens) :=
    (hb.pos_or_zero (by decide)).imp_right fun hS => ⟨hS.1, (hb.open_books hS.1).2⟩
  obtain ⟨x, n, s, hplan, hp, rfl, rfl⟩ := plan_succeeds (q := q) hopen hr ha hbuys hfits
  have hle : x ≤ amount := by
    refine (deposit_charge_le (r := q) ?_ hr hplan).2
    exact hb.pos_or_zero (by decide)
  have hheld : getVaultShares w.storage vault ≤ q.totalShares := by
    have hi : getVaultShares w.storage vault ≤ (books w.storage).held.total :=
      hb.nonneg.amount_le_total
    change _ ≤ (books w.storage).totalShares
    rcases hb.books with ⟨hS, htotal, _⟩ | ⟨htotal, _⟩ <;> omega
  have hafit : i128.Holds amount :=
    i128_holds_of_le ha.le (by unfold scalar12; omega) hfits.amount_holds
  have hcredited : sharesCredited q.totalShares q.totalBTokens (converted amount q.bRate) =
      if q.totalShares = 0 then
        sharesBought q.totalShares q.totalBTokens (converted amount q.bRate) - 1000
      else sharesBought q.totalShares q.totalBTokens (converted amount q.bRate) := by
    unfold sharesCredited sharesBought
    split_ifs <;> rfl
  obtain ⟨m, hm⟩ := hmint x _ hplan
  obtain ⟨t₁, t₂, u, ht₁, ht₂, hsupply, hstorage⟩ :=
    charge_succeeds hp.charge_nonneg hle hafit hfunds hself hm
  obtain ⟨v, r, s', k, hrec, hk⟩ := record_succeeds w.storage vault hp hcredited hB hr
    (hb.nonneg vault) hheld hfits.totalShares_holds hfits.totalBTokens_holds hfits.held_holds
    hfits.value_holds
  refine ⟨(k, { u with storage := s' }.emit (.deposit strategyName x vault)), ?_⟩
  simp only [BlendContract.deposit, checkPositiveAmount, requireAuth, getConfig, bind_eq_ok,
    ensure_eq_ok, okOr_eq_ok, pure_eq_ok, exists_const, Prod.exists]
  refine ⟨ha, hauth, config, hconfig, x, _, hplan, t₁, ht₁, t₂, ht₂, x, u, hsupply, v, r, s', ?_,
    k, hk, rfl⟩
  rw [hstorage]
  exact hrec

end Admission

/-- From every reachable state and at every positive rate: a deposit is admitted
only if its amount buys a share, or more than the locked ones as the first, and its
products fit; and then it is admitted, if the vault has the amount and signs, and
the pool takes the charge. -/
theorem deposit_admitted (w₀ : World) (acts : List Action) (hw : Deployed w₀) (env : Env)
    (vault : Address) (amount : ℤ) (hr : 0 < env.bRate) (ha : 0 < amount) :
    let w := run w₀ acts
    let S := (getStrategyReserves w.storage).totalShares
    let B := (getStrategyReserves w.storage).totalBTokens
    let v := getVaultShares w.storage vault
    let b := converted amount env.bRate
    (∀ out, BlendContract.deposit env w amount vault = .ok out →
      BuysShares S B b ∧ Fits S B env.bRate v amount) ∧
    (BuysShares S B b → Fits S B env.bRate v amount → env.caller.Authorises vault →
      (∀ config, w.storage.config = some config →
        amount ≤ w.tokens config.asset vault ∧ 0 ≤ w.tokens config.asset w.self) →
      (∀ x n, calculateOptimalDepositAmount amount
          (getStrategyReserveUpdated w.storage env.bRate) = .ok (x, n) →
        ∃ m, env.mint x = some m) →
      ∃ out, BlendContract.deposit env w amount vault = .ok out) := by
  intro w S B v b
  have hb : Backed 1000 (books w.storage) := run_backed acts (Deployed.backed hw)
  constructor
  · rintro ⟨k, w'⟩ h
    exact deposit_fits hb h
  · intro hbuys hfits hauth hfunds hmint
    obtain ⟨config, hconfig⟩ := Deployed.config_some hw
    have hconfig' := run_config acts hconfig
    obtain ⟨hvault, hself⟩ := hfunds config hconfig'
    exact deposit_succeeds hb hconfig' hr ha hauth hbuys hfits hvault hself hmint

/-- At 6000 shares over 6000 bTokens and rate 1.1, one unit buys nothing and two
buy a share. -/
theorem deposit_admitted_sample :
    (∀ out, BlendContract.deposit (sampleEnv (.account 2)) (run sampleWorld sampleActions) 1
        (.account 2) ≠ .ok out) ∧
      ∃ out, BlendContract.deposit (sampleEnv (.account 2)) (run sampleWorld sampleActions) 2
        (.account 2) = .ok out := by
  have hone := deposit_admitted sampleWorld sampleActions sampleWorld_deployed
    (sampleEnv (.account 2)) (.account 2) 1 (by decide) (by decide)
  have htwo := deposit_admitted sampleWorld sampleActions sampleWorld_deployed
    (sampleEnv (.account 2)) (.account 2) 2 (by decide) (by decide)
  constructor
  · intro out h
    have hbuys := (hone.1 out h).1
    unfold BuysShares at hbuys
    revert hbuys
    decide +kernel
  · refine htwo.2 ?_ ?_ (.inl (by decide)) ?_ (fun x n _ => ⟨_, rfl⟩)
    · exact .inr (by decide +kernel)
    · exact ⟨by decide +kernel, fun _ => by decide +kernel, by decide +kernel, by decide +kernel,
        by decide +kernel, by decide +kernel⟩
    · intro config hconfig
      obtain rfl : sampleConfig = config := Option.some.inj hconfig
      decide +kernel

end NekoStrategies.BlendAdmission
