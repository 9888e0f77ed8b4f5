import NekoStrategies.BlendSolvency

/-!
# A bank run on the Blend strategy

While the products of the books fit in an `i128`, a vault may withdraw any
positive amount up to its balance. The plan of such a withdrawal never leaves
the vault's own shares, so it serves the amount, and every other vault is still
worth at least as much afterwards. Hence the vaults may empty their balances in
any order.
-/
namespace NekoStrategies.BlendBankRun
open CheckedInteger RoundedDivision SorobanHost BlendReserves BlendContract BlendCalls
open BlendBooks BlendSolvency SharePool
open TransactionalRun (Each)

/-- Underlying that `v` shares out of `S` are reported to be worth. -/
def reported (S B r v : ℤ) : ℤ := floorDiv (floorDiv (v * B) S * r) scalar12

section Plan
variable {S B r v amount : ℤ}

/-- bTokens, shares, bTokens again and underlying of a withdrawal of `amount`. -/
theorem plan_bounds (hS : 0 < S) (hB : 0 < B) (hr : 0 < r) (ha : 0 < amount)
    (hle : amount ≤ reported S B r v) :
    let b := ceilDiv (amount * scalar12) r
    let s := ceilDiv (b * S) B
    let n := floorDiv (s * B) S
    0 < b ∧ b ≤ floorDiv (v * B) S ∧ s ≤ v ∧ b ≤ n ∧ n ≤ floorDiv (v * B) S ∧
      amount ≤ floorDiv (n * r) scalar12 := by
  intro b s n
  have hworth : amount * scalar12 ≤ floorDiv (v * B) S * r := (le_floorDiv_iff scalar12_pos).mp hle
  have hb : 0 < b := ceilDiv_pos (mul_pos ha scalar12_pos) hr
  have hbv : b ≤ floorDiv (v * B) S := (ceilDiv_le_iff hr).mpr hworth
  have hsv : s ≤ v := (ceilDiv_le_iff hB).mpr ((le_floorDiv_iff hS).mp hbv)
  have hbn : b ≤ n := le_floorDiv_ceilDiv hS hB
  have hnv : n ≤ floorDiv (v * B) S := floorDiv_mono hS (mul_le_mul_of_nonneg_right hsv hB.le)
  refine ⟨hb, hbv, hsv, hbn, hnv, (le_floorDiv_iff scalar12_pos).mpr ?_⟩
  calc amount * scalar12 ≤ b * r := le_ceilDiv_mul _ hr
    _ ≤ n * r := mul_le_mul_of_nonneg_right hbn hr.le

theorem converted_le (hS : 0 < S) (hB : 0 < B) (hvS : v ≤ S) : floorDiv (v * B) S ≤ B := by
  have hmul := floorDiv_mul_le (v * B) hS
  have hvB := mul_le_mul_of_nonneg_right hvS hB.le
  exact le_of_mul_le_mul_right (hmul.trans (hvB.trans_eq (mul_comm S B))) hS

end Plan

/-- The plan of an admissible withdrawal exists, and recording it takes at most
the vault's shares. -/
theorem plan_exists {q : StrategyReserves} {v amount : ℤ} (hS : 0 < q.totalShares)
    (hB : 0 < q.totalBTokens) (hr : 0 < q.bRate)
    (hSB : i128.Holds (q.totalShares * q.totalBTokens))
    (hBr : i128.Holds (q.totalBTokens * q.bRate)) (hvS : v ≤ q.totalShares) (ha : 0 < amount)
    (hle : amount ≤ reported q.totalShares q.totalBTokens q.bRate v) :
    ∃ x n s, calculateOptimalWithdrawAmount amount q = .ok (x, n) ∧
      q.bTokensToSharesUp n = .ok s ∧ 0 < n ∧ n ≤ q.totalBTokens ∧ 0 ≤ s ∧ s ≤ v ∧
      amount ≤ x := by
  obtain ⟨hb, hbv, hsv, hbn, hnv, hx⟩ := plan_bounds hS hB hr ha hle
  set b := ceilDiv (amount * scalar12) q.bRate with hbdef
  set s := ceilDiv (b * q.totalShares) q.totalBTokens with hsdef
  set n := floorDiv (s * q.totalBTokens) q.totalShares with hndef
  have hcB := converted_le hS hB hvS
  have hn : 0 < n := hb.trans_le hbn
  have hs : 0 ≤ s := ceilDiv_nonneg (mul_nonneg hb.le hS.le) hB
  have hopen : ¬(q.totalShares = 0 ∨ q.totalBTokens = 0) := by omega
  -- every product of the plan is below one of the two products that fit
  have hask : i128.Holds (amount * scalar12) := by
    refine i128_holds_of_le (mul_nonneg ha.le scalar12_pos.le) ?_ hBr
    have hworth := (le_floorDiv_iff scalar12_pos).mp hle
    exact hworth.trans (mul_le_mul_of_nonneg_right hcB hr.le)
  have hbS : i128.Holds (b * q.totalShares) := by
    refine i128_holds_of_le (mul_nonneg hb.le hS.le) ?_ hSB
    rw [mul_comm q.totalShares]
    exact mul_le_mul_of_nonneg_right (hbv.trans hcB) hS.le
  have hsB : i128.Holds (s * q.totalBTokens) :=
    i128_holds_of_le (mul_nonneg hs hB.le)
      (mul_le_mul_of_nonneg_right (hsv.trans hvS) hB.le) hSB
  have hnr : i128.Holds (n * q.bRate) :=
    i128_holds_of_le (mul_nonneg hn.le hr.le)
      (mul_le_mul_of_nonneg_right (hnv.trans hcB) hr.le) hBr
  have hnS : i128.Holds (n * q.totalShares) := by
    refine i128_holds_of_le (mul_nonneg hn.le hS.le) ?_ hSB
    rw [mul_comm q.totalShares]
    exact mul_le_mul_of_nonneg_right (hnv.trans hcB) hS.le
  refine ⟨floorDiv (n * q.bRate) scalar12, n, s, ?_, ?_, hn, hnv.trans hcB, hs, hsv, hx⟩
  · simp only [calculateOptimalWithdrawAmount, bind_eq_ok, okOr_eq_ok, pure_eq_ok,
      StrategyReserves.bTokensToSharesUp, if_neg hopen]
    refine ⟨b, ?_, s, ?_, n, ?_, _, ?_, rfl⟩
    · exact fixedMulCeil_of_holds (mul_nonneg ha.le scalar12_pos.le) hr hask
    · exact fixedMulCeil_of_holds (mul_nonneg hb.le hS.le) hB hbS
    · exact fixedMulFloor_of_holds (mul_nonneg hs hB.le) hS hsB
    · exact fixedMulFloor_of_holds (mul_nonneg hn.le hr.le) scalar12_pos hnr
  · -- the shares recomputed from the plan are the plan's own
    have hagain : ceilDiv (n * q.totalShares) q.totalBTokens = s :=
      ceilDiv_floorDiv_ceilDiv hS hB
    rw [StrategyReserves.bTokensToSharesUp, if_neg hopen, okOr_eq_ok, ← hagain]
    exact fixedMulCeil_of_holds (mul_nonneg hn.le hS.le) hB hnS

section Forward
variable {s : Storage} {n k v : ℤ} {q : StrategyReserves}

theorem withdraw_succeeds (vault : Address) (hn : 0 < n)
    (hk : q.bTokensToSharesUp n = .ok k) (hk0 : 0 ≤ k)
    (hkv : k ≤ getVaultShares s vault) (hvS : getVaultShares s vault ≤ q.totalShares)
    (hnB : n ≤ q.totalBTokens) (hS : i128.Holds q.totalShares)
    (hB : i128.Holds q.totalBTokens) :
    ∃ out, BlendReserves.withdraw s vault n q = .ok out := by
  have hS' : i128.Holds (q.totalShares - k) := i128_holds_of_le (by omega) (by omega) hS
  have hB' : i128.Holds (q.totalBTokens - n) := i128_holds_of_le (by omega) (by omega) hB
  have hv' : i128.Holds (getVaultShares s vault - k) :=
    i128_holds_of_le (by omega) (by omega) hS
  refine ⟨(getVaultShares s vault - k, ⟨q.totalShares - k, q.totalBTokens - n, q.bRate⟩,
    recorded s vault (getVaultShares s vault - k)
      ⟨q.totalShares - k, q.totalBTokens - n, q.bRate⟩), ?_⟩
  simp only [BlendReserves.withdraw, setValidatedVaultShares, bind_eq_ok, ensure_eq_ok,
    okOr_eq_ok, pure_eq_ok, Width.checkedSub_eq_some, exists_const, Prod.exists, Prod.mk.injEq]
  exact ⟨hn, k, hk, by omega, _, ⟨hS', rfl⟩, _, ⟨hB', rfl⟩, by omega, _, ⟨hv', rfl⟩, _, _,
    ⟨by omega, rfl, rfl⟩, rfl, rfl, rfl⟩

theorem sharesToUnderlying_of_holds (hv : 0 ≤ v) (hS : 0 < q.totalShares)
    (hB : 0 < q.totalBTokens) (hr : 0 < q.bRate) (hvB : i128.Holds (v * q.totalBTokens))
    (hworth : i128.Holds (floorDiv (v * q.totalBTokens) q.totalShares * q.bRate)) :
    ∃ out, sharesToUnderlying v q = .ok out := by
  have hconv : 0 ≤ floorDiv (v * q.totalBTokens) q.totalShares :=
    floorDiv_nonneg (mul_nonneg hv hB.le) hS
  refine ⟨floorDiv (floorDiv (v * q.totalBTokens) q.totalShares * q.bRate) scalar12, ?_⟩
  rw [sharesToUnderlying, if_neg (by omega)]
  simp only [StrategyReserves.sharesToBTokensDown, StrategyReserves.bTokensToUnderlyingDown,
    bind_eq_ok, okOr_eq_ok]
  refine ⟨floorDiv (v * q.totalBTokens) q.totalShares, ?_, ?_⟩
  · exact fixedMulFloor_of_holds (mul_nonneg hv hB.le) hS hvB
  · exact fixedMulFloor_of_holds (mul_nonneg hconv hr.le) scalar12_pos hworth

theorem sharesToUnderlying_succeeds (hv : 0 ≤ v) (hvS : v ≤ q.totalShares)
    (hS : 0 < q.totalShares) (hB : 0 < q.totalBTokens) (hr : 0 < q.bRate)
    (hSB : i128.Holds (q.totalShares * q.totalBTokens))
    (hBr : i128.Holds (q.totalBTokens * q.bRate)) :
    ∃ out, sharesToUnderlying v q = .ok out := by
  have hvB : i128.Holds (v * q.totalBTokens) :=
    i128_holds_of_le (mul_nonneg hv hB.le) (mul_le_mul_of_nonneg_right hvS hB.le) hSB
  have hconv : 0 ≤ floorDiv (v * q.totalBTokens) q.totalShares :=
    floorDiv_nonneg (mul_nonneg hv hB.le) hS
  have hworth : i128.Holds (floorDiv (v * q.totalBTokens) q.totalShares * q.bRate) :=
    i128_holds_of_le (mul_nonneg hconv hr.le)
      (mul_le_mul_of_nonneg_right (converted_le hS hB hvS) hr.le) hBr
  exact sharesToUnderlying_of_holds hv hS hB hr hvB hworth

end Forward

/-- A vault that leaves: the invocation it makes and where it is paid. -/
structure Leaver where
  env : Env
  vault : Address
  dest : Address

/-- The vault signs its invocation, and Blend's rate is `r`. -/
structure Leaver.Admissible (config : Config) (r : ℤ) (l : Leaver) : Prop where
  rate_eq : l.env.bRate = r
  blend : IsBlend config.reserveId l.env
  authorised : l.env.caller.Authorises l.vault

/-- Blend serves the withdrawal planned for `amount`: it names the bTokens to burn
and holds the underlying to pay. -/
def Leaver.Payable (config : Config) (amount : ℤ) (l : Leaver) (w : World) : Prop :=
  ∀ x n, calculateOptimalWithdrawAmount amount
      (getStrategyReserveUpdated w.storage l.env.bRate) = .ok (x, n) →
    (∃ due, l.env.burn x = some due) ∧ x ≤ w.tokens config.asset config.pool

/-- A state that owes every vault its reported balance. -/
structure Ready (config : Config) (r : ℤ) (w : World) : Prop where
  config_eq : w.storage.config = some config
  backed : Backed 1000 (books w.storage)
  minted : 0 < (books w.storage).totalShares
  product : i128.Holds ((books w.storage).totalShares * (books w.storage).assets)
  value : i128.Holds ((books w.storage).assets * r)
  covered : 0 ≤ surplus config.reserveId w

section Admission
variable {config : Config} {r amount : ℤ} {w : World} {l : Leaver}

/-- What a vault may withdraw. -/
def reportedTo (w : World) (r : ℤ) (vault : Address) : ℤ :=
  reported (books w.storage).totalShares (books w.storage).assets r
    (getVaultShares w.storage vault)

theorem Ready.assets_pos (h : Ready config r w) : 0 < (books w.storage).assets :=
  h.minted.trans_le (h.backed.open_books h.minted).2

theorem Ready.held_le (h : Ready config r w) (vault : Address) :
    0 ≤ getVaultShares w.storage vault ∧
      getVaultShares w.storage vault ≤ (books w.storage).totalShares := by
  have hopen := h.backed.open_books h.minted
  have hi := h.backed.nonneg.amount_le_total (i := vault)
  refine ⟨h.backed.nonneg vault, ?_⟩
  change w.storage.vaultPos.amount vault ≤ _
  change w.storage.vaultPos.amount vault ≤ w.storage.vaultPos.total at hi
  change w.storage.vaultPos.total + 1000 = _ ∧ _ at hopen
  omega

theorem withdraw_totals {s s' : Storage} {vault : Address} {n v rate : ℤ} {q : StrategyReserves}
    (hb : Backed 1000 (books s))
    (h : BlendReserves.withdraw s vault n (getStrategyReserveUpdated s rate) = .ok (v, q, s')) :
    0 < (books s').totalShares ∧ 0 < (books s').assets ∧
      (books s').totalShares ≤ (books s).totalShares ∧
      (books s').assets = (books s).assets - n := by
  have hmove := withdraw_move hb h
  have hopen : 0 < (books s').totalShares := hmove.opens (by decide) hb (.inr fun _ => by simp)
  have hback : Backed 1000 (books s') := hmove.backed (by decide) hb
  have hbooks := hback.open_books hopen
  obtain ⟨hn, burnt, hup, _, _, _, _, rfl, rfl⟩ := withdraw_recorded h
  refine ⟨hopen, by omega, ?_, rfl⟩
  have hS := hmove.leave_open
  have hB : 0 < (books s).assets := hS.trans_le (hb.open_books hS).2
  have hburnt : 0 ≤ burnt := by
    rw [bTokensToSharesUp_open hS hB hup]
    exact ceilDiv_nonneg (mul_nonneg hn.le hS.le) hB
  change (books s).totalShares - burnt ≤ (books s).totalShares
  omega

theorem product_holds {S S' B B' : ℤ} (hS : 0 < S') (hB : 0 < B') (hSS : S' ≤ S) (hBB : B' ≤ B)
    (h : i128.Holds (S * B)) : i128.Holds (S' * B') := by
  refine i128_holds_of_le (mul_nonneg hS.le hB.le) ?_ h
  exact mul_le_mul hSS hBB hB.le (hS.le.trans hSS)

theorem poolWithdraw_succeeds {env : Env} {x due : ℤ} (dest : Address)
    (hdue : env.burn x = some due) (hcap : due ≤ w.position env.reserveIndex) (hx : 0 ≤ x)
    (hpool : x ≤ w.tokens config.asset config.pool) :
    ∃ u, poolWithdraw env w dest x config = .ok (x, u) ∧ u.storage = w.storage := by
  have houtcome : withdrawOutcome (w.position env.reserveIndex) due x env.bRate = (due, x) :=
    if_pos hcap
  obtain ⟨tokens, htransfer⟩ :
      ∃ tokens, w.tokens.transfer config.asset config.pool dest x = .ok tokens :=
    ⟨_, Ledger.transfer_eq_ok.mpr ⟨hx, hpool, rfl⟩⟩
  refine ⟨{ w with tokens, supply := movedSupply env w (-due) }, ?_, rfl⟩
  simp only [poolWithdraw, submit, bind_eq_ok, orFault_eq_ok, pure_eq_ok, Prod.mk.injEq,
    true_and]
  refine ⟨_, ⟨due, hdue, ?_⟩, rfl⟩
  rw [houtcome]
  exact ⟨tokens, htransfer, rfl⟩

/-- A plan within the vault's shares goes through once the pool has paid. -/
theorem withdraw_completes {env : Env} {vault dest : Address} {x n s : ℤ}
    (hb : Backed 1000 (books w.storage)) (hconfig : w.storage.config = some config)
    (hS : 0 < (books w.storage).totalShares) (hr : 0 < env.bRate)
    (hSB : i128.Holds ((books w.storage).totalShares * (books w.storage).assets))
    (hBr : i128.Holds ((books w.storage).assets * env.bRate))
    (hauth : env.caller.Authorises vault) (ha : 0 < amount)
    (hplan : calculateOptimalWithdrawAmount amount
      (getStrategyReserveUpdated w.storage env.bRate) = .ok (x, n))
    (hup : (getStrategyReserveUpdated w.storage env.bRate).bTokensToSharesUp n = .ok s)
    (hn : 0 < n) (hnB : n ≤ (books w.storage).assets) (hs : 0 ≤ s)
    (hsv : s ≤ getVaultShares w.storage vault)
    (hpool : ∃ u, poolWithdraw env w dest x config = .ok (x, u) ∧ u.storage = w.storage) :
    ∃ k w', BlendContract.withdraw env w amount vault dest = .ok (k, w') := by
  obtain ⟨u, hpool, hstorage⟩ := hpool
  have hB : 0 < (books w.storage).assets := hS.trans_le (hb.open_books hS).2
  have hvS : getVaultShares w.storage vault ≤ (books w.storage).totalShares := by
    have hopen := (hb.open_books hS).1
    have hi : getVaultShares w.storage vault ≤ (books w.storage).held.total :=
      hb.nonneg.amount_le_total
    omega
  have hSfit : i128.Holds (books w.storage).totalShares :=
    i128_holds_of_le hS.le (by nlinarith) hSB
  have hBfit : i128.Holds (books w.storage).assets := i128_holds_of_le hB.le (by nlinarith) hSB
  obtain ⟨⟨v, q, s'⟩, hrec⟩ := withdraw_succeeds (s := w.storage)
    (q := getStrategyReserveUpdated w.storage env.bRate) vault hn hup hs hsv hvS hnB hSfit hBfit
  obtain ⟨hS', hB', hSS, hBB⟩ := withdraw_totals hb hrec
  obtain ⟨_, burnt, hup', _, _, _, hv, hq, rfl⟩ := withdraw_recorded hrec
  obtain rfl : s = burnt := Except.ok.inj (hup.symm.trans hup')
  have hrate : q.bRate = env.bRate := by
    rw [hq]
    rfl
  have hvq : v ≤ q.totalShares := by
    rw [hq]
    change v ≤ (books w.storage).totalShares - s
    omega
  have hBle : q.totalBTokens ≤ (books w.storage).assets := hBB.trans_le (by omega)
  have hreport : ∃ out, sharesToUnderlying v q = .ok out := by
    apply sharesToUnderlying_succeeds (by omega) hvq hS' hB'
    · rw [hrate]
      exact hr
    · exact product_holds hS' hB' hSS hBle hSB
    · rw [hrate]
      exact product_holds hB' hr hBle le_rfl hBr
  obtain ⟨out, hout⟩ := hreport
  have hrec' : BlendReserves.withdraw u.storage vault n
      (getStrategyReserveUpdated w.storage env.bRate) =
        .ok (v, q, recorded w.storage vault v q) := by
    rw [hstorage]
    exact hrec
  simp only [BlendContract.withdraw, checkPositiveAmount, requireAuth, getConfig, bind_eq_ok,
    ensure_eq_ok, okOr_eq_ok, pure_eq_ok, exists_const, Prod.exists, Prod.mk.injEq]
  exact ⟨out, _, ha, hauth, config, hconfig, x, n, hplan, x, u, hpool, v, q, _,
    hrec', out, hout, rfl, rfl⟩

/-- No check of the strategy stops a vault from taking up to its balance. -/
theorem withdraw_admitted (h : Ready config r w) (hl : l.Admissible config r)
    (hpay : l.Payable config amount w) (ha : 0 < amount)
    (hle : amount ≤ reportedTo w r l.vault) :
    ∃ k w', BlendContract.withdraw l.env w amount l.vault l.dest = .ok (k, w') := by
  obtain rfl := hl.rate_eq
  have hr := hl.blend.rate_pos
  have hheld := h.held_le l.vault
  obtain ⟨x, n, s, hplan, hup, hn, hnB, hs, hsv, hax⟩ :=
    plan_exists (q := getStrategyReserveUpdated w.storage l.env.bRate) h.minted h.assets_pos hr
      h.product h.value hheld.2 ha hle
  have hx := withdraw_plan_value hplan
  obtain ⟨⟨due, hdue⟩, hpool⟩ := hpay x n hplan
  have hcap : due ≤ w.position l.env.reserveIndex := by
    have hdn : due ≤ n := by
      rw [hl.blend.burn_eq x due hdue, hx]
      exact ceilDiv_floorDiv_le hr scalar12_pos
    have hcovered := h.covered
    have hnB' : n ≤ (books w.storage).assets := hnB
    rw [hl.blend.index_eq]
    unfold surplus at hcovered
    omega
  refine withdraw_completes h.backed h.config_eq h.minted hr h.product h.value hl.authorised ha
    hplan hup hn hnB hs hsv ?_
  exact poolWithdraw_succeeds l.dest hdue hcap (by omega) hpool

theorem Ready.after {k : ℤ} {w' : World} (h : Ready config r w) (hl : l.Admissible config r)
    (hw : BlendContract.withdraw l.env w amount l.vault l.dest = .ok (k, w')) :
    Ready config r w' ∧
      ∀ u, u ≠ l.vault → reportedTo w r u ≤ reportedTo w' r u := by
  obtain rfl := hl.rate_eq
  have hr := hl.blend.rate_pos
  have hcall : invoke l.env w (.withdraw amount l.vault l.dest) = .ok w' := by
    simp only [invoke, hw]
    rfl
  have hconfig := invoke_config h.config_eq hcall
  have hcovered := h.covered.trans (invoke_surplus h.config_eq hl.blend h.covered hcall).1
  obtain ⟨x₀, n₀, due₀, hplan₀, _, _, _, _, hpaid, _⟩ :=
    withdraw_uncapped hl.blend h.covered hw h.config_eq
  obtain ⟨_, _, config', x, n, due, v, q, tokens, storage, _, hplan, _, _, hrec, _, hw'⟩ :=
    withdraw_ok hw
  obtain ⟨rfl, rfl⟩ := Prod.mk.inj (Except.ok.inj (hplan₀.symm.trans hplan))
  have hmove := withdraw_move h.backed hrec
  have hprice : PriceLe (books w.storage) (books storage) := hmove.priceLe h.minted
  obtain ⟨hS', hB', hSS, hBB⟩ := withdraw_totals h.backed hrec
  have hn : 0 < n₀ := (withdraw_recorded hrec).1
  have hstorage : w'.storage = storage := by rw [hw']
  have hframe : ∀ u, u ≠ l.vault → getVaultShares w'.storage u = getVaultShares w.storage u := by
    intro u hu
    have hne : callVault (.withdraw amount l.vault l.dest) ≠ some u :=
      fun he => hu (Option.some.inj he).symm
    exact invoke_frame hne hcall
  rw [hstorage] at hframe
  refine ⟨⟨hconfig, ?_, ?_, ?_, ?_, hcovered⟩, ?_⟩
  · rw [hstorage]
    exact hmove.backed (by decide) h.backed
  · rw [hstorage]
    exact hS'
  · rw [hstorage]
    exact product_holds hS' hB' hSS (by omega) h.product
  · rw [hstorage]
    exact product_holds hB' hr (by omega) le_rfl h.value
  · intro u hu
    unfold reportedTo reported
    rw [hstorage, hframe u hu]
    apply floorDiv_mono scalar12_pos
    apply mul_le_mul_of_nonneg_right _ hr.le
    apply floorDiv_le_floorDiv h.minted hS'
    have hu0 := (h.held_le u).1
    unfold PriceLe at hprice
    nlinarith

end Admission

/-- The vault withdraws its balance. -/
def leave (β : Address → ℤ) (l : Leaver) (w : World) : Outcome World :=
  invoke l.env w (.withdraw (β l.vault) l.vault l.dest)

/-- The withdrawal succeeds: the pool pays the vault's destination at least `amount`,
and burns no more than the strategy's position. -/
def Leaver.Served (config : Config) (amount : ℤ) (l : Leaver) (w : World) : Prop :=
  ∃ k w' x due, BlendContract.withdraw l.env w amount l.vault l.dest = .ok (k, w') ∧
    w.tokens.transfer config.asset config.pool l.dest x = .ok w'.tokens ∧ amount ≤ x ∧
    l.env.burn x = some due ∧ due ≤ w.position config.reserveId

section Queue
variable {config : Config} {r : ℤ} {w : World} {ls : List Leaver} {β : Address → ℤ}

/-- The payment of a successful withdrawal covers what was asked for. -/
theorem payment_covers {l : Leaver} {amount k : ℤ} {w' : World} (h : Ready config r w)
    (hl : l.Admissible config r)
    (hle : amount ≤ reportedTo w r l.vault)
    (hw : BlendContract.withdraw l.env w amount l.vault l.dest = .ok (k, w')) :
    ∃ x due, w.tokens.transfer config.asset config.pool l.dest x = .ok w'.tokens ∧
      amount ≤ x ∧ l.env.burn x = some due ∧ due ≤ w.position config.reserveId := by
  obtain rfl := hl.rate_eq
  obtain ⟨x, n, due, hplan, hdue, _, _, hcap, hpaid, _⟩ :=
    withdraw_uncapped hl.blend h.covered hw h.config_eq
  obtain ⟨ha, _⟩ := withdraw_ok hw
  obtain ⟨y, m, _, hplan', _, _, _, _, _, hay⟩ :=
    plan_exists (q := getStrategyReserveUpdated w.storage l.env.bRate) h.minted h.assets_pos
      hl.blend.rate_pos h.product h.value (h.held_le l.vault).2 ha hle
  obtain ⟨rfl, rfl⟩ := Prod.mk.inj (Except.ok.inj (hplan.symm.trans hplan'))
  exact ⟨x, due, hpaid, hay, hdue, hcap⟩

theorem leaver_served {l : Leaver} (h : Ready config r w) (hl : l.Admissible config r)
    (hpos : 0 < β l.vault) (hle : β l.vault ≤ reportedTo w r l.vault)
    (hpay : l.Payable config (β l.vault) w) : l.Served config (β l.vault) w := by
  obtain ⟨k, w', hw⟩ := withdraw_admitted h hl hpay hpos hle
  obtain ⟨x, due, hpaid, hax, hdue, hcap⟩ := payment_covers h hl hle hw
  exact ⟨k, w', x, due, hw, hpaid, hax, hdue, hcap⟩

theorem queue_served (h : Ready config r w) (hnodup : (ls.map Leaver.vault).Nodup)
    (hl : ∀ l ∈ ls, l.Admissible config r)
    (hβ : ∀ l ∈ ls, 0 < β l.vault ∧ β l.vault ≤ reportedTo w r l.vault) :
    Each (leave β) (fun l u => l.Payable config (β l.vault) u → l.Served config (β l.vault) u)
      w ls := by
  refine TransactionalRun.each_of_independent (I := Ready config r) Leaver.vault
    (fun l u => 0 < β l.vault ∧ β l.vault ≤ reportedTo u r l.vault) ?_ ?_ h hnodup hl hβ
  · intro l u hadm hu hdue hpay
    exact leaver_served hu hadm hdue.1 hdue.2 hpay
  · intro l u u' hadm hu hstep
    obtain ⟨k, hw⟩ := forget_eq_ok.mp hstep
    obtain ⟨hready, hothers⟩ := hu.after hadm hw
    refine ⟨hready, ?_⟩
    intro m hm hdue
    exact ⟨hdue.1, hdue.2.trans (hothers m.vault hm)⟩

/-- Whoever has a positive balance owns shares of a pool that has some. -/
theorem minted_of_balance {env : Env} {vault : Address} {b : ℤ}
    (hb : Backed 1000 (books w.storage)) (hpos : 0 < b) (h : balance env w vault = .ok b) :
    0 < (books w.storage).totalShares := by
  rcases hb.pos_or_zero (by decide) with hS | hS
  · have hzero : getVaultShares w.storage vault = 0 := by
      rcases hb.books with ⟨_, htotal, _⟩ | ⟨htotal, _⟩
      · exact hb.amount_eq_zero htotal vault
      · have := hb.total_nonneg
        omega
    unfold balance at h
    simp only [hzero, lt_self_iff_false, if_false, pure_eq_ok] at h
    omega
  · exact hS.1

/-- From every reachable state whose products fit, the vaults with a positive
balance may withdraw their balances in any order: whenever Blend serves the
planned payment of the vault whose turn it is, the withdrawal succeeds and pays at
least that balance, out of the strategy's own position. -/
theorem every_order_served (w₀ : World) (config : Config) (acts : List Action) (r : ℤ)
    (ls : List Leaver) (β : Address → ℤ) (hw : Deployed w₀)
    (hconfig : w₀.storage.config = some config)
    (hacts : EveryCall (IsBlend config.reserveId) acts)
    (hSB : i128.Holds ((getStrategyReserves (run w₀ acts).storage).totalShares *
      (getStrategyReserves (run w₀ acts).storage).totalBTokens))
    (hBr : i128.Holds ((getStrategyReserves (run w₀ acts).storage).totalBTokens * r))
    (hnodup : (ls.map Leaver.vault).Nodup) (hl : ∀ l ∈ ls, l.Admissible config r)
    (hβ : ∀ l ∈ ls, 0 < β l.vault ∧ balance l.env (run w₀ acts) l.vault = .ok (β l.vault)) :
    Each (leave β) (fun l u => l.Payable config (β l.vault) u → l.Served config (β l.vault) u)
      (run w₀ acts) ls := by
  have hb : Backed 1000 (books (run w₀ acts).storage) := run_backed acts (Deployed.backed hw)
  obtain ⟨hconfig', hcovered⟩ := run_covered hw hconfig hacts
  cases ls with
  | nil => trivial
  | cons l ls =>
      obtain ⟨hpos, hbal⟩ := hβ l (by simp)
      have hS := minted_of_balance hb hpos hbal
      refine queue_served ⟨hconfig', hb, hS, hSB, hBr, hcovered⟩ hnodup hl ?_
      intro m hm
      obtain ⟨hmpos, hmbal⟩ := hβ m hm
      refine ⟨hmpos, le_of_eq ?_⟩
      rw [balance_open hb hS hmbal, (hl m hm).rate_eq]
      rfl

/-- The two deposits of the sample and its withdrawal, after which borrowers leave
5500 in the pool; the books are worth 6600. -/
def sampleLent : List Action :=
  sampleActions ++ [.others (Function.update sampleWorld.tokens sampleAsset
    (Function.update (sampleWorld.tokens sampleAsset) samplePool 5500))]

/-- Both depositors leave, the later one first. -/
def sampleLeavers : List Leaver :=
  [⟨sampleEnv (.account 2), .account 2, .account 4⟩,
    ⟨sampleEnv (.account 1), .account 1, .account 3⟩]

def sampleBalance (vault : Address) : ℤ :=
  if vault = .account 1 then 3300 else 2200

theorem sampleLent_isBlend : EveryCall (IsBlend 0) sampleLent := by
  intro env c hmem
  rcases List.mem_append.mp hmem with h | h
  · exact sampleActions_isBlend env c h
  · simp at h

theorem sampleLeavers_admissible :
    ∀ l ∈ sampleLeavers, l.Admissible sampleConfig 1100000000000 := by
  intro l hl
  simp only [sampleLeavers, List.mem_cons, List.not_mem_nil, or_false] at hl
  rcases hl with rfl | rfl
  · exact ⟨rfl, sampleEnv_isBlend _, by decide⟩
  · exact ⟨rfl, sampleEnv_isBlend _, by decide⟩

theorem sampleLeavers_balance : ∀ l ∈ sampleLeavers, 0 < sampleBalance l.vault ∧
    balance l.env (run sampleWorld sampleLent) l.vault = .ok (sampleBalance l.vault) := by
  intro l hl
  simp only [sampleLeavers, List.mem_cons, List.not_mem_nil, or_false] at hl
  rcases hl with rfl | rfl
  · exact ⟨by decide, rfl⟩
  · exact ⟨by decide, rfl⟩

theorem every_order_served_sample :
    (∃ k w', BlendContract.withdraw (sampleEnv (.account 2)) (run sampleWorld sampleLent) 2200
      (.account 2) (.account 4) = .ok (k, w')) ∧
    ∃ k w', BlendContract.withdraw (sampleEnv (.account 1)) (TransactionalRun.run
      (leave sampleBalance) (run sampleWorld sampleLent) (sampleLeavers.take 1)) 3300
      (.account 1) (.account 3) = .ok (k, w') := by
  obtain ⟨hfirst, hsecond, _⟩ := every_order_served sampleWorld sampleConfig sampleLent
    1100000000000 sampleLeavers sampleBalance sampleWorld_deployed rfl sampleLent_isBlend
    (by decide +kernel) (by decide +kernel) (by decide) sampleLeavers_admissible
    sampleLeavers_balance
  constructor
  · obtain ⟨k, w', _, _, h, _⟩ := hfirst (by
      intro x n hplan
      obtain ⟨rfl, rfl⟩ := Prod.mk.inj (Except.ok.inj hplan)
      exact ⟨⟨_, rfl⟩, by decide +kernel⟩)
    exact ⟨k, w', h⟩
  · obtain ⟨k, w', _, _, h, _⟩ := hsecond (by
      intro x n hplan
      obtain ⟨rfl, rfl⟩ := Prod.mk.inj (Except.ok.inj hplan)
      exact ⟨⟨_, rfl⟩, by decide +kernel⟩)
    exact ⟨k, w', h⟩

end Queue

end NekoStrategies.BlendBankRun
