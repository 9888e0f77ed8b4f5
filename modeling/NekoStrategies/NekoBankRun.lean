import NekoStrategies.NekoEconomics

/-!
# A run on the Neko strategy

While the lending pool stays at one rate, the vaults may withdraw what they are
reported to own in any order. A withdrawal of one vault leaves the bTokens of
the others alone, and the pool pays no more than the burned bTokens are worth,
so whoever comes last is served like the first.
-/
namespace NekoStrategies.NekoBankRun
open CheckedInteger RoundedDivision SorobanHost NekoContract NekoEconomics StrategyPositions.Neko

/-- A vault that leaves: the invocation it makes and where it is paid. -/
structure Leaver where
  env : Env
  vault : Address
  dest : Address

/-- The pool serves the vault's invocation at the rate `r`. -/
structure Leaver.Admissible (r : ℤ) (l : Leaver) : Prop where
  at_rate : AtRate r l.env
  pays : ∀ b, ∃ p, l.env.pay b = some p

/-- A state that can serve every vault. -/
structure Ready (config : Config) (r : ℤ) (w : World) : Prop where
  config_eq : w.storage.config = some config
  nonneg : w.storage.bTokens.Nonneg
  fits : i128.Holds ((w.storage.bTokens.total + 1) * r)
  liquid : w.storage.bTokens.total * r ≤ w.tokens config.asset config.lendingPool * scalar12
  purse : 0 ≤ w.tokens config.asset w.self

section Requests
variable {config : Config} {r amount v : ℤ} {w : World} {env : Env}

/-- The hand-written ceiling does not overflow before the holding does. -/
theorem bTokensToBurn_succeeds (hr : 0 < r) (ha : 0 < amount)
    (hle : amount * scalar12 ≤ v * r) (hfits : i128.Holds ((v + 1) * r)) :
    bTokensToBurn amount r = .ok (ceilDiv (amount * scalar12) r) := by
  have hproduct : 0 < amount * scalar12 := mul_pos ha scalar12_pos
  have hburn := burn_request ha hr
  have hceil : 0 < ceilDiv (amount * scalar12) r := ceilDiv_pos hproduct hr
  have hceilv : ceilDiv (amount * scalar12) r ≤ v := (ceilDiv_le_iff hr).mpr hle
  rw [add_mul, one_mul] at hfits
  simp only [bTokensToBurn, bind_eq_ok, okOr_eq_ok, plainSub_eq_ok, Width.checkedMul_eq_some,
    Width.checkedAdd_eq_some, Width.checkedDiv_eq_some]
  refine ⟨_, ⟨?_, rfl⟩, _, ⟨?_, rfl⟩, _, ⟨?_, rfl⟩, hr.ne', ?_, hburn⟩
  · exact i128_holds_of_le hproduct.le (by omega) hfits
  · exact i128_holds_of_le (by omega) (by omega) hfits
  · exact i128_holds_of_le (by omega) (by omega) hfits
  · rw [hburn]
    exact i128_holds_of_le hceil.le (by nlinarith) hfits

theorem nonneg_of_transfer {l l' : Ledger} {t a b t' h' : Address} {x : ℤ}
    (ht : l.transfer t a b x = .ok l') (hl : 0 ≤ l t' h') : 0 ≤ l' t' h' := by
  obtain ⟨hx, hle, _⟩ := Ledger.transfer_eq_ok.mp ht
  rw [Ledger.transfer_apply ht]
  by_cases hsender : t' = t ∧ h' = a
  · obtain ⟨rfl, rfl⟩ := hsender
    simp only [true_and, and_self, if_true]
    split_ifs <;> omega
  · simp only [hsender, if_false]
    split_ifs <;> omega

end Requests

section Withdrawals
variable {config : Config} {r amount : ℤ} {w w' : World} {l : Leaver}

theorem Ready.held_fits (h : Ready config r w) (hr : 0 < r) (vault : Address) :
    i128.Holds ((getBTokens w.storage vault + 1) * r) := by
  have hv : 0 ≤ getBTokens w.storage vault := h.nonneg vault
  have hle : getBTokens w.storage vault ≤ w.storage.bTokens.total := h.nonneg.amount_le_total
  refine i128_holds_of_le (mul_nonneg (by omega) hr.le) ?_ h.fits
  exact mul_le_mul_of_nonneg_right (by omega) hr.le

theorem Ready.all_fit (h : Ready config r w) (hr : 0 < r) : Fits r w := by
  intro vault
  have hv : 0 ≤ getBTokens w.storage vault := h.nonneg vault
  refine i128_holds_of_le (mul_nonneg hv hr.le) ?_ (h.held_fits hr vault)
  exact mul_le_mul_of_nonneg_right (by omega) hr.le

theorem Ready.pays {b p : ℤ} (h : Ready config r w) (hr : 0 < r)
    (hb : b ≤ w.storage.bTokens.total) (hp : p = floorDiv (b * r) scalar12) :
    p ≤ w.tokens config.asset config.lendingPool := by
  have hcost := floorDiv_mul_le (b * r) scalar12_pos
  have hbr := mul_le_mul_of_nonneg_right hb hr.le
  rw [← hp] at hcost
  exact le_of_mul_le_mul_right (hcost.trans (hbr.trans h.liquid)) scalar12_pos

theorem withdraw_admitted (h : Ready config r w) (hl : l.Admissible r) (hr : 0 < r)
    (ha : 0 < amount) (hle : amount ≤ value r w l.vault) :
    ∃ k w', withdraw l.env w amount l.vault l.dest = .ok (k, w') := by
  have hv : 0 ≤ getBTokens w.storage l.vault := h.nonneg l.vault
  have hworth : amount * scalar12 ≤ getBTokens w.storage l.vault * r :=
    (le_floorDiv_iff scalar12_pos).mp hle
  have hburn := bTokensToBurn_succeeds hr ha hworth (h.held_fits hr l.vault)
  set b := ceilDiv (amount * scalar12) r with hbdef
  have hb : 0 < b := ceilDiv_pos (mul_pos ha scalar12_pos) hr
  have hbv : b ≤ getBTokens w.storage l.vault := (ceilDiv_le_iff hr).mpr hworth
  have hbr : i128.Holds (b * r) := by
    refine i128_holds_of_le (mul_nonneg hb.le hr.le) ?_ (h.all_fit hr l.vault)
    exact mul_le_mul_of_nonneg_right hbv hr.le
  have hout : 0 ≤ floorDiv (b * r) scalar12 :=
    floorDiv_nonneg (mul_nonneg hb.le hr.le) scalar12_pos
  have hdiv : (b * r).tdiv scalar12 = floorDiv (b * r) scalar12 := by
    rw [Int.tdiv_eq_ediv_of_nonneg (mul_nonneg hb.le hr.le), ← floorDiv_eq_ediv scalar12_pos]
  obtain ⟨p, hp⟩ := hl.pays b
  have hpval := hl.at_rate.pay_eq b p hp
  have hp0 : 0 ≤ p := hpval ▸ hout
  have hpool := h.pays hr (hbv.trans h.nonneg.amount_le_total) hpval
  obtain ⟨t₁, ht₁⟩ : ∃ t, w.tokens.transfer config.asset config.lendingPool w.self p = .ok t :=
    ⟨_, Ledger.transfer_eq_ok.mpr ⟨hp0, hpool, rfl⟩⟩
  have hreceived : p ≤ t₁ config.asset w.self := by
    have hpurse := h.purse
    rw [Ledger.transfer_apply ht₁]
    by_cases hself : w.self = config.lendingPool
    · rw [← hself] at hpool
      simpa [hself] using hself ▸ hpool
    · simp [hself, hpurse]
  obtain ⟨t₂, ht₂⟩ : ∃ t, t₁.transfer config.asset w.self l.dest p = .ok t :=
    ⟨_, Ledger.transfer_eq_ok.mpr ⟨hp0, hreceived, rfl⟩⟩
  have hleft : i128.Holds (getBTokens w.storage l.vault - b) := by
    refine i128_holds_of_le (by omega) ?_ (h.all_fit hr l.vault)
    nlinarith
  simp only [withdraw, checkPositiveAmount, loadConfig, h.config_eq, hl.at_rate.rate_eq,
    lendingWithdraw, bind_eq_ok, ensure_eq_ok, orFault_eq_ok, okOr_eq_ok, plainSub_eq_ok,
    pure_eq_ok, exists_const, Prod.exists, Prod.mk.injEq, Width.checkedMul_eq_some,
    Width.checkedDiv_eq_some]
  have hmin : min b (getBTokens w.storage l.vault) = b := min_eq_left hbv
  have houtfits : i128.Holds (floorDiv (b * r) scalar12) := by
    have hfloor := floorDiv_mul_le (b * r) scalar12_pos
    exact i128_holds_of_le hout (by unfold scalar12 at hfloor hout ⊢; omega) hbr
  refine ⟨_, _, ha, config, rfl, hr.ne', b, hburn, hb.ne', by omega, b * r, ⟨?_, by rw [hmin]⟩, _,
    ⟨scalar12_pos.ne', ?_, rfl⟩, p, _, ⟨p, ?_, t₁, ht₁, rfl, rfl⟩, t₂, ht₂, _, ⟨?_, rfl⟩, rfl, rfl⟩
  · rw [hmin]
    exact hbr
  · rw [hdiv]
    exact houtfits
  · rw [hmin]
    exact hp
  · rw [hmin]
    exact hleft

/-- The vault is paid from the pool, at least the amount, and if that is its value
has nothing left. -/
def Paid (config : Config) (r amount : ℤ) (l : Leaver) (s t : World) : Prop :=
  ∃ paid, s.tokens.Moved t.tokens config.asset config.lendingPool l.dest paid ∧ amount ≤ paid ∧
    underlyingBalance t.storage l.vault r = 0

/-- After a vault left, the state still serves the others. -/
theorem Ready.after {k : ℤ} (h : Ready config r w) (hl : l.Admissible r) (hr : 0 < r)
    (hw : withdraw l.env w amount l.vault l.dest = .ok (k, w')) :
    Ready config r w' ∧ ∀ u, u ≠ l.vault → value r w' u = value r w u := by
  have hpay := withdraw_payment hw
  obtain ⟨⟨c, hc, hmoved⟩, _⟩ := withdraw_value hr hl.at_rate hw
  obtain rfl := Option.some.inj (hc.symm.trans h.config_eq)
  obtain ⟨ha, _, hv0, c', b, paid, tokens, tokens', hc', hb, hb0, _, ht, ht', _, hw'⟩ :=
    withdraw_ok hw
  obtain rfl := Option.some.inj (hc'.symm.trans h.config_eq)
  rw [← hb] at hpay
  rw [hl.at_rate.rate_eq, burn_request ha hr] at hb
  set burnt := min b (getBTokens w.storage l.vault) with hburnt
  have hv : 0 ≤ getBTokens w.storage l.vault := h.nonneg l.vault
  have hb1 : 0 < b := hb ▸ ceilDiv_pos (mul_pos ha scalar12_pos) hr
  have hburnt0 : 0 ≤ burnt := le_min hb1.le hv
  have hburntv : burnt ≤ getBTokens w.storage l.vault := min_le_right _ _
  have htotal : w'.storage.bTokens.total = w.storage.bTokens.total - burnt := by
    rw [hw']
    simp only [setBTokens, Attribution.total_set, getBTokens]
    ring
  have hall : getBTokens w.storage l.vault ≤ w.storage.bTokens.total := h.nonneg.amount_le_total
  refine ⟨⟨?_, ?_, ?_, ?_, ?_⟩, ?_⟩
  · rw [hw']
    exact h.config_eq
  · rw [hw']
    exact h.nonneg.set (by omega)
  · refine i128_holds_of_le (mul_nonneg (by omega) hr.le) ?_ h.fits
    exact mul_le_mul_of_nonneg_right (by omega) hr.le
  · have hcost : payment l.env w amount l.vault * scalar12 ≤ burnt * r := by
      rw [hl.at_rate.pay_eq _ _ hpay]
      exact floorDiv_mul_le _ scalar12_pos
    have hleft : w.tokens c'.asset c'.lendingPool - payment l.env w amount l.vault ≤
        w'.tokens c'.asset c'.lendingPool := by
      have hpaid : 0 ≤ payment l.env w amount l.vault := by
        rw [hl.at_rate.pay_eq _ _ hpay]
        exact floorDiv_nonneg (mul_nonneg hburnt0 hr.le) scalar12_pos
      rw [hmoved]
      split_ifs <;> omega
    have hscaled := mul_le_mul_of_nonneg_right hleft scalar12_pos.le
    have hliquid := h.liquid
    rw [htotal]
    linarith
  · have hpurse := nonneg_of_transfer ht' (nonneg_of_transfer ht h.purse)
    rw [hw']
    exact hpurse
  · intro u hu
    rw [hw']
    simp only [value, getBTokens, setBTokens, Attribution.amount_set_of_ne hu]

theorem withdraw_paid {k : ℤ} (h : Ready config r w) (hl : l.Admissible r) (hr : 0 < r)
    (hready : Ready config r w') (hamount : amount = value r w l.vault)
    (hw : withdraw l.env w amount l.vault l.dest = .ok (k, w')) :
    Paid config r amount l w w' := by
  obtain ⟨⟨c, hc, hmoved⟩, _, hmin, _, _, hleft⟩ := withdraw_value hr hl.at_rate hw
  obtain rfl := Option.some.inj (hc.symm.trans h.config_eq)
  rw [← hamount, min_self] at hmin
  refine ⟨_, hmoved, hmin, ?_⟩
  rw [balance_value hr hready.nonneg (hready.all_fit hr)]
  have hvalue : 0 ≤ value r w' l.vault :=
    floorDiv_nonneg (mul_nonneg (hready.nonneg l.vault) hr.le) scalar12_pos
  omega

end Withdrawals

/-- A vault withdraws its balance. -/
def leave (β : Address → ℤ) (l : Leaver) (w : World) : Outcome World :=
  invoke l.env w (.withdraw (β l.vault) l.vault l.dest)

section Queue
variable {config : Config} {r : ℤ} {w : World} {ls : List Leaver} {β : Address → ℤ}

theorem queue_served (h : Ready config r w) (hr : 0 < r) (hnodup : (ls.map Leaver.vault).Nodup)
    (hl : ∀ l ∈ ls, l.Admissible r)
    (hβ : ∀ l ∈ ls, 0 < β l.vault ∧ β l.vault = value r w l.vault) :
    TransactionalRun.Serves (leave β) (fun l => Paid config r (β l.vault) l) w ls := by
  refine TransactionalRun.serves_of_independent (I := Ready config r) Leaver.vault
    (fun l s => 0 < β l.vault ∧ β l.vault = value r s l.vault) ?_ h hnodup hl hβ
  intro l s hadm hs hdue
  obtain ⟨k, t, hcall⟩ := withdraw_admitted hs hadm hr hdue.1 hdue.2.le
  obtain ⟨hready, hothers⟩ := hs.after hadm hr hcall
  refine ⟨t, forget_eq_ok.mpr ⟨k, hcall⟩, withdraw_paid hs hadm hr hready hdue.2 hcall, hready, ?_⟩
  intro m hm hmdue
  exact ⟨hmdue.1, hmdue.2.trans (hothers m.vault hm).symm⟩

end Queue

/-- From every reachable state, whatever rates the pool went through: at a rate at
which all bTokens fit and the pool can pay them, the vaults with a positive
balance may withdraw their balances in any order. Every withdrawal commits, pays
at least the balance and leaves none. -/
theorem served_in_every_order (w₀ : World) (config : Config) (acts : List Action) (r : ℤ)
    (ls : List Leaver) (β : Address → ℤ) (hw : Deployed w₀) (hr : 0 < r)
    (hacts : ∀ a ∈ acts, MintsNonnegAction a)
    (hconfig : (run w₀ acts).storage.config = some config)
    (hfits : i128.Holds (((run w₀ acts).storage.bTokens.total + 1) * r))
    (hliquid : (run w₀ acts).storage.bTokens.total * r ≤
      (run w₀ acts).tokens config.asset config.lendingPool * scalar12)
    (hpurse : 0 ≤ (run w₀ acts).tokens config.asset (run w₀ acts).self)
    (hnodup : (ls.map Leaver.vault).Nodup) (hl : ∀ l ∈ ls, l.Admissible r)
    (hβ : ∀ l ∈ ls, 0 < β l.vault ∧ balance l.env (run w₀ acts) l.vault = .ok (β l.vault)) :
    TransactionalRun.Serves (leave β) (fun l => Paid config r (β l.vault) l) (run w₀ acts) ls := by
  have hempty : w₀.storage.bTokens = .empty := deployed_empty hw
  have hn : (run w₀ acts).storage.bTokens.Nonneg :=
    run_nonneg (by rw [hempty]; exact Attribution.Nonneg.empty) hacts
  have hready : Ready config r (run w₀ acts) := ⟨hconfig, hn, hfits, hliquid, hpurse⟩
  apply queue_served hready hr hnodup hl
  intro l hmem
  obtain ⟨hpos, hbalance⟩ := hβ l hmem
  refine ⟨hpos, ?_⟩
  obtain ⟨_, _, heq⟩ := bind_eq_ok.mp hbalance
  rw [← pure_eq_ok.mp heq, (hl l hmem).at_rate.rate_eq]
  exact balance_value hr hn (hready.all_fit hr)

/-- Two vaults of the sample leave at rate 1.1, the later one first. -/
def sampleLeavers : List Leaver :=
  [⟨sampleRateEnv (.account 2), .account 2, .account 4⟩,
    ⟨sampleRateEnv (.account 1), .account 1, .account 3⟩]

/-- Both have entered at rate 1.0. -/
def sampleEntries : List Action :=
  [.transfer sampleAsset (.account 1) (.contract 0) 2000,
    .call (sampleEnv (.account 1)) (.deposit 2000 (.account 1)),
    .transfer sampleAsset (.account 2) (.contract 0) 3000,
    .call (sampleEnv (.account 2)) (.deposit 3000 (.account 2))]

def sampleBalance (vault : Address) : ℤ := if vault = .account 1 then 2200 else 3300

theorem sampleEntries_mint : ∀ a ∈ sampleEntries, MintsNonnegAction a := by
  intro a ha
  simp only [sampleEntries, List.mem_cons, List.not_mem_nil, or_false] at ha
  rcases ha with rfl | rfl | rfl | rfl
  · trivial
  · intro x m _
    exact (sampleEnv_sound (.account 1)).mint_nonneg x m
  · trivial
  · intro x m _
    exact (sampleEnv_sound (.account 2)).mint_nonneg x m

theorem served_in_every_order_sample :
    TransactionalRun.Serves (leave sampleBalance)
      (fun l => Paid ⟨sampleAsset, .contract 2, "CETES"⟩ 1100000000000 (sampleBalance l.vault) l)
      (run sampleWorld sampleEntries) sampleLeavers := by
  refine served_in_every_order sampleWorld ⟨sampleAsset, .contract 2, "CETES"⟩ sampleEntries
    1100000000000 sampleLeavers sampleBalance sampleWorld_deployed (by decide) sampleEntries_mint
    (by rfl) (by decide +kernel) (by decide +kernel) (by decide +kernel) (by decide) ?_ ?_
  · intro l hl
    simp only [sampleLeavers, List.mem_cons, List.not_mem_nil, or_false] at hl
    rcases hl with rfl | rfl
    · exact ⟨sampleRateEnv_atRate _, fun b => ⟨_, rfl⟩⟩
    · exact ⟨sampleRateEnv_atRate _, fun b => ⟨_, rfl⟩⟩
  · intro l hl
    simp only [sampleLeavers, List.mem_cons, List.not_mem_nil, or_false] at hl
    rcases hl with rfl | rfl
    · exact ⟨by decide, rfl⟩
    · exact ⟨by decide, rfl⟩

end NekoStrategies.NekoBankRun
