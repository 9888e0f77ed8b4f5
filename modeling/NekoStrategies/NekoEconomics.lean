import NekoStrategies.StrategyPositions

/-!
# What a Neko vault pays and gets back

At one rate of the lending pool. Deposits mint rounding down, withdrawals turn
the requested underlying into bTokens rounding up, are capped at the vault's
holding and pay rounding down. The floored value of a vault's bTokens is a
potential of the run: no rounding is ever in the vault's favour, and a deposit
loses less than the value of one bToken. The bTokens of all vaults are the
strategy's position in the pool, at any rates.
-/
namespace NekoStrategies.NekoEconomics
open CheckedInteger RoundedDivision SorobanHost NekoContract StrategyPositions.Neko

/-- The lending pool at one rate: it mints and pays rounding down, or fails. -/
structure AtRate (r : ℤ) (env : Env) : Prop where
  rate_eq : env.bRate = r
  rate_after_eq : env.bRateAfter = r
  mint_eq : ∀ a m, env.mint a = some m → m = floorDiv (a * scalar12) r
  pay_eq : ∀ b p, env.pay b = some p → p = floorDiv (b * r) scalar12

def AtRateAction (r : ℤ) : Action → Prop
  | .call env _ => AtRate r env
  | _ => True

/-- No vault's holding overflows when it is valued. -/
def Fits (r : ℤ) (w : World) : Prop :=
  ∀ vault, i128.Holds (getBTokens w.storage vault * r)

/-- Underlying that a vault hands in with a deposit. -/
def depositedBy (vault : Address) : Action → World → ℤ
  | .call _ (.deposit amount v), _ => if v = vault then amount else 0
  | _, _ => 0

/-- Underlying that a withdrawal is paid by the lending pool and sends on. -/
def payment (env : Env) (w : World) (amount : ℤ) (vault : Address) : ℤ :=
  match bTokensToBurn amount env.bRate with
  | .ok b => (env.pay (min b (getBTokens w.storage vault))).getD 0
  | .error _ => 0

def paidTo (vault : Address) : Action → World → ℤ
  | .call env (.withdraw amount v _), w => if v = vault then payment env w amount v else 0
  | _, _ => 0

section Position
variable {w w' : World} {a : Action}

/-- Whatever the pool answers, what it mints is attributed and what is burned
is debited. -/
theorem step_position (h : step a w = .ok w') (hp : w.storage.bTokens.total = w.position) :
    w'.storage.bTokens.total = w'.position := by
  rcases a with ⟨env, c⟩ | ⟨token, sender, receiver, amount⟩ | tokens
  · cases c with
    | construct asset args =>
        obtain ⟨_, config, rfl⟩ := construct_ok h
        exact hp
    | deposit amount vault =>
        obtain ⟨k, hu⟩ := forget_eq_ok.mp h
        obtain ⟨_, config, minted, tokens, _, _, _, _, rfl⟩ := deposit_ok hu
        simp only [setBTokens, Attribution.total_set, getBTokens]
        omega
    | withdraw amount vault dest =>
        obtain ⟨k, hu⟩ := forget_eq_ok.mp h
        obtain ⟨_, _, _, config, b, paid, tokens, tokens', _, _, _, _, _, _, _, rfl⟩ :=
          withdraw_ok hu
        simp only [setBTokens, Attribution.total_set, getBTokens]
        omega
    | harvest sender data =>
        simp only [step, invoke, harvest, bind_eq_ok, pure_eq_ok] at h
        obtain ⟨_, _, rfl⟩ := h
        exact hp
    | asset | balance vault =>
        obtain ⟨_, rfl⟩ := readOnly_eq_ok.mp h
        exact hp
  · obtain ⟨_, _, _, rfl⟩ := guarded_eq_ok.mp h
    exact hp
  · obtain rfl := Except.ok.inj h
    exact hp

theorem run_position (acts : List Action) (hp : w.storage.bTokens.total = w.position) :
    (run w acts).storage.bTokens.total = (run w acts).position :=
  TransactionalRun.run_invariant_of_step
    (I := fun w : World => w.storage.bTokens.total = w.position)
    (fun _ _ _ hs h => step_position h hs) hp acts

end Position

/-- The lending pool mints no negative amount for a deposit. -/
def MintsNonneg (env : Env) : Prop := ∀ a m, 0 < a → env.mint a = some m → 0 ≤ m

def MintsNonnegAction : Action → Prop
  | .call env _ => MintsNonneg env
  | _ => True

section Nonneg
variable {w w' : World} {a : Action} {r : ℤ}

theorem AtRate.mintsNonneg {env : Env} (hr : 0 < r) (h : AtRate r env) : MintsNonneg env := by
  intro a m ha hm
  rw [h.mint_eq a m hm]
  exact floorDiv_nonneg (mul_nonneg ha.le scalar12_pos.le) hr

theorem AtRateAction.mintsNonneg (hr : 0 < r) (h : AtRateAction r a) : MintsNonnegAction a := by
  rcases a with ⟨env, c⟩ | _ | _
  · exact AtRate.mintsNonneg hr h
  · trivial
  · trivial

/-- The cap of a withdrawal keeps the entry it writes from falling below zero. -/
theorem step_nonneg (ha : MintsNonnegAction a) (hn : w.storage.bTokens.Nonneg)
    (h : step a w = .ok w') : w'.storage.bTokens.Nonneg := by
  rcases a with ⟨env, c⟩ | ⟨token, sender, receiver, amount⟩ | tokens
  · rcases invoke_ok h with hsame | ⟨amount, vault, k, rfl, hc⟩ |
      ⟨amount, vault, dest, k, rfl, hc⟩
    · rwa [hsame]
    · obtain ⟨hpos, config, minted, tokens, _, hm, _, _, rfl⟩ := deposit_ok hc
      exact hn.set (add_nonneg (hn vault) (ha amount minted hpos hm))
    · obtain ⟨_, _, _, config, b, paid, tokens, tokens', _, _, _, _, _, _, _, rfl⟩ :=
        withdraw_ok hc
      exact hn.set (sub_nonneg.mpr (min_le_right _ _))
  · obtain ⟨_, _, _, rfl⟩ := guarded_eq_ok.mp h
    exact hn
  · obtain rfl := Except.ok.inj h
    exact hn

theorem run_nonneg {acts : List Action} (hn : w.storage.bTokens.Nonneg)
    (hacts : ∀ a ∈ acts, MintsNonnegAction a) : (run w acts).storage.bTokens.Nonneg := by
  refine TransactionalRun.run_invariant (C := fun a _ => MintsNonnegAction a)
    (I := fun w : World => w.storage.bTokens.Nonneg) ?_ hn ?_
  · intro a u u' ha hu h
    exact step_nonneg ha hu h
  · apply TransactionalRun.each_of_forall
    intro a ha _
    exact hacts a ha

end Nonneg

section Rounding
variable {r a b m p v : ℤ}

/-- What a deposit mints is worth at most the deposit and lacks less than one
bToken of it. -/
theorem mint_value (hr : 0 < r) (hm : m = floorDiv (a * scalar12) r) :
    floorDiv (v * r) scalar12 + a - ceilDiv r scalar12 ≤ floorDiv ((v + m) * r) scalar12 ∧
      floorDiv ((v + m) * r) scalar12 ≤ floorDiv (v * r) scalar12 + a := by
  have hle : m * r ≤ a * scalar12 := hm ▸ floorDiv_mul_le _ hr
  have hlt : a * scalar12 < (m + 1) * r := hm ▸ lt_floorDiv_add_one_mul _ hr
  rw [add_mul]
  constructor
  · have hwhole : floorDiv (v * r) scalar12 + a ≤ floorDiv (v * r + a * scalar12) scalar12 := by
      have hfloor := floorDiv_mul_le (v * r) scalar12_pos
      exact (le_floorDiv_iff scalar12_pos).mpr (by linarith)
    calc floorDiv (v * r) scalar12 + a - ceilDiv r scalar12
        ≤ floorDiv (v * r + a * scalar12) scalar12 - ceilDiv r scalar12 :=
          sub_le_sub_right hwhole _
      _ ≤ floorDiv (v * r + a * scalar12 - r) scalar12 := le_floorDiv_sub scalar12_pos
      _ ≤ floorDiv (v * r + m * r) scalar12 := floorDiv_mono scalar12_pos (by linarith)
  · calc floorDiv (v * r + m * r) scalar12
        ≤ floorDiv (v * r) scalar12 + ceilDiv (m * r) scalar12 :=
          floorDiv_add_le_ceilDiv scalar12_pos
      _ ≤ floorDiv (v * r) scalar12 + a :=
          add_le_add_right ((ceilDiv_le_iff scalar12_pos).mpr hle) _

/-- Burning `b` of `v` bTokens pays their value, up to one unit. -/
theorem burn_value (hp : p = floorDiv (b * r) scalar12) :
    floorDiv (v * r) scalar12 - p - 1 ≤ floorDiv ((v - b) * r) scalar12 ∧
      floorDiv ((v - b) * r) scalar12 ≤ floorDiv (v * r) scalar12 - p := by
  rw [sub_mul, hp]
  constructor
  · have hround := ceilDiv_le_floorDiv_add_one (a := b * r) scalar12_pos
    have hsub := le_floorDiv_sub (a := v * r) (c := b * r) scalar12_pos
    omega
  · exact floorDiv_sub_le scalar12_pos

theorem burn_request (ha : 0 < a) (hr : 0 < r) :
    (a * scalar12 + (r - 1)).tdiv r = ceilDiv (a * scalar12) r := by
  have hproduct := mul_pos ha scalar12_pos
  rw [Int.tdiv_eq_ediv_of_nonneg (by omega), ← floorDiv_eq_ediv hr]
  apply le_antisymm
  · rw [← Int.lt_add_one_iff, floorDiv_lt_iff hr]
    have := le_ceilDiv_mul (a * scalar12) hr
    linarith
  · rw [ceilDiv_le_iff hr]
    have := lt_floorDiv_add_one_mul (a * scalar12 + (r - 1)) hr
    linarith

/-- A withdrawal pays at least what is asked, or all there is. -/
theorem payment_bounds (hr : 0 < r) (hp : p = floorDiv (min (ceilDiv (a * scalar12) r) v * r)
    scalar12) :
    min a (floorDiv (v * r) scalar12) ≤ p ∧ p ≤ floorDiv (v * r) scalar12 := by
  constructor
  · rcases le_total (ceilDiv (a * scalar12) r) v with hle | hle
    · rw [hp, min_eq_left hle]
      exact (min_le_left _ _).trans ((le_floorDiv_iff scalar12_pos).mpr (le_ceilDiv_mul _ hr))
    · rw [hp, min_eq_right hle]
      exact min_le_right _ _
  · rw [hp]
    exact floorDiv_mono scalar12_pos (mul_le_mul_of_nonneg_right (min_le_right _ _) hr.le)

end Rounding

/-- Underlying behind a vault's bTokens, over unbounded integers. -/
def value (r : ℤ) (w : World) (vault : Address) : ℤ :=
  floorDiv (getBTokens w.storage vault * r) scalar12

/-- What a deposit or a withdrawal does for its own vault, in the balances the
contract reports. -/
def Fair (r : ℤ) : Action → World → Prop
  | .call env (.deposit amount vault), w => ∀ k w', deposit env w amount vault = .ok (k, w') →
      underlyingBalance w.storage vault r + amount - ceilDiv r scalar12 ≤
        underlyingBalance w'.storage vault r
  | .call env (.withdraw amount vault dest), w => ∀ k w',
      withdraw env w amount vault dest = .ok (k, w') →
      let paid := payment env w amount vault
      let before := underlyingBalance w.storage vault r
      let left := underlyingBalance w'.storage vault r
      (∃ config, w.storage.config = some config ∧
        w.tokens.Moved w'.tokens config.asset config.lendingPool dest paid) ∧
      w'.events = w.events ++ [.withdraw strategyName paid vault] ∧
      min amount before ≤ paid ∧ paid ≤ before ∧ before - paid - 1 ≤ left ∧ left ≤ before - paid
  | _, _ => True

section Trades
variable {r amount k : ℤ} {env : Env} {w w' : World} {vault dest : Address} {a : Action}

theorem balance_value (hr : 0 < r) (hn : w.storage.bTokens.Nonneg) (hfits : Fits r w) :
    underlyingBalance w.storage vault r = value r w vault := by
  unfold underlyingBalance
  split_ifs with hzero
  · simp [value, hzero]
  · have hheld : 0 ≤ getBTokens w.storage vault * r := mul_nonneg (hn vault) hr.le
    exact Width.mulDivOrZero_of_holds (by decide) hheld scalar12_pos (hfits vault)

theorem deposit_value (hr : 0 < r) (hrate : AtRate r env)
    (h : deposit env w amount vault = .ok (k, w')) :
    value r w vault + amount - ceilDiv r scalar12 ≤ value r w' vault ∧
      value r w' vault ≤ value r w vault + amount := by
  obtain ⟨_, config, minted, tokens, _, hm, _, _, rfl⟩ := deposit_ok h
  simp only [value, getBTokens, setBTokens, Attribution.amount_set_self]
  exact mint_value hr (hrate.mint_eq _ _ hm)

theorem withdraw_payment (h : withdraw env w amount vault dest = .ok (k, w')) :
    env.pay (min ((amount * scalar12 + (env.bRate - 1)).tdiv env.bRate)
      (getBTokens w.storage vault)) = some (payment env w amount vault) := by
  obtain ⟨_, _, _, config, b, paid, _, _, _, hb, _, hpay, _⟩ := withdraw_ok h
  simp only [withdraw, bind_eq_ok] at h
  obtain ⟨_, _, _, _, _, _, b', hb', _⟩ := h
  have hpaid : payment env w amount vault = paid := by
    unfold payment
    rw [hb']
    dsimp only
    rw [bTokensToBurn_ok hb', ← hb, hpay, Option.getD_some]
  rw [← hb, hpay, hpaid]

/-- What leaves the pool goes to the destination and is written off. -/
theorem withdraw_value (hr : 0 < r) (hrate : AtRate r env)
    (h : withdraw env w amount vault dest = .ok (k, w')) :
    (∃ config, w.storage.config = some config ∧ w.tokens.Moved w'.tokens config.asset
      config.lendingPool dest (payment env w amount vault)) ∧
    w'.events = w.events ++ [.withdraw strategyName (payment env w amount vault) vault] ∧
    min amount (value r w vault) ≤ payment env w amount vault ∧
    payment env w amount vault ≤ value r w vault ∧
    value r w vault - payment env w amount vault - 1 ≤ value r w' vault ∧
    value r w' vault ≤ value r w vault - payment env w amount vault := by
  have hp := withdraw_payment h
  obtain ⟨ha, _, _, config, b, paid, tokens, tokens', hconfig, hb, _, hpay, ht, ht', _, rfl⟩ :=
    withdraw_ok h
  obtain rfl : payment env w amount vault = paid := by
    rw [← hb, hpay] at hp
    exact (Option.some.inj hp).symm
  have hmoved : w.tokens.Moved tokens' config.asset config.lendingPool dest
      (payment env w amount vault) :=
    (Ledger.transfer_apply ht).trans (Ledger.transfer_apply ht')
  have hvalue := hrate.pay_eq _ _ hp
  rw [hrate.rate_eq, burn_request ha hr] at hvalue
  rw [hrate.rate_eq, burn_request ha hr] at hb
  obtain ⟨hmin, hmax⟩ := payment_bounds hr hvalue
  refine ⟨⟨config, hconfig, hmoved⟩, rfl, hmin, hmax, ?_⟩
  simp only [value, getBTokens, setBTokens, Attribution.amount_set_self]
  rw [hb]
  exact burn_value hvalue

/-- No trade takes more out of the value of any vault's bTokens than it pays
the vault, and none adds more than the vault hands in. -/
theorem step_value (hr : 0 < r) (ha : AtRateAction r a) (h : step a w = .ok w')
    (vault : Address) :
    paidTo vault a w + value r w' vault ≤ depositedBy vault a w + value r w vault := by
  rcases a with ⟨env, c⟩ | ⟨token, sender, receiver, amount⟩ | tokens
  · cases c with
    | construct asset args =>
        obtain ⟨_, config, rfl⟩ := construct_ok h
        exact le_rfl
    | deposit amount v =>
        obtain ⟨k, hu⟩ := forget_eq_ok.mp h
        dsimp only [paidTo, depositedBy]
        split_ifs with hv
        · subst hv
          have := (deposit_value hr ha hu).2
          omega
        · obtain ⟨_, config, minted, tokens, _, _, _, _, rfl⟩ := deposit_ok hu
          simp only [value, getBTokens, setBTokens, Attribution.amount_set_of_ne (Ne.symm hv)]
          exact le_rfl
    | withdraw amount v dest =>
        obtain ⟨k, hu⟩ := forget_eq_ok.mp h
        dsimp only [paidTo, depositedBy]
        split_ifs with hv
        · subst hv
          obtain ⟨_, _, _, _, _, hleft⟩ := withdraw_value hr ha hu
          omega
        · obtain ⟨_, _, _, config, b, paid, tokens, tokens', _, _, _, _, _, _, _, rfl⟩ :=
            withdraw_ok hu
          simp only [value, getBTokens, setBTokens, Attribution.amount_set_of_ne (Ne.symm hv)]
          exact le_rfl
    | harvest sender data =>
        simp only [step, invoke, harvest, bind_eq_ok, pure_eq_ok] at h
        obtain ⟨_, _, rfl⟩ := h
        exact le_rfl
    | asset | balance v =>
        obtain ⟨_, rfl⟩ := readOnly_eq_ok.mp h
        exact le_rfl
  · obtain ⟨_, _, _, rfl⟩ := guarded_eq_ok.mp h
    exact le_rfl
  · obtain rfl := Except.ok.inj h
    exact le_rfl

/-- The sum over a run telescopes against the value. -/
theorem trades_value {trades : List Action} (hr : 0 < r)
    (htrades : ∀ a ∈ trades, AtRateAction r a) (vault : Address) :
    TransactionalRun.tally step (paidTo vault) w trades + value r (run w trades) vault ≤
      TransactionalRun.tally step (depositedBy vault) w trades + value r w vault := by
  refine TransactionalRun.tally_le_of_potential (P := fun w => value r w vault)
    (C := fun a _ => AtRateAction r a) (I := fun _ => True) ?_ trivial ?_
  · intro a u u' ha _ h
    exact ⟨trivial, step_value hr ha h vault⟩
  · apply TransactionalRun.each_of_forall
    intro a ha _
    exact htrades a ha

theorem step_fair (hr : 0 < r) (ha : AtRateAction r a) (hn : w.storage.bTokens.Nonneg)
    (hfits : Fits r w) (hfits' : ∀ w', step a w = .ok w' → Fits r w') : Fair r a w := by
  rcases a with ⟨env, c⟩ | _ | _
  · cases c with
    | deposit amount vault =>
        intro k w' h
        have hstep : step (.call env (.deposit amount vault)) w = .ok w' := by
          simp only [step, invoke, h, ok_bind]
          rfl
        have hn' := step_nonneg (AtRateAction.mintsNonneg hr ha) hn hstep
        rw [balance_value hr hn hfits, balance_value hr hn' (hfits' w' hstep)]
        exact (deposit_value hr ha h).1
    | withdraw amount vault dest =>
        intro k w' h
        have hstep : step (.call env (.withdraw amount vault dest)) w = .ok w' := by
          simp only [step, invoke, h, ok_bind]
          rfl
        have hn' := step_nonneg (AtRateAction.mintsNonneg hr ha) hn hstep
        rw [balance_value hr hn hfits, balance_value hr hn' (hfits' w' hstep)]
        exact withdraw_value hr ha h
    | construct | asset | balance | harvest => trivial
  · trivial
  · trivial

end Trades

/-- From every reachable state, while the pool stays at one rate: the bTokens of
the vaults are the strategy's position and never negative; no vault is paid and
left with more than it had and handed in; and every deposit and withdrawal of
the run is fair to its own vault. -/
theorem vault_economics (w₀ : World) (before trades : List Action) (r : ℤ) (hw : Deployed w₀)
    (hposition : w₀.position = 0) (hr : 0 < r) (hbefore : ∀ a ∈ before, MintsNonnegAction a)
    (htrades : ∀ a ∈ trades, AtRateAction r a)
    (hfits : ∀ pre, pre <+: trades → Fits r (run (run w₀ before) pre)) :
    let w := run w₀ before
    (∀ pre, pre <+: trades →
      (run w pre).storage.bTokens.total = (run w pre).position ∧
        ∀ vault, 0 ≤ getBTokens (run w pre).storage vault) ∧
    (∀ vault, TransactionalRun.tally step (paidTo vault) w trades +
        underlyingBalance (run w trades).storage vault r ≤
      TransactionalRun.tally step (depositedBy vault) w trades +
        underlyingBalance w.storage vault r) ∧
    TransactionalRun.Each step (Fair r) w trades := by
  intro w
  have hempty : w₀.storage.bTokens = .empty := deployed_empty hw
  have hstart : w₀.storage.bTokens.total = w₀.position := by
    rw [hempty, hposition]
    rfl
  have htotal : w.storage.bTokens.total = w.position := run_position before hstart
  have hn : w.storage.bTokens.Nonneg :=
    run_nonneg (by rw [hempty]; exact Attribution.Nonneg.empty) hbefore
  have hnpre : ∀ pre, pre <+: trades → (run w pre).storage.bTokens.Nonneg := fun pre hpre =>
    run_nonneg hn fun a ha => AtRateAction.mintsNonneg hr (htrades a (hpre.subset ha))
  refine ⟨?_, ?_, ?_⟩
  · intro pre hpre
    exact ⟨run_position pre htotal, hnpre pre hpre⟩
  · intro vault
    rw [balance_value hr (hnpre trades (List.prefix_refl _)) (hfits trades (List.prefix_refl _)),
      balance_value hr hn (hfits [] (List.nil_prefix))]
    exact trades_value hr htrades vault
  · rw [TransactionalRun.each_iff_forall_split]
    rintro pre a post rfl
    have hpre : pre <+: pre ++ a :: post := List.prefix_append _ _
    refine step_fair hr (htrades a (by simp)) (hnpre pre hpre) (hfits pre hpre) ?_
    intro w' h
    have hnext : pre ++ [a] <+: pre ++ a :: post := by simp
    rw [← TransactionalRun.run_concat h]
    exact hfits _ hnext

/-- The lending pool at rate 1.1. -/
def sampleRateEnv (signer : Address) : Env where
  caller := ⟨[signer], none⟩
  bRate := 1100000000000
  bRateAfter := 1100000000000
  mint a := some (floorDiv (a * scalar12) 1100000000000)
  pay b := some (floorDiv (b * 1100000000000) scalar12)

/-- A vault enters at rate 1.0. -/
def sampleBefore : List Action :=
  [.transfer sampleAsset (.account 1) (.contract 0) 2000,
    .call (sampleEnv (.account 1)) (.deposit 2000 (.account 1)),
    .transfer sampleAsset (.account 2) (.contract 0) 3000]

/-- At rate 1.1 a second vault enters, and the first takes a part and the rest. -/
def sampleTrades : List Action :=
  [.call (sampleRateEnv (.account 2)) (.deposit 3000 (.account 2)),
    .call (sampleRateEnv (.account 1)) (.withdraw 1000 (.account 1) (.account 3)),
    .call (sampleRateEnv (.account 1)) (.withdraw 5000 (.account 1) (.account 3))]

theorem sampleBefore_mints : ∀ a ∈ sampleBefore, MintsNonnegAction a := by
  intro a ha
  simp only [sampleBefore, List.mem_cons, List.not_mem_nil, or_false] at ha
  rcases ha with rfl | rfl | rfl
  · trivial
  · intro x m _
    exact (sampleEnv_sound (.account 1)).mint_nonneg x m
  · trivial

theorem sampleRateEnv_atRate (signer : Address) : AtRate 1100000000000 (sampleRateEnv signer) :=
  ⟨rfl, rfl, fun _ _ h => (Option.some.inj h).symm, fun _ _ h => (Option.some.inj h).symm⟩

theorem sampleTrades_atRate : ∀ a ∈ sampleTrades, AtRateAction 1100000000000 a := by
  intro a ha
  simp only [sampleTrades, List.mem_cons, List.not_mem_nil, or_false] at ha
  rcases ha with rfl | rfl | rfl <;> exact sampleRateEnv_atRate _

theorem fits_of_total {r : ℤ} {w : World} (hr : 0 < r) (hn : w.storage.bTokens.Nonneg)
    (htotal : i128.Holds (w.storage.bTokens.total * r)) : Fits r w := by
  intro vault
  apply i128_holds_of_le _ _ htotal
  · exact mul_nonneg (hn vault) hr.le
  · exact mul_le_mul_of_nonneg_right hn.amount_le_total hr.le

theorem sampleTrades_fits (pre : List Action) (hpre : pre <+: sampleTrades) :
    Fits 1100000000000 (run (run sampleWorld sampleBefore) pre) := by
  apply fits_of_total (by decide)
  · apply run_nonneg (run_nonneg Attribution.Nonneg.empty sampleBefore_mints)
    intro a ha
    exact AtRateAction.mintsNonneg (by decide) (sampleTrades_atRate a (hpre.subset ha))
  · rw [← List.mem_inits] at hpre
    simp only [sampleTrades, List.inits, List.map_cons, List.map_nil, List.mem_cons,
      List.not_mem_nil, or_false] at hpre
    rcases hpre with rfl | rfl | rfl | rfl <;> decide +kernel

theorem vault_economics_sample :
    TransactionalRun.tally step (paidTo (.account 1)) (run sampleWorld sampleBefore)
        sampleTrades = 2200 ∧
      (run (run sampleWorld sampleBefore) sampleTrades).storage.bTokens.total =
        (run (run sampleWorld sampleBefore) sampleTrades).position := by
  have h := vault_economics sampleWorld sampleBefore sampleTrades 1100000000000
    sampleWorld_deployed rfl (by decide) sampleBefore_mints sampleTrades_atRate
    sampleTrades_fits
  exact ⟨by decide +kernel, (h.1 sampleTrades (List.prefix_refl _)).1⟩

end NekoStrategies.NekoEconomics
