import NekoStrategies.AquariusBalances

/-!
# What the configured slippage is worth to a withdrawing vault

A position is valued at the spot price. A withdrawal removes its part of both
reserves and swaps the pair token back in the pool that this has shrunk, and each
minimum it asks for is taken from an estimate in the very state it then acts in.
So the minimums say nothing about the price the exit itself causes: what reaches
the vault is within the slippage exactly if that price, the pool's fee and the
rounding down to whole shares happen to stay within it.
-/
namespace NekoStrategies.AquariusSlippage
open CheckedInteger RoundedDivision SorobanHost AmmPosition ConstantProduct
open AquariusPool AquariusContract AquariusCalls AquariusBalances

/-- A constant-product pool with a fee, in basis points: estimates are exact, and
shares are paid their part of each reserve. -/
structure ConstantProductPool (fee : ℤ) (env : Env) : Prop where
  fee_nonneg : 0 ≤ fee
  fee_le : fee ≤ 10000
  estimate : ∀ p i j x, env.estimateSwap p i j x = env.swapOut p i j x
  swap : ∀ p i j x out, env.swapOut p i j x = some out →
    out = quote fee x (p.reserve i) (p.reserve j)
  pays : ∀ p x amounts, env.withdrawPays p x = some amounts →
    amounts = p.reserves.map fun r => floorDiv (r * x) p.totalShares

/-- A vault asks for some of its balance, `value`, of a pool whose amounts are
token amounts. -/
structure Exit (w : World) (config : StrategyConfig) (vault : Address)
    (amount value : ℤ) : Prop where
  configured : w.storage.config = some config
  listed : Listed w.pool config
  deposit_pos : 0 < w.pool.reserve config.depositTokenIdx
  deposit_holds : i128.Holds (w.pool.reserve config.depositTokenIdx)
  pair_pos : 0 < w.pool.reserve config.pairTokenIdx
  pair_holds : i128.Holds (w.pool.reserve config.pairTokenIdx)
  supply_pos : 0 < w.pool.totalShares
  supply_holds : i128.Holds w.pool.totalShares
  position_nonneg : 0 ≤ getShares w.storage vault
  position_le : getShares w.storage vault ≤ w.pool.totalShares
  slippage_nonneg : 0 ≤ config.maxSlippageBps
  slippage_le : config.maxSlippageBps ≤ AquariusContract.maxSlippageBps
  valued : AquariusContract.balance w vault = .ok value
  amount_pos : 0 < amount
  amount_le : amount ≤ value

/-- `amount` less the slippage that the configuration accepts. -/
def acceptable (amount slippageBps : ℤ) : ℤ := floorDiv (amount * (bps - slippageBps)) bps

/-- What a withdrawal sent: the amount it reports, and what a receiver other than
the strategy and the pool gained. -/
def Sent (w w' : World) (config : StrategyConfig) (vault dest : Address) (paid : ℤ) : Prop :=
  w'.events = w.events ++ [.withdraw strategyName paid vault] ∧
    (dest ≠ w.self → dest ≠ config.pool →
      w'.tokens config.depositToken dest = w.tokens config.depositToken dest + paid)

/-- The vault lost no more than the slippage, up to rounding dust. -/
def Protected (p : Pool) (config : StrategyConfig) (amount paid : ℤ) : Prop :=
  (acceptable amount config.maxSlippageBps : ℚ) -
      (2 + p.reserve config.depositTokenIdx / p.reserve config.pairTokenIdx) ≤ paid

/-- The slippage bounds what a withdrawing vault loses. -/
def SlippageBinds : Prop :=
  ∀ fee env w w' config vault dest amount value k paid, ConstantProductPool fee env →
    Exit w config vault amount value →
    AquariusContract.withdraw env w amount vault dest = .ok (k, w') →
    Sent w w' config vault dest paid → Protected w.pool config amount paid

/-- What `shares` of the pool are due of its `i`-th reserve. -/
def part (p : Pool) (shares : ℤ) (i : ℕ) : ℤ := floorDiv (p.reserve i * shares) p.totalShares

/-- Whole shares are removed for `amount` out of `value`. Their part of the deposit
token, and their part of the pair token at the price that the reserves have without
them, less the fee, make up the acceptable amount up to dust. -/
def WithinSlippage (fee : ℤ) (p : Pool) (config : StrategyConfig) (held amount value : ℤ) :
    Prop :=
  let reserveDeposit := p.reserve config.depositTokenIdx
  let reservePair := p.reserve config.pairTokenIdx
  let shares := floorDiv (held * amount) value
  let depositPart := part p shares config.depositTokenIdx
  let pairPart := part p shares config.pairTokenIdx
  (acceptable amount config.maxSlippageBps - 2 - floorDiv reserveDeposit reservePair -
      depositPart) * 10000 ≤
    floorDiv (pairPart * (reserveDeposit - depositPart)) reservePair * (10000 - fee)

instance (fee : ℤ) (p : Pool) (config : StrategyConfig) (held amount value : ℤ) :
    Decidable (WithinSlippage fee p config held amount value) :=
  inferInstanceAs (Decidable (_ ≤ _))

theorem Sent.unique {w w' : World} {config : StrategyConfig} {vault dest : Address} {x y : ℤ}
    (hx : Sent w w' config vault dest x) (hy : Sent w w' config vault dest y) : x = y := by
  have hevents := hx.1.symm.trans hy.1
  simpa using hevents

section Parts
variable {shares amount paid : ℤ} {p : Pool} {config : StrategyConfig} {i : ℕ}

theorem protected_iff (hpair : 0 < p.reserve config.pairTokenIdx) :
    Protected p config amount paid ↔
      acceptable amount config.maxSlippageBps - 2 -
        floorDiv (p.reserve config.depositTokenIdx) (p.reserve config.pairTokenIdx) ≤ paid := by
  have hdust := le_floorDiv_iff_le_div (q := acceptable amount config.maxSlippageBps - 2 - paid)
    (a := p.reserve config.depositTokenIdx) hpair
  push_cast at hdust
  constructor
  · intro h
    have hle := hdust.mpr (by unfold Protected at h; linarith)
    linarith
  · intro h
    have hle := hdust.mp (by linarith)
    unfold Protected
    linarith

theorem part_nonneg (hr : 0 ≤ p.reserve i) (hs : 0 ≤ shares) (ht : 0 < p.totalShares) :
    0 ≤ part p shares i :=
  floorDiv_nonneg (mul_nonneg hr hs) ht

theorem part_le (hr : 0 ≤ p.reserve i) (hs : shares ≤ p.totalShares) (ht : 0 < p.totalShares) :
    part p shares i ≤ p.reserve i := by
  have hle := mul_le_mul_of_nonneg_left hs hr
  exact (floorDiv_mono ht hle).trans_eq (floorDiv_self ht)

theorem paid_parts :
    (p.reserves.map fun r => floorDiv (r * shares) p.totalShares)[i]?.getD 0 =
      part p shares i := by
  unfold part Pool.reserve
  rw [List.getElem?_map]
  cases p.reserves[i]? with
  | none => simp
  | some r => rfl

theorem left_reserve :
    (List.zipWith (· - ·) p.reserves
        (p.reserves.map fun r => floorDiv (r * shares) p.totalShares))[i]?.getD 0 =
      p.reserve i - part p shares i := by
  unfold part Pool.reserve
  rw [List.getElem?_zipWith, List.getElem?_map]
  cases p.reserves[i]? with
  | none => simp
  | some r => rfl

end Parts

section Minimums
variable {fee slippage expected minimum x : ℤ} {env : Env} {p : Pool} {i j : ℕ}

theorem minWithSlippage_le (he : 0 ≤ expected) (hs : 0 ≤ slippage)
    (h : minWithSlippage expected slippage = .ok minimum) : minimum ≤ expected := by
  simp only [minWithSlippage, bind_eq_ok, plainSub_eq_ok, pure_eq_ok] at h
  obtain ⟨kept, ⟨hholds, rfl⟩, rfl⟩ := h
  have hkept : 0 ≤ bps - slippage := hholds.1
  calc u128.mulDivOrZero expected (bps - slippage) bps
      ≤ floorDiv (expected * (bps - slippage)) bps :=
        Width.mulDivOrZero_le (by decide) (mul_nonneg he hkept) (by decide)
    _ ≤ floorDiv (expected * bps) bps :=
        floorDiv_mono (by decide) (mul_le_mul_of_nonneg_left (by linarith) he)
    _ = expected := floorDiv_self (by decide)

/-- Whatever the slippage, a removal pays the minimum computed from the reserves
that it removes from. -/
theorem removal_minimum_met (hr : 0 ≤ p.reserve i) (hx : 0 ≤ x) (ht : 0 < p.totalShares)
    (hs : 0 ≤ slippage)
    (h : minWithSlippage (u128.mulDivOrZero (p.reserve i) x p.totalShares) slippage =
      .ok minimum) : minimum ≤ part p x i := by
  by_cases hholds : u128.Holds (p.reserve i * x)
  · rw [Width.mulDivOrZero_of_holds (by decide) (mul_nonneg hr hx) ht hholds] at h
    exact minWithSlippage_le (part_nonneg hr hx ht) hs h
  · rw [Width.mulDivOrZero_of_not_holds hholds] at h
    exact (minWithSlippage_le le_rfl hs h).trans (part_nonneg hr hx ht)

end Minimums

section Withdrawals
variable {fee : ℤ} {env : Env} {u u' w w' : World} {auths : List AuthEntry}
  {config : StrategyConfig} {vault dest h token : Address} {amount value k s x y : ℤ}

theorem poolWithdraw_parts {mins amounts : List ℤ} (hpool : ConstantProductPool fee env)
    (hremove : poolWithdraw env w auths config s mins = .ok (amounts, u)) (i : ℕ) :
    amounts[i]?.getD 0 = part w.pool s i ∧
      u.pool.reserve i = w.pool.reserve i - part w.pool s i := by
  obtain ⟨_, hpays, _, _, _, rfl⟩ := poolWithdraw_ok hremove
  rw [hpool.pays _ _ _ hpays]
  exact ⟨paid_parts, left_reserve⟩

/-- Swapping back what was removed of the pair token makes up the proceeds. -/
theorem swapBack_proceeds {ra rb : ℤ} (hpool : ConstantProductPool fee env)
    (hd : u.pool.reserve config.depositTokenIdx = ra - x)
    (hp : u.pool.reserve config.pairTokenIdx = rb - y) (hx : 0 ≤ x) (hxra : x ≤ ra)
    (hy : 0 ≤ y) (hyrb : y ≤ rb) (hra : i128.Holds ra) (hrb : i128.Holds rb)
    (hback : swapBack env u config x y = .ok (k, u')) : k = exitProceeds fee x y ra rb := by
  rcases swapBack_ok hback with ⟨hle, rfl, _⟩ | ⟨hpos, minOut, out, hswap, rfl⟩
  · obtain rfl := le_antisymm hle hy
    simp [exitProceeds]
  · obtain ⟨_, _, _, _, _, _, hout, _⟩ := swap_ok hswap
    rw [asU128_of_holds hy (i128_holds_of_le hy hyrb hrb)] at hout
    have hquote := hpool.swap _ _ _ _ _ hout
    rw [hd, hp] at hquote
    have hnonneg : 0 ≤ out := by
      rw [hquote]
      exact quote_nonneg hpool.fee_le hy (by linarith) (by linarith)
    have hmost : out ≤ ra - x := by
      rw [hquote]
      exact quote_le hpool.fee_nonneg hy (by linarith) (by linarith) (by linarith)
    rw [asI128_of_holds (i128_holds_of_le hnonneg (by linarith) hra), hquote, exitProceeds]

theorem poolWithdraw_holder {mins amounts : List ℤ} (hself : h ≠ w.self)
    (hpool : h ≠ config.pool)
    (hremove : poolWithdraw env w auths config s mins = .ok (amounts, u)) :
    u.tokens token h = w.tokens token h := by
  obtain ⟨_, _, _, tokens, hpay, rfl⟩ := poolWithdraw_ok hremove
  dsimp only
  rw [payAll_other (.inr ⟨hself, hpool⟩) hpay, Ledger.add_apply]
  simp [hself]

theorem swapBack_holder (hself : h ≠ u.self) (hpool : h ≠ config.pool)
    (hback : swapBack env u config x y = .ok (k, u')) : u'.tokens token h = u.tokens token h := by
  rcases swapBack_ok hback with ⟨_, _, rfl⟩ | ⟨_, _, _, hswap, _⟩
  · rfl
  · obtain ⟨_, _, _, _, _, _, _, _, ht, ht', rfl⟩ := swap_ok hswap
    dsimp only
    rw [Ledger.transfer_apply ht', Ledger.transfer_apply ht]
    simp [hself, hpool]

theorem payOut_receiver (hself : dest ≠ u.self) (hx : 0 ≤ x)
    (hpay : payOut u config dest x = .ok u') :
    u'.tokens config.depositToken dest = u.tokens config.depositToken dest + x := by
  rcases payOut_ok hpay with ⟨hle, rfl⟩ | ⟨_, tokens, ht, rfl⟩
  · obtain rfl := le_antisymm hle hx
    simp
  · exact Ledger.transfer_receiver ht hself

/-- What a removal of `s` shares sends. -/
theorem poolExit_proceeds (hpool : ConstantProductPool fee env)
    (hx : Exit w config vault amount value) (hs : 0 ≤ s) (hsupply : s ≤ w.pool.totalShares)
    (h : AquariusPool.withdraw env w s dest config = .ok (k, w')) :
    k = exitProceeds fee (part w.pool s config.depositTokenIdx)
        (part w.pool s config.pairTokenIdx) (w.pool.reserve config.depositTokenIdx)
        (w.pool.reserve config.pairTokenIdx) ∧
      (dest ≠ w.self → dest ≠ config.pool →
        w'.tokens config.depositToken dest = w.tokens config.depositToken dest + k) := by
  obtain ⟨_, _, amounts, u, u', hremove, hback, hpay⟩ := poolExit_ok h
  rw [asU128_of_holds hs (i128_holds_of_le hs hsupply hx.supply_holds)] at hremove
  obtain ⟨hd, hud⟩ := poolWithdraw_parts hpool hremove config.depositTokenIdx
  obtain ⟨hp, hup⟩ := poolWithdraw_parts hpool hremove config.pairTokenIdx
  have hd0 := part_nonneg hx.deposit_pos.le hs hx.supply_pos
  have hp0 := part_nonneg hx.pair_pos.le hs hx.supply_pos
  have hdle := part_le hx.deposit_pos.le hsupply hx.supply_pos
  have hple := part_le hx.pair_pos.le hsupply hx.supply_pos
  rw [hd, hp, asI128_of_holds (i128_holds_of_le hd0 hdle hx.deposit_holds),
    asI128_of_holds (i128_holds_of_le hp0 hple hx.pair_holds)] at hback
  have hk := swapBack_proceeds hpool hud hup hd0 hdle hp0 hple hx.deposit_holds hx.pair_holds hback
  refine ⟨hk, ?_⟩
  intro hself hother
  have hk0 : 0 ≤ k := by
    rw [hk]
    exact exitProceeds_nonneg hpool.fee_le hd0 hdle hp0 hx.pair_pos
  have hu : u.self = w.self := (poolWithdraw_frame hremove).2.1
  have hu' : u'.self = w.self := (swapBack_frame hback).2.1.trans hu
  rw [payOut_receiver (hu' ▸ hself) hk0 hpay, swapBack_holder (hu ▸ hself) hother hback,
    poolWithdraw_holder hself hother hremove]

/-- What a withdrawal sends. -/
theorem withdraw_proceeds (hpool : ConstantProductPool fee env)
    (hx : Exit w config vault amount value)
    (h : AquariusContract.withdraw env w amount vault dest = .ok (k, w')) :
    let shares := floorDiv (getShares w.storage vault * amount) value
    Sent w w' config vault dest
      (exitProceeds fee (part w.pool shares config.depositTokenIdx)
        (part w.pool shares config.pairTokenIdx) (w.pool.reserve config.depositTokenIdx)
        (w.pool.reserve config.pairTokenIdx)) := by
  intro shares
  obtain ⟨_, _, config', totalValue, burnt, paid, u, hconfig, hvalue, _, hburn, _, hexit, rfl⟩ :=
    withdraw_ok h
  obtain rfl := Option.some.inj (hx.configured.symm.trans hconfig)
  have hvalued := hx.valued
  simp only [AquariusContract.balance, loadConfig, hconfig, orFault, ok_bind] at hvalued
  obtain rfl := Except.ok.inj (hvalued.symm.trans hvalue)
  obtain ⟨hs0, hle⟩ := proportionalBurn_le hx.position_nonneg hx.amount_pos hburn
  obtain rfl := proportionalBurn_of_le hx.position_nonneg hx.amount_pos hx.amount_le hburn
  obtain ⟨rfl, hsent⟩ := poolExit_proceeds hpool hx hs0 (hle.trans hx.position_le) hexit
  exact ⟨rfl, hsent⟩

end Withdrawals

/-- A committed withdrawal sends an amount, and the vault is protected exactly if
its exit stays within the slippage. -/
theorem withdraw_protected_iff (fee : ℤ) (env : Env) (w w' : World) (config : StrategyConfig)
    (vault dest : Address) (amount value k : ℤ) (hpool : ConstantProductPool fee env)
    (hx : Exit w config vault amount value)
    (h : AquariusContract.withdraw env w amount vault dest = .ok (k, w')) :
    (∃ paid, Sent w w' config vault dest paid) ∧
      ∀ paid, Sent w w' config vault dest paid →
        (Protected w.pool config amount paid ↔
          WithinSlippage fee w.pool config (getShares w.storage vault) amount value) := by
  have hproceeds := withdraw_proceeds hpool hx h
  refine ⟨⟨_, hproceeds⟩, ?_⟩
  intro paid hsent
  rw [hsent.unique hproceeds, protected_iff hx.pair_pos, le_exitProceeds_iff]
  rfl

def sampleEnv (signer : Address) : Env :=
  { StrategyPositions.Aquarius.sampleEnv signer with
    estimateSwap := fun p i j x => some (quote 0 x (p.reserve i) (p.reserve j))
    swapOut := fun p i j x => some (quote 0 x (p.reserve i) (p.reserve j))
    withdrawPays := fun p x => some (p.reserves.map fun r => floorDiv (r * x) p.totalShares) }

/-- A vault deposits 20000 for 5000 of then 15000 shares of a pool without a fee. -/
def sampleWorld : World :=
  run StrategyPositions.Aquarius.sampleWorld
    [.transfer StrategyPositions.Aquarius.sampleAsset (.account 1) (.contract 0) 20000,
      .call (sampleEnv (.account 1)) (.deposit 20000 (.account 1))]

theorem sampleEnv_constantProduct (signer : Address) :
    ConstantProductPool 0 (sampleEnv signer) where
  fee_nonneg := le_rfl
  fee_le := by decide
  estimate _ _ _ _ := rfl
  swap _ _ _ _ _ h := (Option.some.inj h).symm
  pays _ _ _ h := (Option.some.inj h).symm

theorem sampleExit (amount : ℤ) (hpos : 0 < amount) (hle : amount ≤ 20000) :
    Exit sampleWorld StrategyPositions.Aquarius.sampleConfig (.account 1) amount 20000 where
  configured := by decide +kernel
  listed := .inl ⟨rfl, rfl, by decide +kernel⟩
  deposit_pos := by decide +kernel
  deposit_holds := by decide +kernel
  pair_pos := by decide +kernel
  pair_holds := by decide +kernel
  supply_pos := by decide +kernel
  supply_holds := by decide +kernel
  position_nonneg := by decide +kernel
  position_le := by decide +kernel
  slippage_nonneg := by decide
  slippage_le := by decide
  valued := by decide +kernel
  amount_pos := hpos
  amount_le := hle

theorem sampleExit_commits (amount left : ℤ)
    (h : (do
      let (k, _) ← AquariusContract.withdraw (sampleEnv (.account 1)) sampleWorld amount
        (.account 1) (.account 1)
      pure k) = .ok left) :
    ∃ w', AquariusContract.withdraw (sampleEnv (.account 1)) sampleWorld amount (.account 1)
      (.account 1) = .ok (left, w') := by
  simp only [bind_eq_ok, pure_eq_ok, Prod.exists] at h
  obtain ⟨k, w', h, rfl⟩ := h
  exact ⟨w', h⟩

/-- A twentieth of the position leaves within the slippage. -/
theorem withdraw_protected_iff_sample :
    ∃ w' paid, Sent sampleWorld w' StrategyPositions.Aquarius.sampleConfig (.account 1)
        (.account 1) paid ∧
      Protected sampleWorld.pool StrategyPositions.Aquarius.sampleConfig 1000 paid := by
  obtain ⟨w', h⟩ := sampleExit_commits 1000 18681 (by decide +kernel)
  obtain ⟨⟨paid, hsent⟩, hiff⟩ := withdraw_protected_iff 0 (sampleEnv (.account 1)) sampleWorld w'
    _ (.account 1) (.account 1) 1000 20000 _ (sampleEnv_constantProduct _)
    (sampleExit 1000 (by decide) (by decide)) h
  refine ⟨w', paid, hsent, (hiff paid hsent).mpr ?_⟩
  decide +kernel

/-- The whole position, a third of the pool, is valued at 20000 and leaves for 16666,
where the slippage accepts 19800. -/
theorem withdraw_unprotected : ¬SlippageBinds := by
  intro hbinds
  obtain ⟨w', h⟩ := sampleExit_commits 20000 0 (by decide +kernel)
  have hx := sampleExit 20000 (by decide) le_rfl
  have hpool := sampleEnv_constantProduct (.account 1)
  have hprotected := hbinds 0 _ _ _ _ _ _ _ _ _ _ hpool hx h (withdraw_proceeds hpool hx h)
  rw [protected_iff hx.pair_pos] at hprotected
  exact absurd hprotected (by decide +kernel)

end NekoStrategies.AquariusSlippage
