import NekoStrategies.AquariusLiquidity
import NekoStrategies.AquariusMinimums
import NekoStrategies.AquariusSlippage
import NekoStrategies.PositionBacking

/-!
# Leaving the Aquarius strategy

A vault that asks for its balance or more burns all its shares. The minimums that
the strategy passes to the pool could refuse the exit, but a pool that estimates
and pays exactly always meets them, at every slippage the configuration can have.
So here too nothing stops a vault whom the pool answers, whoever left before.
-/
namespace NekoStrategies.AquariusExit
open CheckedInteger RoundedDivision SorobanHost AmmPosition PositionBook LiquidityMarket
open AquariusPool AquariusContract AquariusCalls AquariusBalances AquariusLiquidity
open AquariusSlippage (part part_nonneg paid_parts left_reserve minWithSlippage_le
  removal_minimum_met)
open StrategyPositions StrategyPositions.Aquarius
open AquariusMinimums (InBounds Typed run_inBounds)
open TransactionalRun (Each)

/-- Estimates are what swaps pay, and shares are paid their part of each reserve,
rounded down. -/
structure Exact (env : Env) : Prop where
  estimates : ∀ p i j x out, env.swapOut p i j x = some out →
    env.estimateSwap p i j x = some out
  pays : ∀ p n amounts, 0 < p.totalShares → env.withdrawPays p n = some amounts →
    amounts = p.reserves.map fun r => floorDiv (r * n) p.totalShares

/-- The pool without some shares and what was paid for them. -/
def without (p : Pool) (amounts : List ℤ) (n : ℤ) : Pool :=
  { p with
    reserves := List.zipWith (· - ·) p.reserves amounts
    totalShares := p.totalShares - n }

/-- What the pool answers to an exit with `n` shares: the amounts paid for them,
and `out` of the deposit token for that of the pair token. -/
structure Answers (config : StrategyConfig) (env : Env) (p : Pool) (n : ℤ) (amounts : List ℤ)
    (out : ℤ) : Prop where
  paid : env.withdrawPays p n = some amounts
  swapped : 0 < amounts[config.pairTokenIdx]?.getD 0 →
    env.swapOut (without p amounts n) config.pairTokenIdx config.depositTokenIdx
      (amounts[config.pairTokenIdx]?.getD 0) = some out
  kept : amounts[config.pairTokenIdx]?.getD 0 = 0 → out = 0
  out_nonneg : 0 ≤ out

section Ledger
variable {env : Env} {w w' : World} {config : StrategyConfig} {x y k n : ℤ} {dest : Address}
  {amounts : List ℤ} {auths : List AuthEntry} {p : Pool} {l l' : Ledger} {pool strategy : Address}

theorem payAll_carries (hl : Listed p config) (hne : config.depositToken ≠ config.pairToken)
    (hlen : amounts.length = 2) (h : payAll strategy pool p.tokens amounts l = .ok l') :
    0 ≤ amounts[config.depositTokenIdx]?.getD 0 ∧ 0 ≤ amounts[config.pairTokenIdx]?.getD 0 ∧
      l.Carried l' config.depositToken pool strategy (amounts[config.depositTokenIdx]?.getD 0) ∧
      l.Carried l' config.pairToken pool strategy (amounts[config.pairTokenIdx]?.getD 0) := by
  obtain ⟨x, y, rfl⟩ := List.length_eq_two.mp hlen
  rcases hl with ⟨hd, hp, ht⟩ | ⟨hd, hp, ht⟩
  · simp only [ht, payAll, bind_eq_ok, pure_eq_ok] at h
    obtain ⟨m, hm, m', hm', rfl⟩ := h
    refine ⟨by simpa [hd] using (Ledger.transfer_eq_ok.mp hm).1,
      by simpa [hp] using (Ledger.transfer_eq_ok.mp hm').1, ?_, ?_⟩
    · intro v
      rw [Ledger.transfer_other hm' hne, Ledger.carried_of_transfer hm v]
      simp [hd]
    · intro v
      rw [Ledger.carried_of_transfer hm' v, Ledger.transfer_other hm hne.symm]
      simp [hp]
  · simp only [ht, payAll, bind_eq_ok, pure_eq_ok] at h
    obtain ⟨m, hm, m', hm', rfl⟩ := h
    refine ⟨by simpa [hd] using (Ledger.transfer_eq_ok.mp hm').1,
      by simpa [hp] using (Ledger.transfer_eq_ok.mp hm).1, ?_, ?_⟩
    · intro v
      rw [Ledger.carried_of_transfer hm' v, Ledger.transfer_other hm hne]
      simp [hd]
    · intro v
      rw [Ledger.transfer_other hm' hne.symm, Ledger.carried_of_transfer hm v]
      simp [hp]

theorem payAll_served (hl : Listed p config) (hne : config.depositToken ≠ config.pairToken)
    (hlen : amounts.length = 2) (hd0 : 0 ≤ amounts[config.depositTokenIdx]?.getD 0)
    (hp0 : 0 ≤ amounts[config.pairTokenIdx]?.getD 0)
    (hd : amounts[config.depositTokenIdx]?.getD 0 ≤ l config.depositToken pool)
    (hp : amounts[config.pairTokenIdx]?.getD 0 ≤ l config.pairToken pool) :
    ∃ l', payAll strategy pool p.tokens amounts l = .ok l' := by
  obtain ⟨x, y, rfl⟩ := List.length_eq_two.mp hlen
  rcases hl with ⟨hdi, hpi, ht⟩ | ⟨hdi, hpi, ht⟩
  · simp only [hdi, hpi, List.getElem?_cons_zero, List.getElem?_cons_succ, Option.getD_some]
      at hd0 hp0 hd hp
    obtain ⟨m, hm⟩ : ∃ m, l.transfer config.depositToken pool strategy x = .ok m :=
      ⟨_, Ledger.transfer_eq_ok.mpr ⟨hd0, hd, rfl⟩⟩
    rw [← Ledger.transfer_other hm hne.symm] at hp
    simp only [ht, payAll, bind_eq_ok, pure_eq_ok]
    exact ⟨_, m, hm, _, Ledger.transfer_eq_ok.mpr ⟨hp0, hp, rfl⟩, rfl⟩
  · simp only [hdi, hpi, List.getElem?_cons_zero, List.getElem?_cons_succ, Option.getD_some]
      at hd0 hp0 hd hp
    obtain ⟨m, hm⟩ : ∃ m, l.transfer config.pairToken pool strategy x = .ok m :=
      ⟨_, Ledger.transfer_eq_ok.mpr ⟨hp0, hp, rfl⟩⟩
    rw [← Ledger.transfer_other hm hne] at hd
    simp only [ht, payAll, bind_eq_ok, pure_eq_ok]
    exact ⟨_, m, hm, _, Ledger.transfer_eq_ok.mpr ⟨hd0, hd, rfl⟩, rfl⟩

theorem share_ne (hs : Listed p config) (hnot : p.shareId ∉ p.tokens) :
    config.depositToken ≠ p.shareId ∧ config.pairToken ≠ p.shareId := by
  obtain ⟨hd, hp, _⟩ := hs.get
  constructor
  · rintro he
    exact hnot (he ▸ List.mem_of_getElem? hd)
  · rintro he
    exact hnot (he ▸ List.mem_of_getElem? hp)

theorem remove_carries (hc : ProperConfig w config) (hl : Listed w.pool config) {mins : List ℤ}
    (hlen : amounts.length = 2)
    (h : poolWithdraw env w auths config n mins = .ok (amounts, w')) :
    0 ≤ amounts[config.depositTokenIdx]?.getD 0 ∧ 0 ≤ amounts[config.pairTokenIdx]?.getD 0 ∧
      w.tokens.Carried w'.tokens config.depositToken config.pool w.self
        (amounts[config.depositTokenIdx]?.getD 0) ∧
      w.tokens.Carried w'.tokens config.pairToken config.pool w.self
        (amounts[config.pairTokenIdx]?.getD 0) := by
  obtain ⟨_, _, _, tokens, hpay, rfl⟩ := poolWithdraw_ok h
  obtain ⟨hned, hnep⟩ := share_ne hl hc.share_not_mem
  obtain ⟨hd0, hp0, hd, hp⟩ := payAll_carries hl (hl.ne hc.tokens_nodup) hlen hpay
  refine ⟨hd0, hp0, ?_, ?_⟩
  · intro v
    dsimp only
    rw [hd v, Ledger.add_apply]
    simp [hned]
  · intro v
    dsimp only
    rw [hp v, Ledger.add_apply]
    simp [hnep]

theorem payOut_carries (hne : config.depositToken ≠ config.pairToken) (hx : 0 ≤ x)
    (h : payOut w config dest x = .ok w') :
    w.tokens.Carried w'.tokens config.depositToken w.self dest x ∧
      ∀ v, w'.tokens config.pairToken v = w.tokens config.pairToken v := by
  rcases payOut_ok h with ⟨hle, rfl⟩ | ⟨_, tokens, ht, rfl⟩
  · obtain rfl : x = 0 := by omega
    exact ⟨fun v => by simp, fun _ => rfl⟩
  · exact ⟨Ledger.carried_of_transfer ht, fun _ => Ledger.transfer_other ht hne.symm⟩

/-- What the pool gives for the shares goes to the destination in the deposit token. -/
theorem withdraw_ledger (hf : FairPool env) (hc : ProperConfig w config)
    (hs : Stocked config w.pool) (hx : 0 ≤ x) (hlt : x < w.pool.totalShares)
    (h : AquariusPool.withdraw env w x dest config = .ok (k, w')) :
    ∃ amounts out, Answers config env w.pool x amounts out ∧
      k = amounts[config.depositTokenIdx]?.getD 0 + out ∧ 0 ≤ k ∧
      liquidity config w'.pool = ⟨(liquidity config w.pool).a - k, (liquidity config w.pool).b,
        w.pool.totalShares - x⟩ ∧ w'.pool.tokens = w.pool.tokens ∧
      w'.pool.shareId = w.pool.shareId ∧ w'.pool.reserves.length = 2 ∧
      w.tokens.Carried w'.tokens config.depositToken config.pool dest k ∧
      ∀ v, w'.tokens config.pairToken v = w.tokens config.pairToken v := by
  obtain ⟨_, _, amounts, u, u', hremove, hback, hpay⟩ := poolExit_ok h
  have hxHolds : i128.Holds x := poolWithdraw_holds hremove ▸ asI128_holds _
  have hne := hs.listed.ne hc.tokens_nodup
  rw [asU128_of_holds hx hxHolds] at hremove
  obtain ⟨hholds, hsu, hfirst, hpool⟩ := poolWithdraw_move hf hs hx hlt hremove
  obtain ⟨_, hamounts, hmins, _, _, hu⟩ := poolWithdraw_ok hremove
  have hlen : amounts.length = 2 := hmins.1.symm.trans inPoolOrder_two
  obtain ⟨hd0, hp0, hud, hup⟩ := remove_carries hc hs.listed hlen hremove
  obtain ⟨_, hself, _, htokens, hid⟩ := poolWithdraw_frame hremove
  rw [asI128_of_holds (getD_holds hholds), asI128_of_holds (getD_holds hholds)] at hback
  have hsame : w'.pool = u'.pool := by
    rcases payOut_ok hpay with ⟨_, rfl⟩ | ⟨_, _, _, rfl⟩ <;> rfl
  have hgone : u.pool = without w.pool amounts x := by
    rw [hu]
    rfl
  rcases swapBack_ok hback with ⟨hnone, rfl, rfl⟩ | ⟨hsome, minOut, out, hswap, rfl⟩
  · have hzero : amounts[config.pairTokenIdx]?.getD 0 = 0 := le_antisymm hnone hp0
    obtain ⟨hwd, hwp⟩ := payOut_carries hne hd0 hpay
    rw [hself] at hwd
    refine ⟨amounts, 0, ⟨hamounts, fun hpos => absurd hpos (by omega), fun _ => rfl, le_rfl⟩,
      (add_zero _).symm, hd0, ?_, ?_, ?_, ?_, hud.trans hwd, ?_⟩
    · rw [hsame, hpool, hzero, sub_zero]
    · rw [hsame, htokens]
    · rw [hsame, hid]
    · rw [hsame]
      exact hsu.two
    · intro v
      rw [hwp v, hup v, hzero]
      simp
  · rw [asU128_of_holds hp0 (getD_holds hholds)] at hswap
    obtain ⟨houtHolds, hsu', _, hback'⟩ := swapOut_move hf hsu hp0 hswap
    obtain ⟨hpt, hdt, _⟩ := hsu.listed.get
    obtain ⟨tin, tout, t₁, t₂, hin, hto, hout, _, ht₁, ht₂, hu'⟩ := swap_ok hswap
    obtain rfl := Option.some.inj (hdt.symm.trans hin)
    obtain rfl := Option.some.inj (hpt.symm.trans hto)
    rw [asI128_of_holds (getD_holds hholds)] at ht₁
    have hout0 : 0 ≤ out := (Ledger.transfer_eq_ok.mp ht₂).1
    rw [asI128_of_holds houtHolds] at hpay ⊢
    have hself' : u'.self = w.self := by rw [hu', hself]
    have hk : 0 ≤ amounts[config.depositTokenIdx]?.getD 0 + out := add_nonneg hd0 hout0
    obtain ⟨hwd, hwp⟩ := payOut_carries hne hk hpay
    rw [hself'] at hwd
    have hgained : w.tokens.Carried u'.tokens config.depositToken config.pool w.self
        (amounts[config.depositTokenIdx]?.getD 0 + out) := by
      intro v
      rw [hu']
      dsimp only
      rw [Ledger.carried_of_transfer ht₂ v, Ledger.transfer_other ht₁ hne, hud v, hself]
      split_ifs <;> ring
    have hspent : ∀ v, u'.tokens config.pairToken v = w.tokens config.pairToken v := by
      intro v
      rw [hu']
      dsimp only
      rw [Ledger.transfer_other ht₂ hne.symm, Ledger.carried_of_transfer ht₁ v, hup v, hself]
      ring
    have hsupply : u.pool.totalShares = w.pool.totalShares - x :=
      congrArg LiquidityPool.shares hpool
    refine ⟨amounts, out, ⟨hamounts, fun _ => hgone ▸ hout, fun hz => absurd hsome (by omega),
      hout0⟩, rfl, hk, ?_, ?_, ?_, ?_, hgained.trans hwd, ?_⟩
    · rw [hsame, hback', hpool, hsupply]
      congr 1 <;> ring
    · rw [hsame, hu', ← htokens]
    · rw [hsame, hu', ← hid]
    · rw [hsame]
      exact hsu'.two
    · intro v
      rw [hwp v, hspent v]

end Ledger

/-- The pool owns its reserves, which are token amounts, and the strategy owes
nobody its tokens. -/
structure Solvent (config : StrategyConfig) (w : World) : Prop where
  owns_deposit : (liquidity config w.pool).a ≤ w.tokens config.depositToken config.pool
  owns_pair : (liquidity config w.pool).b ≤ w.tokens config.pairToken config.pool
  purse_deposit : 0 ≤ w.tokens config.depositToken w.self
  purse_pair : 0 ≤ w.tokens config.pairToken w.self
  fits_deposit : (liquidity config w.pool).a ≤ i128.hi
  fits_shares : w.pool.totalShares ≤ i128.hi

/-- A state from which vaults may leave: the strategy owns the shares that it
attributes. -/
structure Ready (config : StrategyConfig) (w : World) : Prop extends Solvent config w where
  configured : w.storage.config = some config
  slippage_nonneg : 0 ≤ config.maxSlippageBps
  slippage_le : config.maxSlippageBps ≤ AquariusContract.maxSlippageBps
  proper : ProperConfig w config
  stocked : Stocked config w.pool
  healthy : Healthy (view config w)
  backed : (positions w).total ≤ w.tokens w.pool.shareId w.self

section Service
variable {env : Env} {w w' : World} {config : StrategyConfig} {x out amount V k : ℤ}
  {vault dest : Address} {amounts : List ℤ}

theorem minWithSlippage_served (expected : ℤ) (hr : Ready config w) :
    ∃ m, minWithSlippage expected config.maxSlippageBps = .ok m := by
  have hle := hr.slippage_le
  have hnonneg := hr.slippage_nonneg
  have hkept : u128.Holds (bps - config.maxSlippageBps) := by
    simp only [AquariusContract.maxSlippageBps, bps, u128, Width.Holds] at hle ⊢
    omega
  exact ⟨_, by simp only [minWithSlippage, plainSub_of_holds hkept, ok_bind]; rfl⟩

/-- What the pool pays for shares: their part of the two reserves. -/
theorem Answers.parts (h : Answers config env w.pool x amounts out) (he : Exact env)
    (hs : Stocked config w.pool) : amounts.length = 2 ∧
      amounts[config.depositTokenIdx]?.getD 0 = part w.pool x config.depositTokenIdx ∧
      amounts[config.pairTokenIdx]?.getD 0 = part w.pool x config.pairTokenIdx := by
  obtain rfl := he.pays _ _ _ hs.liquid.shares_pos h.paid
  exact ⟨by simp [hs.two], paid_parts, paid_parts⟩

/-- Less than all shares are paid less than all reserves. -/
theorem part_lt {p : Pool} {i : ℕ} (hr : 0 < p.reserve i) (hlt : x < p.totalShares)
    (hT : 0 < p.totalShares) : part p x i < p.reserve i := by
  unfold part
  rw [floorDiv_lt_iff hT]
  exact mul_lt_mul_of_pos_left hlt hr

/-- A fair pool is not emptied by an exit. -/
theorem Answers.within (h : Answers config env w.pool x amounts out) (he : Exact env)
    (hf : FairPool env) (hs : Stocked config w.pool) (hx : 0 ≤ x) (hlt : x < w.pool.totalShares) :
    0 ≤ amounts[config.depositTokenIdx]?.getD 0 ∧ 0 ≤ amounts[config.pairTokenIdx]?.getD 0 ∧
      amounts[config.depositTokenIdx]?.getD 0 + out ≤ (liquidity config w.pool).a ∧
      amounts[config.pairTokenIdx]?.getD 0 ≤ (liquidity config w.pool).b := by
  obtain ⟨hlen, hd, hp⟩ := h.parts he hs
  have hT : 0 < w.pool.totalShares := hs.liquid.shares_pos
  have hra : 0 < w.pool.reserve config.depositTokenIdx := hs.liquid.a_pos
  have hrb : 0 < w.pool.reserve config.pairTokenIdx := hs.liquid.b_pos
  have hd0 := part_nonneg hra.le hx hT
  have hp0 := part_nonneg hrb.le hx hT
  have hdlt := part_lt hra hlt hT
  have hplt := part_lt hrb hlt hT
  refine ⟨hd ▸ hd0, hp ▸ hp0, ?_, hp ▸ hplt.le⟩
  change _ ≤ w.pool.reserve config.depositTokenIdx
  rw [hd]
  rcases hp0.eq_or_lt with hzero | hpos
  · have hout := h.kept (hp.trans hzero.symm)
    omega
  · have hswap := h.swapped (hp ▸ hpos)
    have hleft : ∀ i, (without w.pool amounts x).reserve i =
        w.pool.reserve i - part w.pool x i := by
      intro i
      rw [he.pays _ _ _ hT h.paid]
      exact left_reserve
    obtain ⟨_, hproduct⟩ := hf.swap _ _ _ _ _ (hp ▸ hp0) (by rw [hleft]; omega)
      (by rw [hleft]; omega) hswap
    rw [hleft, hleft, hp] at hproduct
    have hrest := (mul_pos (sub_pos.mpr hplt) (sub_pos.mpr hdlt)).trans_le hproduct
    have := pos_of_mul_pos_right hrest (by omega)
    omega

theorem remove_served (hr : Ready config w) (he : Exact env) (hf : FairPool env)
    (h : Answers config env w.pool x amounts out) (hx : 0 ≤ x) (hle : x ≤ (positions w).total)
    {minDeposit minPair : ℤ}
    (hd : minWithSlippage (u128.mulDivOrZero (w.pool.reserve config.depositTokenIdx) x
      w.pool.totalShares) config.maxSlippageBps = .ok minDeposit)
    (hp : minWithSlippage (u128.mulDivOrZero (w.pool.reserve config.pairTokenIdx) x
      w.pool.totalShares) config.maxSlippageBps = .ok minPair) :
    ∃ u, poolWithdraw env w [.burn config.shareToken w.self x] config x
      (inPoolOrder config minDeposit minPair) = .ok (amounts, u) := by
  have hs := hr.stocked
  have hlt : x < w.pool.totalShares := hle.trans_lt hr.healthy.locked
  have hT : 0 < w.pool.totalShares := hs.liquid.shares_pos
  have hxHolds : asI128 x = x := asI128_of_holds
    (i128_holds_of_le hx (hlt.le.trans hr.fits_shares) (by decide : i128.Holds i128.hi))
  obtain ⟨hlen, hdpart, hppart⟩ := h.parts he hs
  obtain ⟨hd0, hp0, hdle, hple⟩ := h.within he hf hs hx hlt
  have hmetD := removal_minimum_met hs.liquid.a_pos.le hx hT hr.slippage_nonneg hd
  have hmetP := removal_minimum_met hs.liquid.b_pos.le hx hT hr.slippage_nonneg hp
  rw [← hdpart] at hmetD
  rw [← hppart] at hmetP
  obtain ⟨hned, hnep⟩ := share_ne hs.listed hr.proper.share_not_mem
  have hkept : ∀ t v, t ≠ w.pool.shareId →
      (w.tokens.add w.pool.shareId w.self (-x)) t v = w.tokens t v := by
    intro t v ht
    rw [Ledger.add_apply]
    simp [ht]
  obtain ⟨tokens, hpay⟩ : ∃ t, payAll w.self config.pool w.pool.tokens amounts
      (w.tokens.add w.pool.shareId w.self (-x)) = .ok t := by
    refine payAll_served hs.listed (hs.listed.ne hr.proper.tokens_nodup) hlen hd0 hp0 ?_ ?_
    · rw [hkept _ _ hned]
      have := hr.owns_deposit
      have := h.out_nonneg
      omega
    · rw [hkept _ _ hnep]
      exact hple.trans hr.owns_pair
  have hmins : (inPoolOrder config minDeposit minPair).length = amounts.length ∧
      ∀ p ∈ (inPoolOrder config minDeposit minPair).zip amounts, p.1 ≤ p.2 := by
    refine ⟨inPoolOrder_two.trans hlen.symm, ?_⟩
    obtain ⟨y, z, rfl⟩ := List.length_eq_two.mp hlen
    rcases hs.listed with ⟨hdi, hpi, _⟩ | ⟨hdi, hpi, _⟩
    · simp only [hdi, hpi] at hmetD hmetP
      simpa [inPoolOrder, hdi] using ⟨hmetD, hmetP⟩
    · simp only [hdi, hpi] at hmetD hmetP
      simpa [inPoolOrder, hdi] using ⟨hmetP, hmetD⟩
  simp only [poolWithdraw, hxHolds, bind_eq_ok, ensure_eq_ok, orFault_eq_ok, pure_eq_ok,
    exists_const, Prod.mk.injEq]
  exact ⟨_, by simp [hr.proper.share_eq], ⟨hx, hle.trans hr.backed⟩, amounts, h.paid, hmins,
    tokens, hpay, rfl, rfl⟩

theorem swapBack_served (hr : Ready config w) (he : Exact env) (hf : FairPool env)
    (h : Answers config env w.pool x amounts out) (hx : 0 ≤ x) (hle : x ≤ (positions w).total)
    {auths : List AuthEntry} {mins : List ℤ} {u : World}
    (hu : poolWithdraw env w auths config x mins = .ok (amounts, u)) :
    ∃ u', swapBack env u config (amounts[config.depositTokenIdx]?.getD 0)
        (amounts[config.pairTokenIdx]?.getD 0) =
          .ok (amounts[config.depositTokenIdx]?.getD 0 + out, u') ∧ u'.self = w.self ∧
      amounts[config.depositTokenIdx]?.getD 0 + out ≤ u'.tokens config.depositToken w.self := by
  have hc := hr.proper
  have hs := hr.stocked
  have hlt : x < w.pool.totalShares := hle.trans_lt hr.healthy.locked
  have hne := hs.listed.ne hc.tokens_nodup
  obtain ⟨hlen, _, _⟩ := h.parts he hs
  obtain ⟨hd0, hp0, hwithin, _⟩ := h.within he hf hs hx hlt
  obtain ⟨hholds, hsu, _, _⟩ := poolWithdraw_move hf hs hx hlt hu
  obtain ⟨_, _, hud, hup⟩ := remove_carries hc hs.listed hlen hu
  obtain ⟨_, hself, _, _, _⟩ := poolWithdraw_frame hu
  have hgone : u.pool = without w.pool amounts x := by
    obtain ⟨_, _, _, _, _, rfl⟩ := poolWithdraw_ok hu
    rfl
  have hpurseD := hr.purse_deposit
  have hpurseP := hr.purse_pair
  have hownsD := hr.owns_deposit
  have hfits := hr.fits_deposit
  have hout0 := h.out_nonneg
  have hmineD : u.tokens config.depositToken w.self =
      w.tokens config.depositToken w.self + amounts[config.depositTokenIdx]?.getD 0 := by
    rw [hud]
    simp [hc.pool_ne.symm]
  have hmineP : u.tokens config.pairToken w.self =
      w.tokens config.pairToken w.self + amounts[config.pairTokenIdx]?.getD 0 := by
    rw [hup]
    simp [hc.pool_ne.symm]
  have htheirs : u.tokens config.depositToken config.pool =
      w.tokens config.depositToken config.pool - amounts[config.depositTokenIdx]?.getD 0 := by
    rw [hud]
    simp [hc.pool_ne]
  unfold swapBack
  split_ifs with hpos
  · have hswapped := h.swapped hpos
    rw [← hgone] at hswapped
    have hpairHolds : i128.Holds (amounts[config.pairTokenIdx]?.getD 0) := getD_holds hholds
    obtain ⟨houtHolds, _⟩ := hf.swap _ _ _ _ _ hp0 hsu.liquid.b_pos hsu.liquid.a_pos hswapped
    obtain ⟨minOut, hmin⟩ := minWithSlippage_served out hr
    have hmet : minOut ≤ out := minWithSlippage_le hout0 hr.slippage_nonneg hmin
    obtain ⟨hdt, hpt, _⟩ := hsu.listed.get
    obtain ⟨t₁, ht₁⟩ : ∃ t, u.tokens.transfer config.pairToken u.self config.pool
        (amounts[config.pairTokenIdx]?.getD 0) = .ok t := by
      refine ⟨_, Ledger.transfer_eq_ok.mpr ⟨hp0, ?_, rfl⟩⟩
      rw [hself, hmineP]
      omega
    have hstill : ∀ v, t₁ config.depositToken v = u.tokens config.depositToken v := fun v =>
      Ledger.transfer_other ht₁ hne
    obtain ⟨t₂, ht₂⟩ : ∃ t, t₁.transfer config.depositToken config.pool u.self out = .ok t := by
      refine ⟨_, Ledger.transfer_eq_ok.mpr ⟨hout0, ?_, rfl⟩⟩
      rw [hstill, htheirs]
      omega
    have htotal : i128.Holds (amounts[config.depositTokenIdx]?.getD 0 + out) :=
      i128_holds_of_le (by omega) (hwithin.trans hfits) (by decide)
    have hgained : t₂ config.depositToken w.self = w.tokens config.depositToken w.self +
        amounts[config.depositTokenIdx]?.getD 0 + out := by
      rw [Ledger.carried_of_transfer ht₂, hstill, hmineD, hself]
      simp [hc.pool_ne.symm]
    simp only [asU128_of_holds hp0 hpairHolds, swap, asI128_of_holds hpairHolds, bind_eq_ok,
      ensure_eq_ok, orFault_eq_ok, plainAdd_eq_ok, pure_eq_ok, Ledger.pull_eq_ok, exists_const,
      Prod.exists, Prod.mk.injEq]
    refine ⟨_, ⟨out, he.estimates _ _ _ _ _ hswapped, minOut, hmin, out, _,
      ⟨config.pairToken, hpt, config.depositToken, hdt, out, hswapped, hmet, t₁, ⟨by simp, ht₁⟩,
        t₂, ht₂, rfl, rfl⟩, _, ⟨?_, rfl⟩, ?_, rfl⟩, hself, ?_⟩
    · rwa [asI128_of_holds houtHolds]
    · rw [asI128_of_holds houtHolds]
    · dsimp only
      rw [hgained]
      omega
  · obtain rfl : out = 0 := h.kept (by omega)
    refine ⟨u, by simp [pure, Except.pure], hself, ?_⟩
    rw [hmineD]
    omega

/-- Whatever part of the attributed shares a vault burns, it is paid. -/
theorem pool_withdraw_served (dest : Address) (hr : Ready config w) (he : Exact env)
    (hf : FairPool env) (h : Answers config env w.pool x amounts out) (hx : 0 ≤ x)
    (hle : x ≤ (positions w).total) :
    ∃ u, AquariusPool.withdraw env w x dest config =
      .ok (amounts[config.depositTokenIdx]?.getD 0 + out, u) := by
  have hs := hr.stocked
  have hlt : x < w.pool.totalShares := hle.trans_lt hr.healthy.locked
  have hxHolds : i128.Holds x :=
    i128_holds_of_le hx (hlt.le.trans hr.fits_shares) (by decide)
  obtain ⟨minDeposit, hminD⟩ := minWithSlippage_served
    (u128.mulDivOrZero (w.pool.reserve config.depositTokenIdx) x w.pool.totalShares) hr
  obtain ⟨minPair, hminP⟩ := minWithSlippage_served
    (u128.mulDivOrZero (w.pool.reserve config.pairTokenIdx) x w.pool.totalShares) hr
  obtain ⟨u, hu⟩ := remove_served hr he hf h hx hle hminD hminP
  obtain ⟨hholds, _⟩ := poolWithdraw_move hf hs hx hlt hu
  obtain ⟨hd0, _, _, _⟩ := h.within he hf hs hx hlt
  obtain ⟨u', hu', hself, hpurse⟩ := swapBack_served hr he hf h hx hle hu
  obtain ⟨v, hv⟩ : ∃ v, payOut u' config dest (amounts[config.depositTokenIdx]?.getD 0 + out) =
      .ok v := by
    unfold payOut
    split_ifs with hpos
    · simp only [bind_eq_ok, pure_eq_ok]
      rw [hself]
      exact ⟨_, _, Ledger.transfer_eq_ok.mpr ⟨hpos.le, hpurse, rfl⟩, rfl⟩
    · exact ⟨u', rfl⟩
  simp only [AquariusPool.withdraw, asU128_of_holds hx hxHolds, bind_eq_ok, pure_eq_ok,
    Prod.exists, Prod.mk.injEq]
  refine ⟨v, minDeposit, hminD, minPair, hminP, amounts, u, hu, _, u', ?_, v, hv, rfl, rfl⟩
  rw [asI128_of_holds (getD_holds hholds), asI128_of_holds (getD_holds hholds)]
  exact hu'

/-- A vault that asks for its balance or more is let out. -/
theorem withdraw_served (dest : Address) (hr : Ready config w) (he : Exact env)
    (hf : FairPool env) (h : Answers config env w.pool (getShares w.storage vault) amounts out)
    (hbalance : AquariusContract.balance w vault = .ok V) (hV : 0 < V) (hle : V ≤ amount) :
    ∃ k w', AquariusContract.withdraw env w amount vault dest = .ok (k, w') := by
  have hconfig := hr.configured
  simp only [AquariusContract.balance, loadConfig, hconfig, orFault, ok_bind] at hbalance
  have hheld : getShares w.storage vault ≠ 0 := by
    intro hzero
    rw [hzero] at hbalance
    simp [sharesValueInDeposit] at hbalance
    omega
  have hnonneg : 0 ≤ getShares w.storage vault := hr.healthy.nonneg vault
  have htotal : getShares w.storage vault ≤ (positions w).total :=
    hr.healthy.nonneg.amount_le_total
  obtain ⟨u, hu⟩ := pool_withdraw_served dest hr he hf h hnonneg htotal
  have hburn : proportionalBurn (getShares w.storage vault) amount V =
      .ok (getShares w.storage vault) := proportionalBurn_eq_ok.mpr (.inl ⟨hle, rfl⟩)
  have hnone : i128.Holds (getShares w.storage vault - getShares w.storage vault) := by
    rw [sub_self]
    decide
  obtain ⟨value, hvalue⟩ : ∃ value, sharesValueInDeposit
      { u with storage := setShares u.storage vault 0 } 0 config = .ok value :=
    ⟨0, by simp [sharesValueInDeposit, pure, Except.pure]⟩
  simp only [AquariusContract.withdraw, checkPositiveAmount, loadConfig, hconfig, bind_eq_ok,
    ensure_eq_ok, orFault_eq_ok, plainSub_eq_ok, pure_eq_ok, exists_const, Prod.exists,
    Prod.mk.injEq]
  refine ⟨value, _, by omega, config, rfl, hheld, V, hbalance, hV.ne', _, hburn, hheld, _, u,
    hu, 0, ⟨hnone, sub_self _⟩, value, ?_, rfl, rfl⟩
  simpa [getShares, setShares] using hvalue

/-- A withdrawal, of whatever amount, leaves a state from which the others may leave. -/
theorem Ready.after (hr : Ready config w) (hf : FairPool env)
    (h : AquariusContract.withdraw env w amount vault dest = .ok (k, w')) : Ready config w' := by
  have hc := hr.proper
  obtain ⟨hstocked, heffect⟩ := withdraw_effect ⟨⟨_, hr.configured⟩, hc, hr.stocked⟩ hr.healthy hf h
  obtain ⟨hpos, _, c, totalValue, burnt, paid, u, hconfig, _, _, hburn, _, hwd, hw'⟩ :=
    withdraw_ok h
  obtain rfl := Option.some.inj (hconfig.symm.trans hr.configured)
  obtain ⟨hburnt, hle⟩ := proportionalBurn_le (hr.healthy.nonneg vault) hpos hburn
  have hlt : burnt < w.pool.totalShares :=
    (hle.trans hr.healthy.nonneg.amount_le_total).trans_lt hr.healthy.locked
  obtain ⟨amounts, out, _, _, hpaid, hpool, hlisted, hid, _, hcarried, hkept⟩ :=
    withdraw_ledger hf hc hr.stocked hburnt hlt hwd
  have hshares := PositionBacking.Aquarius.withdraw_shares hc.share_not_mem
    (List.mem_of_getElem? hc.deposit_listed) hwd
  obtain ⟨_, hself, _⟩ := poolExit_frame hwd
  have htokens : w'.tokens = u.tokens := by rw [hw']
  have hpool' : w'.pool = u.pool := by rw [hw']
  have hself' : w'.self = w.self := by rw [hw', ← hself]
  have hstored : w'.storage = setShares w.storage vault (getShares w.storage vault - burnt) := by
    rw [hw']
  have htotal : (positions w').total = (positions w).total - burnt := by
    simp only [positions, hstored, setShares, Attribution.total_set, getShares]
    ring
  have hmine : w'.tokens c.depositToken w.self = w.tokens c.depositToken w.self +
      if w.self = dest then paid else 0 := by
    rw [htokens, hcarried]
    simp [hc.pool_ne.symm]
  have htheirs : w'.tokens c.depositToken c.pool = w.tokens c.depositToken c.pool +
      (if c.pool = dest then paid else 0) - paid := by
    rw [htokens, hcarried]
    simp
  have hsupply : w'.pool.totalShares = w.pool.totalShares - burnt := by
    rw [hpool']
    exact congrArg LiquidityPool.shares hpool
  have hownsD := hr.owns_deposit
  have hpurseD := hr.purse_deposit
  have hfitsD := hr.fits_deposit
  have hfitsS := hr.fits_shares
  have hbacked := hr.backed
  refine ⟨⟨?_, ?_, ?_, ?_, ?_, ?_⟩, ?_, hr.slippage_nonneg, hr.slippage_le,
    hc.congr hself' (by rw [hpool', hlisted]) (by rw [hpool', hid]), hstocked,
    heffect.healthy hr.healthy, ?_⟩
  · rw [hpool', hpool, htheirs]
    dsimp only
    split_ifs <;> omega
  · rw [hpool', hpool, htokens, hkept]
    exact hr.owns_pair
  · rw [hself', hmine]
    split_ifs <;> omega
  · rw [hself', htokens, hkept]
    exact hr.purse_pair
  · rw [hpool', hpool]
    dsimp only
    omega
  · omega
  · rw [hstored]
    exact hconfig
  · rw [hpool', hid, hself', htokens, hshares, htotal]
    omega

end Service

/-- A vault that leaves: its invocation, how much it asks for and where it is paid. -/
structure Leaver where
  env : Env
  vault : Address
  dest : Address
  amount : ℤ

def leave (l : Leaver) (w : World) : Outcome World :=
  invoke l.env w (.withdraw l.amount l.vault l.dest)

/-- It asks for no less than a positive balance, and the pool answers. -/
def Asks (config : StrategyConfig) (l : Leaver) (w : World) : Prop :=
  (∃ V, AquariusContract.balance w l.vault = .ok V ∧ 0 < V ∧ V ≤ l.amount) ∧
    ∃ amounts out, Answers config l.env w.pool (getShares w.storage l.vault) amounts out

/-- It has no position left and all others have theirs, and what the pool gives
for the shares is where it should be. -/
def Left (config : StrategyConfig) (l : Leaver) (w w' : World) : Prop :=
  getShares w'.storage l.vault = 0 ∧
  (∀ u, u ≠ l.vault → getShares w'.storage u = getShares w.storage u) ∧
  ∃ amounts out, Answers config l.env w.pool (getShares w.storage l.vault) amounts out ∧
    w.tokens.Carried w'.tokens config.depositToken config.pool l.dest
      (amounts[config.depositTokenIdx]?.getD 0 + out) ∧
    ∀ u, w'.tokens config.pairToken u = w.tokens config.pairToken u

section Queue
variable {config : StrategyConfig} {w w' : World} {l : Leaver}

theorem leave_ready (hr : Ready config w) (hf : FairPool l.env) (h : leave l w = .ok w') :
    Ready config w' := by
  obtain ⟨k, hw⟩ := forget_eq_ok.mp h
  exact hr.after hf hw

theorem leave_left (hr : Ready config w) (hf : FairPool l.env) {V : ℤ}
    (hbalance : AquariusContract.balance w l.vault = .ok V) (hle : V ≤ l.amount)
    (h : leave l w = .ok w') : Left config l w w' := by
  obtain ⟨k, hw⟩ := forget_eq_ok.mp h
  obtain ⟨_, _, c, totalValue, burnt, paid, u, hconfig, hvalue, _, hburn, _, hwd, hw'⟩ :=
    withdraw_ok hw
  obtain rfl := Option.some.inj (hconfig.symm.trans hr.configured)
  have htotal : totalValue = V := by
    simp only [AquariusContract.balance, loadConfig, hconfig, orFault, ok_bind, hvalue] at hbalance
    exact Except.ok.inj hbalance
  obtain rfl : burnt = getShares w.storage l.vault := by
    rcases proportionalBurn_eq_ok.mp hburn with ⟨_, hall⟩ | ⟨hlt, _⟩
    · exact hall
    · omega
  have hlt : getShares w.storage l.vault < w.pool.totalShares :=
    (hr.healthy.nonneg.amount_le_total (i := l.vault)).trans_lt hr.healthy.locked
  obtain ⟨amounts, out, hanswers, rfl, _, _, _, _, _, hcarried, hkept⟩ :=
    withdraw_ledger hf hr.proper hr.stocked (hr.healthy.nonneg l.vault) hlt hwd
  refine ⟨?_, ?_, amounts, out, hanswers, ?_, ?_⟩
  · rw [hw']
    simp [getShares, setShares]
  · intro v hv
    rw [hw']
    simp [getShares, setShares, Attribution.amount_set_of_ne hv]
  · rw [hw']
    exact hcarried
  · rw [hw']
    exact hkept

end Queue

/-- After every run among fair traders, at whatever slippage it ends, and in
whatever order vaults then ask for their balance or more: whenever it is a
vault's turn, it has a positive balance and the pool answers, neither the
minimums of the removal nor that of the swap stop it. It is paid all that the
pool gives for its shares, has no position left, and the others have theirs. -/
theorem exits_meet_minimums (w : World) (config : StrategyConfig) (acts : List Action)
    (ls : List Leaver) (hw : SetUp config w) (hh : Healthy (view config w))
    (hb : ∃ c, InBounds w c) (hbacked : (positions w).total ≤ PositionBacking.Aquarius.shareHeld w)
    (htyped : ∀ a ∈ acts, Typed a)
    (hacts : Each step (fun a u => Fair config a u ∧ PositionBacking.Aquarius.Admissible a u) w
      acts)
    (hconfig : (run w acts).storage.config = some config) (hsolvent : Solvent config (run w acts))
    (hls : ∀ l ∈ ls, FairPool l.env ∧ Exact l.env) :
    Each leave (fun l u => Asks config l u → ∃ t, leave l u = .ok t ∧ Left config l u t)
      (run w acts) ls := by
  obtain ⟨hfair, hadmissible⟩ := TransactionalRun.each_and.mp hacts
  obtain ⟨hset, hhealthy⟩ := market.run_healthy hw hh hfair
  obtain ⟨c, hbounds⟩ := run_inBounds hb htyped
  obtain rfl := Option.some.inj (hbounds.configured.symm.trans hconfig)
  have hready : Ready c (run w acts) := by
    refine ⟨hsolvent, hconfig, hbounds.slippage_nonneg, hbounds.slippage_le, hset.proper,
      hset.stocked, hhealthy, ?_⟩
    obtain ⟨slippage, hstart⟩ := hw.configured
    have hcovered := (PositionBacking.Aquarius.custody.run_covered
      ⟨hw.proper.share_not_mem, _, hstart, hw.proper.share_eq,
        List.mem_of_getElem? hw.proper.deposit_listed⟩ ⟨hh.nonneg, hbacked⟩ hadmissible).2.total_le
    rwa [PositionBacking.Aquarius.shareHeld_eq hconfig, hset.proper.share_eq] at hcovered
  have hserves : Each leave (fun l _ => FairPool l.env ∧ Exact l.env) (run w acts) ls :=
    TransactionalRun.each_of_forall fun l hl _ => hls l hl
  refine TransactionalRun.each_of_invariant (I := Ready c) ?_ ?_ hready hserves
  · intro l s t hl hs h
    exact leave_ready hs hl.1 h
  · rintro l s ⟨hf, he⟩ hs ⟨⟨V, hbalance, hV, hle⟩, amounts, out, hanswers⟩
    obtain ⟨k, t, ht⟩ := withdraw_served l.dest hs he hf hanswers hbalance hV hle
    have hcommits : leave l s = .ok t := forget_eq_ok.mpr ⟨k, ht⟩
    exact ⟨t, hcommits, leave_left hs hf hbalance hle hcommits⟩

theorem fairEnv_exact (signer : Address) : Exact (fairEnv signer) where
  estimates _ _ _ _ _ h := congrArg some (Width.checked_eq_some.mp h).2
  pays p n amounts hT h := by
    simp only [fairEnv, StrategyPositions.Aquarius.sampleEnv] at h
    split_ifs at h with hall
    obtain rfl := Option.some.inj h
    exact List.map_congr_left fun r _ => (floorDiv_eq_ediv hT).symm

/-- Two vaults enter, and leave in the other order. -/
def sampleEntries : List Action :=
  [.transfer sampleAsset (.account 7) (.contract 0) 1000,
    .call (fairEnv (.account 7)) (.deposit 1000 (.account 7)),
    .transfer sampleAsset (.account 8) (.contract 0) 600,
    .call (fairEnv (.account 8)) (.deposit 600 (.account 8))]

def sampleFirst : Leaver := ⟨fairEnv (.account 8), .account 8, .account 9, 10000⟩

def sampleSecond : Leaver := ⟨fairEnv (.account 7), .account 7, .account 9, 10000⟩

theorem fairEnv_sound (signer : Address) :
    PositionBacking.Aquarius.SoundPool (fairEnv signer) := by
  refine ⟨?_, ?_⟩
  · intro p used n h
    simp only [fairEnv] at h
    split at h
    · obtain ⟨hholds, rfl⟩ := Width.checked_eq_some.mp h
      exact hholds.1
    · cases h
  · intro claimed h
    obtain rfl := Option.some.inj h
    decide

theorem sampleEntries_fair : Each step
    (fun a u => Fair sampleConfig a u ∧ PositionBacking.Aquarius.Admissible a u) sampleWorld
    sampleEntries :=
  ⟨⟨trivial, trivial⟩, ⟨⟨by decide, fairEnv_fair _⟩, fairEnv_sound _⟩, ⟨trivial, trivial⟩,
    ⟨⟨by decide, fairEnv_fair _⟩, fairEnv_sound _⟩, trivial⟩

theorem exits_meet_minimums_sample :
    (∃ t, leave sampleFirst (run sampleWorld sampleEntries) = .ok t ∧
      getShares t.storage (.account 8) = 0) ∧
    ∃ t, leave sampleSecond (TransactionalRun.run leave (run sampleWorld sampleEntries)
        [sampleFirst]) = .ok t ∧ getShares t.storage (.account 7) = 0 := by
  have hbounds : InBounds sampleWorld sampleConfig :=
    ⟨rfl, by decide, by decide, fun _ => i128_holds_zero⟩
  have hsolvent : Solvent sampleConfig (run sampleWorld sampleEntries) :=
    ⟨by decide +kernel, by decide +kernel, by decide +kernel, by decide +kernel,
      by decide +kernel, by decide +kernel⟩
  obtain ⟨hfirst, hsecond, _⟩ := exits_meet_minimums sampleWorld sampleConfig sampleEntries
    [sampleFirst, sampleSecond] sampleWorld_setUp sampleWorld_healthy ⟨_, hbounds⟩ (by decide)
    (by simp [sampleEntries, Typed]) sampleEntries_fair (by decide +kernel) hsolvent
    (by simp [sampleFirst, sampleSecond, fairEnv_fair, fairEnv_exact])
  constructor
  · obtain ⟨t, ht, hleft⟩ := hfirst ⟨⟨595, rfl, by decide, by decide⟩, [298, 256], 289,
      rfl, fun _ => rfl, by decide, by decide⟩
    exact ⟨t, ht, hleft.1⟩
  · obtain ⟨t, ht, hleft⟩ := hsecond ⟨⟨998, rfl, by decide, by decide⟩, [499, 452], 474,
      rfl, fun _ => rfl, by decide, by decide⟩
    exact ⟨t, ht, hleft.1⟩

end NekoStrategies.AquariusExit
