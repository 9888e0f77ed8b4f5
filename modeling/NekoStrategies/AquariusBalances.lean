import NekoStrategies.ConstantProduct
import NekoStrategies.StrategyPositions

/-!
# What an Aquarius call does to the strategy's own tokens

The pool takes both desired amounts and refunds what the ratio does not use, so
a committed deposit can keep some of either token. A committed withdrawal passes
on what it removes.
-/
namespace NekoStrategies.AquariusBalances
open CheckedInteger RoundedDivision SorobanHost ConstantProduct AquariusPool AquariusCalls
open StrategyPositions.Aquarius (ProperConfig)

/-- The pool has two tokens and the strategy knows which comes first. -/
def Listed (p : Pool) (config : StrategyConfig) : Prop :=
  (config.depositTokenIdx = 0 ∧ config.pairTokenIdx = 1 ∧
    p.tokens = [config.depositToken, config.pairToken]) ∨
  (config.depositTokenIdx = 1 ∧ config.pairTokenIdx = 0 ∧
    p.tokens = [config.pairToken, config.depositToken])

section Ratio
variable {rem a b out : ℤ}

/-- Short of overflow the strategy asks for the smaller of optimum and receipt. -/
theorem pairToAdd_of_holds (hrem : 0 < rem) (ha : 0 < a) (hb : 0 < b)
    (h : i128.Holds (rem * b)) : pairToAdd rem a b out = min (floorDiv (rem * b) a) out := by
  unfold pairToAdd
  rw [if_pos ha, Width.mulDivOrZero_of_holds (by decide) (mul_nonneg hrem.le hb.le) ha h]

/-- After an overflow it cannot ask for everything it received, unless that is nothing. -/
theorem holds_of_le_pairToAdd (ha : 0 < a) (hout : 0 < out) (h : out ≤ pairToAdd rem a b out) :
    i128.Holds (rem * b) := by
  by_contra hover
  unfold pairToAdd at h
  rw [if_pos ha, Width.mulDivOrZero_of_not_holds hover] at h
  have := h.trans (min_le_left _ _)
  omega

theorem pairToAdd_nonneg (hrem : 0 < rem) (ha : 0 < a) (hb : 0 < b) (hout : 0 ≤ out) :
    0 ≤ pairToAdd rem a b out := by
  by_cases hholds : i128.Holds (rem * b)
  · rw [pairToAdd_of_holds hrem ha hb hholds]
    exact le_min (floorDiv_nonneg (mul_nonneg hrem.le hb.le) ha) hout
  · unfold pairToAdd
    rw [if_pos ha, Width.mulDivOrZero_of_not_holds hholds]
    exact le_min le_rfl hout

/-- Listed first, the deposit token is used in full, and so is the receipt if it
is the optimum. -/
theorem first_used_iff (hrem : 0 < rem) (ha : 0 < a) (hb : 0 < b) (hout : 0 ≤ out)
    (hrange : i128.Holds a) :
    optimalAmounts rem (pairToAdd rem a b out) a b = (rem, out) ↔
      i128.Holds (rem * b) ∧ floorDiv (rem * b) a = out := by
  constructor
  · intro h
    have hle : out ≤ pairToAdd rem a b out := by
      have := (optimalAmounts_le (a := rem) (b := pairToAdd rem a b out) ha hb).2
      rwa [h] at this
    have heq : pairToAdd rem a b out = out := le_antisymm (min_le_right _ _) hle
    rw [heq, optimalAmounts_eq_self_iff ha hb] at h
    refine ⟨?_, h⟩
    rcases hout.eq_or_lt with hzero | hpos
    · have hsmall : rem * b < (out + 1) * a := (floorDiv_lt_iff ha).mp (by omega)
      rw [← hzero, zero_add, one_mul] at hsmall
      exact i128_holds_of_le (mul_pos hrem hb).le hsmall.le hrange
    · exact holds_of_le_pairToAdd ha hpos hle
  · rintro ⟨hholds, heq⟩
    rw [pairToAdd_of_holds hrem ha hb hholds, heq, min_self]
    exact (optimalAmounts_eq_self_iff ha hb).mpr heq

/-- Listed second, the deposit token is used as far as the receipt asks for it. -/
theorem second_used_iff (hrem : 0 < rem) (ha : 0 < a) (hb : 0 < b) (hout : 0 ≤ out) :
    optimalAmounts (pairToAdd rem a b out) rem b a = (out, rem) ↔
      i128.Holds (rem * b) ∧ out * a = rem * b := by
  constructor
  · intro h
    have hle : out ≤ pairToAdd rem a b out := by
      have := (optimalAmounts_le (a := pairToAdd rem a b out) (b := rem) hb ha).1
      rwa [h] at this
    have heq : pairToAdd rem a b out = out := le_antisymm (min_le_right _ _) hle
    rw [heq, optimalAmounts_eq_self_iff hb ha] at h
    have hpos : 0 < out := by
      rcases hout.eq_or_lt with rfl | hpos
      · rw [zero_mul, floorDiv_zero] at h
        omega
      · exact hpos
    have hholds := holds_of_le_pairToAdd ha hpos hle
    rw [pairToAdd_of_holds hrem ha hb hholds] at hle
    have hge : rem * b ≤ out * a := (le_floorDiv_iff hb).mp h.ge
    have hle' : out * a ≤ rem * b := (le_floorDiv_iff ha).mp (hle.trans (min_le_left _ _))
    exact ⟨hholds, le_antisymm hle' hge⟩
  · rintro ⟨hholds, heq⟩
    rw [pairToAdd_of_holds hrem ha hb hholds, ← heq, floorDiv_self ha, min_self,
      optimalAmounts_eq_self_iff hb ha, heq, floorDiv_self hb]

end Ratio

section Vectors
variable {env : Env} {w w' : World} {auths : List AuthEntry} {config : StrategyConfig}
  {strategy pool : Address} {l l' : Ledger} {x y : ℤ} {p : Pool}

theorem Listed.congr {q : Pool} (hl : Listed p config) (h : q.tokens = p.tokens) :
    Listed q config := by
  unfold Listed at hl ⊢
  rwa [h]

theorem Listed.ne (hl : Listed p config) (hnodup : p.tokens.Nodup) :
    config.depositToken ≠ config.pairToken := by
  rcases hl with ⟨_, _, ht⟩ | ⟨_, _, ht⟩
  · rw [ht] at hnodup
    simpa using hnodup
  · rw [ht] at hnodup
    simpa [eq_comm] using hnodup

theorem Listed.get (hl : Listed p config) :
    p.tokens[config.depositTokenIdx]? = some config.depositToken ∧
      p.tokens[config.pairTokenIdx]? = some config.pairToken ∧
      config.depositTokenIdx ≠ config.pairTokenIdx := by
  rcases hl with ⟨hd, hp, ht⟩ | ⟨hd, hp, ht⟩
  · simp [hd, hp, ht]
  · simp [hd, hp, ht]

theorem pullAll_balances (hl : Listed p config) (hne : config.depositToken ≠ config.pairToken)
    (hpool : pool ≠ strategy)
    (h : pullAll auths strategy pool p.tokens (inPoolOrder config x y) l = .ok l') :
    asI128 x ≤ l config.depositToken strategy ∧
      l' config.depositToken strategy = l config.depositToken strategy - asI128 x ∧
      l' config.pairToken strategy = l config.pairToken strategy - asI128 y := by
  rcases hl with ⟨hd, hp, ht⟩ | ⟨hd, hp, ht⟩
  · simp only [ht, inPoolOrder, hd, if_true, pullAll, bind_eq_ok, pure_eq_ok,
      Ledger.pull_eq_ok] at h
    obtain ⟨m, ⟨_, hm⟩, m', ⟨_, hm'⟩, rfl⟩ := h
    refine ⟨(Ledger.transfer_eq_ok.mp hm).2.1, ?_, ?_⟩
    · rw [Ledger.transfer_apply hm', Ledger.transfer_apply hm]
      simp [hne, hpool.symm]
    · rw [Ledger.transfer_apply hm', Ledger.transfer_apply hm]
      simp [hne.symm, hpool.symm]
  · simp only [ht, inPoolOrder, hd, one_ne_zero, if_false, pullAll, bind_eq_ok, pure_eq_ok,
      Ledger.pull_eq_ok] at h
    obtain ⟨m, ⟨_, hm⟩, m', ⟨_, hm'⟩, rfl⟩ := h
    have hsame : m config.depositToken strategy = l config.depositToken strategy :=
      Ledger.transfer_other hm hne
    refine ⟨hsame ▸ (Ledger.transfer_eq_ok.mp hm').2.1, ?_, ?_⟩
    · rw [Ledger.transfer_apply hm', hsame]
      simp [hpool.symm]
    · rw [Ledger.transfer_apply hm', Ledger.transfer_apply hm]
      simp [hne.symm, hpool.symm]

theorem payAll_balances {amounts : List ℤ} (hl : Listed p config)
    (hne : config.depositToken ≠ config.pairToken) (hpool : pool ≠ strategy)
    (hlen : amounts.length = 2) (h : payAll strategy pool p.tokens amounts l = .ok l') :
    0 ≤ amounts[config.depositTokenIdx]?.getD 0 ∧ 0 ≤ amounts[config.pairTokenIdx]?.getD 0 ∧
      l' config.depositToken strategy =
        l config.depositToken strategy + amounts[config.depositTokenIdx]?.getD 0 ∧
      l' config.pairToken strategy =
        l config.pairToken strategy + amounts[config.pairTokenIdx]?.getD 0 := by
  obtain ⟨x, y, rfl⟩ := List.length_eq_two.mp hlen
  rcases hl with ⟨hd, hp, ht⟩ | ⟨hd, hp, ht⟩
  · simp only [ht, payAll, bind_eq_ok, pure_eq_ok] at h
    obtain ⟨m, hm, m', hm', rfl⟩ := h
    refine ⟨by simpa [hd] using (Ledger.transfer_eq_ok.mp hm).1,
      by simpa [hp] using (Ledger.transfer_eq_ok.mp hm').1, ?_, ?_⟩
    · rw [Ledger.transfer_apply hm', Ledger.transfer_apply hm]
      simp [hd, hne, hpool.symm]
    · rw [Ledger.transfer_apply hm', Ledger.transfer_apply hm]
      simp [hp, hne.symm, hpool.symm]
  · simp only [ht, payAll, bind_eq_ok, pure_eq_ok] at h
    obtain ⟨m, hm, m', hm', rfl⟩ := h
    refine ⟨by simpa [hd] using (Ledger.transfer_eq_ok.mp hm').1,
      by simpa [hp] using (Ledger.transfer_eq_ok.mp hm).1, ?_, ?_⟩
    · rw [Ledger.transfer_apply hm', Ledger.transfer_apply hm]
      simp [hd, hne, hpool.symm]
    · rw [Ledger.transfer_apply hm', Ledger.transfer_apply hm]
      simp [hp, hne.symm, hpool.symm]

end Vectors

/-- The configuration names the two tokens of the pool. -/
def Paired (w : World) : Prop :=
  ∃ config, w.storage.config = some config ∧ ProperConfig w config ∧ Listed w.pool config

theorem sampleWorld_paired : Paired StrategyPositions.Aquarius.sampleWorld :=
  ⟨_, rfl, StrategyPositions.Aquarius.sampleConfig_proper, .inl ⟨rfl, rfl, rfl⟩⟩

theorem step_paired {a : AquariusContract.Action} {w w' : World} (hw : Paired w)
    (h : AquariusContract.step a w = .ok w') : Paired w' := by
  obtain ⟨config, hconfig, hc, hl⟩ := hw
  obtain ⟨slippage, hconfig', hself, htokens, hid, _⟩ :=
    StrategyPositions.Aquarius.step_config hconfig h
  obtain ⟨h1, h2, h3, h4, h5⟩ := hc.congr hself htokens hid
  exact ⟨_, hconfig', ⟨h1, h2, h3, h4, h5⟩, hl.congr htokens⟩

section Pool
variable {env : Env} {w w' : World} {auths : List AuthEntry} {config : StrategyConfig}
  {k x y : ℤ}

theorem swap_balances {i j : ℕ} {tokenIn tokenOut : Address} (hp : config.pool ≠ w.self)
    (hin : w.pool.tokens[i]? = some tokenIn) (hout : w.pool.tokens[j]? = some tokenOut)
    (hne : tokenIn ≠ tokenOut) (h : swap env w auths config i j x y = .ok (k, w')) :
    env.swapOut w.pool i j x = some k ∧ asI128 x ≤ w.tokens tokenIn w.self ∧ 0 ≤ k ∧
      w'.tokens tokenIn w.self = w.tokens tokenIn w.self - asI128 x ∧
      w'.tokens tokenOut w.self = w.tokens tokenOut w.self + k ∧
      w'.pool.reserves = (w.pool.reserves.modify i (· + x)).modify j (· - k) := by
  obtain ⟨tin, tout, tokens, tokens', hin', hout', hswap, _, ht, ht', rfl⟩ := swap_ok h
  obtain rfl := Option.some.inj (hin.symm.trans hin')
  obtain rfl := Option.some.inj (hout.symm.trans hout')
  obtain ⟨_, hle, _⟩ := Ledger.transfer_eq_ok.mp ht
  obtain ⟨hnonneg, _, _⟩ := Ledger.transfer_eq_ok.mp ht'
  refine ⟨hswap, hle, hnonneg, ?_, ?_, rfl⟩
  · dsimp only
    rw [Ledger.transfer_apply ht', Ledger.transfer_apply ht]
    simp [hne, hp.symm]
  · dsimp only
    rw [Ledger.transfer_apply ht', Ledger.transfer_apply ht]
    simp [hne.symm, hp.symm]

/-- Adding liquidity takes what is desired and refunds what is not used. -/
theorem poolDeposit_balances {minShares : ℤ} (hl : Listed w.pool config)
    (hc : ProperConfig w config)
    (h : poolDeposit env w auths config (inPoolOrder config x y) minShares = .ok w') :
    ∃ used, env.depositUses w.pool (inPoolOrder config x y) = some used ∧
      asI128 x ≤ w.tokens config.depositToken w.self ∧
      (used.length = 2 →
        w'.tokens config.depositToken w.self = w.tokens config.depositToken w.self - asI128 x +
          (x - used[config.depositTokenIdx]?.getD 0) ∧
        w'.tokens config.pairToken w.self = w.tokens config.pairToken w.self - asI128 y +
          (y - used[config.pairTokenIdx]?.getD 0)) := by
  have hne := hl.ne hc.tokens_nodup
  obtain ⟨_, used, shares, tokens, tokens', hpull, hused, hpay, _, _, rfl⟩ := poolDeposit_ok h
  obtain ⟨hle, hpd, hpp⟩ := pullAll_balances hl hne hc.pool_ne hpull
  refine ⟨used, hused, hle, ?_⟩
  intro hlen
  have hrefund : (List.zipWith (· - ·) (inPoolOrder config x y) used).length = 2 := by
    unfold inPoolOrder
    split_ifs <;> simp [hlen]
  obtain ⟨_, _, hrd, hrp⟩ := payAll_balances hl hne hc.pool_ne hrefund hpay
  have hshare := hc.share_not_mem
  obtain ⟨u, v, rfl⟩ := List.length_eq_two.mp hlen
  rcases hl with ⟨hd, hp, ht⟩ | ⟨hd, hp, ht⟩
  · simp only [ht, List.mem_cons, List.not_mem_nil, or_false, not_or] at hshare
    simp only [inPoolOrder, hd, hp, if_true, List.zipWith_cons_cons] at hrd hrp
    constructor
    · dsimp only
      rw [Ledger.add_apply, hrd, hpd]
      simp [hd, Ne.symm hshare.1]
    · dsimp only
      rw [Ledger.add_apply, hrp, hpp]
      simp [hp, Ne.symm hshare.2]
  · simp only [ht, List.mem_cons, List.not_mem_nil, or_false, not_or] at hshare
    simp only [inPoolOrder, hd, hp, one_ne_zero, if_false, List.zipWith_cons_cons] at hrd hrp
    constructor
    · dsimp only
      rw [Ledger.add_apply, hrd, hpd]
      simp [hd, Ne.symm hshare.2]
    · dsimp only
      rw [Ledger.add_apply, hrp, hpp]
      simp [hp, Ne.symm hshare.1]

end Pool

/-- Liquidity uses the largest amounts at the ratio of the reserves, no swap
empties the pool, and what the pool pays is a token amount. -/
structure RatioPool (env : Env) : Prop where
  uses : ∀ p x y, env.depositUses p [x, y] =
    some [(optimalAmounts x y (p.reserve 0) (p.reserve 1)).1,
      (optimalAmounts x y (p.reserve 0) (p.reserve 1)).2]
  swap_lt : ∀ p i j x out, 0 ≤ x → 0 < p.reserve i → 0 < p.reserve j →
    env.swapOut p i j x = some out → out < p.reserve j
  swap_holds : ∀ p i j x out, env.swapOut p i j x = some out → i128.Holds out
  pays_holds : ∀ p x amounts, env.withdrawPays p x = some amounts →
    ∀ a ∈ amounts, i128.Holds a

/-- The amount is an `i128`, and so are the positive reserves around its swap. -/
structure Stocked (p : Pool) (amount : ℤ) (config : StrategyConfig) : Prop where
  amount_holds : i128.Holds amount
  deposit_pos : 0 < p.reserve config.depositTokenIdx
  pair_pos : 0 < p.reserve config.pairTokenIdx
  deposit_holds : i128.Holds (p.reserve config.depositTokenIdx + amount.tdiv 2)
  pair_holds : i128.Holds (p.reserve config.pairTokenIdx)

/-- What the swap pays is just what the ratio asks for next to the second half;
listed first, the pair token has to match without any rounding. -/
def Matched (env : Env) (w : World) (amount : ℤ) (config : StrategyConfig) : Prop :=
  ∀ out, env.swapOut w.pool config.depositTokenIdx config.pairTokenIdx (amount.tdiv 2) =
      some out →
    let rem := amount - amount.tdiv 2
    let reserveDeposit := w.pool.reserve config.depositTokenIdx + amount.tdiv 2
    let reservePair := w.pool.reserve config.pairTokenIdx - out
    i128.Holds (rem * reservePair) ∧
      if config.depositTokenIdx = 0 then floorDiv (rem * reservePair) reserveDeposit = out
      else out * reserveDeposit = rem * reservePair

section Deposits
variable {env : Env} {w w' : World} {config : StrategyConfig} {amount k x : ℤ}

theorem halves_holds (hamount : 0 < amount) (h : i128.Holds amount) :
    0 ≤ amount.tdiv 2 ∧ 0 < amount - amount.tdiv 2 ∧ i128.Holds (amount.tdiv 2) ∧
      i128.Holds (amount - amount.tdiv 2) := by
  rw [Int.tdiv_eq_ediv_of_nonneg hamount.le]
  simp only [i128, Width.Holds] at h ⊢
  omega

theorem swapHalf_balances (hl : Listed w.pool config) (hc : ProperConfig w config)
    (hx : 0 ≤ x) (hholds : i128.Holds x) (h : swapHalf env w x config = .ok (k, w')) :
    ∃ out, env.swapOut w.pool config.depositTokenIdx config.pairTokenIdx x = some out ∧
      k = asI128 out ∧ 0 ≤ out ∧ x ≤ w.tokens config.depositToken w.self ∧
      w'.tokens config.depositToken w.self = w.tokens config.depositToken w.self - x ∧
      w'.tokens config.pairToken w.self = w.tokens config.pairToken w.self + out ∧
      w'.pool.reserves = (w.pool.reserves.modify config.depositTokenIdx (· + x)).modify
        config.pairTokenIdx (· - out) := by
  obtain ⟨_, _, out, _, _, hswap, hk⟩ := swapHalf_ok h
  obtain ⟨hout, hle, hnonneg, hd, hp, hreserves⟩ :=
    swap_balances hc.pool_ne hl.get.1 hl.get.2.1 (hl.ne hc.tokens_nodup) hswap
  rw [asU128_of_holds hx hholds] at hout hle hd hreserves
  rw [asI128_of_holds hholds] at hle hd
  exact ⟨out, hout, hk, hnonneg, hle, hd, hp, hreserves⟩

theorem deposit_funded (hl : Listed w.pool config) (hc : ProperConfig w config)
    (hamount : 0 < amount) (hholds : i128.Holds amount)
    (h : AquariusPool.deposit env w amount config = .ok (k, w')) :
    amount ≤ w.tokens config.depositToken w.self := by
  obtain ⟨received, u, minShares, hswap, hdep, _⟩ := poolStep_ok h
  obtain ⟨hhalf, hrem, hhalfHolds, hremHolds⟩ := halves_holds hamount hholds
  obtain ⟨out, _, _, _, _, hd, _, _⟩ := swapHalf_balances hl hc hhalf hhalfHolds hswap
  obtain ⟨_, hself, _, htokens, hid⟩ := swapHalf_frame hswap
  have hlu := hl.congr htokens
  obtain ⟨_, _, hle, _⟩ := poolDeposit_balances hlu (hc.congr hself htokens hid) hdep
  rw [asI128_asU128 hremHolds, hself] at hle
  omega

theorem reserve_modify {rs : List ℤ} {i j : ℕ} {y : ℤ} (hne : i ≠ j) (hi : 0 < rs[i]?.getD 0)
    (hj : 0 < rs[j]?.getD 0) :
    ((rs.modify i (· + x)).modify j (· - y))[i]?.getD 0 = rs[i]?.getD 0 + x ∧
      ((rs.modify i (· + x)).modify j (· - y))[j]?.getD 0 = rs[j]?.getD 0 - y := by
  cases hri : rs[i]? with
  | none => simp [hri] at hi
  | some a =>
      cases hrj : rs[j]? with
      | none => simp [hrj] at hj
      | some b => simp [hri, hrj, hne, hne.symm]

/-- The amounts used of a vector in pool order are the optimal ones of each token. -/
theorem uses_in_order {p : Pool} {y : ℤ} {used : List ℤ} (hr : RatioPool env) (hl : Listed p config)
    (h : env.depositUses p (inPoolOrder config x y) = some used) :
    used.length = 2 ∧ if config.depositTokenIdx = 0 then
        optimalAmounts x y (p.reserve config.depositTokenIdx) (p.reserve config.pairTokenIdx) =
          (used[config.depositTokenIdx]?.getD 0, used[config.pairTokenIdx]?.getD 0)
      else
        optimalAmounts y x (p.reserve config.pairTokenIdx) (p.reserve config.depositTokenIdx) =
          (used[config.pairTokenIdx]?.getD 0, used[config.depositTokenIdx]?.getD 0) := by
  rcases hl with ⟨hdi, hpi, _⟩ | ⟨hdi, hpi, _⟩
  · rw [inPoolOrder, if_pos hdi, hr.uses] at h
    obtain rfl := Option.some.inj h
    rw [hdi, hpi]
    exact ⟨rfl, rfl⟩
  · rw [inPoolOrder, if_neg (by omega), hr.uses] at h
    obtain rfl := Option.some.inj h
    rw [hdi, hpi]
    exact ⟨rfl, rfl⟩

/-- A deposit spends `amount` less what liquidity leaves of the second half, and
keeps what it leaves of the receipt. -/
theorem deposit_balances (hr : RatioPool env) (hl : Listed w.pool config)
    (hc : ProperConfig w config) (hs : Stocked w.pool amount config) (hamount : 0 < amount)
    (h : AquariusPool.deposit env w amount config = .ok (k, w')) :
    ∃ out usedDeposit usedPair,
      let rem := amount - amount.tdiv 2
      let reserveDeposit := w.pool.reserve config.depositTokenIdx + amount.tdiv 2
      let reservePair := w.pool.reserve config.pairTokenIdx - out
      env.swapOut w.pool config.depositTokenIdx config.pairTokenIdx (amount.tdiv 2) = some out ∧
        0 ≤ out ∧ 0 < reservePair ∧
      (if config.depositTokenIdx = 0 then
        optimalAmounts rem (pairToAdd rem reserveDeposit reservePair out) reserveDeposit
          reservePair = (usedDeposit, usedPair)
      else optimalAmounts (pairToAdd rem reserveDeposit reservePair out) rem reservePair
        reserveDeposit = (usedPair, usedDeposit)) ∧
      w'.tokens config.depositToken w.self =
        w.tokens config.depositToken w.self - amount + (rem - usedDeposit) ∧
      w'.tokens config.pairToken w.self =
        w.tokens config.pairToken w.self + (out - usedPair) := by
  obtain ⟨received, u, minShares, hswap, hdep, _⟩ := poolStep_ok h
  obtain ⟨hhalf, hrem, hhalfHolds, hremHolds⟩ := halves_holds hamount hs.amount_holds
  obtain ⟨out, hout, hreceived, hnonneg, _, hd, hp, hreserves⟩ :=
    swapHalf_balances hl hc hhalf hhalfHolds hswap
  obtain ⟨_, hself, _, htokens, hid⟩ := swapHalf_frame hswap
  have hlu := hl.congr htokens
  have hlt := hr.swap_lt _ _ _ _ _ hhalf hs.deposit_pos hs.pair_pos hout
  obtain ⟨hrd, hrp⟩ : u.pool.reserve config.depositTokenIdx =
        w.pool.reserve config.depositTokenIdx + amount.tdiv 2 ∧
      u.pool.reserve config.pairTokenIdx = w.pool.reserve config.pairTokenIdx - out := by
    unfold Pool.reserve
    rw [hreserves]
    exact reserve_modify hl.get.2.2 hs.deposit_pos hs.pair_pos
  have hrdPos : 0 < u.pool.reserve config.depositTokenIdx := by
    have := hs.deposit_pos
    omega
  have hrpPos : 0 < u.pool.reserve config.pairTokenIdx := by omega
  have hplanned : plannedPair config u (amount - amount.tdiv 2) received =
      pairToAdd (amount - amount.tdiv 2) (u.pool.reserve config.depositTokenIdx)
        (u.pool.reserve config.pairTokenIdx) out := by
    unfold plannedPair
    rw [hreceived, asI128_of_holds (hr.swap_holds _ _ _ _ _ hout),
      asI128_of_holds (hrd ▸ hs.deposit_holds),
      asI128_of_holds (i128_holds_of_le hrpPos.le (by omega) hs.pair_holds)]
  have htoAdd := pairToAdd_nonneg hrem hrdPos hrpPos hnonneg
  have htoAddHolds : i128.Holds (pairToAdd (amount - amount.tdiv 2)
      (u.pool.reserve config.depositTokenIdx) (u.pool.reserve config.pairTokenIdx) out) :=
    i128_holds_of_le htoAdd (min_le_right _ _) (hr.swap_holds _ _ _ _ _ hout)
  rw [hplanned, asU128_of_holds hrem.le hremHolds, asU128_of_holds htoAdd htoAddHolds] at hdep
  obtain ⟨used, hused, _, hbalances⟩ :=
    poolDeposit_balances hlu (hc.congr hself htokens hid) hdep
  rw [asI128_of_holds hremHolds, asI128_of_holds htoAddHolds, hself, hd, hp] at hbalances
  rw [hrd, hrp] at hused hbalances
  rw [hrp] at hrpPos
  obtain ⟨hlen, hoptimal⟩ := uses_in_order hr hlu hused
  obtain ⟨hkeptDeposit, hkeptPair⟩ := hbalances hlen
  rw [hrd, hrp] at hoptimal
  exact ⟨out, used[config.depositTokenIdx]?.getD 0, used[config.pairTokenIdx]?.getD 0, hout,
    hnonneg, hrpPos, hoptimal, by omega, by omega⟩

/-- A deposit leaves nothing behind exactly when the swap pays what the ratio
asks for. -/
theorem deposit_leaves_iff (hr : RatioPool env) (hl : Listed w.pool config)
    (hc : ProperConfig w config) (hs : Stocked w.pool amount config) (hamount : 0 < amount)
    (h : AquariusPool.deposit env w amount config = .ok (k, w')) :
    (w'.tokens config.depositToken w.self = w.tokens config.depositToken w.self - amount ∧
      w'.tokens config.pairToken w.self = w.tokens config.pairToken w.self) ↔
        Matched env w amount config := by
  obtain ⟨out, usedDeposit, usedPair, hout, hnonneg, hpair, hused, hd, hp⟩ :=
    deposit_balances hr hl hc hs hamount h
  obtain ⟨hhalf, hrem, _, _⟩ := halves_holds hamount hs.amount_holds
  have hdeposit : 0 < w.pool.reserve config.depositTokenIdx + amount.tdiv 2 := by
    have := hs.deposit_pos
    omega
  have hleft : (w'.tokens config.depositToken w.self =
        w.tokens config.depositToken w.self - amount ∧
      w'.tokens config.pairToken w.self = w.tokens config.pairToken w.self) ↔
      usedDeposit = amount - amount.tdiv 2 ∧ usedPair = out := by
    rw [hd, hp]
    constructor
    · rintro ⟨h1, h2⟩
      constructor <;> omega
    · rintro ⟨h1, h2⟩
      constructor <;> omega
  simp only [hleft, Matched, hout, Option.some.injEq, forall_eq']
  split_ifs at hused ⊢ with hfirst
  · rw [← first_used_iff hrem hdeposit hpair hnonneg hs.deposit_holds, hused, Prod.mk.injEq]
  · rw [← second_used_iff hrem hdeposit hpair hnonneg, hused, Prod.mk.injEq, and_comm]

end Deposits

section Withdrawals
variable {env : Env} {w w' : World} {auths : List AuthEntry} {config : StrategyConfig}
  {amount k x y : ℤ} {dest : Address}

theorem poolWithdraw_balances {mins amounts : List ℤ} (hl : Listed w.pool config)
    (hc : ProperConfig w config) (hlen : mins.length = 2)
    (h : poolWithdraw env w auths config x mins = .ok (amounts, w')) :
    env.withdrawPays w.pool x = some amounts ∧ amounts.length = 2 ∧
      0 ≤ amounts[config.depositTokenIdx]?.getD 0 ∧ 0 ≤ amounts[config.pairTokenIdx]?.getD 0 ∧
      w'.tokens config.depositToken w.self = w.tokens config.depositToken w.self +
        amounts[config.depositTokenIdx]?.getD 0 ∧
      w'.tokens config.pairToken w.self = w.tokens config.pairToken w.self +
        amounts[config.pairTokenIdx]?.getD 0 := by
  obtain ⟨_, hpays, ⟨hmins, _⟩, tokens, hpay, rfl⟩ := poolWithdraw_ok h
  have hamounts : amounts.length = 2 := by omega
  obtain ⟨hd, hp, hdeposit, hpair⟩ :=
    payAll_balances hl (hl.ne hc.tokens_nodup) hc.pool_ne hamounts hpay
  have hdepositMem : config.depositToken ∈ w.pool.tokens := List.mem_of_getElem? hl.get.1
  have hpairMem : config.pairToken ∈ w.pool.tokens := List.mem_of_getElem? hl.get.2.1
  have hshare := hc.share_not_mem
  refine ⟨hpays, hamounts, hd, hp, ?_, ?_⟩
  · dsimp only
    rw [hdeposit, Ledger.add_apply, if_neg, add_zero]
    rintro ⟨heq, _⟩
    exact hshare (heq ▸ hdepositMem)
  · dsimp only
    rw [hpair, Ledger.add_apply, if_neg, add_zero]
    rintro ⟨heq, _⟩
    exact hshare (heq ▸ hpairMem)

/-- Swapping back turns all of the pair token into the deposit token counted. -/
theorem swapBack_balances (hr : RatioPool env) (hl : Listed w.pool config)
    (hc : ProperConfig w config) (hy : 0 ≤ y) (hholds : i128.Holds y)
    (h : swapBack env w config x y = .ok (k, w')) :
    x ≤ k ∧
      w'.tokens config.depositToken w.self = w.tokens config.depositToken w.self + (k - x) ∧
      w'.tokens config.pairToken w.self = w.tokens config.pairToken w.self - y ∧
      w'.self = w.self := by
  rcases swapBack_ok h with ⟨hle, rfl, rfl⟩ | ⟨_, minOut, out, hswap, rfl⟩
  · refine ⟨le_rfl, ?_, ?_, rfl⟩ <;> omega
  · obtain ⟨hout, _, hnonneg, hp, hd, _⟩ :=
      swap_balances hc.pool_ne hl.get.2.1 hl.get.1 (hl.ne hc.tokens_nodup).symm hswap
    rw [asI128_asU128 hholds] at hp
    rw [asI128_of_holds (hr.swap_holds _ _ _ _ _ hout)]
    refine ⟨?_, ?_, hp, (swap_frame hswap).2.1⟩ <;> omega

theorem payOut_balances (hne : config.depositToken ≠ config.pairToken) (hx : 0 ≤ x)
    (h : payOut w config dest x = .ok w') :
    w'.tokens config.depositToken w.self =
        w.tokens config.depositToken w.self - x + (if dest = w.self then x else 0) ∧
      w'.tokens config.pairToken w.self = w.tokens config.pairToken w.self := by
  rcases payOut_ok h with ⟨hle, rfl⟩ | ⟨_, tokens, ht, rfl⟩
  · have hzero : x = 0 := by omega
    simp [hzero]
  · exact ⟨Ledger.transfer_sender ht, Ledger.transfer_other ht hne.symm⟩

/-- What a withdrawal removes it passes on, unless to the strategy itself. -/
theorem withdraw_balances (hr : RatioPool env) (hl : Listed w.pool config)
    (hc : ProperConfig w config)
    (h : AquariusPool.withdraw env w x dest config = .ok (k, w')) :
    w'.tokens config.depositToken w.self =
        w.tokens config.depositToken w.self + (if dest = w.self then k else 0) ∧
      w'.tokens config.pairToken w.self = w.tokens config.pairToken w.self := by
  obtain ⟨_, _, amounts, u, u', hremove, hback, hpay⟩ := poolExit_ok h
  have hmins : ∀ a b, (inPoolOrder config a b).length = 2 := by
    intro a b
    unfold inPoolOrder
    split_ifs <;> rfl
  obtain ⟨hpays, hlen, hd, hp, hud, hup⟩ := poolWithdraw_balances hl hc (hmins _ _) hremove
  have hholds : ∀ i : ℕ, i128.Holds (amounts[i]?.getD 0) := by
    intro i
    cases hi : amounts[i]? with
    | none => exact i128_holds_zero
    | some a => exact hr.pays_holds _ _ _ hpays a (List.mem_of_getElem? hi)
  rw [asI128_of_holds (hholds _), asI128_of_holds (hholds _)] at hback
  obtain ⟨_, hself, _, htokens, hid⟩ := poolWithdraw_frame hremove
  have hlu := hl.congr htokens
  have hne := hl.ne hc.tokens_nodup
  obtain ⟨hk, hbd, hbp, hself'⟩ :=
    swapBack_balances hr hlu (hc.congr hself htokens hid) hp (hholds _) hback
  obtain ⟨hwd, hwp⟩ := payOut_balances hne (hd.trans hk) hpay
  rw [hself] at hbd hbp
  rw [hself', hself] at hwd hwp
  constructor
  · rw [hwd]
    omega
  · omega

end Withdrawals

end NekoStrategies.AquariusBalances
