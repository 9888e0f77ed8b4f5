import NekoStrategies.AquariusContract

/-!
# What a successful Aquarius call did

One lemma for each function that can fail, as for the other strategies. The
transfers of whole amount vectors are followed token by token.
-/
namespace NekoStrategies.AquariusCalls
open CheckedInteger SorobanHost AmmPosition AquariusPool AquariusContract

section Vectors
variable {auths : List AuthEntry} {self pool : Address} {tokens : List Address} {xs : List ℤ}
  {l l' : Ledger} {t h : Address}

theorem pullAll_other (ht : t ∉ tokens) (hl : pullAll auths self pool tokens xs l = .ok l') :
    l' t h = l t h := by
  induction tokens generalizing xs l with
  | nil =>
      simp only [pullAll, pure_eq_ok] at hl
      rw [hl]
  | cons token tokens ih =>
      cases xs with
      | nil =>
          simp only [pullAll, pure_eq_ok] at hl
          rw [hl]
      | cons x xs =>
          simp only [pullAll, bind_eq_ok, Ledger.pull_eq_ok] at hl
          obtain ⟨m, ⟨_, hm⟩, hl⟩ := hl
          rw [List.mem_cons, not_or] at ht
          rw [ih ht.2 hl, Ledger.transfer_apply hm]
          simp [ht.1]

/-- A payment concerns the tokens of the list, and of them the pool and the strategy. -/
theorem payAll_other (hne : t ∉ tokens ∨ h ≠ self ∧ h ≠ pool)
    (hl : payAll self pool tokens xs l = .ok l') : l' t h = l t h := by
  induction tokens generalizing xs l with
  | nil =>
      simp only [payAll, pure_eq_ok] at hl
      rw [hl]
  | cons token tokens ih =>
      cases xs with
      | nil =>
          simp only [payAll, pure_eq_ok] at hl
          rw [hl]
      | cons x xs =>
          simp only [payAll, bind_eq_ok] at hl
          obtain ⟨m, hm, hl⟩ := hl
          rcases hne with ht | ⟨hself, hpool⟩
          · rw [List.mem_cons, not_or] at ht
            rw [ih (.inl ht.2) hl, Ledger.transfer_apply hm]
            simp [ht.1]
          · rw [ih (.inr ⟨hself, hpool⟩) hl, Ledger.transfer_apply hm]
            simp [hself, hpool]

end Vectors

section Pool
variable {env : Env} {w w' : World} {auths : List AuthEntry} {config : StrategyConfig}
  {amount k x y : ℤ} {i j : ℕ} {dest : Address}

theorem swap_ok (h : swap env w auths config i j x y = .ok (k, w')) :
    ∃ tokenIn tokenOut tokens tokens',
      w.pool.tokens[i]? = some tokenIn ∧ w.pool.tokens[j]? = some tokenOut ∧
      env.swapOut w.pool i j x = some k ∧
      .transfer tokenIn w.self config.pool (asI128 x) ∈ auths ∧
      w.tokens.transfer tokenIn w.self config.pool (asI128 x) = .ok tokens ∧
      tokens.transfer tokenOut config.pool w.self k = .ok tokens' ∧
      w' = { w with
        tokens := tokens'
        pool := { w.pool with
          reserves := (w.pool.reserves.modify i (· + x)).modify j (· - k) } } := by
  simp only [swap, bind_eq_ok, ensure_eq_ok, orFault_eq_ok, pure_eq_ok, Ledger.pull_eq_ok,
    exists_const, Prod.mk.injEq] at h
  obtain ⟨tokenIn, hin, tokenOut, hout, out, hswap, _, tokens, ⟨hauth, ht⟩, tokens', ht', rfl,
    rfl⟩ := h
  exact ⟨tokenIn, tokenOut, tokens, tokens', hin, hout, hswap, hauth, ht, ht', rfl⟩

theorem poolDeposit_ok {desired : List ℤ}
    (h : poolDeposit env w auths config desired x = .ok w') :
    desired.length = w.pool.tokens.length ∧ ∃ used shares tokens tokens',
      pullAll auths w.self config.pool w.pool.tokens desired w.tokens = .ok tokens ∧
      env.depositUses w.pool desired = some used ∧
      payAll w.self config.pool w.pool.tokens (List.zipWith (· - ·) desired used) tokens =
        .ok tokens' ∧
      env.sharesMinted w.pool used = some shares ∧ x ≤ shares ∧
      w' = { w with
        tokens := tokens'.add w.pool.shareId w.self shares
        pool := { w.pool with
          reserves := List.zipWith (· + ·) w.pool.reserves used
          totalShares := w.pool.totalShares + shares } } := by
  simp only [poolDeposit, bind_eq_ok, ensure_eq_ok, orFault_eq_ok, pure_eq_ok,
    exists_const] at h
  obtain ⟨hlen, tokens, ht, used, hused, tokens', ht', shares, hshares, hmin, rfl⟩ := h
  exact ⟨hlen, used, shares, tokens, tokens', ht, hused, ht', hshares, hmin, rfl⟩

theorem poolWithdraw_ok {mins amounts : List ℤ}
    (h : poolWithdraw env w auths config x mins = .ok (amounts, w')) :
    (0 ≤ asI128 x ∧ asI128 x ≤ w.tokens w.pool.shareId w.self) ∧
      env.withdrawPays w.pool x = some amounts ∧
      (mins.length = amounts.length ∧ ∀ p ∈ mins.zip amounts, p.1 ≤ p.2) ∧ ∃ tokens,
      payAll w.self config.pool w.pool.tokens amounts
        (w.tokens.add w.pool.shareId w.self (-asI128 x)) = .ok tokens ∧
      w' = { w with
        tokens
        pool := { w.pool with
          reserves := List.zipWith (· - ·) w.pool.reserves amounts
          totalShares := w.pool.totalShares - x } } := by
  simp only [poolWithdraw, bind_eq_ok, ensure_eq_ok, orFault_eq_ok, pure_eq_ok, exists_const,
    Prod.mk.injEq] at h
  obtain ⟨_, hbal, amounts', hpays, hmins, tokens, ht, rfl, rfl⟩ := h
  exact ⟨hbal, hpays, hmins, tokens, ht, rfl⟩

theorem swapHalf_ok (h : swapHalf env w x config = .ok (k, w')) :
    ∃ estimated minOut out,
      env.estimateSwap w.pool config.depositTokenIdx config.pairTokenIdx (asU128 x) =
        some estimated ∧
      minWithSlippage estimated config.maxSlippageBps = .ok minOut ∧
      swap env w [.transfer config.depositToken w.self config.pool x] config
        config.depositTokenIdx config.pairTokenIdx (asU128 x) minOut = .ok (out, w') ∧
      k = asI128 out := by
  simp only [swapHalf, bind_eq_ok, orFault_eq_ok, pure_eq_ok, Prod.exists, Prod.mk.injEq] at h
  obtain ⟨estimated, he, minOut, hm, out, u, hswap, rfl, rfl⟩ := h
  exact ⟨estimated, minOut, out, he, hm, hswap, rfl⟩

/-- The amount of pair_token a deposit adds in the state `u` after its swap. -/
def plannedPair (config : StrategyConfig) (u : World) (remaining received : ℤ) : ℤ :=
  pairToAdd remaining (asI128 (u.pool.reserve config.depositTokenIdx))
    (asI128 (u.pool.reserve config.pairTokenIdx)) received

theorem poolStep_ok (h : AquariusPool.deposit env w amount config = .ok (k, w')) :
    ∃ received u minShares,
      swapHalf env w (amount.tdiv 2) config = .ok (received, u) ∧
      poolDeposit env u
        [.transfer config.depositToken u.self config.pool (amount - amount.tdiv 2),
          .transfer config.pairToken u.self config.pool
            (plannedPair config u (amount - amount.tdiv 2) received)]
        config
        (inPoolOrder config (asU128 (amount - amount.tdiv 2))
          (asU128 (plannedPair config u (amount - amount.tdiv 2) received)))
        minShares = .ok w' ∧
      k = w'.tokens config.shareToken w'.self - u.tokens config.shareToken u.self := by
  simp only [AquariusPool.deposit, bind_eq_ok, orFault_eq_ok, plainSub_eq_ok, pure_eq_ok,
    Prod.exists, Prod.mk.injEq] at h
  obtain ⟨_, ⟨_, rfl⟩, received, u, hswap, _, _, minShares, _, u', hdep, _, ⟨_, rfl⟩, rfl,
    rfl⟩ := h
  exact ⟨received, u, minShares, hswap, hdep, rfl⟩

theorem swapBack_ok (h : swapBack env w config x y = .ok (k, w')) :
    (y ≤ 0 ∧ k = x ∧ w' = w) ∨
      (0 < y ∧ ∃ minOut out, swap env w [.transfer config.pairToken w.self config.pool y] config
          config.pairTokenIdx config.depositTokenIdx (asU128 y) minOut = .ok (out, w') ∧
        k = x + asI128 out) := by
  unfold swapBack at h
  split_ifs at h with hy
  · simp only [bind_eq_ok, orFault_eq_ok, plainAdd_eq_ok, pure_eq_ok, Prod.exists,
      Prod.mk.injEq] at h
    obtain ⟨_, _, minOut, _, out, u, hswap, _, ⟨_, rfl⟩, rfl, rfl⟩ := h
    exact .inr ⟨hy, minOut, out, hswap, rfl⟩
  · simp only [pure_eq_ok, Prod.mk.injEq] at h
    exact .inl ⟨not_lt.mp hy, h.1.symm, h.2.symm⟩

theorem payOut_ok (h : payOut w config dest x = .ok w') :
    (x ≤ 0 ∧ w' = w) ∨
      (0 < x ∧ ∃ tokens, w.tokens.transfer config.depositToken w.self dest x = .ok tokens ∧
        w' = { w with tokens }) := by
  unfold payOut at h
  split_ifs at h with hx
  · simp only [bind_eq_ok, pure_eq_ok] at h
    obtain ⟨tokens, ht, rfl⟩ := h
    exact .inr ⟨hx, tokens, ht, rfl⟩
  · exact .inl ⟨not_lt.mp hx, (pure_eq_ok.mp h).symm⟩

theorem poolExit_ok (h : AquariusPool.withdraw env w x dest config = .ok (k, w')) :
    ∃ minDeposit minPair amounts u u',
      poolWithdraw env w [.burn config.shareToken w.self x] config (asU128 x)
        (inPoolOrder config minDeposit minPair) = .ok (amounts, u) ∧
      swapBack env u config (asI128 (amounts[config.depositTokenIdx]?.getD 0))
        (asI128 (amounts[config.pairTokenIdx]?.getD 0)) = .ok (k, u') ∧
      payOut u' config dest k = .ok w' := by
  simp only [AquariusPool.withdraw, bind_eq_ok, pure_eq_ok, Prod.exists, Prod.mk.injEq] at h
  obtain ⟨_, _, _, _, amounts, u, hwd, total, u', hback, u'', hpay, rfl, rfl⟩ := h
  exact ⟨_, _, amounts, u, u', hwd, hback, hpay⟩

theorem claim_ok (h : claim env w dest config = .ok (k, w')) :
    ∃ claimed, env.claim = some claimed ∧ k = asI128 claimed ∧
      ((k ≤ 0 ∧ w' = { w with tokens := w.tokens.add config.aquaToken w.self claimed }) ∨
        (0 < k ∧ ∃ tokens, (w.tokens.add config.aquaToken w.self claimed).transfer
            config.aquaToken w.self dest k = .ok tokens ∧ w' = { w with tokens })) := by
  simp only [claim, bind_eq_ok, orFault_eq_ok] at h
  obtain ⟨claimed, hclaim, h⟩ := h
  split_ifs at h with hpos
  · simp only [bind_eq_ok, pure_eq_ok, Prod.mk.injEq] at h
    obtain ⟨tokens, ht, rfl, rfl⟩ := h
    exact ⟨claimed, hclaim, rfl, .inr ⟨hpos, tokens, ht, rfl⟩⟩
  · simp only [pure_eq_ok, Prod.mk.injEq] at h
    obtain ⟨rfl, rfl⟩ := h
    exact ⟨claimed, hclaim, rfl, .inl ⟨not_lt.mp hpos, rfl⟩⟩

end Pool

/-- The strategy's own data and the pool's identity. -/
def SameFrame (w w' : World) : Prop :=
  w'.storage = w.storage ∧ w'.self = w.self ∧ w'.events = w.events ∧
    w'.pool.tokens = w.pool.tokens ∧ w'.pool.shareId = w.pool.shareId

section Frame
variable {env : Env} {u w w' : World} {auths : List AuthEntry} {config : StrategyConfig}
  {amount k x y : ℤ} {i j : ℕ} {dest : Address}

theorem SameFrame.refl (w : World) : SameFrame w w := ⟨rfl, rfl, rfl, rfl, rfl⟩

theorem SameFrame.trans (h : SameFrame u w) (h' : SameFrame w w') : SameFrame u w' := by
  obtain ⟨h1, h2, h3, h4, h5⟩ := h
  obtain ⟨g1, g2, g3, g4, g5⟩ := h'
  exact ⟨g1.trans h1, g2.trans h2, g3.trans h3, g4.trans h4, g5.trans h5⟩

theorem swap_frame (h : swap env w auths config i j x y = .ok (k, w')) : SameFrame w w' := by
  obtain ⟨_, _, _, _, _, _, _, _, _, _, rfl⟩ := swap_ok h
  exact SameFrame.refl w

theorem swapHalf_frame (h : swapHalf env w x config = .ok (k, w')) : SameFrame w w' := by
  obtain ⟨_, _, _, _, _, hswap, _⟩ := swapHalf_ok h
  exact swap_frame hswap

theorem poolStep_frame (h : AquariusPool.deposit env w amount config = .ok (k, w')) :
    SameFrame w w' := by
  obtain ⟨_, u, _, hswap, hdep, _⟩ := poolStep_ok h
  obtain ⟨_, _, _, _, _, _, _, _, _, _, rfl⟩ := poolDeposit_ok hdep
  exact (swapHalf_frame hswap).trans (SameFrame.refl u)

theorem poolWithdraw_frame {mins amounts : List ℤ}
    (h : poolWithdraw env w auths config x mins = .ok (amounts, w')) : SameFrame w w' := by
  obtain ⟨_, _, _, _, _, rfl⟩ := poolWithdraw_ok h
  exact SameFrame.refl w

theorem swapBack_frame (h : swapBack env w config x y = .ok (k, w')) : SameFrame w w' := by
  rcases swapBack_ok h with ⟨_, _, rfl⟩ | ⟨_, _, _, hswap, _⟩
  · exact SameFrame.refl w'
  · exact swap_frame hswap

theorem poolExit_frame (h : AquariusPool.withdraw env w x dest config = .ok (k, w')) :
    SameFrame w w' := by
  obtain ⟨_, _, _, u, u', hwd, hback, hpay⟩ := poolExit_ok h
  have hu : SameFrame w u := poolWithdraw_frame hwd
  have hu' : SameFrame u u' := swapBack_frame hback
  have hw' : SameFrame u' w' := by
    rcases payOut_ok hpay with ⟨_, rfl⟩ | ⟨_, _, _, rfl⟩
    · exact SameFrame.refl w'
    · exact SameFrame.refl u'
  exact (hu.trans hu').trans hw'

end Frame

section Search
variable {depositToken pairToken : Address} {tokens : List Address} {i : ℕ} {found : ℕ × ℕ}

/-- Each of the two is the initial value or a position of its token. -/
theorem scanTokens_listed :
    ((scanTokens depositToken pairToken tokens i found).1 = found.1 ∨
      ∃ n, (scanTokens depositToken pairToken tokens i found).1 = i + n ∧
        tokens[n]? = some depositToken) ∧
    ((scanTokens depositToken pairToken tokens i found).2 = found.2 ∨
      ∃ n, (scanTokens depositToken pairToken tokens i found).2 = i + n ∧
        tokens[n]? = some pairToken) := by
  induction tokens generalizing i found with
  | nil => exact ⟨.inl rfl, .inl rfl⟩
  | cons t tokens ih =>
      rw [scanTokens]
      constructor
      · rcases ih.1 with hkept | ⟨n, hn, hlisted⟩
        · by_cases ht : t = depositToken
          · exact .inr ⟨0, by rw [hkept, if_pos ht]; rfl, by simp [ht]⟩
          · exact .inl (by rw [hkept, if_neg ht])
        · exact .inr ⟨n + 1, by rw [hn]; omega, by simpa using hlisted⟩
      · rcases ih.2 with hkept | ⟨n, hn, hlisted⟩
        · by_cases ht : t = pairToken
          · exact .inr ⟨0, by rw [hkept, if_pos ht]; rfl, by simp [ht]⟩
          · exact .inl (by rw [hkept, if_neg ht])
        · exact .inr ⟨n + 1, by rw [hn]; omega, by simpa using hlisted⟩

/-- What the constructor found it found listed. -/
theorem resolveIndices_ok (h : resolveIndices tokens depositToken pairToken = .ok found) :
    tokens[found.1]? = some depositToken ∧ tokens[found.2]? = some pairToken := by
  simp only [resolveIndices, bind_eq_ok, ensure_eq_ok, pure_eq_ok, exists_const, not_or] at h
  obtain ⟨⟨hdeposit, hpair⟩, rfl⟩ := h
  obtain ⟨hscan, hscan'⟩ :=
    @scanTokens_listed depositToken pairToken tokens 0 (u32Max, u32Max)
  obtain ⟨n, hn, hlisted⟩ := hscan.resolve_left hdeposit
  obtain ⟨n', hn', hlisted'⟩ := hscan'.resolve_left hpair
  rw [zero_add] at hn hn'
  exact ⟨hn ▸ hlisted, hn' ▸ hlisted'⟩

end Search

section EntryPoints
variable {env : Env} {w w' : World} {vault dest sender admin token : Address} {amount k : ℤ}

theorem deposit_ok (h : AquariusContract.deposit env w amount vault = .ok (k, w')) :
    0 < amount ∧ ∃ config minted u, w.storage.config = some config ∧
      AquariusPool.deposit env w amount config = .ok (minted, u) ∧
      w' = { u with
        storage := setShares w.storage vault (getShares w.storage vault + minted)
        events := w.events ++ [.deposit strategyName amount vault] } := by
  simp only [AquariusContract.deposit, checkPositiveAmount, loadConfig, bind_eq_ok,
    ensure_eq_ok, orFault_eq_ok, plainAdd_eq_ok, pure_eq_ok, exists_const, Prod.exists,
    Prod.mk.injEq] at h
  obtain ⟨hpos, config, hconfig, minted, u, hdep, _, ⟨_, rfl⟩, _, _, rfl, rfl⟩ := h
  obtain ⟨hstorage, _, hevents, _, _⟩ := poolStep_frame hdep
  refine ⟨hpos, config, minted, u, hconfig, hdep, ?_⟩
  rw [← hstorage, ← hevents]
  rfl

theorem withdraw_ok (h : AquariusContract.withdraw env w amount vault dest = .ok (k, w')) :
    0 < amount ∧ getShares w.storage vault ≠ 0 ∧ ∃ config totalValue burnt paid u,
      w.storage.config = some config ∧
      sharesValueInDeposit w (getShares w.storage vault) config = .ok totalValue ∧
      totalValue ≠ 0 ∧
      proportionalBurn (getShares w.storage vault) amount totalValue = .ok burnt ∧ burnt ≠ 0 ∧
      AquariusPool.withdraw env w burnt dest config = .ok (paid, u) ∧
      w' = { u with
        storage := setShares w.storage vault (getShares w.storage vault - burnt)
        events := w.events ++ [.withdraw strategyName paid vault] } := by
  simp only [AquariusContract.withdraw, checkPositiveAmount, loadConfig, bind_eq_ok,
    ensure_eq_ok, orFault_eq_ok, plainSub_eq_ok, pure_eq_ok, exists_const, Prod.exists,
    Prod.mk.injEq] at h
  obtain ⟨hpos, config, hconfig, hshares, totalValue, hvalue, hvalue0, burnt, hburnt, hburnt0,
    paid, u, hwd, _, ⟨_, rfl⟩, _, _, rfl, rfl⟩ := h
  obtain ⟨hstorage, _, hevents, _, _⟩ := poolExit_frame hwd
  refine ⟨hpos, hshares, config, totalValue, burnt, paid, u, hconfig, hvalue, hvalue0, hburnt,
    hburnt0, hwd, ?_⟩
  rw [← hstorage, ← hevents]
  rfl

theorem harvest_ok {data : Option (List UInt8)}
    (h : AquariusContract.harvest env w sender data = .ok w') :
    ∃ config aqua u price, w.storage.config = some config ∧
      claim env w sender config = .ok (aqua, u) ∧
      pricePerShare u (getShares u.storage sender) config = .ok price ∧
      w' = u.emit (.harvest strategyName aqua sender price) := by
  simp only [AquariusContract.harvest, loadConfig, bind_eq_ok, orFault_eq_ok, pure_eq_ok,
    Prod.exists] at h
  obtain ⟨config, hconfig, aqua, u, hclaim, price, hprice, rfl⟩ := h
  exact ⟨config, aqua, u, price, hconfig, hclaim, hprice, rfl⟩

theorem harvest_frame {data : Option (List UInt8)}
    (h : AquariusContract.harvest env w sender data = .ok w') :
    w'.storage = w.storage ∧ w'.pool = w.pool ∧ w'.self = w.self := by
  obtain ⟨config, aqua, u, price, _, hclaim, _, rfl⟩ := harvest_ok h
  obtain ⟨_, _, _, ⟨_, rfl⟩ | ⟨_, _, _, rfl⟩⟩ := claim_ok hclaim
  · exact ⟨rfl, rfl, rfl⟩
  · exact ⟨rfl, rfl, rfl⟩

theorem updateSlippage_ok (h : updateSlippage env w admin k = .ok w') :
    ∃ config, w.storage.config = some config ∧ env.caller.Authorises admin ∧
      admin = config.admin ∧ k ≤ maxSlippageBps ∧
      w' = { w with storage := saveConfig w.storage { config with maxSlippageBps := k } } := by
  simp only [updateSlippage, requireAuth, loadConfig, validateSlippage, bind_eq_ok,
    ensure_eq_ok, orFault_eq_ok, pure_eq_ok, exists_const] at h
  obtain ⟨hauth, config, hconfig, hadmin, hk, rfl⟩ := h
  exact ⟨config, hconfig, hauth, hadmin, hk, rfl⟩

theorem sweep_ok (h : sweep env w admin token dest amount = .ok w') :
    ∃ config tokens, w.storage.config = some config ∧ env.caller.Authorises admin ∧
      admin = config.admin ∧ w.tokens.transfer token w.self dest amount = .ok tokens ∧
      w' = { w with tokens } := by
  simp only [sweep, requireAuth, loadConfig, bind_eq_ok, ensure_eq_ok, orFault_eq_ok,
    pure_eq_ok, exists_const] at h
  obtain ⟨hauth, config, hconfig, hadmin, tokens, ht, rfl⟩ := h
  exact ⟨config, tokens, hconfig, hauth, hadmin, ht, rfl⟩

theorem construct_ok {asset : Address} {initArgs : List Val}
    (h : construct w asset initArgs = .ok w') :
    w.storage.config = none ∧ ∃ config, config.shareToken = w.pool.shareId ∧
      config.admin = w.self ∧ config.depositToken = asset ∧
      resolveIndices w.pool.tokens asset config.pairToken =
        .ok (config.depositTokenIdx, config.pairTokenIdx) ∧
      w' = { w with storage := saveConfig w.storage config } := by
  simp only [construct, validateSlippage, bind_eq_ok, ensure_eq_ok, pure_eq_ok, exists_const,
    Prod.exists] at h
  obtain ⟨hnone, _, _, pairToken, _, _, _, _, _, _, i, j, hij, rfl⟩ := h
  exact ⟨by simpa [isInitialized] using hnone, _, rfl, rfl, rfl, hij, rfl⟩

/-- A successful call is one of the six that write, or leaves the world alone. -/
theorem invoke_ok {c : Call} (h : invoke env w c = .ok w') :
    w' = w ∨
    (∃ asset initArgs, c = .construct asset initArgs ∧ construct w asset initArgs = .ok w') ∨
    (∃ admin k, c = .updateSlippage admin k ∧ updateSlippage env w admin k = .ok w') ∨
    (∃ admin token dest amount, c = .sweep admin token dest amount ∧
      sweep env w admin token dest amount = .ok w') ∨
    (∃ amount vault k, c = .deposit amount vault ∧
      AquariusContract.deposit env w amount vault = .ok (k, w')) ∨
    (∃ amount vault dest k, c = .withdraw amount vault dest ∧
      AquariusContract.withdraw env w amount vault dest = .ok (k, w')) ∨
    (∃ sender data, c = .harvest sender data ∧
      AquariusContract.harvest env w sender data = .ok w') := by
  cases c with
  | construct asset initArgs => exact .inr (.inl ⟨asset, initArgs, rfl, h⟩)
  | updateSlippage admin k => exact .inr (.inr (.inl ⟨admin, k, rfl, h⟩))
  | sweep admin token dest amount =>
      exact .inr (.inr (.inr (.inl ⟨admin, token, dest, amount, rfl, h⟩)))
  | deposit amount vault =>
      obtain ⟨k, hu⟩ := forget_eq_ok.mp h
      exact .inr (.inr (.inr (.inr (.inl ⟨amount, vault, k, rfl, hu⟩))))
  | withdraw amount vault dest =>
      obtain ⟨k, hu⟩ := forget_eq_ok.mp h
      exact .inr (.inr (.inr (.inr (.inr (.inl ⟨amount, vault, dest, k, rfl, hu⟩)))))
  | harvest sender data =>
      exact .inr (.inr (.inr (.inr (.inr (.inr ⟨sender, data, rfl, h⟩)))))
  | asset | balance vault =>
      obtain ⟨_, rfl⟩ := readOnly_eq_ok.mp h
      exact .inl rfl

end EntryPoints

end NekoStrategies.AquariusCalls
