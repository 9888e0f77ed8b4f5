import NekoStrategies.BlendContract

/-!
# What a successful Blend call did

One lemma for each function that can fail: from its success it gives every
intermediate result and the change of the world. All later results about the
strategy start from these lemmas and never look at the code again.
-/
namespace NekoStrategies.BlendCalls
open CheckedInteger RoundedDivision SorobanHost BlendReserves BlendContract

section Planners
variable {amount x n b : ℤ} {r : StrategyReserves}

theorem optimalBTokenAmount_ok (h : optimalBTokenAmount b r = .ok n) :
    (r.totalShares = 0 ∧ b = n) ∨
      (r.totalShares ≠ 0 ∧ ∃ s, r.bTokensToSharesDown b = .ok s ∧ s ≠ 0 ∧
        fixedMulCeil s r.totalBTokens r.totalShares = some n) := by
  unfold optimalBTokenAmount at h
  split_ifs at h with hS
  · exact .inl ⟨hS, Except.ok.inj h⟩
  · simp only [bind_eq_ok, ensure_eq_ok, okOr_eq_ok, exists_const] at h
    exact .inr ⟨hS, h⟩

theorem calculateOptimalDepositAmount_ok
    (h : calculateOptimalDepositAmount amount r = .ok (x, n)) :
    ∃ b, fixedMulFloor amount scalar12 r.bRate = some b ∧
      optimalBTokenAmount b r = .ok n ∧ 0 < n ∧ fixedMulCeil n r.bRate scalar12 = some x := by
  simp only [calculateOptimalDepositAmount, bind_eq_ok, ensure_eq_ok, okOr_eq_ok,
    pure_eq_ok, exists_const, Prod.mk.injEq] at h
  obtain ⟨b, hb, m, hm, hpos, y, hy, rfl, rfl⟩ := h
  exact ⟨b, hb, hm, hpos, hy⟩

theorem calculateOptimalWithdrawAmount_ok
    (h : calculateOptimalWithdrawAmount amount r = .ok (x, n)) :
    ∃ b s, fixedMulCeil amount scalar12 r.bRate = some b ∧ r.bTokensToSharesUp b = .ok s ∧
      fixedMulFloor s r.totalBTokens r.totalShares = some n ∧
      fixedMulFloor n r.bRate scalar12 = some x := by
  simp only [calculateOptimalWithdrawAmount, bind_eq_ok, okOr_eq_ok, pure_eq_ok,
    Prod.mk.injEq] at h
  obtain ⟨b, hb, s, hs, m, hm, y, hy, rfl, rfl⟩ := h
  exact ⟨b, s, hb, hs, hm, hy⟩

end Planners

section Bookkeeping
variable {s s' : Storage} {vault : Address} {n v k : ℤ} {r r' : StrategyReserves}

theorem newVaultMintedShares_ok (h : newVaultMintedShares k r = .ok v) :
    (r.totalShares = 0 ∧ 1000 < k ∧ v = k - 1000) ∨ (r.totalShares ≠ 0 ∧ v = k) := by
  unfold newVaultMintedShares at h
  split_ifs at h with hS
  · simp only [bind_eq_ok, ensure_eq_ok, okOr_eq_ok, Width.checkedSub_eq_some,
      exists_const] at h
    exact .inl ⟨hS, h.1, h.2.2.symm⟩
  · exact .inr ⟨hS, (Except.ok.inj h).symm⟩

/-- Both recording operations write the new totals and one vault entry. -/
def recorded (s : Storage) (vault : Address) (shares : ℤ) (r : StrategyReserves) : Storage :=
  setVaultShares (setStrategyReserves s r) vault shares

theorem setValidatedVaultShares_ok
    (h : setValidatedVaultShares (setStrategyReserves s r) vault v = .ok (k, s')) :
    0 ≤ v ∧ s' = recorded s vault v r := by
  simp only [setValidatedVaultShares, bind_eq_ok, ensure_eq_ok, pure_eq_ok, exists_const,
    Prod.mk.injEq] at h
  exact ⟨h.1, h.2.2.symm⟩

theorem deposit_recorded (h : BlendReserves.deposit s vault n r = .ok (v, r', s')) :
    0 < n ∧ ∃ minted credited, r.bTokensToSharesDown n = .ok minted ∧ 0 < minted ∧
      newVaultMintedShares minted r = .ok credited ∧
      v = getVaultShares s vault + credited ∧ 0 ≤ v ∧
      r' = ⟨r.totalShares + minted, r.totalBTokens + n, r.bRate⟩ ∧
      i128.Holds (r.totalShares + minted) ∧ i128.Holds (r.totalBTokens + n) ∧
      s' = recorded s vault v r' := by
  simp only [BlendReserves.deposit, bind_eq_ok, ensure_eq_ok, okOr_eq_ok, pure_eq_ok,
    Width.checkedAdd_eq_some, exists_const, Prod.exists, Prod.mk.injEq] at h
  obtain ⟨hn, k, hk, hkpos, c, hc, S, ⟨hSfit, rfl⟩, B, ⟨hBfit, rfl⟩, u, ⟨_, rfl⟩, _, _, hset,
    rfl, rfl, rfl⟩ := h
  obtain ⟨hv, hs⟩ := setValidatedVaultShares_ok hset
  exact ⟨hn, k, c, hk, hkpos, hc, rfl, hv, rfl, hSfit, hBfit, hs⟩

theorem withdraw_recorded (h : BlendReserves.withdraw s vault n r = .ok (v, r', s')) :
    0 < n ∧ ∃ burnt, r.bTokensToSharesUp n = .ok burnt ∧ burnt ≤ r.totalShares ∧
      n ≤ r.totalBTokens ∧ burnt ≤ getVaultShares s vault ∧
      v = getVaultShares s vault - burnt ∧
      r' = ⟨r.totalShares - burnt, r.totalBTokens - n, r.bRate⟩ ∧
      s' = recorded s vault v r' := by
  simp only [BlendReserves.withdraw, bind_eq_ok, ensure_eq_ok, okOr_eq_ok, pure_eq_ok,
    Width.checkedSub_eq_some, exists_const, Prod.exists, Prod.mk.injEq, not_or, not_lt] at h
  obtain ⟨hn, k, hk, ⟨hkS, hnB⟩, S, ⟨_, rfl⟩, B, ⟨_, rfl⟩, hkv, u, ⟨_, rfl⟩, _, _, hset,
    rfl, rfl, rfl⟩ := h
  exact ⟨hn, k, hk, hkS, hnB, hkv, rfl, rfl, (setValidatedVaultShares_ok hset).2⟩

theorem harvest_recorded {bRate : ℤ} (h : BlendReserves.harvest s n bRate = .ok (r', s')) :
    0 < n ∧ i128.Holds ((getStrategyReserves s).totalBTokens + n) ∧
      r' = ⟨(getStrategyReserves s).totalShares, (getStrategyReserves s).totalBTokens + n,
        bRate⟩ ∧
      s' = setStrategyReserves s r' := by
  simp only [BlendReserves.harvest, getStrategyReserveUpdated, bind_eq_ok, ensure_eq_ok,
    okOr_eq_ok, pure_eq_ok, Width.checkedAdd_eq_some, exists_const, Prod.mk.injEq] at h
  obtain ⟨hn, B, ⟨hfit, rfl⟩, rfl, rfl⟩ := h
  exact ⟨hn, hfit, rfl, rfl⟩

end Bookkeeping

section Pool
variable {env : Env} {w w' : World} {dest : Address} {amount k : ℤ} {config : Config}

/-- The position the pool keeps after it moved by `d`. -/
def movedSupply (env : Env) (w : World) (d : ℤ) : ℤ → Option ℤ :=
  Function.update w.supply env.reserveIndex (some (w.position env.reserveIndex + d))

theorem supply_ok (h : supply env w dest amount config false = .ok (k, w')) :
    ∃ minted tokens, env.mint amount = some minted ∧
      w.tokens.transfer config.asset w.self config.pool amount = .ok tokens ∧
      w' = { w with tokens, supply := movedSupply env w minted } := by
  simp only [supply, submit, bind_eq_ok, orFault_eq_ok, pure_eq_ok, Bool.false_eq_true,
    if_false, Prod.mk.injEq] at h
  obtain ⟨u, ⟨minted, hm, tokens, ht, rfl⟩, rfl, rfl⟩ := h
  exact ⟨minted, tokens, hm, (Ledger.pull_eq_ok.mp ht).2, rfl⟩

theorem reinvest_supply_ok (h : supply env w dest amount config true = .ok (k, w')) :
    ∃ minted tokens, env.mint amount = some minted ∧
      w' = { w with tokens, supply := movedSupply env w minted } ∧
      k = w'.position config.reserveId - w.position config.reserveId := by
  simp only [supply, submit, bind_eq_ok, orFault_eq_ok, okOr_eq_ok, pure_eq_ok, if_true,
    Width.checkedSub_eq_some, Prod.mk.injEq] at h
  obtain ⟨u, ⟨minted, hm, tokens, ht, rfl⟩, d, ⟨_, rfl⟩, rfl, rfl⟩ := h
  exact ⟨minted, tokens, hm, rfl, rfl⟩

theorem poolWithdraw_ok (h : poolWithdraw env w dest amount config = .ok (k, w')) :
    ∃ due tokens, env.burn amount = some due ∧
      w.tokens.transfer config.asset config.pool dest
        (withdrawOutcome (w.position env.reserveIndex) due amount env.bRate).2 = .ok tokens ∧
      w' = { w with
        tokens
        supply := movedSupply env w
          (-(withdrawOutcome (w.position env.reserveIndex) due amount env.bRate).1) } := by
  simp only [poolWithdraw, submit, bind_eq_ok, orFault_eq_ok, pure_eq_ok, Prod.mk.injEq,
    sub_eq_add_neg] at h
  obtain ⟨u, ⟨due, hd, tokens, ht, rfl⟩, rfl, rfl⟩ := h
  exact ⟨due, tokens, hd, ht, rfl⟩

theorem claim_ok (h : claim env w config = .ok (k, w')) :
    ∃ tokens, w' = { w with tokens } := by
  simp only [claim, bind_eq_ok, orFault_eq_ok, pure_eq_ok, Prod.mk.injEq] at h
  obtain ⟨_, _, _, rfl⟩ := h
  exact ⟨_, rfl⟩

theorem internalSwap_ok {amounts : List ℤ} {amountIn minOut : ℤ}
    (h : internalSwapExactTokensForTokens env w amountIn minOut config = .ok (amounts, w')) :
    ∃ tokens, w' = { w with tokens } := by
  simp only [internalSwapExactTokensForTokens, bind_eq_ok, orFault_eq_ok, tryInvoke_eq_ok,
    pure_eq_ok, Prod.mk.injEq] at h
  obtain ⟨_, _, _, _, _, rfl⟩ := h
  exact ⟨_, rfl⟩

/-- Below the threshold nothing happens; otherwise the bTokens recorded are
the ones the pool's position grew by. -/
theorem performReinvest_ok {r : StrategyReserves} {minOut : ℤ}
    (h : performReinvest env w config minOut = .ok (r, w')) :
    (r = getStrategyReserveUpdated w.storage env.bRate ∧ w' = w) ∨
      ∃ amountOut minted n tokens storage,
        env.mint amountOut = some minted ∧
        w' = { w with tokens, storage, supply := movedSupply env w minted } ∧
        n = w'.position config.reserveId - w.position config.reserveId ∧
        BlendReserves.harvest w.storage n env.bRate = .ok (r, storage) := by
  unfold performReinvest at h
  dsimp only at h
  split_ifs at h with hlow
  · simp only [pure_eq_ok, Prod.mk.injEq] at h
    exact .inl ⟨h.1.symm, h.2.symm⟩
  · simp only [bind_eq_ok, okOr_eq_ok, pure_eq_ok, Prod.exists, Prod.mk.injEq] at h
    obtain ⟨_, _, amounts, u, hswap, out, _, n, u', hsupply, r', storage, hharvest, rfl, rfl⟩ := h
    obtain ⟨tokens, rfl⟩ := internalSwap_ok hswap
    obtain ⟨minted, tokens', hm, rfl, hn⟩ := reinvest_supply_ok hsupply
    exact .inr ⟨out, minted, n, tokens', storage, hm, rfl, hn, hharvest⟩

end Pool

section EntryPoints
variable {env : Env} {w w' : World} {vault dest sender : Address} {amount k : ℤ}

theorem deposit_ok (h : BlendContract.deposit env w amount vault = .ok (k, w')) :
    0 < amount ∧ env.caller.Authorises vault ∧
    ∃ config x n minted v r tokens storage,
      w.storage.config = some config ∧
      calculateOptimalDepositAmount amount (getStrategyReserveUpdated w.storage env.bRate) =
        .ok (x, n) ∧
      env.mint x = some minted ∧
      BlendReserves.deposit w.storage vault n
        (getStrategyReserveUpdated w.storage env.bRate) = .ok (v, r, storage) ∧
      sharesToUnderlying v r = .ok k ∧
      w' = { w with
        tokens
        storage
        supply := movedSupply env w minted
        events := w.events ++ [.deposit strategyName x vault] } := by
  simp only [BlendContract.deposit, checkPositiveAmount, requireAuth, getConfig, bind_eq_ok,
    ensure_eq_ok, okOr_eq_ok, pure_eq_ok, exists_const, Prod.exists, Prod.mk.injEq] at h
  obtain ⟨hpos, hauth, config, hconfig, x, n, hplan, t₁, _, t₂, _, _, u, hsupply,
    v, r, storage, hrecord, b, hb, rfl, rfl⟩ := h
  obtain ⟨minted, tokens, hm, _, rfl⟩ := supply_ok hsupply
  exact ⟨hpos, hauth, config, x, n, minted, v, r, tokens, storage, hconfig, hplan, hm,
    hrecord, hb, rfl⟩

theorem withdraw_ok (h : BlendContract.withdraw env w amount vault dest = .ok (k, w')) :
    0 < amount ∧ env.caller.Authorises vault ∧
    ∃ config x n due v r tokens storage,
      w.storage.config = some config ∧
      calculateOptimalWithdrawAmount amount (getStrategyReserveUpdated w.storage env.bRate) =
        .ok (x, n) ∧
      env.burn x = some due ∧
      w.tokens.transfer config.asset config.pool dest
        (withdrawOutcome (w.position env.reserveIndex) due x env.bRate).2 = .ok tokens ∧
      BlendReserves.withdraw w.storage vault n
        (getStrategyReserveUpdated w.storage env.bRate) = .ok (v, r, storage) ∧
      sharesToUnderlying v r = .ok k ∧
      w' = { w with
        tokens
        storage
        supply := movedSupply env w
          (-(withdrawOutcome (w.position env.reserveIndex) due x env.bRate).1)
        events := w.events ++ [.withdraw strategyName x vault] } := by
  simp only [BlendContract.withdraw, checkPositiveAmount, requireAuth, getConfig, bind_eq_ok,
    ensure_eq_ok, okOr_eq_ok, pure_eq_ok, exists_const, Prod.exists, Prod.mk.injEq] at h
  obtain ⟨hpos, hauth, config, hconfig, x, n, hplan, _, u, hpool,
    v, r, storage, hrecord, b, hb, rfl, rfl⟩ := h
  obtain ⟨due, tokens, hd, ht, rfl⟩ := poolWithdraw_ok hpool
  exact ⟨hpos, hauth, config, x, n, due, v, r, tokens, storage, hconfig, hplan, hd, ht,
    hrecord, hb, rfl⟩

theorem harvest_ok {data : Option (List UInt8)}
    (h : BlendContract.harvest env w sender data = .ok w') :
    w.storage.keeper = some sender ∧ env.caller.Authorises sender ∧
    ∃ config r u tokens claimed price minOut, w.storage.config = some config ∧
      performReinvest env { w with tokens } config minOut = .ok (r, u) ∧
      pricePerShare r = .ok price ∧
      w' = u.emit (.harvest strategyName claimed sender price) := by
  simp only [BlendContract.harvest, BlendReserves.getKeeper, requireAuth, getConfig,
    bind_eq_ok, ensure_eq_ok, okOr_eq_ok, pure_eq_ok, exists_const, Prod.exists] at h
  obtain ⟨keeper, hkeeper, hauth, rfl, config, hconfig, claimed, u, hclaim, minOut, _,
    r, u', hreinvest, price, hprice, rfl⟩ := h
  obtain ⟨tokens, rfl⟩ := claim_ok hclaim
  exact ⟨hkeeper, hauth, config, r, u', tokens, claimed, price, minOut, hconfig, hreinvest,
    hprice, rfl⟩

theorem setKeeper_ok {newKeeper : Address} (h : setKeeper env w newKeeper = .ok w') :
    ∃ keeper, w.storage.keeper = some keeper ∧ env.caller.Authorises keeper ∧
      w' = { w with storage := { w.storage with keeper := some newKeeper } } := by
  simp only [setKeeper, BlendReserves.getKeeper, requireAuth, bind_eq_ok, ensure_eq_ok,
    okOr_eq_ok, pure_eq_ok, exists_const] at h
  obtain ⟨keeper, hkeeper, hauth, rfl⟩ := h
  exact ⟨keeper, hkeeper, hauth, rfl⟩

theorem construct_ok {asset : Address} {initArgs : List Val}
    (h : construct env w asset initArgs = .ok w') :
    w.storage.config = none ∧
    ∃ config keeper, config.reserveId = env.reserveIndex ∧ config.asset = asset ∧
      w' = { w with
        storage := { w.storage with config := some config, keeper := some keeper } } := by
  simp only [construct, bind_eq_ok, ensure_eq_ok, orFault_eq_ok, pure_eq_ok,
    exists_const] at h
  obtain ⟨hnone, pool, _, blendToken, _, router, _, threshold, _, keeper, _, claimId, _,
    _, rfl⟩ := h
  exact ⟨by simpa [isInitialized] using hnone, _, keeper, rfl, rfl, rfl⟩

/-- A successful call is one of the five that write, or leaves the world alone. -/
theorem invoke_ok {c : Call} (h : invoke env w c = .ok w') :
    w' = w ∨
    (∃ asset initArgs, c = .construct asset initArgs ∧ construct env w asset initArgs = .ok w') ∨
    (∃ amount vault k, c = .deposit amount vault ∧
      BlendContract.deposit env w amount vault = .ok (k, w')) ∨
    (∃ amount vault dest k, c = .withdraw amount vault dest ∧
      BlendContract.withdraw env w amount vault dest = .ok (k, w')) ∨
    (∃ sender data, c = .harvest sender data ∧
      BlendContract.harvest env w sender data = .ok w') ∨
    (∃ newKeeper, c = .setKeeper newKeeper ∧ setKeeper env w newKeeper = .ok w') := by
  cases c with
  | construct asset initArgs => exact .inr (.inl ⟨asset, initArgs, rfl, h⟩)
  | deposit amount vault =>
      obtain ⟨k, hu⟩ := forget_eq_ok.mp h
      exact .inr (.inr (.inl ⟨amount, vault, k, rfl, hu⟩))
  | withdraw amount vault dest =>
      obtain ⟨k, hu⟩ := forget_eq_ok.mp h
      exact .inr (.inr (.inr (.inl ⟨amount, vault, dest, k, rfl, hu⟩)))
  | harvest sender data => exact .inr (.inr (.inr (.inr (.inl ⟨sender, data, rfl, h⟩))))
  | setKeeper newKeeper => exact .inr (.inr (.inr (.inr (.inr ⟨newKeeper, rfl, h⟩))))
  | asset | balance vault | getKeeper =>
      obtain ⟨_, rfl⟩ := readOnly_eq_ok.mp h
      exact .inl rfl

end EntryPoints

end NekoStrategies.BlendCalls
