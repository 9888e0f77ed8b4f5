import NekoStrategies.BlendCalls
import NekoStrategies.SharePool

/-!
# The books of the Blend strategy

Every successful call either leaves the books alone or is a fair move of the
abstract share pool with 1000 dead shares. The accounting invariant and the
monotone share price of that pool are then facts about every run of the
contract, whatever the pool, the router and the token answer.
-/
namespace NekoStrategies.BlendBooks
open CheckedInteger RoundedDivision SorobanHost BlendReserves BlendContract BlendCalls
open SharePool (Move Flow Backed PriceLe)

/-- The stored totals and vault shares as an abstract share pool. -/
def books (s : Storage) : SharePool Address :=
  ⟨s.vaultPos, (getStrategyReserves s).totalShares, (getStrategyReserves s).totalBTokens⟩

@[simp] theorem books_recorded (s : Storage) (vault : Address) (v : ℤ) (r : StrategyReserves) :
    books (recorded s vault v r) = ⟨s.vaultPos.set vault v, r.totalShares, r.totalBTokens⟩ := rfl

section Conversions
variable {r : StrategyReserves} {amount k : ℤ}

theorem bTokensToSharesDown_open (hS : 0 < r.totalShares) (hB : 0 < r.totalBTokens)
    (h : r.bTokensToSharesDown amount = .ok k) :
    k = floorDiv (amount * r.totalShares) r.totalBTokens := by
  rw [StrategyReserves.bTokensToSharesDown, if_neg (by omega), okOr_eq_ok,
    fixedMulFloor_eq_some] at h
  exact h.2.2.2.symm

theorem bTokensToSharesUp_open (hS : 0 < r.totalShares) (hB : 0 < r.totalBTokens)
    (h : r.bTokensToSharesUp amount = .ok k) :
    k = ceilDiv (amount * r.totalShares) r.totalBTokens := by
  rw [StrategyReserves.bTokensToSharesUp, if_neg (by omega), okOr_eq_ok,
    fixedMulCeil_eq_some] at h
  exact h.2.2.2.symm

theorem bTokensToSharesDown_empty (hS : r.totalShares = 0)
    (h : r.bTokensToSharesDown amount = .ok k) : k = amount := by
  rw [StrategyReserves.bTokensToSharesDown, if_pos (.inl hS)] at h
  exact (Except.ok.inj h).symm

theorem bTokensToSharesUp_empty (hS : r.totalShares = 0)
    (h : r.bTokensToSharesUp amount = .ok k) : k = amount := by
  rw [StrategyReserves.bTokensToSharesUp, if_pos (.inl hS)] at h
  exact (Except.ok.inj h).symm

theorem sharesToUnderlying_open (hS : 0 < r.totalShares) (hB : 0 < r.totalBTokens)
    (h : sharesToUnderlying amount r = .ok k) :
    k = floorDiv (floorDiv (amount * r.totalBTokens) r.totalShares * r.bRate) scalar12 := by
  rw [sharesToUnderlying, if_neg (by omega)] at h
  simp only [StrategyReserves.sharesToBTokensDown, StrategyReserves.bTokensToUnderlyingDown,
    bind_eq_ok, okOr_eq_ok, fixedDivFloor_eq_some, fixedMulFloor_eq_some] at h
  obtain ⟨b, ⟨_, _, _, rfl⟩, _, _, _, rfl⟩ := h
  rfl

end Conversions

section Moves
variable {s s' : Storage} {vault : Address} {n v rate : ℤ} {r' : StrategyReserves}
  {env : Env} {w w' : World} {c : Call}

theorem deposit_move (hb : Backed 1000 (books s))
    (h : BlendReserves.deposit s vault n (getStrategyReserveUpdated s rate) = .ok (v, r', s')) :
    Move 1000 (books s) (.enter vault n) (books s') := by
  obtain ⟨hn, minted, credited, hdown, hminted, hcredited, rfl, _, rfl, _, _, rfl⟩ :=
    deposit_recorded h
  rcases newVaultMintedShares_ok hcredited with ⟨hS, hlock, rfl⟩ | ⟨hS, rfl⟩
  · obtain rfl := bTokensToSharesDown_empty hS hdown
    rw [books_recorded]
    dsimp only
    rw [hS, zero_add]
    exact Move.found (books s) vault minted hS hlock
  · obtain ⟨hSpos, hBpos⟩ := (hb.pos_or_zero (by decide)).resolve_left hS
    have hvalue := bTokensToSharesDown_open hSpos hBpos hdown
    refine Move.mint (books s) vault n credited hSpos hn hminted ?_
    rw [hvalue]
    exact floorDiv_mul_le _ hBpos

theorem withdraw_move (hb : Backed 1000 (books s))
    (h : BlendReserves.withdraw s vault n (getStrategyReserveUpdated s rate) =
      .ok (v, r', s')) :
    Move 1000 (books s) (.leave vault n) (books s') := by
  obtain ⟨hn, burnt, hup, hburntS, _, hheld, rfl, rfl, rfl⟩ := withdraw_recorded h
  rcases hb.pos_or_zero (by decide) with hS | ⟨hS, hB⟩
  · -- without shares the fallback asks for as many shares as bTokens
    obtain rfl := bTokensToSharesUp_empty hS hup
    have hzero : (getStrategyReserveUpdated s rate).totalShares = 0 := hS
    omega
  · have hvalue := bTokensToSharesUp_open hS hB hup
    refine Move.burn (books s) vault n burnt hS hn hheld ?_
    rw [hvalue]
    exact le_ceilDiv_mul _ hB

theorem harvest_move (h : BlendReserves.harvest s n rate = .ok (r', s')) :
    Move 1000 (books s) (.yield n) (books s') := by
  obtain ⟨hn, _, rfl, rfl⟩ := harvest_recorded h
  exact Move.yield (books s) n hn

/-- Whose entry a call may write. -/
def callVault : Call → Option Address
  | .deposit _ vault => some vault
  | .withdraw _ vault _ => some vault
  | _ => none

/-- The refinement: a successful call is a move of the books or none at all. -/
theorem invoke_move (hb : Backed 1000 (books w.storage)) (h : invoke env w c = .ok w') :
    books w'.storage = books w.storage ∨
      ∃ f, Move 1000 (books w.storage) f (books w'.storage) := by
  rcases invoke_ok h with rfl | ⟨asset, args, _, hc⟩ | ⟨amount, vault, k, _, hc⟩ |
    ⟨amount, vault, dest, k, _, hc⟩ | ⟨sender, data, _, hc⟩ | ⟨newKeeper, _, hc⟩
  · exact .inl rfl
  · obtain ⟨_, config, keeper, _, _, rfl⟩ := construct_ok hc
    exact .inl rfl
  · obtain ⟨_, _, config, x, n, minted, v, r, tokens, storage, _, _, _, hrec, _, rfl⟩ :=
      deposit_ok hc
    exact .inr ⟨_, deposit_move hb hrec⟩
  · obtain ⟨_, _, config, x, n, due, v, r, tokens, storage, _, _, _, _, hrec, _, rfl⟩ :=
      withdraw_ok hc
    exact .inr ⟨_, withdraw_move hb hrec⟩
  · obtain ⟨_, _, config, r, u, tokens, claimed, price, minOut, _, hre, _, rfl⟩ := harvest_ok hc
    rcases performReinvest_ok hre with ⟨_, rfl⟩ |
      ⟨out, minted, n, tokens', storage, _, rfl, _, hrec⟩
    · exact .inl rfl
    · exact .inr ⟨_, harvest_move hrec⟩
  · obtain ⟨keeper, _, _, rfl⟩ := setKeeper_ok hc
    exact .inl rfl

theorem step_move {a : Action} (hb : Backed 1000 (books w.storage)) (h : step a w = .ok w') :
    books w'.storage = books w.storage ∨
      ∃ f, Move 1000 (books w.storage) f (books w'.storage) := by
  cases a with
  | call env c => exact invoke_move hb h
  | others tokens =>
      obtain rfl := Except.ok.inj h
      exact .inl rfl

/-- A call writes no other entry than that of its own vault. -/
theorem invoke_frame {u : Address} (hu : callVault c ≠ some u) (h : invoke env w c = .ok w') :
    getVaultShares w'.storage u = getVaultShares w.storage u := by
  rcases invoke_ok h with rfl | ⟨asset, args, _, hc⟩ | ⟨amount, vault, k, rfl, hc⟩ |
    ⟨amount, vault, dest, k, rfl, hc⟩ | ⟨sender, data, _, hc⟩ | ⟨newKeeper, _, hc⟩
  · rfl
  · obtain ⟨_, config, keeper, _, _, rfl⟩ := construct_ok hc
    rfl
  · obtain ⟨_, _, config, x, n, minted, v, r, tokens, storage, _, _, _, hrec, _, rfl⟩ :=
      deposit_ok hc
    obtain ⟨_, _, _, _, _, _, _, _, _, _, _, rfl⟩ := deposit_recorded hrec
    exact Attribution.amount_set_of_ne fun he => hu (congrArg some he.symm)
  · obtain ⟨_, _, config, x, n, due, v, r, tokens, storage, _, _, _, _, hrec, _, rfl⟩ :=
      withdraw_ok hc
    obtain ⟨_, _, _, _, _, _, _, _, rfl⟩ := withdraw_recorded hrec
    exact Attribution.amount_set_of_ne fun he => hu (congrArg some he.symm)
  · obtain ⟨_, _, config, r, u, tokens, claimed, price, minOut, _, hre, _, rfl⟩ := harvest_ok hc
    rcases performReinvest_ok hre with ⟨_, rfl⟩ |
      ⟨out, minted, n, tokens', storage, _, rfl, _, hrec⟩
    · rfl
    · obtain ⟨_, _, _, rfl⟩ := harvest_recorded hrec
      rfl
  · obtain ⟨keeper, _, _, rfl⟩ := setKeeper_ok hc
    rfl

end Moves

section Accounting
variable {w : World}

theorem construct_backed {env : Env} {w₀ : World} {asset : Address} {initArgs : List Val}
    (hs : w₀.storage = .empty) (hc : construct env w₀ asset initArgs = .ok w) :
    books w.storage = ⟨.empty, 0, 0⟩ ∧ Backed 1000 (books w.storage) := by
  obtain ⟨_, config, keeper, _, _, rfl⟩ := construct_ok hc
  simp only [hs]
  exact ⟨rfl, Attribution.Nonneg.empty, .inl ⟨rfl, rfl, le_rfl⟩⟩

theorem Deployed.books_eq (h : Deployed w) : books w.storage = ⟨.empty, 0, 0⟩ := by
  obtain ⟨env, w₀, asset, initArgs, hs, _, hc⟩ := h
  exact (construct_backed hs hc).1

theorem Deployed.backed (h : Deployed w) : Backed 1000 (books w.storage) := by
  obtain ⟨env, w₀, asset, initArgs, hs, _, hc⟩ := h
  exact (construct_backed hs hc).2

theorem step_backed (a : Action) (w w' : World) (hb : Backed 1000 (books w.storage))
    (h : step a w = .ok w') : Backed 1000 (books w'.storage) := by
  rcases step_move hb h with he | ⟨f, hm⟩
  · rwa [he]
  · exact hm.backed (by decide) hb

theorem run_backed (acts : List Action) (hb : Backed 1000 (books w.storage)) :
    Backed 1000 (books (run w acts).storage) :=
  TransactionalRun.run_invariant_of_step (I := fun w : World => Backed 1000 (books w.storage))
    step_backed hb acts

/-- Shares once minted are never all burnt again. -/
theorem step_open {a : Action} {w' : World} (hb : Backed 1000 (books w.storage))
    (hS : 0 < (books w.storage).totalShares) (h : step a w = .ok w') :
    1000 ≤ (books w'.storage).totalShares ∧ 0 < (books w'.storage).assets := by
  rcases step_move hb h with he | ⟨f, hm⟩
  · rw [he]
    have ho := hb.open_books hS
    have hd := hb.dead_le hS
    exact ⟨hd, by omega⟩
  · exact hm.stays_open (by decide) hb hS

theorem run_open (acts : List Action) (hb : Backed 1000 (books w.storage))
    (hS : 0 < (books w.storage).totalShares) :
    1000 ≤ (books (run w acts).storage).totalShares ∧
      0 < (books (run w acts).storage).assets := by
  have hstart : 1000 ≤ (books w.storage).totalShares ∧ 0 < (books w.storage).assets := by
    have ho := hb.open_books hS
    have hd := hb.dead_le hS
    exact ⟨hd, by omega⟩
  have hrun := TransactionalRun.run_invariant_of_step
    (I := fun w : World => Backed 1000 (books w.storage) ∧
      1000 ≤ (books w.storage).totalShares ∧ 0 < (books w.storage).assets)
    (fun a w w' hw h => ⟨step_backed a w w' hw.1 h, step_open hw.1 (by omega) h⟩)
    ⟨hb, hstart⟩ acts
  exact hrun.2

/-- After any run the totals are either empty or all shares but 1000 belong to
vaults and every share is backed; shares are never negative; and once there are
shares, no continuation of the run reaches a fallback conversion again. -/
theorem share_accounting (w₀ : World) (acts : List Action) (hw : Deployed w₀) :
    let w := run w₀ acts
    let r := getStrategyReserves w.storage
    ((r.totalShares = 0 ∧ ∀ vault, getVaultShares w.storage vault = 0) ∨
      (w.storage.vaultPos.total + 1000 = r.totalShares ∧ r.totalShares ≤ r.totalBTokens)) ∧
    (∀ vault, 0 ≤ getVaultShares w.storage vault) ∧
    (0 < r.totalShares → ∀ more,
      let r' := getStrategyReserves (run w more).storage
      1000 ≤ r'.totalShares ∧ r'.totalBTokens ≠ 0 ∧
        ¬(r'.totalShares = 0 ∨ r'.totalBTokens = 0)) := by
  intro w r
  have hb : Backed 1000 (books w.storage) := run_backed acts (Deployed.backed hw)
  refine ⟨?_, hb.nonneg, ?_⟩
  · rcases hb.books with ⟨hS, htotal, _⟩ | hopen
    · exact .inl ⟨hS, hb.amount_eq_zero htotal⟩
    · exact .inr hopen
  · intro hS more r'
    have hmore := run_open more hb hS
    change 1000 ≤ r'.totalShares ∧ 0 < r'.totalBTokens at hmore
    omega

/-- A deployment at rate 1.1 whose pool converts at that rate. -/
def sampleEnv (signer : Address) : Env where
  caller := ⟨[signer], none⟩
  timestamp := 0
  reserveIndex := 0
  bRate := 1100000000000
  mint x := some (floorDiv (x * scalar12) 1100000000000)
  burn x := some (ceilDiv (x * scalar12) 1100000000000)
  claim := some 0
  pairFor := none
  swap _ _ := none

def samplePool : Address := .contract 1
def sampleAsset : Address := .contract 2
def sampleKeeper : Address := .account 0

def sampleConfig : Config where
  asset := sampleAsset
  pool := samplePool
  reserveId := 0
  blendToken := .contract 3
  router := .contract 4
  claimIds := [1]
  rewardThreshold := 1

/-- Everybody but the strategy owns 1000000 of the asset. -/
def sampleWorld : World where
  self := .contract 0
  storage := ⟨some sampleConfig, none, .empty, some sampleKeeper⟩
  tokens t h := if t = sampleAsset ∧ h ≠ .contract 0 then 1000000 else 0
  supply _ := none
  events := []

theorem sampleWorld_deployed : Deployed sampleWorld :=
  ⟨sampleEnv sampleKeeper, { sampleWorld with storage := .empty }, sampleAsset,
    [.address samplePool, .address (.contract 3), .address (.contract 4), .i128 1,
      .address sampleKeeper], rfl, fun _ => rfl, rfl⟩

/-- Two deposits and a withdrawal. -/
def sampleActions : List Action :=
  [.call (sampleEnv (.account 1)) (.deposit 5500 (.account 1)),
    .call (sampleEnv (.account 2)) (.deposit 2200 (.account 2)),
    .call (sampleEnv (.account 1)) (.withdraw 1100 (.account 1) (.account 3))]

theorem share_accounting_sample :
    (run sampleWorld sampleActions).storage.vaultPos.total + 1000 = 6000 ∧
      ∀ vault, 0 ≤ getVaultShares (run sampleWorld sampleActions).storage vault :=
  ⟨by decide +kernel, (share_accounting sampleWorld sampleActions sampleWorld_deployed).2.1⟩

end Accounting

section Price
variable {env : Env} {w w' : World} {u : Address} {b b' : ℤ}

theorem balance_open (hb : Backed 1000 (books w.storage))
    (hS : 0 < (books w.storage).totalShares) (h : balance env w u = .ok b) :
    b = floorDiv (floorDiv (getVaultShares w.storage u * (books w.storage).assets)
      (books w.storage).totalShares * env.bRate) scalar12 := by
  have hopen := hb.open_books hS
  unfold balance at h
  dsimp only at h
  split_ifs at h with hv
  · simp only [bind_eq_ok] at h
    obtain ⟨config, _, hu⟩ := h
    exact sharesToUnderlying_open (r := getStrategyReserveUpdated w.storage env.bRate) hS
      (hS.trans_le hopen.2) hu
  · have hzero : getVaultShares w.storage u = 0 := le_antisymm (not_lt.mp hv) (hb.nonneg u)
    rw [← pure_eq_ok.mp h, hzero]
    simp

/-- At one rate a vault whose shares did not change is worth no less at a
higher share price. -/
theorem balance_mono (hb : Backed 1000 (books w.storage)) (hb' : Backed 1000 (books w'.storage))
    (hS : 0 < (books w.storage).totalShares) (hS' : 0 < (books w'.storage).totalShares)
    (hprice : PriceLe (books w.storage) (books w'.storage))
    (hshares : getVaultShares w'.storage u = getVaultShares w.storage u)
    (hrate : 0 < env.bRate) (h : balance env w u = .ok b) (h' : balance env w' u = .ok b') :
    b ≤ b' := by
  rw [balance_open hb hS h, balance_open hb' hS' h', hshares]
  apply floorDiv_mono scalar12_pos
  apply mul_le_mul_of_nonneg_right _ hrate.le
  apply floorDiv_le_floorDiv hS hS'
  have hu : 0 ≤ getVaultShares w.storage u := hb.nonneg u
  unfold PriceLe at hprice
  nlinarith

/-- From every reachable state with shares, a successful call leaves shares
and does not lower the bTokens behind each of them; so no vault but the one
the call is made for sees its balance fall at any fixed rate. -/
theorem share_price_never_falls (w₀ : World) (acts : List Action) (hw : Deployed w₀)
    (env : Env) (c : Call) (w' : World)
    (hS : 0 < (getStrategyReserves (run w₀ acts).storage).totalShares)
    (hc : invoke env (run w₀ acts) c = .ok w') :
    let r := getStrategyReserves (run w₀ acts).storage
    let r' := getStrategyReserves w'.storage
    (0 < r'.totalShares ∧
      r.totalBTokens * r'.totalShares ≤ r'.totalBTokens * r.totalShares) ∧
    ∀ u, callVault c ≠ some u → ∀ (env' : Env) (b b' : ℤ), 0 < env'.bRate →
      balance env' (run w₀ acts) u = .ok b → balance env' w' u = .ok b' → b ≤ b' := by
  have hb : Backed 1000 (books (run w₀ acts).storage) := run_backed acts (Deployed.backed hw)
  have hb' : Backed 1000 (books w'.storage) := step_backed (.call env c) _ _ hb hc
  have hS' : 0 < (books w'.storage).totalShares := by
    have := step_open (a := .call env c) hb hS hc
    omega
  have hprice : PriceLe (books (run w₀ acts).storage) (books w'.storage) := by
    rcases invoke_move hb hc with he | ⟨f, hm⟩
    · rw [he]
      exact PriceLe.refl _
    · exact hm.priceLe hS
  refine ⟨⟨hS', hprice⟩, ?_⟩
  intro u hu env' b b' hrate h h'
  exact balance_mono hb hb' hS hS' hprice (invoke_frame hu hc) hrate h h'

theorem share_price_never_falls_sample :
    ∃ w', invoke (sampleEnv (.account 1)) (run sampleWorld sampleActions)
        (.withdraw 1000 (.account 1) (.account 3)) = .ok w' ∧
      0 < (getStrategyReserves w'.storage).totalShares ∧
      ∀ (b b' : ℤ),
        balance (sampleEnv (.account 2)) (run sampleWorld sampleActions) (.account 2) = .ok b →
        balance (sampleEnv (.account 2)) w' (.account 2) = .ok b' → b ≤ b' := by
  obtain ⟨w', hw'⟩ : ∃ w', invoke (sampleEnv (.account 1)) (run sampleWorld sampleActions)
      (.withdraw 1000 (.account 1) (.account 3)) = .ok w' := ⟨_, rfl⟩
  have h := share_price_never_falls sampleWorld sampleActions sampleWorld_deployed _ _ w'
    (by decide +kernel) hw'
  exact ⟨w', hw', h.1.1, fun b b' => h.2 (.account 2) (by decide) _ b b' (by decide)⟩

end Price

end NekoStrategies.BlendBooks
