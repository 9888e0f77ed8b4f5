import NekoStrategies.AquariusCalls
import NekoStrategies.ConstantProduct
import NekoStrategies.NekoContract
import NekoStrategies.SoroswapContract

/-!
# The vault positions of the three attributing strategies

The Neko, Soroswap and Aquarius strategies keep one position for each vault:
bTokens, LP tokens and share tokens. In each of them a committed deposit credits
the vault it names, a committed withdrawal debits the vault it names, and no
other action touches a position. What is asked of the other contracts is only
that they never mint a negative amount and, for Neko, that the rate is positive.
-/
namespace NekoStrategies.StrategyPositions
open CheckedInteger SorobanHost AmmPosition PositionBook

/-- The vault an action names. -/
def named {α : Type} (request : α → Option (ℤ × Address)) (a : α) : Option Address :=
  (request a).map Prod.snd

namespace Neko
open NekoContract

/-- The lending pool has a positive rate and mints no negative amount. -/
structure Sound (env : Env) : Prop where
  rate_pos : 0 < env.bRate
  mint_nonneg : ∀ x m, env.mint x = some m → 0 ≤ m

def SoundAction : Action → Prop
  | .call env _ => Sound env
  | _ => True

def depositOf : Action → Option (ℤ × Address)
  | .call _ (.deposit amount vault) => some (amount, vault)
  | _ => none

def withdrawalOf : Action → Option (ℤ × Address)
  | .call _ (.withdraw amount vault _) => some (amount, vault)
  | _ => none

def authorises : Action → Address → Prop
  | .call env _, a => env.caller.Authorises a
  | .transfer _ sender _ _, a => sender = a
  | _, _ => False

def positions (w : World) : Attribution Address := w.storage.bTokens

section Postings
variable {env : Env} {w w' : World} {vault dest : Address} {amount k : ℤ}

theorem deposit_posts (hs : Sound env) (h : deposit env w amount vault = .ok (k, w')) :
    ∃ n, Posts (positions w) (.credit vault n) (positions w') := by
  obtain ⟨_, config, minted, tokens, _, hm, _, _, rfl⟩ := deposit_ok h
  exact ⟨minted, Posts.credit _ vault minted (hs.mint_nonneg _ _ hm)⟩

/-- The hand-written ceiling of a positive amount is positive. -/
theorem bToBurn_pos {rate b : ℤ} (ha : 0 < amount) (hr : 0 < rate)
    (hb : b = (amount * scalar12 + (rate - 1)).tdiv rate) (hb0 : b ≠ 0) : 0 < b := by
  have hsum : 0 ≤ amount * scalar12 + (rate - 1) := by
    have := mul_pos ha (by decide : 0 < scalar12)
    omega
  have hnonneg : 0 ≤ b := by
    rw [hb]
    exact Int.tdiv_nonneg hsum hr.le
  omega

theorem withdraw_posts (hs : Sound env) (hpos : (positions w).Nonneg)
    (h : withdraw env w amount vault dest = .ok (k, w')) :
    ∃ n, Posts (positions w) (.debit vault n) (positions w') := by
  obtain ⟨ha, _, hv0, config, bToBurn, paid, tokens, tokens', _, hb, hb0, _, _, _, _, rfl⟩ :=
    withdraw_ok h
  have hburn := bToBurn_pos ha hs.rate_pos hb hb0
  have hheld : 0 ≤ getBTokens w.storage vault := hpos vault
  exact ⟨_, Posts.debit _ vault (min bToBurn (getBTokens w.storage vault))
    (lt_min hburn (by omega)) (min_le_right _ _)⟩

theorem bookkeeping :
    Bookkeeping step positions (fun _ => True) SoundAction (named depositOf)
      (named withdrawalOf) where
  keeps _ _ _ _ _ _ := trivial
  credit a s t i hc _ hi ht := by
    rcases a with ⟨env, c⟩ | _ | _
    · cases c with
      | deposit amount vault =>
          obtain rfl := Option.some.inj hi
          obtain ⟨k, hu⟩ := forget_eq_ok.mp ht
          exact deposit_posts hc hu
      | construct | asset | withdraw | balance | harvest => cases hi
    · cases hi
    · cases hi
  debit a s t i hc _ hs hi ht := by
    rcases a with ⟨env, c⟩ | _ | _
    · cases c with
      | withdraw amount vault dest =>
          obtain rfl := Option.some.inj hi
          obtain ⟨k, hu⟩ := forget_eq_ok.mp ht
          exact withdraw_posts hc hs hu
      | construct | asset | deposit | balance | harvest => cases hi
    · cases hi
    · cases hi
  idle a s t _ _ hcredit hdebit ht := by
    rcases a with ⟨env, c⟩ | _ | _
    · rcases invoke_ok ht with he | ⟨_, _, _, rfl, _⟩ | ⟨_, _, _, _, rfl, _⟩
      · exact he
      · cases hcredit
      · cases hdebit
    · obtain ⟨_, _, _, rfl⟩ := guarded_eq_ok.mp ht
      rfl
    · obtain rfl := Except.ok.inj ht
      rfl

theorem deployed_empty (h : Deployed w) : positions w = .empty := by
  obtain ⟨w₀, asset, initArgs, hempty, hc⟩ := h
  obtain ⟨_, config, rfl⟩ := construct_ok hc
  simp only [positions, hempty]
  rfl

end Postings

def sampleEnv (signer : Address) : Env where
  caller := ⟨[signer], none⟩
  bRate := 1000000000000
  bRateAfter := 1000000000000
  mint x := u128.checked x
  pay b := some b

def sampleAsset : Address := .contract 1

/-- A deployment at rate 1.0; everybody but the strategy owns 1000000 of the asset. -/
def sampleWorld : World where
  self := .contract 0
  storage := ⟨some ⟨sampleAsset, .contract 2, "CETES"⟩, .empty⟩
  tokens t h := if t = sampleAsset ∧ h ≠ .contract 0 then 1000000 else 0
  position := 0
  events := []

theorem sampleWorld_deployed : Deployed sampleWorld :=
  ⟨{ sampleWorld with storage := .empty }, sampleAsset,
    [.address (.contract 2), .symbol "CETES"], rfl, rfl⟩

theorem sampleEnv_sound (signer : Address) : Sound (sampleEnv signer) := by
  refine ⟨(by decide : (0 : ℤ) < 1000000000000), ?_⟩
  intro x m h
  obtain ⟨hholds, rfl⟩ := Width.checked_eq_some.mp h
  exact hholds.1

end Neko

namespace Soroswap
open SoroswapPool SoroswapContract

/-- The pair mints no negative amount. -/
def Sound (env : Env) : Prop := ∀ p a b lp, env.lpMinted p a b = some lp → 0 ≤ lp

def SoundAction : Action → Prop
  | .call env _ => Sound env
  | _ => True

def depositOf : Action → Option (ℤ × Address)
  | .call _ (.deposit amount vault) => some (amount, vault)
  | _ => none

def withdrawalOf : Action → Option (ℤ × Address)
  | .call _ (.withdraw amount vault _) => some (amount, vault)
  | _ => none

def authorises : Action → Address → Prop
  | .call env _, a => env.caller.Authorises a
  | .transfer _ sender _ _, a => sender = a
  | _, _ => False

def positions (w : World) : Attribution Address := w.storage.lpTokens

/-- The pair has two different tokens, its LP token is neither of them, and it is
not the strategy. -/
structure ProperConfig (strategy : Address) (config : StrategyConfig) : Prop where
  tokens_ne : config.tokenA ≠ config.tokenB
  lp_ne_a : config.pair ≠ config.tokenA
  lp_ne_b : config.pair ≠ config.tokenB
  pair_ne : config.pair ≠ strategy

def Proper (w : World) : Prop :=
  ∃ config, w.storage.config = some config ∧ ProperConfig w.self config

section Postings
variable {env : Env} {w w' : World} {vault dest : Address} {amount k : ℤ}
  {config : StrategyConfig}

/-- Swaps leave the LP tokens of the pair alone. -/
theorem swap_lp {auths : List AuthEntry} {tokenIn tokenOut : Address} {x y : ℤ}
    {amounts : List ℤ} (hin : config.pair ≠ tokenIn) (hout : config.pair ≠ tokenOut)
    (h : swapExactTokensForTokens env w auths config x y tokenIn tokenOut = .ok (amounts, w')) :
    w'.tokens config.pair w.self = w.tokens config.pair w.self := by
  obtain ⟨_, tokens, tokens', _, ht, ht', _, rfl⟩ := swap_ok h
  dsimp only
  rw [Ledger.transfer_other ht' hout, Ledger.transfer_other ht hin]

/-- The balance difference around add_liquidity is what the pair minted. -/
theorem deposit_minted (ha : config.pair ≠ config.tokenA) (hb : config.pair ≠ config.tokenB)
    (h : SoroswapPool.deposit env w amount config = .ok (k, w')) :
    (∃ p a b, env.lpMinted p a b = some k) ∧
      w'.tokens config.pair w.self = w.tokens config.pair w.self + k := by
  obtain ⟨_, u, hswap, hadd, hk⟩ := SoroswapPool.deposit_ok h
  obtain ⟨a, b, lp, tokens, tokens', _, _, _, ht, ht', hlp, rfl⟩ := addLiquidity_ok hadd
  have hself : u.self = w.self := (swap_storage hswap).2.1
  have hsame : tokens' config.pair u.self = u.tokens config.pair u.self := by
    rw [Ledger.transfer_other ht' hb, Ledger.transfer_other ht ha]
  have hadded : (tokens'.add config.pair u.self lp) config.pair u.self =
      u.tokens config.pair u.self + lp := by
    rw [Ledger.add_apply, hsame]
    simp
  obtain rfl : k = lp := by
    rw [hk]
    dsimp only
    rw [hadded]
    ring
  refine ⟨⟨u.pair, a, b, hlp⟩, ?_⟩
  rw [← swap_lp ha hb hswap, ← hself]
  exact hadded

theorem deposit_posts (hs : Sound env) (hw : Proper w)
    (h : SoroswapContract.deposit env w amount vault = .ok (k, w')) :
    ∃ n, Posts (positions w) (.credit vault n) (positions w') := by
  obtain ⟨_, config, minted, u, hconfig, hdep, rfl⟩ := SoroswapContract.deposit_ok h
  obtain ⟨config', hconfig', hc⟩ := hw
  obtain rfl := Option.some.inj (hconfig.symm.trans hconfig')
  obtain ⟨⟨p, a, b, hm⟩, _⟩ := deposit_minted hc.lp_ne_a hc.lp_ne_b hdep
  exact ⟨minted, Posts.credit _ vault minted (hs p a b minted hm)⟩

theorem withdraw_posts (hpos : (positions w).Nonneg)
    (h : SoroswapContract.withdraw env w amount vault dest = .ok (k, w')) :
    ∃ n, Posts (positions w) (.debit vault n) (positions w') := by
  obtain ⟨ha, _, config, totalValue, burnt, paid, u, _, _, _, hburn, hburn0, _, rfl⟩ :=
    SoroswapContract.withdraw_ok h
  have hheld : 0 ≤ getLpTokens w.storage vault := hpos vault
  obtain ⟨hnonneg, hle⟩ := proportionalBurn_le hheld ha hburn
  exact ⟨burnt, Posts.debit _ vault burnt (by omega) hle⟩

/-- The configuration is written once. -/
theorem step_config {a : Action} (hconfig : w.storage.config = some config)
    (h : step a w = .ok w') : w'.storage.config = some config ∧ w'.self = w.self := by
  rcases a with ⟨env, c⟩ | _ | _
  · cases c with
    | construct asset initArgs =>
        simp only [step, invoke, construct, isInitialized, hconfig, bind_eq_ok,
          ensure_eq_ok] at h
        simp at h
    | deposit amount vault =>
        obtain ⟨k, hu⟩ := forget_eq_ok.mp h
        obtain ⟨_, _, _, u', _, hdep, rfl⟩ := SoroswapContract.deposit_ok hu
        exact ⟨hconfig, (deposit_storage hdep).2.1⟩
    | withdraw amount vault dest =>
        obtain ⟨k, hu⟩ := forget_eq_ok.mp h
        obtain ⟨_, _, _, _, _, _, u', _, _, _, _, _, hwd, rfl⟩ := SoroswapContract.withdraw_ok hu
        exact ⟨hconfig, (withdraw_storage hwd).2.1⟩
    | harvest sender data =>
        simp only [step, invoke, harvest, bind_eq_ok, pure_eq_ok] at h
        obtain ⟨_, _, _, _, rfl⟩ := h
        exact ⟨hconfig, rfl⟩
    | asset | balance vault =>
        obtain ⟨_, rfl⟩ := readOnly_eq_ok.mp h
        exact ⟨hconfig, rfl⟩
  · obtain ⟨_, _, _, rfl⟩ := guarded_eq_ok.mp h
    exact ⟨hconfig, rfl⟩
  · obtain rfl := Except.ok.inj h
    exact ⟨hconfig, rfl⟩

theorem step_proper {a : Action} (hw : Proper w) (h : step a w = .ok w') : Proper w' := by
  obtain ⟨config, hconfig, hproper⟩ := hw
  obtain ⟨hconfig', hself⟩ := step_config hconfig h
  exact ⟨config, hconfig', hself ▸ hproper⟩

theorem bookkeeping : Bookkeeping step positions Proper SoundAction (named depositOf)
    (named withdrawalOf) where
  keeps _ _ _ _ hs ht := step_proper hs ht
  credit a s t i hc hs hi ht := by
    rcases a with ⟨env, c⟩ | _ | _
    · cases c with
      | deposit amount vault =>
          obtain rfl := Option.some.inj hi
          obtain ⟨k, hu⟩ := forget_eq_ok.mp ht
          exact deposit_posts hc hs hu
      | construct | asset | withdraw | balance | harvest => cases hi
    · cases hi
    · cases hi
  debit a s t i _ _ hs hi ht := by
    rcases a with ⟨env, c⟩ | _ | _
    · cases c with
      | withdraw amount vault dest =>
          obtain rfl := Option.some.inj hi
          obtain ⟨k, hu⟩ := forget_eq_ok.mp ht
          exact withdraw_posts hs hu
      | construct | asset | deposit | balance | harvest => cases hi
    · cases hi
    · cases hi
  idle a s t _ _ hcredit hdebit ht := by
    rcases a with ⟨env, c⟩ | _ | _
    · rcases invoke_ok ht with he | ⟨_, _, _, rfl, _⟩ | ⟨_, _, _, _, rfl, _⟩
      · exact he
      · cases hcredit
      · cases hdebit
    · obtain ⟨_, _, _, rfl⟩ := guarded_eq_ok.mp ht
      rfl
    · obtain rfl := Except.ok.inj ht
      rfl

theorem deployed_empty (h : Deployed w) : positions w = .empty := by
  obtain ⟨env, w₀, asset, initArgs, hempty, hc⟩ := h
  simp only [construct, bind_eq_ok, pure_eq_ok] at hc
  obtain ⟨_, _, _, _, _, _, _, _, rfl⟩ := hc
  simp only [positions, hempty]
  rfl

end Postings

open ConstantProduct in
def sampleEnv (signer : Address) : Env where
  caller := ⟨[signer], none⟩
  timestamp := 0
  pairFor _ _ := some (.contract 4)
  amountOut x reserveIn reserveOut := some (ConstantProduct.amountOut x reserveIn reserveOut)
  addAmounts a b reserveA reserveB := some (optimalAmounts a b reserveA reserveB)
  lpMinted p a b :=
    u128.checked (min (a * p.totalSupply / p.reserve0) (b * p.totalSupply / p.reserve1))
  removed p lp := some (lp * p.reserve0 / p.totalSupply, lp * p.reserve1 / p.totalSupply)

def sampleAsset : Address := .contract 1

def sampleConfig : StrategyConfig where
  tokenA := sampleAsset
  tokenB := .contract 2
  router := .contract 3
  pair := .contract 4

/-- A deployment on a pair with 10000 of each token. -/
def sampleWorld : World where
  self := .contract 0
  storage := ⟨some sampleConfig, .empty⟩
  tokens t h := if t ≠ .contract 4 ∧ h ≠ .contract 0 then 1000000 else 0
  pair := ⟨sampleAsset, 10000, 10000, 10000⟩
  events := []

theorem sampleWorld_deployed : Deployed sampleWorld :=
  ⟨sampleEnv (.account 0), { sampleWorld with storage := .empty }, sampleAsset,
    [.address (.contract 3), .address (.contract 2)], rfl, rfl⟩

theorem sampleWorld_proper : Proper sampleWorld :=
  ⟨sampleConfig, rfl, ⟨by decide, by decide, by decide, by decide⟩⟩

theorem sampleEnv_sound (signer : Address) : Sound (sampleEnv signer) := by
  intro p a b lp h
  obtain ⟨hholds, rfl⟩ := Width.checked_eq_some.mp h
  exact hholds.1

end Soroswap

namespace Aquarius
open AquariusPool AquariusContract AquariusCalls

/-- The pool mints no negative amount. -/
def Sound (env : Env) : Prop := ∀ p used n, env.sharesMinted p used = some n → 0 ≤ n

def SoundAction : Action → Prop
  | .call env _ => Sound env
  | _ => True

def depositOf : Action → Option (ℤ × Address)
  | .call _ (.deposit amount vault) => some (amount, vault)
  | _ => none

def withdrawalOf : Action → Option (ℤ × Address)
  | .call _ (.withdraw amount vault _) => some (amount, vault)
  | _ => none

def authorises : Action → Address → Prop
  | .call env _, a => env.caller.Authorises a
  | .transfer _ sender _ _, a => sender = a
  | _, _ => False

def positions (w : World) : Attribution Address := w.storage.shareTokens

/-- The pool lists no token twice, its share token is none of them, and it is not
the strategy; the strategy knows its share token and where it lists the deposit
token. -/
structure ProperConfig (w : World) (config : StrategyConfig) : Prop where
  share_eq : config.shareToken = w.pool.shareId
  share_not_mem : w.pool.shareId ∉ w.pool.tokens
  tokens_nodup : w.pool.tokens.Nodup
  deposit_listed : w.pool.tokens[config.depositTokenIdx]? = some config.depositToken
  pool_ne : config.pool ≠ w.self

def Proper (w : World) : Prop :=
  ∃ config, w.storage.config = some config ∧ ProperConfig w config

/-- Whether a configuration is proper depends on the pool's identity only. -/
theorem ProperConfig.congr {w w' : World} {config : StrategyConfig}
    (h : ProperConfig w config) (hself : w'.self = w.self)
    (htokens : w'.pool.tokens = w.pool.tokens) (hid : w'.pool.shareId = w.pool.shareId) :
    ProperConfig w' config := by
  obtain ⟨h1, h2, h3, h4, h5⟩ := h
  constructor
  · rw [hid, h1]
  · rwa [hid, htokens]
  · rwa [htokens]
  · rwa [htokens]
  · rwa [hself]

section Postings
variable {env : Env} {w w' : World} {vault dest : Address} {amount k : ℤ}
  {config : StrategyConfig}

/-- Swaps leave the share token alone, which the pool does not list. -/
theorem swap_shares {auths : List AuthEntry} {i j : ℕ} {x y : ℤ} {share : Address}
    (hnot : share ∉ w.pool.tokens) (h : swap env w auths config i j x y = .ok (k, w')) :
    w'.tokens share w.self = w.tokens share w.self := by
  obtain ⟨tokenIn, tokenOut, tokens, tokens', hin, hout, _, _, ht, ht', rfl⟩ := swap_ok h
  have hneIn : share ≠ tokenIn := fun he => hnot (he ▸ List.mem_of_getElem? hin)
  have hneOut : share ≠ tokenOut := fun he => hnot (he ▸ List.mem_of_getElem? hout)
  dsimp only
  rw [Ledger.transfer_other ht' hneOut, Ledger.transfer_other ht hneIn]

/-- The balance difference around pool.deposit is what the pool minted. -/
theorem poolStep_minted (hshare : config.shareToken = w.pool.shareId)
    (hnot : w.pool.shareId ∉ w.pool.tokens)
    (h : AquariusPool.deposit env w amount config = .ok (k, w')) :
    (∃ p used, env.sharesMinted p used = some k) ∧
      w'.tokens w.pool.shareId w.self = w.tokens w.pool.shareId w.self + k := by
  obtain ⟨received, u, minShares, hswap, hdep, hk⟩ := poolStep_ok h
  obtain ⟨_, hself, _, htokens, hid⟩ := swapHalf_frame hswap
  obtain ⟨_, _, _, _, _, hswap', _⟩ := swapHalf_ok hswap
  obtain ⟨_, used, shares, tokens, tokens', hpull, _, hpay, hshares, _, rfl⟩ := poolDeposit_ok hdep
  have hkept := swap_shares hnot hswap'
  rw [← htokens, ← hid] at hnot
  have hsame : tokens' u.pool.shareId u.self = u.tokens u.pool.shareId u.self := by
    rw [payAll_other (.inl hnot) hpay, pullAll_other hnot hpull]
  have hadded : (tokens'.add u.pool.shareId u.self shares) u.pool.shareId u.self =
      u.tokens u.pool.shareId u.self + shares := by
    rw [Ledger.add_apply, hsame]
    simp
  obtain rfl : k = shares := by
    rw [hk, hshare, ← hid]
    dsimp only
    rw [hadded]
    ring
  refine ⟨⟨u.pool, used, hshares⟩, ?_⟩
  rw [← hkept, ← hself, ← hid]
  exact hadded

theorem deposit_posts (hs : Sound env) (hw : Proper w)
    (h : AquariusContract.deposit env w amount vault = .ok (k, w')) :
    ∃ n, Posts (positions w) (.credit vault n) (positions w') := by
  obtain ⟨_, config, minted, u, hconfig, hdep, rfl⟩ := deposit_ok h
  obtain ⟨config', hconfig', hc⟩ := hw
  obtain rfl := Option.some.inj (hconfig.symm.trans hconfig')
  obtain ⟨⟨p, used, hm⟩, _⟩ := poolStep_minted hc.share_eq hc.share_not_mem hdep
  exact ⟨minted, Posts.credit _ vault minted (hs p used minted hm)⟩

theorem withdraw_posts (hpos : (positions w).Nonneg)
    (h : AquariusContract.withdraw env w amount vault dest = .ok (k, w')) :
    ∃ n, Posts (positions w) (.debit vault n) (positions w') := by
  obtain ⟨ha, _, config, totalValue, burnt, paid, u, _, _, _, hburn, hburn0, _, rfl⟩ :=
    withdraw_ok h
  have hheld : 0 ≤ getShares w.storage vault := hpos vault
  obtain ⟨hnonneg, hle⟩ := proportionalBurn_le hheld ha hburn
  exact ⟨burnt, Posts.debit _ vault burnt (by omega) hle⟩

/-- Of the configuration only the slippage changes, in its own call and within its bound. -/
theorem step_config {a : Action} (hconfig : w.storage.config = some config)
    (h : step a w = .ok w') : ∃ slippage, w'.storage.config =
        some { config with maxSlippageBps := slippage } ∧ w'.self = w.self ∧
      w'.pool.tokens = w.pool.tokens ∧ w'.pool.shareId = w.pool.shareId ∧
      (slippage = config.maxSlippageBps ∨ slippage ≤ AquariusContract.maxSlippageBps ∧
        ∃ env admin, a = .call env (.updateSlippage admin slippage)) := by
  rcases a with ⟨env, c⟩ | _ | _
  · rcases invoke_ok h with rfl | ⟨asset, args, _, hc⟩ | ⟨admin, k, rfl, hc⟩ |
      ⟨admin, token, dest, amount, _, hc⟩ | ⟨amount, vault, k, _, hc⟩ |
      ⟨amount, vault, dest, k, _, hc⟩ | ⟨sender, data, _, hc⟩
    · exact ⟨_, hconfig, rfl, rfl, rfl, .inl rfl⟩
    · rw [(construct_ok hc).1] at hconfig
      cases hconfig
    · obtain ⟨config', hconfig', _, _, hk, rfl⟩ := updateSlippage_ok hc
      obtain rfl := Option.some.inj (hconfig.symm.trans hconfig')
      exact ⟨k, rfl, rfl, rfl, rfl, .inr ⟨hk, env, admin, rfl⟩⟩
    · obtain ⟨_, _, _, _, _, _, rfl⟩ := sweep_ok hc
      exact ⟨_, hconfig, rfl, rfl, rfl, .inl rfl⟩
    · obtain ⟨_, _, _, u, _, hdep, rfl⟩ := deposit_ok hc
      obtain ⟨_, hself, _, htokens, hid⟩ := poolStep_frame hdep
      exact ⟨_, hconfig, hself, htokens, hid, .inl rfl⟩
    · obtain ⟨_, _, _, _, _, _, u, _, _, _, _, _, hwd, rfl⟩ := withdraw_ok hc
      obtain ⟨_, hself, _, htokens, hid⟩ := poolExit_frame hwd
      exact ⟨_, hconfig, hself, htokens, hid, .inl rfl⟩
    · obtain ⟨hstorage, hpool, hself⟩ := harvest_frame hc
      exact ⟨_, hstorage ▸ hconfig, hself, by rw [hpool], by rw [hpool], .inl rfl⟩
  · obtain ⟨_, _, _, rfl⟩ := guarded_eq_ok.mp h
    exact ⟨_, hconfig, rfl, rfl, rfl, .inl rfl⟩
  · obtain rfl := Except.ok.inj h
    exact ⟨_, hconfig, rfl, rfl, rfl, .inl rfl⟩

theorem step_proper {a : Action} (hw : Proper w) (h : step a w = .ok w') : Proper w' := by
  obtain ⟨config, hconfig, hproper⟩ := hw
  obtain ⟨slippage, hconfig', hself, htokens, hid, _⟩ := step_config hconfig h
  obtain ⟨h1, h2, h3, h4, h5⟩ := hproper.congr hself htokens hid
  exact ⟨_, hconfig', ⟨h1, h2, h3, h4, h5⟩⟩

theorem bookkeeping : Bookkeeping step positions Proper SoundAction (named depositOf)
    (named withdrawalOf) where
  keeps _ _ _ _ hs ht := step_proper hs ht
  credit a s t i hc hs hi ht := by
    rcases a with ⟨env, c⟩ | _ | _
    · cases c with
      | deposit amount vault =>
          obtain rfl := Option.some.inj hi
          obtain ⟨k, hu⟩ := forget_eq_ok.mp ht
          exact deposit_posts hc hs hu
      | construct | updateSlippage | sweep | asset | withdraw | balance | harvest => cases hi
    · cases hi
    · cases hi
  debit a s t i _ _ hs hi ht := by
    rcases a with ⟨env, c⟩ | _ | _
    · cases c with
      | withdraw amount vault dest =>
          obtain rfl := Option.some.inj hi
          obtain ⟨k, hu⟩ := forget_eq_ok.mp ht
          exact withdraw_posts hs hu
      | construct | updateSlippage | sweep | asset | deposit | balance | harvest => cases hi
    · cases hi
    · cases hi
  idle a s t _ _ hcredit hdebit ht := by
    rcases a with ⟨env, c⟩ | _ | _
    · rcases invoke_ok ht with rfl | ⟨_, _, _, hc⟩ | ⟨_, _, _, hc⟩ | ⟨_, _, _, _, _, hc⟩ |
        ⟨_, _, _, rfl, _⟩ | ⟨_, _, _, _, rfl, _⟩ | ⟨_, _, _, hc⟩
      · rfl
      · obtain ⟨_, _, _, _, _, _, rfl⟩ := construct_ok hc
        rfl
      · obtain ⟨_, _, _, _, _, rfl⟩ := updateSlippage_ok hc
        rfl
      · obtain ⟨_, _, _, _, _, _, rfl⟩ := sweep_ok hc
        rfl
      · cases hcredit
      · cases hdebit
      · simp only [positions, (harvest_frame hc).1]
    · obtain ⟨_, _, _, rfl⟩ := guarded_eq_ok.mp ht
      rfl
    · obtain rfl := Except.ok.inj ht
      rfl

theorem deployed_empty (h : Deployed w) : positions w = .empty := by
  obtain ⟨w₀, asset, initArgs, hempty, hc⟩ := h
  obtain ⟨_, config, _, _, _, _, rfl⟩ := construct_ok hc
  simp only [positions, saveConfig, hempty]
  rfl

end Postings

open ConstantProduct in
def sampleEnv (signer : Address) : Env where
  caller := ⟨[signer], none⟩
  estimateSwap p i j x := some (amountOut x (p.reserve i) (p.reserve j))
  swapOut p i j x := i128.checked (amountOut x (p.reserve i) (p.reserve j))
  estimateDeposit p desired :=
    let (a, b) := optimalAmounts (desired.getD 0 0) (desired.getD 1 0) (p.reserve 0) (p.reserve 1)
    some (min (a * p.totalShares / p.reserve 0) (b * p.totalShares / p.reserve 1))
  depositUses p desired :=
    let (a, b) := optimalAmounts (desired.getD 0 0) (desired.getD 1 0) (p.reserve 0) (p.reserve 1)
    some [a, b]
  sharesMinted p used :=
    u128.checked (min (used.getD 0 0 * p.totalShares / p.reserve 0)
      (used.getD 1 0 * p.totalShares / p.reserve 1))
  withdrawPays p shares :=
    let amounts := p.reserves.map fun r => r * shares / p.totalShares
    if ∀ a ∈ amounts, i128.Holds a then some amounts else none
  claim := some 500

def sampleAsset : Address := .contract 1

def sampleConfig : StrategyConfig where
  depositToken := sampleAsset
  depositTokenIdx := 0
  pairToken := .contract 2
  pairTokenIdx := 1
  pool := .contract 3
  shareToken := .contract 4
  aquaToken := .contract 5
  maxSlippageBps := 100
  admin := .contract 0

/-- A deployment on a pool with 10000 of each token and 500 AQUA to claim. -/
def sampleWorld : World where
  self := .contract 0
  storage := ⟨some sampleConfig, .empty⟩
  tokens t h := if t ≠ .contract 4 ∧ h ≠ .contract 0 then 1000000 else 0
  pool := ⟨[sampleAsset, .contract 2], [10000, 10000], 10000, .contract 4⟩
  events := []

theorem sampleWorld_deployed : Deployed sampleWorld :=
  ⟨{ sampleWorld with storage := .empty }, sampleAsset,
    [.address (.contract 3), .address (.contract 2), .address (.contract 5), .u32 100], rfl, rfl⟩

theorem sampleConfig_proper : ProperConfig sampleWorld sampleConfig :=
  ⟨rfl, by decide, by decide, rfl, by decide⟩

theorem sampleWorld_proper : Proper sampleWorld := ⟨sampleConfig, rfl, sampleConfig_proper⟩

theorem sampleEnv_sound (signer : Address) : Sound (sampleEnv signer) := by
  intro p used n h
  obtain ⟨hholds, rfl⟩ := Width.checked_eq_some.mp h
  exact hholds.1

end Aquarius

end NekoStrategies.StrategyPositions
