import NekoStrategies.StrategyPositions

/-!
# The pooled LP tokens cover every vault

The Soroswap and the Aquarius strategy hold the LP tokens of all vaults on one
account. A deposit credits what the balance grew by, a withdrawal burns what it
debits, and whatever the valuation says, that is part of the vault's own
holding. So the positions stay covered, as long as nothing else takes LP tokens
from the strategy: the pool lists its LP token not among its own, and nobody
but the strategy moves them.
-/
namespace NekoStrategies.PositionBacking
open CheckedInteger SorobanHost TransactionalRun AmmPosition PositionBook StrategyPositions

/-- In every run from `start` whose steps meet `C` no position is negative and
all of them together are held. -/
def AlwaysCovered {σ α : Type} (step : α → σ → Outcome σ) (positions : σ → Attribution Address)
    (held : σ → ℤ) (start : σ → Prop) (C : α → σ → Prop) : Prop :=
  ∀ w₀ acts, start w₀ → Each step C w₀ acts →
    (∀ vault, 0 ≤ (positions (run step w₀ acts)).amount vault) ∧
      (positions (run step w₀ acts)).total ≤ held (run step w₀ acts)

theorem custody_covers {σ α : Type} {step : α → σ → Outcome σ}
    {positions : σ → Attribution Address} {held : σ → ℤ} {I start : σ → Prop}
    {C : α → σ → Prop} (h : Custody step positions held I C)
    (hstart : ∀ w, start w → I w ∧ positions w = .empty ∧ 0 ≤ held w) :
    AlwaysCovered step positions held start C := by
  intro w₀ acts hw hacts
  obtain ⟨hI, hempty, hheld⟩ := hstart w₀ hw
  have hcovered : Covered (positions w₀) (held w₀) := by
    rw [hempty]
    exact ⟨Attribution.Nonneg.empty, hheld⟩
  obtain ⟨_, hnonneg, htotal⟩ := h.run_covered hI hcovered hacts
  exact ⟨hnonneg, htotal⟩

namespace Soroswap
open SoroswapPool SoroswapContract StrategyPositions.Soroswap

/-- The LP tokens of the strategy. -/
def lpHeld (w : World) : ℤ :=
  match w.storage.config with
  | some config => w.tokens config.pair w.self
  | none => 0

/-- The LP token is neither token of its own pair. -/
def Apart (w : World) : Prop :=
  ∃ config, w.storage.config = some config ∧ config.pair ≠ config.tokenA ∧
    config.pair ≠ config.tokenB

/-- The pair mints no negative amount, and nobody else takes LP tokens from the
strategy. Reserves and supply may change in any way. -/
def Admissible : Action → World → Prop
  | .call env _, _ => Sound env
  | .transfer _ _ _ _, _ => True
  | .others tokens _ _ _, w => lpHeld w ≤ lpHeld { w with tokens }

section Custody
variable {env : Env} {w w' : World} {config : StrategyConfig} {x y k : ℤ} {dest : Address}

theorem lpHeld_eq (hconfig : w.storage.config = some config) :
    lpHeld w = w.tokens config.pair w.self := by
  simp only [lpHeld, hconfig]

theorem swapBack_lp (ha : config.pair ≠ config.tokenA) (hb : config.pair ≠ config.tokenB)
    (h : swapBack env w config x y = .ok (k, w')) :
    w'.tokens config.pair w.self = w.tokens config.pair w.self ∧ w'.self = w.self := by
  rcases swapBack_ok h with ⟨_, _, rfl⟩ | ⟨_, out, hswap, _⟩
  · exact ⟨rfl, rfl⟩
  · exact ⟨swap_lp hb ha hswap, (swap_storage hswap).2.1⟩

theorem withdraw_lp (ha : config.pair ≠ config.tokenA) (hb : config.pair ≠ config.tokenB)
    (h : SoroswapPool.withdraw env w x dest config = .ok (k, w')) :
    w'.tokens config.pair w.self = w.tokens config.pair w.self - x := by
  obtain ⟨a, b, u, u', hremove, hback, hpay⟩ := SoroswapPool.withdraw_ok h
  obtain ⟨tokens, tokens', tokens'', ht, _, ht', ht'', hu⟩ := removeLiquidity_ok hremove
  have hburnt : u.tokens config.pair w.self = w.tokens config.pair w.self - x := by
    rw [hu]
    dsimp only
    rw [Ledger.transfer_other ht'' hb, Ledger.transfer_other ht' ha, Ledger.add_apply,
      Ledger.transfer_apply ht]
    simp only [true_and, if_true]
    split_ifs <;> ring
  have hself : u.self = w.self := by rw [hu]
  obtain ⟨hkept, hself'⟩ := swapBack_lp ha hb hback
  have hpaid : w'.tokens config.pair w.self = u'.tokens config.pair w.self := by
    rcases payOut_ok hpay with ⟨_, rfl⟩ | ⟨_, tokens, ht, rfl⟩
    · rfl
    · exact Ledger.transfer_other ht ha
  rw [hself] at hkept
  rw [hpaid, hkept, hburnt]

theorem deposit_custody {amount : ℤ} {vault : Address} (hs : Sound env)
    (hconfig : w.storage.config = some config) (ha : config.pair ≠ config.tokenA)
    (hb : config.pair ≠ config.tokenB)
    (h : SoroswapContract.deposit env w amount vault = .ok (k, w')) :
    ∃ e, Posts (positions w) e (positions w') ∧
      w.tokens config.pair w.self + e.signed ≤ w'.tokens config.pair w.self := by
  obtain ⟨_, c, minted, u, hc, hdep, rfl⟩ := SoroswapContract.deposit_ok h
  obtain rfl := Option.some.inj (hc.symm.trans hconfig)
  obtain ⟨⟨p, a, b, hm⟩, hheld⟩ := deposit_minted ha hb hdep
  exact ⟨_, Posts.credit _ vault minted (hs p a b minted hm), hheld.ge⟩

theorem withdraw_custody {amount : ℤ} {vault : Address} (hbook : (positions w).Nonneg)
    (hconfig : w.storage.config = some config) (ha : config.pair ≠ config.tokenA)
    (hb : config.pair ≠ config.tokenB)
    (h : SoroswapContract.withdraw env w amount vault dest = .ok (k, w')) :
    ∃ e, Posts (positions w) e (positions w') ∧
      w.tokens config.pair w.self + e.signed ≤ w'.tokens config.pair w.self := by
  obtain ⟨hpos, _, c, totalValue, burnt, paid, u, hc, _, _, hburn, hburn0, hwd, rfl⟩ :=
    SoroswapContract.withdraw_ok h
  obtain rfl := Option.some.inj (hc.symm.trans hconfig)
  obtain ⟨hnonneg, hle⟩ := proportionalBurn_le (hbook vault) hpos hburn
  exact ⟨_, Posts.debit _ vault burnt (by omega) hle, (withdraw_lp ha hb hwd).ge⟩

/-- Every committed step keeps the LP tokens of all vaults together. -/
theorem custody : Custody step positions lpHeld Apart Admissible := by
  rintro a w w' ha ⟨config, hconfig, hneA, hneB⟩ hcovered h
  obtain ⟨hconfig', hself⟩ := step_config hconfig h
  refine ⟨⟨config, hconfig', hneA, hneB⟩, ?_⟩
  have hle := hcovered.total_le
  rw [lpHeld_eq hconfig] at hle ⊢
  rw [lpHeld_eq hconfig', hself]
  rcases a with ⟨env, c⟩ | ⟨token, sender, receiver, amount⟩ | ⟨tokens, reserve0, reserve1, supply⟩
  · cases c with
    | construct asset initArgs =>
        simp only [step, invoke, construct, bind_eq_ok, pure_eq_ok] at h
        obtain ⟨_, _, _, _, _, _, _, _, rfl⟩ := h
        exact .inl ⟨rfl, hle⟩
    | deposit amount vault =>
        obtain ⟨k, hv⟩ := forget_eq_ok.mp h
        exact .inr (deposit_custody ha hconfig hneA hneB hv)
    | withdraw amount vault dest =>
        obtain ⟨k, hv⟩ := forget_eq_ok.mp h
        exact .inr (withdraw_custody hcovered.nonneg hconfig hneA hneB hv)
    | harvest sender data =>
        simp only [step, invoke, harvest, bind_eq_ok, pure_eq_ok] at h
        obtain ⟨_, _, _, _, rfl⟩ := h
        exact .inl ⟨rfl, hle⟩
    | asset | balance vault =>
        obtain ⟨_, rfl⟩ := readOnly_eq_ok.mp h
        exact .inl ⟨rfl, hle⟩
  · obtain ⟨hsender, tokens, ht, rfl⟩ := guarded_eq_ok.mp h
    exact .inl ⟨rfl, hle.trans (Ledger.le_of_transfer ht (Ne.symm hsender))⟩
  · obtain rfl := Except.ok.inj h
    simp only [Admissible, lpHeld, hconfig] at ha
    exact .inl ⟨rfl, hle.trans ha⟩

end Custody

end Soroswap

namespace Aquarius
open AquariusPool AquariusContract AquariusCalls StrategyPositions.Aquarius

/-- The share tokens of the strategy. -/
def shareHeld (w : World) : ℤ :=
  match w.storage.config with
  | some config => w.tokens config.shareToken w.self
  | none => 0

/-- The pool's share token is none of the tokens it lists, the strategy knows it
and deposits a listed token. -/
def Apart (w : World) : Prop :=
  w.pool.shareId ∉ w.pool.tokens ∧ ∃ config, w.storage.config = some config ∧
    config.shareToken = w.pool.shareId ∧ config.depositToken ∈ w.pool.tokens

/-- The pool mints no negative amount and pays no negative reward. -/
def SoundPool (env : Env) : Prop := Sound env ∧ ∀ claimed, env.claim = some claimed → 0 ≤ claimed

/-- A sweep leaves enough: it is of another token, to the strategy itself, or of
no more share tokens than all vaults leave over. -/
def SparesShares (w : World) (token dest : Address) (amount : ℤ) : Prop :=
  ∀ config, w.storage.config = some config →
    token ≠ config.shareToken ∨ dest = w.self ∨ amount ≤ shareHeld w - (positions w).total

/-- The pool answers soundly, sweeps leave enough, and nobody else takes share
tokens from the strategy. Reserves and supply may change in any way. -/
def Admissible : Action → World → Prop
  | .call env (.sweep _ token dest amount), w => SoundPool env ∧ SparesShares w token dest amount
  | .call env _, _ => SoundPool env
  | .transfer _ _ _ _, _ => True
  | .others tokens _ _, w => shareHeld w ≤ shareHeld { w with tokens }

section Custody
variable {env : Env} {w w' : World} {config : StrategyConfig} {x y k : ℤ}
  {token dest sender admin : Address}

theorem shareHeld_eq (hconfig : w.storage.config = some config) :
    shareHeld w = w.tokens config.shareToken w.self := by
  simp only [shareHeld, hconfig]

theorem Deployed.apart (h : Deployed w) (hnot : w.pool.shareId ∉ w.pool.tokens) : Apart w := by
  obtain ⟨w₀, asset, initArgs, _, hc⟩ := h
  obtain ⟨_, config, hshare, _, rfl, hindices, rfl⟩ := construct_ok hc
  exact ⟨hnot, config, rfl, hshare, List.mem_of_getElem? (resolveIndices_ok hindices).1⟩

/-- The pool burns what the strategy authorised, and nothing else of its shares. -/
theorem poolWithdraw_shares {mins amounts : List ℤ} {share : Address}
    (hnot : w.pool.shareId ∉ w.pool.tokens)
    (h : poolWithdraw env w [.burn share w.self x] config y mins = .ok (amounts, w')) :
    w'.tokens w.pool.shareId w.self = w.tokens w.pool.shareId w.self - x := by
  have hburn : asI128 y = x := by
    simp only [poolWithdraw, bind_eq_ok, ensure_eq_ok, exists_const] at h
    have hauth := h.1
    simp only [List.mem_singleton, AuthEntry.burn.injEq] at hauth
    exact hauth.2.2
  obtain ⟨_, _, _, tokens, hpay, rfl⟩ := poolWithdraw_ok h
  dsimp only
  rw [payAll_other (.inl hnot) hpay, Ledger.add_apply, if_pos ⟨rfl, rfl⟩, hburn]
  ring

/-- A withdrawal takes exactly the share tokens it burns. -/
theorem withdraw_shares (hnot : w.pool.shareId ∉ w.pool.tokens)
    (hmem : config.depositToken ∈ w.pool.tokens)
    (h : AquariusPool.withdraw env w x dest config = .ok (k, w')) :
    w'.tokens w.pool.shareId w.self = w.tokens w.pool.shareId w.self - x := by
  obtain ⟨_, _, amounts, u, u', hremove, hback, hpay⟩ := poolExit_ok h
  obtain ⟨_, hself, _, htokens, hid⟩ := poolWithdraw_frame hremove
  have hswapped : u'.tokens w.pool.shareId w.self = u.tokens w.pool.shareId w.self := by
    rcases swapBack_ok hback with ⟨_, _, rfl⟩ | ⟨_, _, _, hswap, _⟩
    · rfl
    · rw [← hself]
      exact swap_shares (htokens ▸ hnot) hswap
  have hpaid : w'.tokens w.pool.shareId w.self = u'.tokens w.pool.shareId w.self := by
    rcases payOut_ok hpay with ⟨_, rfl⟩ | ⟨_, tokens, ht, rfl⟩
    · rfl
    · exact Ledger.transfer_other ht fun he => hnot (he ▸ hmem)
  rw [hpaid, hswapped, poolWithdraw_shares hnot hremove]

/-- Rewards are passed on, never more than they are, in whatever token. -/
theorem harvest_shares {data : Option (List UInt8)} (hs : SoundPool env)
    (h : AquariusContract.harvest env w sender data = .ok w') (t : Address) :
    w.tokens t w.self ≤ w'.tokens t w.self := by
  obtain ⟨c, k, u, price, _, hclaim, _, rfl⟩ := harvest_ok h
  obtain ⟨claimed, hclaimed, rfl, hcase⟩ := claim_ok hclaim
  have hnonneg := hs.2 claimed hclaimed
  rcases hcase with ⟨_, rfl⟩ | ⟨_, tokens, ht, rfl⟩
  · dsimp only [World.emit]
    rw [Ledger.add_apply]
    split_ifs <;> omega
  · have hle := asI128_le hnonneg
    dsimp only [World.emit]
    rw [Ledger.transfer_apply ht, Ledger.add_apply]
    simp only [and_true]
    split_ifs <;> omega

theorem step_apart {a : Action} (hw : Apart w) (h : step a w = .ok w') : Apart w' := by
  obtain ⟨hnot, config, hconfig, hshare, hmem⟩ := hw
  obtain ⟨slippage, hconfig', _, htokens, hid, _⟩ := step_config hconfig h
  refine ⟨by rwa [htokens, hid], _, hconfig', by rw [hid]; exact hshare, ?_⟩
  rw [htokens]
  exact hmem

/-- After a committed sweep the share tokens cover the positions exactly if it
left enough. -/
theorem sweep_covers_iff {amount : ℤ} (hconfig : w.storage.config = some config)
    (hcovered : (positions w).total ≤ shareHeld w)
    (h : sweep env w admin token dest amount = .ok w') :
    (positions w').total ≤ shareHeld w' ↔ SparesShares w token dest amount := by
  obtain ⟨c, tokens, hc, _, _, ht, rfl⟩ := sweep_ok h
  have hpositions : positions { w with tokens } = positions w := rfl
  have hheld : shareHeld { w with tokens } = tokens config.shareToken w.self :=
    shareHeld_eq (w := { w with tokens }) hconfig
  have hmoved := Ledger.transfer_apply ht config.shareToken w.self
  rw [hpositions, hheld, hmoved]
  simp only [SparesShares, hconfig, Option.some.injEq, forall_eq']
  rw [shareHeld_eq hconfig] at hcovered ⊢
  by_cases htoken : token = config.shareToken
  · by_cases hdest : dest = w.self
    · simp [htoken, hdest, hcovered]
    · simp only [htoken, hdest, Ne.symm hdest, and_false, and_self, if_false, if_true, ne_eq,
        not_true, false_or]
      omega
  · simp [htoken, Ne.symm htoken, hcovered]

/-- A deposit credits no more than the strategy gained. -/
theorem deposit_custody {amount : ℤ} {vault : Address} (hs : Sound env)
    (hconfig : w.storage.config = some config) (hshare : config.shareToken = w.pool.shareId)
    (hnot : w.pool.shareId ∉ w.pool.tokens)
    (h : AquariusContract.deposit env w amount vault = .ok (k, w')) :
    ∃ e, Posts (positions w) e (positions w') ∧
      w.tokens w.pool.shareId w.self + e.signed ≤ w'.tokens w.pool.shareId w.self := by
  obtain ⟨_, c, minted, u, hc, hdep, rfl⟩ := deposit_ok h
  obtain rfl := Option.some.inj (hc.symm.trans hconfig)
  obtain ⟨⟨p, used, hm⟩, hgrown⟩ := poolStep_minted hshare hnot hdep
  exact ⟨_, Posts.credit _ vault minted (hs p used minted hm), hgrown.ge⟩

theorem withdraw_custody {amount : ℤ} {vault : Address} (hbook : (positions w).Nonneg)
    (hconfig : w.storage.config = some config) (hnot : w.pool.shareId ∉ w.pool.tokens)
    (hmem : config.depositToken ∈ w.pool.tokens)
    (h : AquariusContract.withdraw env w amount vault dest = .ok (k, w')) :
    ∃ e, Posts (positions w) e (positions w') ∧
      w.tokens w.pool.shareId w.self + e.signed ≤ w'.tokens w.pool.shareId w.self := by
  obtain ⟨hpos, _, c, totalValue, burnt, paid, u, hc, _, _, hburn, hburn0, hwd, rfl⟩ :=
    withdraw_ok h
  obtain rfl := Option.some.inj (hc.symm.trans hconfig)
  obtain ⟨hnonneg, hle⟩ := proportionalBurn_le (hbook vault) hpos hburn
  exact ⟨_, Posts.debit _ vault burnt (by omega) hle, (withdraw_shares hnot hmem hwd).ge⟩

/-- Every committed step keeps the share tokens of all vaults together. -/
theorem custody : Custody step positions shareHeld Apart Admissible := by
  intro a w w' ha hw hcovered h
  refine ⟨step_apart hw h, ?_⟩
  obtain ⟨hnot, config, hconfig, hshare, hmem⟩ := hw
  obtain ⟨slippage, hconfig', hself, _, _⟩ := step_config hconfig h
  have hle := hcovered.total_le
  have hheld' : shareHeld w' = w'.tokens w.pool.shareId w.self := by
    rw [shareHeld_eq hconfig', hself, ← hshare]
  have hheld : shareHeld w = w.tokens w.pool.shareId w.self := by
    rw [shareHeld_eq hconfig, hshare]
  rcases a with ⟨env, c⟩ | ⟨token, sender, receiver, amount⟩ | ⟨tokens, reserves, supply⟩
  · cases c with
    | construct asset initArgs =>
        rw [(construct_ok h).1] at hconfig
        cases hconfig
    | updateSlippage admin slippage =>
        obtain ⟨_, _, _, _, _, rfl⟩ := updateSlippage_ok h
        exact .inl ⟨rfl, by rw [hheld', ← hheld]; exact hle⟩
    | sweep admin token dest amount =>
        have hpositions : positions w' = positions w := by
          obtain ⟨_, _, _, _, _, _, rfl⟩ := sweep_ok h
          rfl
        have hspared := (sweep_covers_iff hconfig hle h).mpr ha.2
        exact .inl ⟨hpositions, hpositions ▸ hspared⟩
    | deposit amount vault =>
        obtain ⟨k, hv⟩ := forget_eq_ok.mp h
        rw [hheld', hheld]
        exact .inr (deposit_custody ha.1 hconfig hshare hnot hv)
    | withdraw amount vault dest =>
        obtain ⟨k, hv⟩ := forget_eq_ok.mp h
        rw [hheld', hheld]
        exact .inr (withdraw_custody hcovered.nonneg hconfig hnot hmem hv)
    | harvest sender data =>
        have hcall : AquariusContract.harvest env w sender data = .ok w' := h
        have hpositions : positions w' = positions w := by
          rw [positions, positions, (harvest_frame hcall).1]
        rw [hheld] at hle
        rw [hheld']
        exact .inl ⟨hpositions, hle.trans (harvest_shares ha hcall _)⟩
    | asset | balance vault =>
        obtain ⟨_, rfl⟩ := readOnly_eq_ok.mp h
        exact .inl ⟨rfl, hle⟩
  · obtain ⟨hsender, tokens, ht, rfl⟩ := guarded_eq_ok.mp h
    rw [hheld] at hle
    rw [hheld']
    exact .inl ⟨rfl, hle.trans (Ledger.le_of_transfer ht (Ne.symm hsender))⟩
  · obtain rfl := Except.ok.inj h
    have hrise : shareHeld w ≤ shareHeld { w with tokens } := ha
    exact .inl ⟨rfl, hle.trans hrise⟩

/-- Runs without sweeps. -/
def NoSweep : Action → World → Prop
  | .call _ (.sweep _ _ _ _), _ => False
  | a, w => Admissible a w

theorem noSweep_admissible (a : Action) (w : World) (h : NoSweep a w) : Admissible a w := by
  rcases a with ⟨env, c⟩ | _ | _
  · cases c with
    | sweep => exact h.elim
    | construct | updateSlippage | asset | deposit | withdraw | balance | harvest => exact h
  · trivial
  · exact h

end Custody

end Aquarius

/-- In every run of either strategy no vault's LP tokens are negative and all
vaults together own no more than the strategy holds, whatever happens to the
reserves and the supply of the pool; for Aquarius in runs without sweeps. -/
theorem attribution_backed :
    AlwaysCovered SoroswapContract.step Soroswap.positions Soroswap.lpHeld
        (fun w => SoroswapContract.Deployed w ∧ Soroswap.Apart w ∧ 0 ≤ Soroswap.lpHeld w)
        Soroswap.Admissible ∧
      AlwaysCovered AquariusContract.step Aquarius.positions Aquarius.shareHeld
        (fun w => AquariusContract.Deployed w ∧ w.pool.shareId ∉ w.pool.tokens ∧
          0 ≤ Aquarius.shareHeld w)
        Aquarius.NoSweep := by
  constructor
  · apply custody_covers Soroswap.custody
    rintro w ⟨hw, hapart, hheld⟩
    exact ⟨hapart, Soroswap.deployed_empty hw, hheld⟩
  · apply custody_covers (Aquarius.custody.restrict Aquarius.noSweep_admissible)
    rintro w ⟨hw, hnot, hheld⟩
    exact ⟨Aquarius.Deployed.apart hw hnot, Aquarius.deployed_empty hw, hheld⟩

/-- A deposit, other reserves and supply, and a withdrawal of a part. -/
def Soroswap.sampleActions : List SoroswapContract.Action :=
  [.transfer Soroswap.sampleAsset (.account 1) (.contract 0) 2000,
    .call (Soroswap.sampleEnv (.account 1)) (.deposit 2000 (.account 1)),
    .others (fun _ _ => 1000000) 30000 5000 20000,
    .call (Soroswap.sampleEnv (.account 1)) (.withdraw 500 (.account 1) (.account 3))]

def Soroswap.sampleEnd : SoroswapPool.World :=
  SoroswapContract.run Soroswap.sampleWorld Soroswap.sampleActions

def Aquarius.sampleActions : List AquariusContract.Action :=
  [.transfer Aquarius.sampleAsset (.account 1) (.contract 0) 2000,
    .call (Aquarius.sampleEnv (.account 1)) (.deposit 2000 (.account 1)),
    .others (fun _ _ => 1000000) [30000, 5000] 20000,
    .call (Aquarius.sampleEnv (.account 1)) (.withdraw 500 (.account 1) (.account 3))]

def Aquarius.sampleEnd : AquariusPool.World :=
  AquariusContract.run Aquarius.sampleWorld Aquarius.sampleActions

theorem Aquarius.sampleEnv_soundPool (signer : Address) :
    Aquarius.SoundPool (Aquarius.sampleEnv signer) := by
  refine ⟨Aquarius.sampleEnv_sound signer, ?_⟩
  intro claimed h
  obtain rfl := Option.some.inj h
  decide

theorem Soroswap.sampleActions_admissible :
    Each SoroswapContract.step Soroswap.Admissible Soroswap.sampleWorld
      Soroswap.sampleActions := by
  refine ⟨trivial, Soroswap.sampleEnv_sound _, ?_, Soroswap.sampleEnv_sound _, trivial⟩
  unfold Soroswap.Admissible
  decide +kernel

theorem Aquarius.sampleActions_noSweep :
    Each AquariusContract.step Aquarius.NoSweep Aquarius.sampleWorld
      Aquarius.sampleActions := by
  refine ⟨trivial, Aquarius.sampleEnv_soundPool _, ?_, Aquarius.sampleEnv_soundPool _, trivial⟩
  unfold Aquarius.NoSweep Aquarius.Admissible
  decide +kernel

theorem attribution_backed_sample :
    (Soroswap.sampleEnd.events.length = 2 ∧
      (Soroswap.positions Soroswap.sampleEnd).total ≤ Soroswap.lpHeld Soroswap.sampleEnd) ∧
    Aquarius.sampleEnd.events.length = 2 ∧
      (Aquarius.positions Aquarius.sampleEnd).total ≤
        Aquarius.shareHeld Aquarius.sampleEnd := by
  have hsoroswap := attribution_backed.1 Soroswap.sampleWorld Soroswap.sampleActions
    ⟨Soroswap.sampleWorld_deployed, ⟨_, rfl, by decide, by decide⟩, by decide⟩
    Soroswap.sampleActions_admissible
  have haquarius := attribution_backed.2 Aquarius.sampleWorld Aquarius.sampleActions
    ⟨Aquarius.sampleWorld_deployed, by decide, by decide⟩
    Aquarius.sampleActions_noSweep
  exact ⟨⟨by decide +kernel, hsoroswap.2⟩, by decide +kernel, haquarius.2⟩

end NekoStrategies.PositionBacking
