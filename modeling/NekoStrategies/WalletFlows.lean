import NekoStrategies.EventLog
import NekoStrategies.StrategyPositions

/-!
# What the strategies do to other accounts

The Neko, Soroswap and Aquarius strategies take from nobody: a deposit spends what
the strategy already holds, and whatever happens in the pool stays between the two.
So an account outside changes by what the log reports as paid to it, what it is sent
or sends itself, and nothing else, in every token and whatever other contracts answer.
-/
namespace NekoStrategies.WalletFlows
open CheckedInteger SorobanHost EventLog
open TransactionalRun (tally Each)

/-- Only the balances of `a` and `b` changed. -/
def Between (a b : Address) (l l' : Ledger) : Prop := ∀ t h, h ≠ a → h ≠ b → l' t h = l t h

section Between
variable {a b token : Address} {l l' l'' : Ledger} {x : ℤ}

theorem Between.refl (l : Ledger) : Between a b l l := fun _ _ _ _ => rfl

theorem Between.trans (h : Between a b l l') (h' : Between a b l' l'') : Between a b l l'' :=
  fun t u hua hub => (h' t u hua hub).trans (h t u hua hub)

theorem between_of_transfer (h : l.transfer token a b x = .ok l') : Between a b l l' := by
  intro t u hua hub
  rw [Ledger.transfer_apply h]
  simp [hua, hub]

theorem between_of_return (h : l.transfer token b a x = .ok l') : Between a b l l' := by
  intro t u hua hub
  rw [Ledger.transfer_apply h]
  simp [hua, hub]

theorem between_of_add : Between a b l (l.add token a x) := by
  intro t u hua hub
  rw [Ledger.add_apply]
  simp [hua]

theorem between_of_add_right : Between a b l (l.add token b x) := by
  intro t u hua hub
  rw [Ledger.add_apply]
  simp [hub]

end Between

/-- What reaches `u` of a token that `dest` is paid `x` of, if it is positive. -/
def received (t u token dest : Address) (x : ℤ) : ℤ := if t = token ∧ u = dest then max 0 x else 0

theorem received_nonneg {t u token dest : Address} {x : ℤ} : 0 ≤ received t u token dest x := by
  unfold received
  split_ifs <;> simp

/-- What a transfer of its own or to it changes. -/
def transferred (t u token sender receiver : Address) (x : ℤ) : ℤ :=
  (if t = token ∧ u = receiver then x else 0) - if t = token ∧ u = sender then x else 0

theorem received_of_transfer {l l' : Ledger} {self u t token dest : Address} {x : ℤ}
    (hself : u ≠ self) (h : l.transfer token self dest x = .ok l') :
    l' t u = l t u + received t u token dest x := by
  have hx := (Ledger.transfer_eq_ok.mp h).1
  rw [Ledger.transfer_apply h]
  simp [received, hself, max_eq_right hx]

theorem transferred_of_transfer {l l' : Ledger} {t u token sender receiver : Address} {x : ℤ}
    (h : l.transfer token sender receiver x = .ok l') :
    l' t u = l t u + transferred t u token sender receiver x := by
  rw [Ledger.transfer_apply h]
  unfold transferred
  ring

/-- An account outside changes in every run by what is delivered to it, and calls
of the strategy lower it never. -/
def FollowsLog {σ α : Type} (step : α → σ → Outcome σ) (tokens : σ → Ledger) (start : σ → Prop)
    (outside : Address → Prop) (own : α → Prop) (delivered : Address → Address → α → σ → ℤ) :
    Prop :=
  ∀ w acts t u, start w → outside u →
    tokens (TransactionalRun.run step w acts) t u =
        tokens w t u + tally step (delivered t u) w acts ∧
      ((∀ a ∈ acts, own a) → tokens w t u ≤ tokens (TransactionalRun.run step w acts) t u)

theorem followsLog {σ α : Type} {step : α → σ → Outcome σ} {tokens : σ → Ledger} {I : σ → Prop}
    {outside : Address → Prop} {own : α → Prop} {delivered : Address → Address → α → σ → ℤ}
    (hkeep : ∀ a w w', I w → step a w = .ok w' → I w')
    (hstep : ∀ a w w' t u, I w → outside u → step a w = .ok w' →
      tokens w' t u = tokens w t u + delivered t u a w)
    (hown : ∀ a w t u, own a → 0 ≤ delivered t u a w) :
    FollowsLog step tokens I outside own delivered := by
  intro w acts t u hw hu
  constructor
  · exact TransactionalRun.eq_add_tally (C := fun _ _ => True)
      (P := fun s => tokens s t u) (fun a s s' _ hs h => ⟨hkeep a s s' hs h,
        hstep a s s' t u hs hu h⟩) hw (TransactionalRun.each_of_forall fun _ _ _ => trivial)
  · intro hacts
    refine (TransactionalRun.run_invariant (C := fun a _ => own a)
      (I := fun s => I s ∧ tokens w t u ≤ tokens s t u) ?_ ⟨hw, le_rfl⟩
      (TransactionalRun.each_of_forall fun a ha _ => hacts a ha)).2
    rintro a s s' ha ⟨hs, hle⟩ h
    have hchange := hstep a s s' t u hs hu h
    have hnonneg := hown a s t u ha
    exact ⟨hkeep a s s' hs h, by omega⟩

namespace Neko
open NekoContract

/-- A withdrawal delivers what it reports. -/
def delivered (config : Config) (t u : Address) : Action → World → ℤ
  | .call env (.withdraw amount vault dest), w => received t u config.asset dest
      (totalDrawn (newEvents step World.events (.call env (.withdraw amount vault dest)) w))
  | .call _ _, _ => 0
  | .transfer token sender receiver amount, _ => transferred t u token sender receiver amount
  | .others tokens, w => tokens t u - w.tokens t u

def Own : Action → Prop
  | .call _ _ => True
  | _ => False

section Steps
variable {config : Config} {self : Address} {a : Action} {w w' : World} {t u : Address}

theorem step_delivers (hw : w.storage.config = some config ∧ w.self = self)
    (hu : u ≠ self ∧ u ≠ config.lendingPool) (h : step a w = .ok w') :
    w'.tokens t u = w.tokens t u + delivered config t u a w := by
  obtain ⟨hconfig, rfl⟩ := hw
  rcases a with ⟨env, c⟩ | ⟨token, sender, receiver, amount⟩ | tokens
  · cases c with
    | construct asset initArgs =>
        rw [(construct_ok h).1] at hconfig
        cases hconfig
    | deposit amount vault =>
        obtain ⟨k, hv⟩ := forget_eq_ok.mp h
        obtain ⟨_, c, minted, tokens, hc, _, ht, _, rfl⟩ := deposit_ok hv
        obtain rfl := Option.some.inj (hc.symm.trans hconfig)
        simpa [delivered] using between_of_transfer ht t u hu.1 hu.2
    | withdraw amount vault dest =>
        obtain ⟨k, hv⟩ := forget_eq_ok.mp h
        obtain ⟨_, _, _, c, b, paid, tokens, tokens', hc, _, _, _, ht, ht', _, hw'⟩ :=
          withdraw_ok hv
        obtain rfl := Option.some.inj (hc.symm.trans hconfig)
        have hlog : w'.events = w.events ++ [.withdraw strategyName paid vault] := by rw [hw']
        have hreported : newEvents step World.events (.call env (.withdraw amount vault dest)) w =
            [.withdraw strategyName paid vault] := newEvents_of_ok h hlog
        simp only [delivered, hreported, totalDrawn_singleton, drawn]
        rw [hw']
        dsimp only
        rw [received_of_transfer hu.1 ht', between_of_return ht t u hu.1 hu.2]
    | harvest sender data =>
        simp only [step, invoke, harvest, bind_eq_ok, pure_eq_ok] at h
        obtain ⟨_, _, rfl⟩ := h
        simp [delivered, World.emit]
    | asset | balance vault =>
        obtain ⟨_, rfl⟩ := readOnly_eq_ok.mp h
        simp [delivered]
  · obtain ⟨_, tokens, ht, rfl⟩ := guarded_eq_ok.mp h
    exact transferred_of_transfer ht
  · obtain rfl := Except.ok.inj h
    simp [delivered]

theorem own_nonneg (ha : Own a) : 0 ≤ delivered config t u a w := by
  rcases a with ⟨env, c⟩ | _ | _
  · cases c with
    | withdraw => exact received_nonneg
    | _ => exact le_rfl
  · exact ha.elim
  · exact ha.elim

end Steps

end Neko

namespace Soroswap
open SoroswapPool SoroswapContract

def delivered (config : StrategyConfig) (t u : Address) : Action → World → ℤ
  | .call env (.withdraw amount vault dest), w => received t u config.tokenA dest
      (totalDrawn (newEvents step World.events (.call env (.withdraw amount vault dest)) w))
  | .call _ _, _ => 0
  | .transfer token sender receiver amount, _ => transferred t u token sender receiver amount
  | .others tokens _ _ _, w => tokens t u - w.tokens t u

def Own : Action → Prop
  | .call _ _ => True
  | _ => False

section Pair
variable {env : Env} {w w' : World} {auths : List AuthEntry} {config : StrategyConfig}
  {tokenIn tokenOut dest t u : Address} {x y k a b : ℤ} {amounts : List ℤ}

theorem swap_between
    (h : swapExactTokensForTokens env w auths config x y tokenIn tokenOut = .ok (amounts, w')) :
    Between w.self config.pair w.tokens w'.tokens := by
  obtain ⟨_, _, _, _, ht, ht', _, rfl⟩ := swap_ok h
  exact (between_of_transfer ht).trans (between_of_return ht')

theorem deposit_between (h : SoroswapPool.deposit env w x config = .ok (k, w')) :
    Between w.self config.pair w.tokens w'.tokens := by
  obtain ⟨_, v, hswap, hadd, _⟩ := SoroswapPool.deposit_ok h
  obtain ⟨_, _, _, _, _, _, _, _, ht, ht', _, rfl⟩ := addLiquidity_ok hadd
  have hself : v.self = w.self := (swap_storage hswap).2.1
  rw [hself] at ht ht'
  have hmoved := (between_of_transfer ht).trans (between_of_transfer ht')
  dsimp only
  rw [hself]
  exact (swap_between hswap).trans (hmoved.trans between_of_add)

theorem remove_between {lp : ℤ}
    (h : removeLiquidity env w auths config lp x y = .ok ((a, b), w')) :
    Between w.self config.pair w.tokens w'.tokens := by
  obtain ⟨_, _, _, ht, _, ht', ht'', rfl⟩ := removeLiquidity_ok h
  exact (((between_of_transfer ht).trans between_of_add_right).trans
    (between_of_return ht')).trans (between_of_return ht'')

theorem swapBack_between (h : swapBack env w config x y = .ok (k, w')) :
    Between w.self config.pair w.tokens w'.tokens := by
  rcases swapBack_ok h with ⟨_, _, rfl⟩ | ⟨_, _, hswap, _⟩
  · exact .refl _
  · exact swap_between hswap

theorem payOut_delivers (hself : u ≠ w.self) (h : payOut w config dest x = .ok w') :
    w'.tokens t u = w.tokens t u + received t u config.tokenA dest x := by
  rcases payOut_ok h with ⟨hx, rfl⟩ | ⟨_, tokens, ht, rfl⟩
  · simp [received, max_eq_left hx]
  · exact received_of_transfer hself ht

/-- What the pair gives back goes through the strategy to the destination. -/
theorem withdraw_delivers (hself : u ≠ w.self) (hpair : u ≠ config.pair)
    (h : SoroswapPool.withdraw env w x dest config = .ok (k, w')) :
    w'.tokens t u = w.tokens t u + received t u config.tokenA dest k := by
  obtain ⟨_, _, v, v', hremove, hback, hpay⟩ := SoroswapPool.withdraw_ok h
  have hv : v.self = w.self := by
    obtain ⟨_, _, _, _, _, _, _, rfl⟩ := removeLiquidity_ok hremove
    rfl
  have hv' : v'.self = v.self := by
    rcases swapBack_ok hback with ⟨_, _, rfl⟩ | ⟨_, _, hswap, _⟩
    · rfl
    · exact (swap_storage hswap).2.1
  have hmid : v'.tokens t u = w.tokens t u :=
    (swapBack_between hback t u (hv ▸ hself) hpair).trans (remove_between hremove t u hself hpair)
  rw [payOut_delivers (by rwa [hv', hv]) hpay, hmid]

end Pair

section Steps
variable {config : StrategyConfig} {self : Address} {a : Action} {w w' : World} {t u : Address}

theorem step_delivers (hw : w.storage.config = some config ∧ w.self = self)
    (hu : u ≠ self ∧ u ≠ config.pair) (h : step a w = .ok w') :
    w'.tokens t u = w.tokens t u + delivered config t u a w := by
  obtain ⟨hconfig, rfl⟩ := hw
  rcases a with ⟨env, c⟩ | ⟨token, sender, receiver, amount⟩ | ⟨tokens, _, _, _⟩
  · cases c with
    | construct asset initArgs =>
        rw [(construct_ok h).1] at hconfig
        cases hconfig
    | deposit amount vault =>
        obtain ⟨k, hv⟩ := forget_eq_ok.mp h
        obtain ⟨_, c, minted, v, hc, hdep, rfl⟩ := SoroswapContract.deposit_ok hv
        obtain rfl := Option.some.inj (hc.symm.trans hconfig)
        simpa [delivered] using deposit_between hdep t u hu.1 hu.2
    | withdraw amount vault dest =>
        obtain ⟨k, hv⟩ := forget_eq_ok.mp h
        obtain ⟨_, _, c, _, _, paid, v, hc, _, _, _, _, hwd, hw'⟩ :=
          SoroswapContract.withdraw_ok hv
        obtain rfl := Option.some.inj (hc.symm.trans hconfig)
        have hlog : w'.events = w.events ++ [.withdraw strategyName paid vault] := by rw [hw']
        have hreported : newEvents step World.events (.call env (.withdraw amount vault dest)) w =
            [.withdraw strategyName paid vault] := newEvents_of_ok h hlog
        simp only [delivered, hreported, totalDrawn_singleton, drawn]
        rw [hw']
        dsimp only
        exact withdraw_delivers hu.1 hu.2 hwd
    | harvest sender data =>
        simp only [step, invoke, harvest, bind_eq_ok, pure_eq_ok] at h
        obtain ⟨_, _, _, _, rfl⟩ := h
        simp [delivered, World.emit]
    | asset | balance vault =>
        obtain ⟨_, rfl⟩ := readOnly_eq_ok.mp h
        simp [delivered]
  · obtain ⟨_, tokens, ht, rfl⟩ := guarded_eq_ok.mp h
    exact transferred_of_transfer ht
  · obtain rfl := Except.ok.inj h
    simp [delivered]

theorem own_nonneg (ha : Own a) : 0 ≤ delivered config t u a w := by
  rcases a with ⟨env, c⟩ | _ | _
  · cases c with
    | withdraw => exact received_nonneg
    | _ => exact le_rfl
  · exact ha.elim
  · exact ha.elim

end Steps

end Soroswap

namespace Aquarius
open AquariusPool AquariusContract AquariusCalls

/-- A harvest delivers the rewards it reports, and a sweep what the admin asks for. -/
def delivered (config : StrategyConfig) (t u : Address) : Action → World → ℤ
  | .call env (.withdraw amount vault dest), w => received t u config.depositToken dest
      (totalDrawn (newEvents step World.events (.call env (.withdraw amount vault dest)) w))
  | .call env (.harvest sender data), w => received t u config.aquaToken sender
      (totalHarvested (newEvents step World.events (.call env (.harvest sender data)) w))
  | .call _ (.sweep _ token dest amount), _ => received t u token dest amount
  | .call _ _, _ => 0
  | .transfer token sender receiver amount, _ => transferred t u token sender receiver amount
  | .others tokens _ _, w => tokens t u - w.tokens t u

def Own : Action → Prop
  | .call _ _ => True
  | _ => False

section Pool
variable {env : Env} {w w' : World} {auths : List AuthEntry} {config : StrategyConfig}
  {dest self pool t u : Address} {x y k : ℤ} {i j : ℕ} {amounts xs mins : List ℤ}
  {tokens : List Address} {l l' : Ledger}

theorem pullAll_between (h : pullAll auths self pool tokens xs l = .ok l') :
    Between self pool l l' := by
  induction tokens generalizing xs l with
  | nil =>
      simp only [pullAll, pure_eq_ok] at h
      exact h ▸ .refl l
  | cons token tokens ih =>
      cases xs with
      | nil =>
          simp only [pullAll, pure_eq_ok] at h
          exact h ▸ .refl l
      | cons x xs =>
          simp only [pullAll, bind_eq_ok, Ledger.pull_eq_ok] at h
          obtain ⟨m, ⟨_, hm⟩, h⟩ := h
          exact (between_of_transfer hm).trans (ih h)

theorem payAll_between (h : payAll self pool tokens xs l = .ok l') : Between self pool l l' :=
  fun _ _ hself hpool => payAll_other (.inr ⟨hself, hpool⟩) h

theorem swap_between (h : swap env w auths config i j x y = .ok (k, w')) :
    Between w.self config.pool w.tokens w'.tokens := by
  obtain ⟨_, _, _, _, _, _, _, _, ht, ht', rfl⟩ := swap_ok h
  exact (between_of_transfer ht).trans (between_of_return ht')

theorem deposit_between (h : AquariusPool.deposit env w x config = .ok (k, w')) :
    Between w.self config.pool w.tokens w'.tokens := by
  obtain ⟨_, v, _, hhalf, hdep, _⟩ := poolStep_ok h
  obtain ⟨_, _, _, _, _, hswap, _⟩ := swapHalf_ok hhalf
  obtain ⟨_, _, _, _, _, hpull, _, hpay, _, _, rfl⟩ := poolDeposit_ok hdep
  have hself : v.self = w.self := (swap_frame hswap).2.1
  rw [hself] at hpull hpay
  have hmoved := (pullAll_between hpull).trans (payAll_between hpay)
  dsimp only
  rw [hself]
  exact (swap_between hswap).trans (hmoved.trans between_of_add)

theorem remove_between (h : poolWithdraw env w auths config x mins = .ok (amounts, w')) :
    Between w.self config.pool w.tokens w'.tokens := by
  obtain ⟨_, _, _, _, hpay, rfl⟩ := poolWithdraw_ok h
  exact between_of_add.trans (payAll_between hpay)

theorem swapBack_between (h : swapBack env w config x y = .ok (k, w')) :
    Between w.self config.pool w.tokens w'.tokens := by
  rcases swapBack_ok h with ⟨_, _, rfl⟩ | ⟨_, _, _, hswap, _⟩
  · exact .refl _
  · exact swap_between hswap

theorem payOut_delivers (hself : u ≠ w.self) (h : payOut w config dest x = .ok w') :
    w'.tokens t u = w.tokens t u + received t u config.depositToken dest x := by
  rcases payOut_ok h with ⟨hx, rfl⟩ | ⟨_, tokens, ht, rfl⟩
  · simp [received, max_eq_left hx]
  · exact received_of_transfer hself ht

theorem withdraw_delivers (hself : u ≠ w.self) (hpool : u ≠ config.pool)
    (h : AquariusPool.withdraw env w x dest config = .ok (k, w')) :
    w'.tokens t u = w.tokens t u + received t u config.depositToken dest k := by
  obtain ⟨_, _, _, v, v', hremove, hback, hpay⟩ := poolExit_ok h
  have hv : v.self = w.self := (poolWithdraw_frame hremove).2.1
  have hv' : v'.self = v.self := (swapBack_frame hback).2.1
  have hmid : v'.tokens t u = w.tokens t u :=
    (swapBack_between hback t u (hv ▸ hself) hpool).trans (remove_between hremove t u hself hpool)
  rw [payOut_delivers (by rwa [hv', hv]) hpay, hmid]

theorem claim_delivers (hself : u ≠ w.self) (h : claim env w dest config = .ok (k, w')) :
    w'.tokens t u = w.tokens t u + received t u config.aquaToken dest k := by
  obtain ⟨claimed, _, _, ⟨hk, rfl⟩ | ⟨_, tokens, ht, rfl⟩⟩ := claim_ok h
  · dsimp only
    rw [Ledger.add_apply]
    simp [received, max_eq_left hk, hself]
  · dsimp only
    rw [received_of_transfer hself ht, Ledger.add_apply]
    simp [hself]

end Pool

section Steps
variable {config : StrategyConfig} {self : Address} {a : Action} {w w' : World} {t u : Address}

/-- The strategy's configuration, at any slippage. -/
def Configured (config : StrategyConfig) (self : Address) (w : World) : Prop :=
  (∃ slippage, w.storage.config = some { config with maxSlippageBps := slippage }) ∧ w.self = self

theorem step_kept (hw : Configured config self w) (h : step a w = .ok w') :
    Configured config self w' := by
  obtain ⟨⟨slippage, hconfig⟩, rfl⟩ := hw
  obtain ⟨slippage', hconfig', hself, _⟩ := StrategyPositions.Aquarius.step_config hconfig h
  exact ⟨⟨slippage', hconfig'⟩, hself⟩

theorem step_delivers (hw : Configured config self w) (hu : u ≠ self ∧ u ≠ config.pool)
    (h : step a w = .ok w') : w'.tokens t u = w.tokens t u + delivered config t u a w := by
  obtain ⟨⟨slippage, hconfig⟩, rfl⟩ := hw
  rcases a with ⟨env, c⟩ | ⟨token, sender, receiver, amount⟩ | ⟨tokens, _, _⟩
  · cases c with
    | construct asset initArgs =>
        rw [(construct_ok h).1] at hconfig
        cases hconfig
    | updateSlippage admin bps =>
        obtain ⟨_, _, _, _, _, rfl⟩ := updateSlippage_ok h
        simp [delivered]
    | sweep admin token dest amount =>
        obtain ⟨_, tokens, _, _, _, ht, rfl⟩ := sweep_ok h
        exact received_of_transfer hu.1 ht
    | deposit amount vault =>
        obtain ⟨k, hv⟩ := forget_eq_ok.mp h
        obtain ⟨_, c, minted, v, hc, hdep, rfl⟩ := deposit_ok hv
        obtain rfl := Option.some.inj (hc.symm.trans hconfig)
        simpa [delivered] using deposit_between hdep t u hu.1 hu.2
    | withdraw amount vault dest =>
        obtain ⟨k, hv⟩ := forget_eq_ok.mp h
        obtain ⟨_, _, c, _, _, paid, v, hc, _, _, _, _, hwd, hw'⟩ := withdraw_ok hv
        obtain rfl := Option.some.inj (hc.symm.trans hconfig)
        have hlog : w'.events = w.events ++ [.withdraw strategyName paid vault] := by rw [hw']
        have hreported : newEvents step World.events (.call env (.withdraw amount vault dest)) w =
            [.withdraw strategyName paid vault] := newEvents_of_ok h hlog
        simp only [delivered, hreported, totalDrawn_singleton, drawn]
        have hpaid := withdraw_delivers (t := t) hu.1 (by exact hu.2) hwd
        rw [hw']
        exact hpaid
    | harvest sender data =>
        have hv : AquariusContract.harvest env w sender data = .ok w' := h
        obtain ⟨c, aqua, v, price, hc, hclaim, _, hw'⟩ := harvest_ok hv
        obtain rfl := Option.some.inj (hc.symm.trans hconfig)
        have hlogged : v.events = w.events := by
          obtain ⟨_, _, _, ⟨_, rfl⟩ | ⟨_, _, _, rfl⟩⟩ := claim_ok hclaim <;> rfl
        have hlog : w'.events = w.events ++ [.harvest strategyName aqua sender price] := by
          rw [hw', World.emit, hlogged]
        have hreported : newEvents step World.events (.call env (.harvest sender data)) w =
            [.harvest strategyName aqua sender price] := newEvents_of_ok h hlog
        simp only [delivered, hreported, totalHarvested_singleton, harvested]
        have hpaid := claim_delivers (t := t) hu.1 hclaim
        rw [hw']
        exact hpaid
    | asset | balance vault =>
        obtain ⟨_, rfl⟩ := readOnly_eq_ok.mp h
        simp [delivered]
  · obtain ⟨_, tokens, ht, rfl⟩ := guarded_eq_ok.mp h
    exact transferred_of_transfer ht
  · obtain rfl := Except.ok.inj h
    simp [delivered]

theorem own_nonneg (ha : Own a) : 0 ≤ delivered config t u a w := by
  rcases a with ⟨env, c⟩ | _ | _
  · cases c with
    | withdraw | harvest | sweep => exact received_nonneg
    | construct | updateSlippage | asset | deposit | balance => exact le_rfl
  · exact ha.elim
  · exact ha.elim

end Steps

end Aquarius

/-- In every run of the three strategies, whatever the other contracts answer, an
account that is neither the strategy nor the pool changes in every token by exactly
what the log reports as paid to it, its own and other transfers and what happens
elsewhere; and over calls alone, whoever makes them, it never falls. -/
theorem wallets_follow_log :
    (∀ config self, FollowsLog NekoContract.step NekoContract.World.tokens
      (fun w => w.storage.config = some config ∧ w.self = self)
      (fun u => u ≠ self ∧ u ≠ config.lendingPool) Neko.Own (Neko.delivered config)) ∧
    (∀ config self, FollowsLog SoroswapContract.step SoroswapPool.World.tokens
      (fun w => w.storage.config = some config ∧ w.self = self)
      (fun u => u ≠ self ∧ u ≠ config.pair) Soroswap.Own (Soroswap.delivered config)) ∧
    (∀ config self, FollowsLog AquariusContract.step AquariusPool.World.tokens
      (Aquarius.Configured config self) (fun u => u ≠ self ∧ u ≠ config.pool) Aquarius.Own
      (Aquarius.delivered config)) := by
  refine ⟨fun config self => ?_, fun config self => ?_, fun config self => ?_⟩
  · refine followsLog ?_ (fun a w w' t u hw hu h => Neko.step_delivers hw hu h)
      fun a w t u ha => Neko.own_nonneg ha
    rintro a w w' ⟨hconfig, hself⟩ h
    obtain ⟨hconfig', hself'⟩ := NekoContract.step_config hconfig h
    exact ⟨hconfig', hself'.trans hself⟩
  · refine followsLog ?_ (fun a w w' t u hw hu h => Soroswap.step_delivers hw hu h)
      fun a w t u ha => Soroswap.own_nonneg ha
    rintro a w w' ⟨hconfig, hself⟩ h
    obtain ⟨hconfig', hself'⟩ := StrategyPositions.Soroswap.step_config hconfig h
    exact ⟨hconfig', hself'.trans hself⟩
  · exact followsLog (fun a w w' hw h => Aquarius.step_kept hw h)
      (fun a w w' t u hw hu h => Aquarius.step_delivers hw hu h)
      fun a w t u ha => Aquarius.own_nonneg ha

/-- A vault sends 2000, offers them and has 500 paid to account 3, which also claims
the rewards of Aquarius. -/
def sampleNeko : List NekoContract.Action :=
  [.transfer StrategyPositions.Neko.sampleAsset (.account 1) (.contract 0) 2000,
    .call (StrategyPositions.Neko.sampleEnv (.account 1)) (.deposit 2000 (.account 1)),
    .call (StrategyPositions.Neko.sampleEnv (.account 1))
      (.withdraw 500 (.account 1) (.account 3))]

def sampleSoroswap : List SoroswapContract.Action :=
  [.transfer StrategyPositions.Soroswap.sampleAsset (.account 1) (.contract 0) 2000,
    .call (StrategyPositions.Soroswap.sampleEnv (.account 1)) (.deposit 2000 (.account 1)),
    .call (StrategyPositions.Soroswap.sampleEnv (.account 1))
      (.withdraw 500 (.account 1) (.account 3))]

def sampleAquarius : List AquariusContract.Action :=
  [.transfer StrategyPositions.Aquarius.sampleAsset (.account 1) (.contract 0) 2000,
    .call (StrategyPositions.Aquarius.sampleEnv (.account 1)) (.deposit 2000 (.account 1)),
    .call (StrategyPositions.Aquarius.sampleEnv (.account 1)) (.harvest (.account 3) none),
    .call (StrategyPositions.Aquarius.sampleEnv (.account 1))
      (.withdraw 500 (.account 1) (.account 3))]

/-- What account 3 has then, of the 1000000 it had. -/
theorem wallets_follow_log_sample :
    (NekoContract.run StrategyPositions.Neko.sampleWorld sampleNeko).tokens
      StrategyPositions.Neko.sampleAsset (.account 3) = 1000500 ∧
    (SoroswapContract.run StrategyPositions.Soroswap.sampleWorld sampleSoroswap).tokens
      StrategyPositions.Soroswap.sampleAsset (.account 3) = 1000491 ∧
    ∀ t, t = StrategyPositions.Aquarius.sampleAsset ∨ t = .contract 5 →
      (AquariusContract.run StrategyPositions.Aquarius.sampleWorld sampleAquarius).tokens t
        (.account 3) = if t = .contract 5 then 1000500 else 1000491 := by
  obtain ⟨hneko, hsoroswap, haquarius⟩ := wallets_follow_log
  refine ⟨?_, ?_, ?_⟩
  · have h := (hneko ⟨StrategyPositions.Neko.sampleAsset, .contract 2, "CETES"⟩ (.contract 0)
      StrategyPositions.Neko.sampleWorld sampleNeko StrategyPositions.Neko.sampleAsset
      (.account 3) ⟨rfl, rfl⟩ (by decide)).1
    exact h.trans (by decide +kernel)
  · have h := (hsoroswap StrategyPositions.Soroswap.sampleConfig (.contract 0)
      StrategyPositions.Soroswap.sampleWorld sampleSoroswap StrategyPositions.Soroswap.sampleAsset
      (.account 3) ⟨rfl, rfl⟩ (by decide)).1
    exact h.trans (by decide +kernel)
  · intro t ht
    have h := (haquarius StrategyPositions.Aquarius.sampleConfig (.contract 0)
      StrategyPositions.Aquarius.sampleWorld sampleAquarius t (.account 3) ⟨⟨100, rfl⟩, rfl⟩
      (by decide)).1
    rcases ht with rfl | rfl
    · exact h.trans (by decide +kernel)
    · exact h.trans (by decide +kernel)

end NekoStrategies.WalletFlows
