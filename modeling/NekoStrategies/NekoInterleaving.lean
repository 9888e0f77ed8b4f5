import NekoStrategies.KeyedAccounts
import NekoStrategies.NekoEconomics

/-!
# The Neko strategy as separate accounts

The rate is the lending pool's, so one vault's calls never price another's: a
call reads and changes the bTokens of its own vault, and what it does to token
balances, to the position and to the log only adds up. Hence a vault is left
with what its own committed calls make of its bTokens, and runs that differ only
in how they interleave the parties end alike.
-/
namespace NekoStrategies.NekoInterleaving
open SorobanHost KeyedAccounts NekoContract StrategyPositions.Neko NekoEconomics
open TransactionalRun (committed)

/-- Whose action it is, if it is anybody's. -/
def party : Action → Option Address
  | .call _ (.deposit _ vault) => some vault
  | .call _ (.withdraw _ vault _) => some vault
  | .call _ (.balance vault) => some vault
  | .call _ (.harvest sender _) => some sender
  | .transfer _ sender _ _ => some sender
  | _ => none

/-- Change of all balances by a movement of one token. -/
def movement (token sender receiver : Address) (x : ℤ) : Address → Address → ℤ := fun t h =>
  (if t = token ∧ h = receiver then x else 0) - if t = token ∧ h = sender then x else 0

/-- bTokens that a withdrawal burns of the `held` ones. -/
def burnt (env : Env) (amount held : ℤ) : ℤ :=
  min ((amount * scalar12 + (env.bRate - 1)).tdiv env.bRate) held

/-- Balances, position and events, in no order. -/
abbrev Trail := (Address → Address → ℤ) × ℤ × Multiset Event

/-- What a committed action makes of its party's bTokens. -/
def held : Action → ℤ → ℤ
  | .call env (.deposit amount _), b => b + (env.mint amount).getD 0
  | .call env (.withdraw amount _ _), b => b - burnt env amount b
  | _, b => b

/-- What a committed action leaves behind elsewhere. -/
def traces (config : Config) (strategy : Address) : Action → ℤ → Trail
  | .call env (.deposit amount vault), _ =>
      (movement config.asset strategy config.lendingPool amount, (env.mint amount).getD 0,
        {.deposit strategyName amount vault})
  | .call env (.withdraw amount vault dest), b =>
      (movement config.asset config.lendingPool dest ((env.pay (burnt env amount b)).getD 0),
        -burnt env amount b,
        {.withdraw strategyName ((env.pay (burnt env amount b)).getD 0) vault})
  | .call env (.harvest sender _), _ => (0, 0, {.harvest strategyName 0 sender env.bRate})
  | .transfer token sender receiver amount, _ => (movement token sender receiver amount, 0, 0)
  | _, _ => 0

def accounts (config : Config) (strategy : Address) : Accounts Action (Option Address) ℤ Trail :=
  ⟨party, held, traces config strategy⟩

/-- bTokens of a party. -/
def book (w : World) : Option Address → ℤ := fun k => k.elim 0 (getBTokens w.storage)

def trail (w : World) : Trail := (w.tokens, w.position, (w.events : Multiset Event))

structure SetUp (config : Config) (strategy : Address) (w : World) : Prop where
  configured : w.storage.config = some config
  self_eq : w.self = strategy

/-- The action is a call or a transfer. -/
def Scheduled : Action → Prop
  | .others _ => False
  | _ => True

section Steps
variable {config : Config} {strategy : Address} {w w' : World} {env : Env} {a : Action}
  {amount k : ℤ} {vault dest : Address}

theorem moved_eq {l l' : Ledger} {token sender receiver : Address} {x : ℤ}
    (h : l.Moved l' token sender receiver x) : l' = l + movement token sender receiver x := by
  funext t u
  rw [h t u]
  change _ = l t u + movement token sender receiver x t u
  unfold movement
  ring

/-- An action that leaves its party's bTokens alone leaves all of them alone. -/
theorem act_eq_self (h : ∀ b, held a b = b) (books : Option Address → ℤ) :
    (accounts config strategy).act a books = books := by
  change Function.update books (party a) (held a (books (party a))) = books
  rw [h, Function.update_eq_self]

/-- A party's new bTokens, written to the storage. -/
theorem book_set {s : Storage} {x : ℤ} {u : World} (hs : w.storage = s)
    (hu : u.storage = setBTokens s vault x) :
    book u = Function.update (book w) (some vault) x := by
  funext k
  cases k with
  | none => rw [Function.update_of_ne (by simp)]; rfl
  | some v =>
      by_cases hv : v = vault
      · subst hv
        rw [Function.update_self]
        simp [book, hu, getBTokens, setBTokens]
      · rw [Function.update_of_ne (by simp [hv])]
        simp [book, hu, hs, getBTokens, setBTokens, Attribution.amount_set_of_ne hv]

theorem deposit_account (hw : SetUp config strategy w)
    (h : deposit env w amount vault = .ok (k, w')) :
    SetUp config strategy w' ∧
      book w' = (accounts config strategy).act (.call env (.deposit amount vault)) (book w) ∧
      trail w' = trail w + traces config strategy (.call env (.deposit amount vault))
        (book w (some vault)) := by
  obtain ⟨_, c, minted, tokens, hc, hminted, ht, _, hw'⟩ := deposit_ok h
  obtain rfl := Option.some.inj (hc.symm.trans hw.configured)
  have hmoved := moved_eq (Ledger.transfer_apply ht)
  rw [hw.self_eq] at hmoved
  refine ⟨⟨?_, ?_⟩, ?_, ?_⟩
  · rw [hw']
    exact hw.configured
  · rw [hw']
    exact hw.self_eq
  · rw [book_set rfl (congrArg World.storage hw')]
    change _ = Function.update (book w) (some vault)
      (book w (some vault) + (env.mint amount).getD 0)
    rw [hminted]
    rfl
  · rw [hw']
    refine Prod.ext hmoved (Prod.ext ?_ ?_)
    · change w.position + minted = w.position + (env.mint amount).getD 0
      rw [hminted]
      rfl
    · exact (Multiset.coe_add _ _).symm

theorem withdraw_account (hw : SetUp config strategy w)
    (h : withdraw env w amount vault dest = .ok (k, w')) :
    SetUp config strategy w' ∧
      book w' = (accounts config strategy).act (.call env (.withdraw amount vault dest)) (book w) ∧
      trail w' = trail w + traces config strategy (.call env (.withdraw amount vault dest))
        (book w (some vault)) := by
  obtain ⟨_, _, _, c, b, paid, tokens, tokens', hc, rfl, _, hpaid, ht, ht', _, hw'⟩ :=
    withdraw_ok h
  obtain rfl := Option.some.inj (hc.symm.trans hw.configured)
  have hmoved := moved_eq ((Ledger.transfer_apply ht).trans (Ledger.transfer_apply ht'))
  have hpay : (env.pay (burnt env amount (book w (some vault)))).getD 0 = paid := by
    change (env.pay (min _ (getBTokens w.storage vault))).getD 0 = paid
    rw [hpaid]
    rfl
  refine ⟨⟨?_, ?_⟩, ?_, ?_⟩
  · rw [hw']
    exact hw.configured
  · rw [hw']
    exact hw.self_eq
  · rw [book_set rfl (congrArg World.storage hw')]
    rfl
  · rw [hw']
    refine Prod.ext ?_ (Prod.ext ?_ ?_)
    · change tokens' = w.tokens + movement c.asset c.lendingPool dest _
      rw [hpay]
      exact hmoved
    · exact sub_eq_add_neg _ _
    · change (↑(w.events ++ [Event.withdraw strategyName paid vault]) : Multiset Event) =
        ↑w.events + {Event.withdraw strategyName _ vault}
      rw [hpay]
      exact (Multiset.coe_add _ _).symm

/-- A committed action moves its party's account and adds what it leaves elsewhere. -/
theorem step_account (ha : Scheduled a) (hw : SetUp config strategy w) (h : step a w = .ok w') :
    SetUp config strategy w' ∧ book w' = (accounts config strategy).act a (book w) ∧
      trail w' = trail w + traces config strategy a (book w (party a)) := by
  rcases a with ⟨env, c⟩ | ⟨token, sender, receiver, amount⟩ | tokens
  · cases c with
    | construct asset initArgs =>
        have hnone := (construct_ok h).1
        rw [hw.configured] at hnone
        cases hnone
    | deposit amount vault =>
        obtain ⟨k, hu⟩ := forget_eq_ok.mp h
        exact deposit_account hw hu
    | withdraw amount vault dest =>
        obtain ⟨k, hu⟩ := forget_eq_ok.mp h
        exact withdraw_account hw hu
    | harvest sender data =>
        simp only [step, invoke, harvest, bind_eq_ok, pure_eq_ok] at h
        obtain ⟨_, _, rfl⟩ := h
        refine ⟨⟨hw.configured, hw.self_eq⟩, (act_eq_self (fun _ => rfl) _).symm, ?_⟩
        refine Prod.ext (add_zero _).symm (Prod.ext (add_zero _).symm ?_)
        exact (Multiset.coe_add _ _).symm
    | asset | balance vault =>
        obtain ⟨_, rfl⟩ := readOnly_eq_ok.mp h
        exact ⟨hw, (act_eq_self (fun _ => rfl) _).symm, (add_zero _).symm⟩
  · obtain ⟨_, tokens, ht, rfl⟩ := guarded_eq_ok.mp h
    refine ⟨⟨hw.configured, hw.self_eq⟩, (act_eq_self (fun _ => rfl) _).symm, ?_⟩
    exact Prod.ext (moved_eq (Ledger.transfer_apply ht))
      (Prod.ext (add_zero _).symm (add_zero _).symm)
  · exact ha.elim

/-- Whatever happens to balances elsewhere, the vaults' accounts are kept. -/
theorem keeps :
    (accounts config strategy).Keeps step (SetUp config strategy) (fun _ => True) book := by
  intro a w w' _ hw h
  by_cases ha : Scheduled a
  · obtain ⟨hw', hbook, _⟩ := step_account ha hw h
    exact ⟨hw', hbook⟩
  · rcases a with _ | _ | tokens
    · exact absurd trivial ha
    · exact absurd trivial ha
    · obtain rfl := Except.ok.inj h
      exact ⟨⟨hw.configured, hw.self_eq⟩, (act_eq_self (fun _ => rfl) _).symm⟩

theorem adds :
    (accounts config strategy).Adds step (SetUp config strategy) Scheduled book trail := by
  intro a w w' ha hw h
  exact (step_account ha hw h).2.2

end Steps

section Runs
variable {config : Config} {strategy : Address} {w u : World} {env : Env} {vault : Address}

theorem run_setUp (hw : SetUp config strategy w) (as : List Action) :
    SetUp config strategy (run w as) := by
  refine TransactionalRun.run_invariant_of_step ?_ hw as
  intro a s t hs h
  exact (keeps a s t trivial hs h).1

theorem balance_congr (hw : SetUp config strategy w) (hu : SetUp config strategy u)
    (h : getBTokens w.storage vault = getBTokens u.storage vault) :
    balance env w vault = balance env u vault := by
  have hvalue : underlyingBalance w.storage vault env.bRate =
      underlyingBalance u.storage vault env.bRate := by
    unfold underlyingBalance
    rw [h]
  simp only [balance, loadConfig, hw.configured, hu.configured, orFault, hvalue]

end Runs

/-- Two runs, from any states and among any other calls, transfers and changes of
balances, leave a vault the same bTokens and balance if it had the same to start
with and the same of its own actions commit. -/
theorem vault_isolated (w u : World) (config : Config) (as bs : List Action) (vault : Address)
    (hw : w.storage.config = some config) (hu : u.storage.config = some config)
    (hself : u.self = w.self) (hheld : getBTokens w.storage vault = getBTokens u.storage vault)
    (hsame : (committed step w as).filter (party · = some vault) =
      (committed step u bs).filter (party · = some vault)) :
    getBTokens (run w as).storage vault = getBTokens (run u bs).storage vault ∧
    ∀ env, balance env (run w as) vault = balance env (run u bs) vault := by
  have hws : SetUp config w.self w := ⟨hw, rfl⟩
  have hus : SetUp config w.self u := ⟨hu, hself⟩
  have hbook : getBTokens (run w as).storage vault = getBTokens (run u bs).storage vault :=
    keeps.isolated (k := some vault) hws hus (fun _ _ => trivial) (fun _ _ => trivial) hheld
      hsame
  exact ⟨hbook, fun env => balance_congr (run_setUp hws as) (run_setUp hus bs) hbook⟩

/-- Two runs of calls and transfers that commit the same actions of each party in
the same order end with the same bTokens and balances of every vault, the same
position in the lending pool, the same token balances and the same events up to
their order. -/
theorem interleavings_agree (w : World) (config : Config) (as bs : List Action)
    (hw : w.storage.config = some config) (has : ∀ a ∈ as, Scheduled a)
    (hbs : ∀ b ∈ bs, Scheduled b)
    (hsame : ∀ k, (committed step w as).filter (party · = k) =
      (committed step w bs).filter (party · = k)) :
    (∀ vault, getBTokens (run w as).storage vault = getBTokens (run w bs).storage vault ∧
      ∀ env, balance env (run w as) vault = balance env (run w bs) vault) ∧
    (run w as).position = (run w bs).position ∧ (run w as).tokens = (run w bs).tokens ∧
    (run w as).events.Perm (run w bs).events := by
  have hws : SetUp config w.self w := ⟨hw, rfl⟩
  have hkeeps : (accounts config w.self).Keeps step (SetUp config w.self) Scheduled book := by
    intro a s t _ hs h
    exact keeps a s t trivial hs h
  obtain ⟨hbook, htrail⟩ := adds.interleaved hkeeps hws has hbs hsame
  obtain ⟨htokens, hrest⟩ := Prod.mk.inj htrail
  obtain ⟨hposition, hevents⟩ := Prod.mk.inj hrest
  refine ⟨fun vault => ?_, hposition, htokens, Multiset.coe_eq_coe.mp hevents⟩
  have hvault : getBTokens (run w as).storage vault = getBTokens (run w bs).storage vault :=
    congrFun hbook (some vault)
  exact ⟨hvault, fun env => balance_congr (run_setUp hws as) (run_setUp hws bs) hvault⟩

/-- Two vaults that enter and one that leaves, its withdrawal between the other's
transfer and deposit or after them. -/
def sampleEarly : List Action :=
  [.transfer sampleAsset (.account 1) (.contract 0) 2000,
    .call (sampleEnv (.account 1)) (.deposit 2000 (.account 1)),
    .transfer sampleAsset (.account 2) (.contract 0) 3000,
    .call (sampleEnv (.account 1)) (.withdraw 500 (.account 1) (.account 3)),
    .call (sampleEnv (.account 2)) (.deposit 3000 (.account 2))]

def sampleLate : List Action :=
  [.transfer sampleAsset (.account 1) (.contract 0) 2000,
    .call (sampleEnv (.account 1)) (.deposit 2000 (.account 1)),
    .transfer sampleAsset (.account 2) (.contract 0) 3000,
    .call (sampleEnv (.account 2)) (.deposit 3000 (.account 2)),
    .call (sampleEnv (.account 1)) (.withdraw 500 (.account 1) (.account 3))]

theorem sampleEarly_committed : committed step sampleWorld sampleEarly = sampleEarly := rfl

theorem sampleLate_committed : committed step sampleWorld sampleLate = sampleLate := rfl

theorem sample_same (k : Option Address) : (committed step sampleWorld sampleEarly).filter
    (party · = k) = (committed step sampleWorld sampleLate).filter (party · = k) := by
  rw [sampleEarly_committed, sampleLate_committed]
  by_cases h1 : some (Address.account 1) = k
  · subst h1
    rfl
  · by_cases h2 : some (Address.account 2) = k
    · subst h2
      rfl
    · simp [sampleEarly, sampleLate, party, h1, h2]

/-- The first vault by itself. -/
def sampleAlone : List Action :=
  [.transfer sampleAsset (.account 1) (.contract 0) 2000,
    .call (sampleEnv (.account 1)) (.deposit 2000 (.account 1)),
    .call (sampleEnv (.account 1)) (.withdraw 500 (.account 1) (.account 3))]

theorem sampleAlone_committed : committed step sampleWorld sampleAlone = sampleAlone := rfl

theorem vault_isolated_sample :
    getBTokens (run sampleWorld sampleEarly).storage (.account 1) =
      getBTokens (run sampleWorld sampleAlone).storage (.account 1) := by
  refine (vault_isolated sampleWorld sampleWorld ⟨sampleAsset, .contract 2, "CETES"⟩ sampleEarly
    sampleAlone (.account 1) rfl rfl rfl rfl ?_).1
  rw [sampleEarly_committed, sampleAlone_committed]
  rfl

theorem interleavings_agree_sample :
    (run sampleWorld sampleEarly).tokens = (run sampleWorld sampleLate).tokens ∧
      (run sampleWorld sampleEarly).events.Perm (run sampleWorld sampleLate).events := by
  have hearly : ∀ a ∈ sampleEarly, Scheduled a := by
    simp [sampleEarly, Scheduled]
  have hlate : ∀ a ∈ sampleLate, Scheduled a := by
    simp [sampleLate, Scheduled]
  exact (interleavings_agree sampleWorld ⟨sampleAsset, .contract 2, "CETES"⟩ sampleEarly sampleLate
    rfl hearly hlate sample_same).2.2

end NekoStrategies.NekoInterleaving
