import NekoStrategies.CheckedInteger

/-!
# The host platform of the strategies

Addresses, constructor values, authorisation, the SEP-41 token ledger and the
events of `defindex_strategy_core`, as far as the four strategies use them. A
call returns a value or a fault; both an `Err` and a panic undo everything the
call did, so they differ only in what the caller is told. The lifetimes of stored
entries (`extend_ttl`) never change a stored value; `StorageLifetimes` models them
apart.
-/
namespace NekoStrategies.SorobanHost
open CheckedInteger

/-- Accounts sign transactions; contracts only authorise by invoking. -/
inductive Address where
  | account (key : ℕ)
  | contract (hash : ℕ)
deriving DecidableEq, Repr

/-- The variants of `StrategyError` that the strategies raise. -/
inductive StrategyError where
  | notInitialized
  | onlyPositiveAmountAllowed
  | invalidArgument
  | insufficientBalance
  | underflowOverflow
  | arithmeticError
  | divisionByZero
  | invalidSharesMinted
  | bTokensAmountBelowMin
  | internalSwapError
  | soroswapPairError
  | notAuthorized
  | protocolAddressNotFound
deriving DecidableEq, Repr

/-- How a call fails. -/
inductive Fault where
  | err (e : StrategyError)
  | panic (e : StrategyError)
  | unauthorised
  | trap
  | callee
deriving DecidableEq, Repr

abbrev Outcome := Except Fault

/-- Go on only under `p`. -/
def ensure (p : Prop) [Decidable p] (f : Fault) : Outcome Unit :=
  if p then .ok () else .error f

def orFault {β : Type} (f : Fault) : Option β → Outcome β
  | some b => .ok b
  | none => .error f

/-- `ok_or`. -/
def okOr {β : Type} (e : StrategyError) (o : Option β) : Outcome β := orFault (.err e) o

/-- A call of another contract whose failure becomes `f`. -/
def tryInvoke {β : Type} (f : Fault) : Outcome β → Outcome β
  | .ok b => .ok b
  | .error _ => .error f

/-- Plain `x + y`, compiled with overflow checks. -/
def plainAdd (w : Width) (x y : ℤ) : Outcome ℤ := orFault .trap (w.checkedAdd x y)

/-- Plain `x - y`. -/
def plainSub (w : Width) (x y : ℤ) : Outcome ℤ := orFault .trap (w.checkedSub x y)

section Outcomes
variable {β γ : Type} {f : Fault}

@[simp] theorem bind_eq_ok {x : Outcome β} {k : β → Outcome γ} {c : γ} :
    (x >>= k) = .ok c ↔ ∃ b, x = .ok b ∧ k b = .ok c := by
  cases x with
  | error e => simp [bind, Except.bind]
  | ok b => simp [bind, Except.bind]

@[simp] theorem ok_bind {b : β} {k : β → Outcome γ} : (Except.ok b >>= k : Outcome γ) = k b := rfl

@[simp] theorem pure_eq_ok {b c : β} : (pure b : Outcome β) = .ok c ↔ b = c := by
  simp [pure, Except.pure]

@[simp] theorem ensure_eq_ok {p : Prop} [Decidable p] {u : Unit} :
    ensure p f = .ok u ↔ p := by
  unfold ensure
  split_ifs with h <;> simp [h]

@[simp] theorem orFault_eq_ok {o : Option β} {b : β} :
    orFault f o = .ok b ↔ o = some b := by
  cases o <;> simp [orFault]

@[simp] theorem okOr_eq_ok {e : StrategyError} {o : Option β} {b : β} :
    okOr e o = .ok b ↔ o = some b := orFault_eq_ok

@[simp] theorem plainAdd_eq_ok {w : Width} {x y z : ℤ} :
    plainAdd w x y = .ok z ↔ w.Holds (x + y) ∧ x + y = z := by
  simp [plainAdd]

@[simp] theorem plainSub_eq_ok {w : Width} {x y z : ℤ} :
    plainSub w x y = .ok z ↔ w.Holds (x - y) ∧ x - y = z := by
  simp [plainSub]

@[simp] theorem bind_eq_error {x : Outcome β} {k : β → Outcome γ} {g : Fault} :
    (x >>= k) = .error g ↔ x = .error g ∨ ∃ b, x = .ok b ∧ k b = .error g := by
  cases x with
  | error e => simp [bind, Except.bind]
  | ok b => simp [bind, Except.bind]

@[simp] theorem pure_ne_error {b : β} {g : Fault} : (pure b : Outcome β) ≠ .error g := by
  simp [pure, Except.pure]

@[simp] theorem ensure_eq_error {p : Prop} [Decidable p] {g : Fault} :
    ensure p f = .error g ↔ ¬p ∧ f = g := by
  unfold ensure
  split_ifs with h <;> simp [h]

@[simp] theorem orFault_eq_error {o : Option β} {g : Fault} :
    orFault f o = .error g ↔ o = none ∧ f = g := by
  cases o <;> simp [orFault]

theorem plainSub_eq_error {w : Width} {x y : ℤ} {g : Fault} :
    plainSub w x y = .error g ↔ ¬w.Holds (x - y) ∧ .trap = g := by
  simp [plainSub, Width.checkedSub, Width.checked]

theorem plainAdd_of_holds {w : Width} {x y : ℤ} (h : w.Holds (x + y)) :
    plainAdd w x y = .ok (x + y) := plainAdd_eq_ok.mpr ⟨h, rfl⟩

theorem plainSub_of_holds {w : Width} {x y : ℤ} (h : w.Holds (x - y)) :
    plainSub w x y = .ok (x - y) := plainSub_eq_ok.mpr ⟨h, rfl⟩

@[simp] theorem tryInvoke_eq_ok {x : Outcome β} {b : β} : tryInvoke f x = .ok b ↔ x = .ok b := by
  cases x <;> simp [tryInvoke]

/-- A call whose result is dropped. -/
theorem forget_eq_ok {x : Outcome (β × γ)} {c : γ} :
    (do let (_, c) ← x; pure c) = .ok c ↔ ∃ b, x = .ok (b, c) := by
  simp only [bind_eq_ok, pure_eq_ok, Prod.exists]
  constructor
  · rintro ⟨b, _, hx, rfl⟩
    exact ⟨b, hx⟩
  · rintro ⟨b, hx⟩
    exact ⟨b, c, hx, rfl⟩

/-- A call that changes nothing. -/
theorem readOnly_eq_ok {x : Outcome β} {c d : γ} :
    (do let _ ← x; pure c) = .ok d ↔ (∃ b, x = .ok b) ∧ c = d := by
  simp only [bind_eq_ok, pure_eq_ok, exists_and_right]

/-- A guarded call and what is made of its result. -/
theorem guarded_eq_ok {p : Prop} [Decidable p] {x : Outcome β} {make : β → γ} {c : γ} :
    (do ensure p f; let b ← x; pure (make b)) = .ok c ↔ p ∧ ∃ b, x = .ok b ∧ make b = c := by
  simp only [bind_eq_ok, ensure_eq_ok, pure_eq_ok, exists_const]

end Outcomes

/-- `check_positive_amount`, inlined by three of the strategies. -/
def checkPositiveAmount (amount : ℤ) : Outcome Unit :=
  ensure (0 < amount) (.err .onlyPositiveAmountAllowed)

inductive Val where
  | address (a : Address)
  | i128 (x : ℤ)
  | u32 (x : ℤ)
  | symbol (s : String)
deriving DecidableEq, Repr

def Val.toAddress : Val → Option Address
  | .address a => some a
  | _ => none

def Val.toI128 : Val → Option ℤ
  | .i128 x => some x
  | _ => none

def Val.toU32 : Val → Option ℤ
  | .u32 x => some x
  | _ => none

def Val.toSymbol : Val → Option String
  | .symbol s => some s
  | _ => none

/-- `init_args.get(i)` converted to its type: a missing and a malformed
argument both panic. -/
def initArg {β : Type} (args : List Val) (i : ℕ) (conv : Val → Option β) : Outcome β :=
  orFault (.panic .invalidArgument) (args[i]? >>= conv)

/-- Who stands behind an invocation: the accounts that signed it and the
contract that invoked it, if any. -/
structure Caller where
  signers : List Address
  invoker : Option Address
deriving DecidableEq, Repr

def Caller.Authorises (c : Caller) (a : Address) : Prop :=
  a ∈ c.signers ∨ c.invoker = some a

instance (c : Caller) (a : Address) : Decidable (c.Authorises a) :=
  inferInstanceAs (Decidable (_ ∨ _))

/-- `addr.require_auth()`. -/
def requireAuth (c : Caller) (a : Address) : Outcome Unit :=
  ensure (c.Authorises a) .unauthorised

/-- A sub-call on behalf of the strategy that it pre-authorises with
`authorize_as_current_contract`; its arguments must match exactly. -/
inductive AuthEntry where
  | transfer (token sender receiver : Address) (amount : ℤ)
  | burn (token sender : Address) (amount : ℤ)
deriving DecidableEq, Repr

/-- Balance of each holder in each token contract. -/
abbrev Ledger := Address → Address → ℤ

/-- Move a balance by `x`. -/
def Ledger.add (l : Ledger) (token holder : Address) (x : ℤ) : Ledger :=
  fun t h => if t = token ∧ h = holder then l t h + x else l t h

/-- `token.transfer(sender, receiver, amount)` once it is authorised. -/
def Ledger.transfer (l : Ledger) (token sender receiver : Address) (amount : ℤ) :
    Outcome Ledger := do
  ensure (0 ≤ amount) .callee
  ensure (amount ≤ l token sender) .callee
  pure ((l.add token sender (-amount)).add token receiver amount)

/-- A transfer out of the strategy made by another contract. -/
def Ledger.pull (l : Ledger) (auths : List AuthEntry) (token sender receiver : Address)
    (amount : ℤ) : Outcome Ledger := do
  ensure (.transfer token sender receiver amount ∈ auths) .unauthorised
  l.transfer token sender receiver amount

/-- All that changed between two ledgers is that `x` of a token went from one
holder to another, over whatever holders in between. -/
def Ledger.Moved (l l' : Ledger) (token sender receiver : Address) (x : ℤ) : Prop :=
  ∀ t h, l' t h = l t h + (if t = token ∧ h = receiver then x else 0) -
    if t = token ∧ h = sender then x else 0

/-- The same of one token, whatever happened to the others. -/
def Ledger.Carried (l l' : Ledger) (token sender receiver : Address) (x : ℤ) : Prop :=
  ∀ h, l' token h = l token h + (if h = receiver then x else 0) - if h = sender then x else 0

section Ledgers
variable {l l' l'' : Ledger} {t t' h h' a b c : Address} {x : ℤ} {auths : List AuthEntry}

theorem Ledger.add_apply : (l.add t h x) t' h' =
    l t' h' + if t' = t ∧ h' = h then x else 0 := by
  unfold Ledger.add
  split_ifs <;> simp

theorem Ledger.transfer_eq_ok : l.transfer t a b x = .ok l' ↔
    0 ≤ x ∧ x ≤ l t a ∧ (l.add t a (-x)).add t b x = l' := by
  simp only [Ledger.transfer, bind_eq_ok, ensure_eq_ok, pure_eq_ok, exists_const]

theorem Ledger.pull_eq_ok : l.pull auths t a b x = .ok l' ↔
    .transfer t a b x ∈ auths ∧ l.transfer t a b x = .ok l' := by
  simp [Ledger.pull]

/-- A transfer fails for its amount, a pull for its authorisation as well. -/
theorem Ledger.transfer_ne_unauthorised : l.transfer t a b x ≠ .error .unauthorised := by
  simp only [Ledger.transfer, ne_eq, bind_eq_error, ensure_eq_error, pure_ne_error]
  simp

theorem Ledger.pull_eq_unauthorised : l.pull auths t a b x = .error .unauthorised ↔
    .transfer t a b x ∉ auths := by
  simp [Ledger.pull, Ledger.transfer_ne_unauthorised]

/-- A transfer moves `x` from `a` to `b` in one token and nothing else. -/
theorem Ledger.transfer_apply (ht : l.transfer t a b x = .ok l') : l.Moved l' t a b x := by
  intro t' h'
  obtain ⟨_, _, rfl⟩ := Ledger.transfer_eq_ok.mp ht
  rw [Ledger.add_apply, Ledger.add_apply]
  split_ifs <;> ring

/-- What a holder passes on did not move to it. -/
theorem Ledger.Moved.trans (h₁ : l.Moved l' t a b x) (h₂ : l'.Moved l'' t b c x) :
    l.Moved l'' t a c x := by
  intro t' h'
  rw [h₂, h₁]
  ring

theorem Ledger.carried_of_transfer (ht : l.transfer t a b x = .ok l') :
    l.Carried l' t a b x := by
  intro h
  rw [Ledger.transfer_apply ht]
  simp

theorem Ledger.Carried.trans (h₁ : l.Carried l' t a b x) (h₂ : l'.Carried l'' t b c x) :
    l.Carried l'' t a c x := by
  intro h
  rw [h₂, h₁]
  ring

/-- The sender's side, which is also the receiver's if they are the same. -/
theorem Ledger.transfer_sender (ht : l.transfer t a b x = .ok l') :
    l' t a = l t a - x + if b = a then x else 0 := by
  rw [Ledger.transfer_apply ht]
  by_cases hb : b = a
  · simp [hb]
  · simp [hb, Ne.symm hb]

theorem Ledger.transfer_receiver (ht : l.transfer t a b x = .ok l') (hb : b ≠ a) :
    l' t b = l t b + x := by
  rw [Ledger.transfer_apply ht]
  simp [hb]

/-- Nobody but the sender loses anything. -/
theorem Ledger.le_of_transfer (ht : l.transfer t a b x = .ok l') (hne : h' ≠ a) :
    l t' h' ≤ l' t' h' := by
  have hx := (Ledger.transfer_eq_ok.mp ht).1
  rw [Ledger.transfer_apply ht]
  simp only [hne, and_false, if_false]
  split_ifs <;> omega

theorem Ledger.transfer_other (ht : l.transfer t a b x = .ok l') (hne : t' ≠ t) :
    l' t' h' = l t' h' := by
  rw [Ledger.transfer_apply ht]
  simp [hne]

end Ledgers

/-- `emit_deposit`, `emit_withdraw` and `emit_harvest`. -/
inductive Event where
  | deposit (strategy : String) (amount : ℤ) (vault : Address)
  | withdraw (strategy : String) (amount : ℤ) (vault : Address)
  | harvest (strategy : String) (amount : ℤ) (vault : Address) (pricePerShare : ℤ)
deriving DecidableEq, Repr

end NekoStrategies.SorobanHost
