import Mathlib.Algebra.BigOperators.Ring.Finset
import NekoStrategies.TransactionalRun

/-!
# Machines made of separate accounts

Every action belongs to one account: it reads and changes that account only, and
adds an effect to a common total. So an account ends up where its own actions
alone lead, the total is the sum of what the accounts add, and only the order
within each account matters.
-/
namespace NekoStrategies.KeyedAccounts
open TransactionalRun

/-- Actions on accounts: `κ` names them, `ℓ` is the state of one and `M` the total. -/
structure Accounts (α κ ℓ M : Type*) where
  key : α → κ
  next : α → ℓ → ℓ
  effect : α → ℓ → M

namespace Accounts
variable {α κ ℓ M : Type*} (m : Accounts α κ ℓ M)

/-- Where the actions lead the account. -/
def replay : ℓ → List α → ℓ
  | x, [] => x
  | x, a :: as => replay (m.next a x) as

/-- What they add to the total on the way. -/
def added [AddCommMonoid M] : ℓ → List α → M
  | _, [] => 0
  | x, a :: as => m.effect a x + added (m.next a x) as

variable [DecidableEq κ]

/-- The actions of one account, in order. -/
def owned (k : κ) (as : List α) : List α := as.filter fun a => m.key a = k

theorem owned_cons (k : κ) (a : α) (as : List α) :
    m.owned k (a :: as) = if m.key a = k then a :: m.owned k as else m.owned k as := by
  simp [owned, List.filter_cons]

/-- An action moves its own account. -/
def act (a : α) (books : κ → ℓ) : κ → ℓ :=
  Function.update books (m.key a) (m.next a (books (m.key a)))

def replayAll : (κ → ℓ) → List α → κ → ℓ
  | books, [] => books
  | books, a :: as => replayAll (m.act a books) as

def addedAll [AddCommMonoid M] : (κ → ℓ) → List α → M
  | _, [] => 0
  | books, a :: as => m.effect a (books (m.key a)) + addedAll (m.act a books) as

section Isolation
variable {books : κ → ℓ} {k : κ} {as bs : List α}

theorem act_self {a : α} (h : m.key a = k) : m.act a books k = m.next a (books k) := by
  subst h
  simp [act]

theorem act_of_ne {a : α} (h : m.key a ≠ k) : m.act a books k = books k := by
  unfold act
  exact Function.update_of_ne (Ne.symm h) _ _

theorem replayAll_apply : m.replayAll books as k = m.replay (books k) (m.owned k as) := by
  induction as generalizing books with
  | nil => rfl
  | cons a as ih =>
      rw [replayAll, ih, owned_cons]
      by_cases h : m.key a = k
      · rw [if_pos h, replay, act_self m h]
      · rw [if_neg h, act_of_ne m h]

variable [AddCommMonoid M]

theorem addedAll_eq_sum (keys : Finset κ) (h : ∀ a ∈ as, m.key a ∈ keys) :
    m.addedAll books as = ∑ k ∈ keys, m.added (books k) (m.owned k as) := by
  induction as generalizing books with
  | nil => simp [addedAll, owned, added]
  | cons a as ih =>
      have hmem : m.key a ∈ keys := h a (by simp)
      have hrest : m.addedAll (m.act a books) as =
          ∑ k ∈ keys, m.added (m.act a books k) (m.owned k as) := ih fun b hb => h b (by simp [hb])
      have hsplit : ∀ k ∈ keys, m.added (books k) (m.owned k (a :: as)) =
          (if m.key a = k then m.effect a (books k) else 0) +
            m.added (m.act a books k) (m.owned k as) := by
        intro k _
        rw [owned_cons]
        by_cases hk : m.key a = k
        · rw [if_pos hk, if_pos hk, added, act_self m hk]
        · rw [if_neg hk, if_neg hk, act_of_ne m hk, zero_add]
      calc m.addedAll books (a :: as)
          = m.effect a (books (m.key a)) +
              ∑ k ∈ keys, m.added (m.act a books k) (m.owned k as) := by
            rw [addedAll, hrest]
        _ = (∑ k ∈ keys, if m.key a = k then m.effect a (books k) else 0) +
              ∑ k ∈ keys, m.added (m.act a books k) (m.owned k as) := by
            rw [Finset.sum_ite_eq, if_pos hmem]
        _ = ∑ k ∈ keys, m.added (books k) (m.owned k (a :: as)) := by
            rw [← Finset.sum_add_distrib, Finset.sum_congr rfl hsplit]

theorem addedAll_congr (h : ∀ k, m.owned k as = m.owned k bs) :
    m.addedAll books as = m.addedAll books bs := by
  have hkeys : ∀ cs : List α, ∀ a ∈ cs, m.key a ∈ (cs.map m.key).toFinset := by
    intro cs a ha
    simp only [List.mem_toFinset, List.mem_map]
    exact ⟨a, ha, rfl⟩
  rw [m.addedAll_eq_sum ((as.map m.key).toFinset ∪ (bs.map m.key).toFinset)
      fun a ha => Finset.mem_union_left _ (hkeys as a ha),
    m.addedAll_eq_sum ((as.map m.key).toFinset ∪ (bs.map m.key).toFinset)
      fun a ha => Finset.mem_union_right _ (hkeys bs a ha)]
  exact Finset.sum_congr rfl fun k _ => by rw [h k]

end Isolation

variable {σ ε : Type*}

/-- Under `C` and its own invariant a committed step moves the account of its action. -/
def Keeps (step : α → σ → Except ε σ) (I : σ → Prop) (C : α → Prop) (book : σ → κ → ℓ) : Prop :=
  ∀ a s t, C a → I s → step a s = .ok t → I t ∧ book t = m.act a (book s)

/-- It also adds the effect of its action to the total. -/
def Adds [AddCommMonoid M] (step : α → σ → Except ε σ) (I : σ → Prop) (C : α → Prop)
    (book : σ → κ → ℓ) (total : σ → M) : Prop :=
  ∀ a s t, C a → I s → step a s = .ok t → total t = total s + m.effect a (book s (m.key a))

section Runs
variable {m} {step : α → σ → Except ε σ} {I : σ → Prop} {C : α → Prop} {book : σ → κ → ℓ}
  {s u : σ} {as bs : List α}

theorem Keeps.replays (h : m.Keeps step I C book) (hs : I s) (hc : ∀ a ∈ as, C a) :
    book (run step s as) = m.replayAll (book s) (committed step s as) := by
  induction as generalizing s with
  | nil => rfl
  | cons a as ih =>
      have hrest : ∀ b ∈ as, C b := fun b hb => hc b (by simp [hb])
      cases hstep : step a s with
      | error e =>
          rw [committed_cons_error hstep, run_cons, hstep, settle_error]
          exact ih hs hrest
      | ok t =>
          obtain ⟨ht, hbook⟩ := h a s t (hc a (by simp)) hs hstep
          rw [committed_cons_ok hstep, run_cons, hstep, settle_ok, ih ht hrest, hbook, replayAll]

/-- Two runs that commit the same actions of an account leave it the same, from
whatever states and whatever happens to the other accounts. -/
theorem Keeps.isolated (h : m.Keeps step I C book) (hs : I s) (hu : I u)
    (has : ∀ a ∈ as, C a) (hbs : ∀ b ∈ bs, C b) {k : κ} (hk : book s k = book u k)
    (hsame : m.owned k (committed step s as) = m.owned k (committed step u bs)) :
    book (run step s as) k = book (run step u bs) k := by
  rw [h.replays hs has, h.replays hu hbs, m.replayAll_apply, m.replayAll_apply, hk, hsame]

variable [AddCommMonoid M] {total : σ → M}

theorem Adds.adds (h : m.Adds step I C book total) (hkeeps : m.Keeps step I C book) (hs : I s)
    (hc : ∀ a ∈ as, C a) :
    total (run step s as) = total s + m.addedAll (book s) (committed step s as) := by
  induction as generalizing s with
  | nil => exact (add_zero _).symm
  | cons a as ih =>
      have hrest : ∀ b ∈ as, C b := fun b hb => hc b (by simp [hb])
      cases hstep : step a s with
      | error e =>
          rw [committed_cons_error hstep, run_cons, hstep, settle_error]
          exact ih hs hrest
      | ok t =>
          have ha : C a := hc a (by simp)
          obtain ⟨ht, hbook⟩ := hkeeps a s t ha hs hstep
          rw [committed_cons_ok hstep, run_cons, hstep, settle_ok, ih ht hrest,
            h a s t ha hs hstep, hbook, addedAll, add_assoc]

/-- Runs that commit the same actions of each account in the same order end in
the same accounts and totals, however they interleave them. -/
theorem Adds.interleaved (h : m.Adds step I C book total) (hkeeps : m.Keeps step I C book)
    (hs : I s) (has : ∀ a ∈ as, C a) (hbs : ∀ b ∈ bs, C b)
    (hsame : ∀ k, m.owned k (committed step s as) = m.owned k (committed step s bs)) :
    book (run step s as) = book (run step s bs) ∧
      total (run step s as) = total (run step s bs) := by
  constructor
  · funext k
    exact hkeeps.isolated hs hs has hbs rfl (hsame k)
  · rw [h.adds hkeeps hs has, h.adds hkeeps hs hbs, m.addedAll_congr hsame]

end Runs

end Accounts

end NekoStrategies.KeyedAccounts
