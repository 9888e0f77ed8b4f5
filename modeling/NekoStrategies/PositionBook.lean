import NekoStrategies.Attribution
import NekoStrategies.TransactionalRun

/-!
# Books of positions kept by a transactional machine

A machine keeps a position for each holder. A committed step posts at most one
entry: it credits one holder or debits one holder, never below zero. Which
entries an action may post is left to the machine. Two rules follow for whole
runs: a holder that is never debited does not lose anything, and a holder that
is never credited has nothing. A third is about machines that hold something
for their holders: positions stay covered while every step takes in as much as
it credits and gives out no more than it debits.
-/
namespace NekoStrategies.PositionBook
open TransactionalRun

inductive Entry (ι : Type*) where
  | credit (i : ι) (n : ℤ)
  | debit (i : ι) (n : ℤ)

variable {ι : Type*} [DecidableEq ι]

inductive Posts : Attribution ι → Entry ι → Attribution ι → Prop
  | credit (m : Attribution ι) (i : ι) (n : ℤ) : 0 ≤ n →
      Posts m (.credit i n) (m.set i (m.amount i + n))
  | debit (m : Attribution ι) (i : ι) (n : ℤ) : 0 < n → n ≤ m.amount i →
      Posts m (.debit i n) (m.set i (m.amount i - n))

section Postings
variable {m m' : Attribution ι} {e : Entry ι} {i : ι} {n : ℤ}

theorem Posts.nonneg (h : Posts m e m') (hm : m.Nonneg) : m'.Nonneg := by
  cases h with
  | credit j n hn =>
      apply hm.set
      have := hm j
      omega
  | debit j n hn hle =>
      apply hm.set
      omega

/-- Only a debit of the holder lowers its position. -/
theorem Posts.amount_le (h : Posts m e m') (he : ∀ n, e ≠ .debit i n) :
    m.amount i ≤ m'.amount i := by
  cases h with
  | credit j n hn =>
      rw [Attribution.amount_set]
      split_ifs with hj
      · subst hj
        omega
      · exact le_rfl
  | debit j n hn hle =>
      rw [Attribution.amount_set_of_ne]
      rintro rfl
      exact he n rfl

/-- Without a credit of its own an empty position stays empty. -/
theorem Posts.amount_eq_zero (h : Posts m e m') (he : ∀ n, e ≠ .credit i n)
    (hi : m.amount i = 0) : m'.amount i = 0 := by
  cases h with
  | credit j n hn =>
      rw [Attribution.amount_set_of_ne, hi]
      rintro rfl
      exact he n rfl
  | debit j n hn hle =>
      rw [Attribution.amount_set_of_ne, hi]
      rintro rfl
      omega

/-- What an entry adds to the sum of all positions. -/
def Entry.signed : Entry ι → ℤ
  | .credit _ n => n
  | .debit _ n => -n

theorem Posts.total (h : Posts m e m') : m'.total = m.total + e.signed := by
  cases h with
  | credit j n hn =>
      rw [Attribution.total_set, Entry.signed]
      omega
  | debit j n hn hle =>
      rw [Attribution.total_set, Entry.signed]
      omega

theorem Posts.debit_lt (h : Posts m (.debit i n) m') : m'.amount i < m.amount i := by
  cases h with
  | debit _ _ hn hle =>
      rw [Attribution.amount_set_self]
      omega

end Postings

/-- Each action names the holders it credits and debits, and under `C` and the
machine's own invariant `I` a committed step posts just that. -/
structure Bookkeeping {σ α ε : Type*} (step : α → σ → Except ε σ) (pos : σ → Attribution ι)
    (I : σ → Prop) (C : α → Prop) (credited debited : α → Option ι) : Prop where
  keeps : ∀ a s t, C a → I s → step a s = .ok t → I t
  credit : ∀ a s t i, C a → I s → credited a = some i → step a s = .ok t →
    ∃ n, Posts (pos s) (.credit i n) (pos t)
  debit : ∀ a s t i, C a → I s → (pos s).Nonneg → debited a = some i → step a s = .ok t →
    ∃ n, Posts (pos s) (.debit i n) (pos t)
  idle : ∀ a s t, C a → I s → credited a = none → debited a = none → step a s = .ok t →
    pos t = pos s

/-- An action that names `i` does not commit. -/
def Spares {σ α ε : Type*} (step : α → σ → Except ε σ) (named : α → Option ι) (i : ι) (a : α)
    (s : σ) : Prop :=
  named a = some i → ∀ t, step a s ≠ .ok t

section Machines
variable {σ α ε : Type*} {step : α → σ → Except ε σ} {pos : σ → Attribution ι}
  {I : σ → Prop} {C : α → Prop} {credited debited : α → Option ι} {s t : σ} {a : α}
  {as : List α} {i : ι}

theorem Bookkeeping.posts (h : Bookkeeping step pos I C credited debited) (hc : C a) (hI : I s)
    (hs : (pos s).Nonneg) (ht : step a s = .ok t) :
    pos t = pos s ∨
      (∃ i n, credited a = some i ∧ Posts (pos s) (.credit i n) (pos t)) ∨
      (∃ i n, debited a = some i ∧ Posts (pos s) (.debit i n) (pos t)) := by
  cases hcredit : credited a with
  | some i =>
      obtain ⟨n, hp⟩ := h.credit a s t i hc hI hcredit ht
      exact .inr (.inl ⟨i, n, rfl, hp⟩)
  | none =>
      cases hdebit : debited a with
      | some i =>
          obtain ⟨n, hp⟩ := h.debit a s t i hc hI hs hdebit ht
          exact .inr (.inr ⟨i, n, rfl, hp⟩)
      | none => exact .inl (h.idle a s t hc hI hcredit hdebit ht)

/-- Books can be kept under stronger conditions, if the machine keeps them. -/
theorem Bookkeeping.restrict {J : σ → Prop} {D : α → Prop}
    (h : Bookkeeping step pos I C credited debited) (hJ : ∀ s, J s → I s) (hD : ∀ a, D a → C a)
    (hkeeps : ∀ a s t, D a → J s → step a s = .ok t → J t) :
    Bookkeeping step pos J D credited debited where
  keeps := hkeeps
  credit a s t i ha hs := h.credit a s t i (hD a ha) (hJ s hs)
  debit a s t i ha hs := h.debit a s t i (hD a ha) (hJ s hs)
  idle a s t ha hs := h.idle a s t (hD a ha) (hJ s hs)

theorem Bookkeeping.step_nonneg (h : Bookkeeping step pos I C credited debited) (hc : C a)
    (hI : I s) (hs : (pos s).Nonneg) (ht : step a s = .ok t) : I t ∧ (pos t).Nonneg := by
  refine ⟨h.keeps a s t hc hI ht, ?_⟩
  rcases h.posts hc hI hs ht with he | ⟨_, _, _, hp⟩ | ⟨_, _, _, hp⟩
  · rwa [he]
  · exact hp.nonneg hs
  · exact hp.nonneg hs

theorem Bookkeeping.run_nonneg (h : Bookkeeping step pos I C credited debited) (hI : I s)
    (hs : (pos s).Nonneg) (hc : ∀ a ∈ as, C a) :
    I (run step s as) ∧ (pos (run step s as)).Nonneg := by
  refine run_invariant (I := fun s => I s ∧ (pos s).Nonneg) (C := fun a _ => C a) ?_ ⟨hI, hs⟩ ?_
  · intro a s t hca hu ht
    exact h.step_nonneg hca hu.1 hu.2 ht
  · apply each_of_forall
    intro a ha _
    exact hc a ha

/-- A committed step that names the holder as debited lowers its position. -/
theorem Bookkeeping.debit_lt (h : Bookkeeping step pos I C credited debited) (hc : C a)
    (hI : I s) (hs : (pos s).Nonneg) (hi : debited a = some i) (ht : step a s = .ok t) :
    (pos t).amount i < (pos s).amount i := by
  obtain ⟨n, hp⟩ := h.debit a s t i hc hI hs hi ht
  exact hp.debit_lt

/-- A holder that no committed step debits loses nothing over a run. -/
theorem Bookkeeping.run_amount_le (h : Bookkeeping step pos I C credited debited) (hI : I s)
    (hs : (pos s).Nonneg) (hc : Each step (fun a s => C a ∧ Spares step debited i a s) s as) :
    (pos s).amount i ≤ (pos (run step s as)).amount i := by
  refine (run_invariant (I := fun t => (I t ∧ (pos t).Nonneg) ∧
    (pos s).amount i ≤ (pos t).amount i) ?_ ⟨⟨hI, hs⟩, le_rfl⟩ hc).2
  intro a u t hca hu ht
  refine ⟨h.step_nonneg hca.1 hu.1.1 hu.1.2 ht, hu.2.trans ?_⟩
  rcases h.posts hca.1 hu.1.1 hu.1.2 ht with he | ⟨j, n, _, hp⟩ | ⟨j, n, hj, hp⟩
  · rw [he]
  · apply hp.amount_le
    intro m heq
    cases heq
  · apply hp.amount_le
    rintro m heq
    obtain ⟨rfl, _⟩ := Entry.debit.inj heq
    exact hca.2 hj t ht

/-- A holder that no committed step credits keeps an empty position. -/
theorem Bookkeeping.run_amount_eq_zero (h : Bookkeeping step pos I C credited debited)
    (hI : I s) (hs : (pos s).Nonneg) (hi : (pos s).amount i = 0)
    (hc : Each step (fun a s => C a ∧ Spares step credited i a s) s as) :
    (pos (run step s as)).amount i = 0 := by
  refine (run_invariant (I := fun t => (I t ∧ (pos t).Nonneg) ∧ (pos t).amount i = 0)
    ?_ ⟨⟨hI, hs⟩, hi⟩ hc).2
  intro a u t hca hu ht
  refine ⟨h.step_nonneg hca.1 hu.1.1 hu.1.2 ht, ?_⟩
  rcases h.posts hca.1 hu.1.1 hu.1.2 ht with he | ⟨j, n, hj, hp⟩ | ⟨j, n, _, hp⟩
  · rw [he]
    exact hu.2
  · apply hp.amount_eq_zero _ hu.2
    rintro m heq
    obtain ⟨rfl, _⟩ := Entry.credit.inj heq
    exact hca.2 hj t ht
  · apply hp.amount_eq_zero _ hu.2
    intro m heq
    cases heq

end Machines

/-- The positions are covered by what is held for them. -/
structure Covered (m : Attribution ι) (held : ℤ) : Prop where
  nonneg : m.Nonneg
  total_le : m.total ≤ held

/-- Under `C` and the machine's own invariant a committed step posts nothing and
leaves enough, or what is held grows by at least what it posts. -/
def Custody {σ α ε : Type*} (step : α → σ → Except ε σ) (pos : σ → Attribution ι)
    (held : σ → ℤ) (I : σ → Prop) (C : α → σ → Prop) : Prop :=
  ∀ a s t, C a s → I s → Covered (pos s) (held s) → step a s = .ok t →
    I t ∧ ((pos t = pos s ∧ (pos s).total ≤ held t) ∨
      ∃ e, Posts (pos s) e (pos t) ∧ held s + e.signed ≤ held t)

section Custodians
variable {σ α ε : Type*} {step : α → σ → Except ε σ} {pos : σ → Attribution ι}
  {held : σ → ℤ} {I : σ → Prop} {C D : α → σ → Prop} {s t : σ} {a : α} {as : List α}

theorem Custody.step_covered (h : Custody step pos held I C) (hc : C a s) (hI : I s)
    (hs : Covered (pos s) (held s)) (ht : step a s = .ok t) :
    I t ∧ Covered (pos t) (held t) := by
  obtain ⟨hIt, hpost⟩ := h a s t hc hI hs ht
  refine ⟨hIt, ?_⟩
  rcases hpost with ⟨hsame, hle⟩ | ⟨e, hp, hle⟩
  · rw [hsame]
    exact ⟨hs.nonneg, hle⟩
  · have htotal := hs.total_le
    refine ⟨hp.nonneg hs.nonneg, ?_⟩
    rw [hp.total]
    omega

theorem Custody.run_covered (h : Custody step pos held I C) (hI : I s)
    (hs : Covered (pos s) (held s)) (hc : Each step C s as) :
    I (run step s as) ∧ Covered (pos (run step s as)) (held (run step s as)) :=
  run_invariant (I := fun s => I s ∧ Covered (pos s) (held s))
    (fun _ _ _ ha hu ht => h.step_covered ha hu.1 hu.2 ht) ⟨hI, hs⟩ hc

theorem Custody.restrict (h : Custody step pos held I C) (hD : ∀ a s, D a s → C a s) :
    Custody step pos held I D := fun a s t ha => h a s t (hD a s ha)

end Custodians

/-- A valuation of positions that never values the parts above the whole. -/
structure Appraisal (f : ℤ → ℤ) : Prop where
  zero : f 0 = 0
  add_le : ∀ x y, f x + f y ≤ f (x + y)
  mono : ∀ x y, x ≤ y → f x ≤ f y

section Appraisals
variable {f g : ℤ → ℤ} {m : Attribution ι} {n : ι → ℤ} {held : ℤ}

theorem Appraisal.comp (hg : Appraisal g) (hf : Appraisal f) : Appraisal fun x => g (f x) where
  zero := by rw [hf.zero, hg.zero]
  add_le x y := (hg.add_le _ _).trans (hg.mono _ _ (hf.add_le x y))
  mono x y h := hg.mono _ _ (hf.mono x y h)

omit [DecidableEq ι] in
theorem Appraisal.sum_le (hf : Appraisal f) (s : Finset ι) :
    ∑ i ∈ s, f (n i) ≤ f (∑ i ∈ s, n i) := by
  induction s using Finset.cons_induction with
  | empty => simp [hf.zero]
  | cons i s hi ih =>
      rw [Finset.sum_cons, Finset.sum_cons]
      exact (add_le_add_right ih _).trans (hf.add_le _ _)

/-- What any holders are told to own is together at most what is held for them. -/
theorem Covered.sum_appraised_le (hm : Covered m held) (hf : Appraisal f) (s : Finset ι)
    (hn : ∀ i ∈ s, n i ≤ f (m.amount i)) : ∑ i ∈ s, n i ≤ f held :=
  calc ∑ i ∈ s, n i
      ≤ ∑ i ∈ s, f (m.amount i) := Finset.sum_le_sum hn
    _ ≤ f (∑ i ∈ s, m.amount i) := hf.sum_le s
    _ ≤ f held := hf.mono _ _ ((hm.nonneg.sum_le_total s).trans hm.total_le)

end Appraisals

end NekoStrategies.PositionBook
