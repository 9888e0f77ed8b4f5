import NekoStrategies.Attribution
import Mathlib.Algebra.Order.Field.Rat
import Mathlib.Tactic.Linarith

/-!
# Rewards that accrue to a pool of shares

Rewards accrue to all holders of shares together, and each accrual belongs to
the holders in proportion to their shares at that moment. A payment to one
holder is fair if it is within the holder's present proportion and leaves what
every other holder is owed. Paying out everything is fair only to a holder that
nobody else has shared with.
-/
namespace NekoStrategies.RewardAccrual

variable {ι : Type*} [DecidableEq ι]

/-- Part of `n` that belongs to the holder; nobody's if there are no shares. -/
def proRata (n : ℤ) (m : Attribution ι) (i : ι) : ℚ := n * m.amount i / m.total

/-- Accrued amounts, each with the shares of its moment. -/
abbrev Accruals (ι : Type*) [DecidableEq ι] := List (ℤ × Attribution ι)

def accrued (l : Accruals ι) : ℤ := (l.map Prod.fst).sum

def owed (l : Accruals ι) (i : ι) : ℚ := (l.map fun p => proRata p.1 p.2 i).sum

def WellFormed (l : Accruals ι) : Prop := ∀ p ∈ l, 0 ≤ p.1 ∧ p.2.Nonneg

def FairPayment (l : Accruals ι) (m : Attribution ι) (claimed paid : ℤ) (i : ι) : Prop :=
  (paid : ℚ) ≤ proRata claimed m i ∧ ∀ j, j ≠ i → paid + owed l j ≤ claimed

/-- Nothing accrued while another holder had shares. -/
def SoleEarner (l : Accruals ι) (i : ι) : Prop :=
  ∀ p ∈ l, p.1 = 0 ∨ ∀ j, j ≠ i → p.2.amount j = 0

section Proportions
variable {n : ℤ} {m : Attribution ι} {i : ι}

theorem proRata_nonneg (hn : 0 ≤ n) (hm : m.Nonneg) : 0 ≤ proRata n m i := by
  have hnq : (0 : ℚ) ≤ n := by exact_mod_cast hn
  have hi : (0 : ℚ) ≤ m.amount i := by exact_mod_cast hm i
  have ht : (0 : ℚ) ≤ m.total := by exact_mod_cast hm.total_nonneg
  exact div_nonneg (mul_nonneg hnq hi) ht

theorem proRata_eq_zero_iff (hm : m.Nonneg) :
    proRata n m i = 0 ↔ n = 0 ∨ m.amount i = 0 := by
  have hle := hm.amount_le_total (i := i)
  have hi := hm i
  unfold proRata
  rw [div_eq_zero_iff, mul_eq_zero, Int.cast_eq_zero, Int.cast_eq_zero, Int.cast_eq_zero]
  constructor
  · rintro (h | ht)
    · exact h
    · right
      omega
  · intro h
    exact .inl h

/-- Only a holder of all shares is entitled to everything. -/
theorem self_le_proRata_iff (hn : 0 < n) (hm : m.Nonneg) :
    (n : ℚ) ≤ proRata n m i ↔ 0 < m.total ∧ m.amount i = m.total := by
  have hle := hm.amount_le_total (i := i)
  have hnq : (0 : ℚ) < n := by exact_mod_cast hn
  unfold proRata
  rcases hm.total_nonneg.eq_or_lt with hzero | hpos
  · rw [← hzero, Int.cast_zero, div_zero]
    constructor
    · intro h
      exact absurd h hnq.not_ge
    · rintro ⟨h, _⟩
      exact absurd h (lt_irrefl 0)
  · have htq : (0 : ℚ) < m.total := by exact_mod_cast hpos
    rw [le_div_iff₀ htq, mul_le_mul_iff_right₀ hnq, Int.cast_le]
    constructor
    · intro h
      exact ⟨hpos, le_antisymm hle h⟩
    · rintro ⟨_, h⟩
      exact h.ge

end Proportions

section Owed
variable {l : Accruals ι} {m : Attribution ι} {i : ι}

theorem owed_nonneg (hl : WellFormed l) : 0 ≤ owed l i := by
  apply List.sum_nonneg
  intro x hx
  obtain ⟨p, hp, rfl⟩ := List.mem_map.mp hx
  exact proRata_nonneg (hl p hp).1 (hl p hp).2

theorem owed_eq_zero_iff (hl : WellFormed l) :
    owed l i = 0 ↔ ∀ p ∈ l, p.1 = 0 ∨ p.2.amount i = 0 := by
  induction l with
  | nil => simp [owed]
  | cons p l ih =>
      have hrest : WellFormed l := by
        intro q hq
        exact hl q (by simp [hq])
      have hp := hl p (by simp)
      have hhead := proRata_nonneg (i := i) hp.1 hp.2
      have htail := owed_nonneg (i := i) hrest
      have hsum : owed (p :: l) i = proRata p.1 p.2 i + owed l i := by simp [owed]
      rw [hsum, add_eq_zero_iff_of_nonneg hhead htail, ih hrest, proRata_eq_zero_iff hp.2,
        List.forall_mem_cons]

/-- Nothing may be paid to a holder without shares. -/
theorem FairPayment.paid_nonpos {claimed paid : ℤ} (h : FairPayment l m claimed paid i)
    (hi : m.amount i = 0) : paid ≤ 0 := by
  have hle := h.1
  unfold proRata at hle
  rw [hi, Int.cast_zero, mul_zero, zero_div] at hle
  exact_mod_cast hle

/-- A sole earner is one next to whom nobody is owed anything. -/
theorem soleEarner_iff (hl : WellFormed l) :
    SoleEarner l i ↔ ∀ j, j ≠ i → owed l j = 0 := by
  constructor
  · intro h j hj
    rw [owed_eq_zero_iff hl]
    intro p hp
    rcases h p hp with hzero | hothers
    · exact .inl hzero
    · exact .inr (hothers j hj)
  · intro h p hp
    by_cases hzero : p.1 = 0
    · exact .inl hzero
    · right
      intro j hj
      exact ((owed_eq_zero_iff hl).mp (h j hj) p hp).resolve_left hzero

theorem accrued_nonneg (hl : WellFormed l) : 0 ≤ accrued l := by
  apply List.sum_nonneg
  intro x hx
  obtain ⟨p, hp, rfl⟩ := List.mem_map.mp hx
  exact (hl p hp).1

theorem eq_zero_of_accrued (hl : WellFormed l) (h : accrued l = 0) : ∀ p ∈ l, p.1 = 0 := by
  induction l with
  | nil => simp
  | cons p l ih =>
      have hrest : WellFormed l := by
        intro q hq
        exact hl q (by simp [hq])
      have hp := (hl p (by simp)).1
      have htail := accrued_nonneg hrest
      have hsum : accrued (p :: l) = p.1 + accrued l := by simp [accrued]
      rw [List.forall_mem_cons]
      exact ⟨by omega, ih hrest (by omega)⟩

/-- Everything may go to a holder that has all shares and is the sole earner. -/
theorem fair_whole_iff (hl : WellFormed l) (hm : m.Nonneg) :
    FairPayment l m (accrued l) (accrued l) i ↔
      accrued l = 0 ∨ (0 < m.total ∧ m.amount i = m.total ∧ SoleEarner l i) := by
  have hothers : (∀ j, j ≠ i → (accrued l : ℚ) + owed l j ≤ accrued l) ↔ SoleEarner l i := by
    rw [soleEarner_iff hl]
    constructor
    · intro h j hj
      have hle := h j hj
      have hnonneg := owed_nonneg (i := j) hl
      linarith
    · intro h j hj
      rw [h j hj, add_zero]
  unfold FairPayment
  rw [hothers]
  rcases (accrued_nonneg hl).eq_or_lt with hzero | hpos
  · have hnone := eq_zero_of_accrued hl hzero.symm
    constructor
    · intro _
      exact .inl hzero.symm
    · intro _
      constructor
      · rw [← hzero]
        exact_mod_cast proRata_nonneg le_rfl hm
      · intro p hp
        exact .inl (hnone p hp)
  · rw [self_le_proRata_iff hpos hm, and_assoc]
    constructor
    · exact .inr
    · rintro (h | h)
      · omega
      · exact h

end Owed

end NekoStrategies.RewardAccrual
