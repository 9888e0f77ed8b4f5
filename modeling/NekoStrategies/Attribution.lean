import Mathlib.Algebra.BigOperators.Group.Finset.Basic
import Mathlib.Algebra.Order.BigOperators.Group.Finset
import Mathlib.Algebra.Order.Ring.Int
import Mathlib.Tactic.Abel

/-!
# Per-holder integer attributions

A persistent store of one integer for each holder, zero where nothing was ever
written. The written keys are finite and carried along, so the attribution has
a total, and the total over any class of holders moves by exactly what one
holder's entry moves by.
-/
namespace NekoStrategies

/-- A map that is zero outside the finitely many keys written so far. -/
structure Attribution (ι : Type*) [DecidableEq ι] where
  keys : Finset ι
  amount : ι → ℤ
  amount_eq_zero : ∀ i, i ∉ keys → amount i = 0

namespace Attribution
variable {ι : Type*} [DecidableEq ι]

/-- Nothing written yet. -/
def empty : Attribution ι := ⟨∅, fun _ => 0, fun _ _ => rfl⟩

/-- Overwrite one entry. -/
def set (m : Attribution ι) (i : ι) (x : ℤ) : Attribution ι where
  keys := insert i m.keys
  amount := Function.update m.amount i x
  amount_eq_zero j hj := by
    rw [Finset.mem_insert, not_or] at hj
    rw [Function.update_of_ne hj.1]
    exact m.amount_eq_zero j hj.2

/-- Sum of the entries of the holders in `C`. -/
def sumOver (m : Attribution ι) (C : ι → Prop) [DecidablePred C] : ℤ :=
  ∑ i ∈ m.keys with C i, m.amount i

/-- Sum of all entries. -/
def total (m : Attribution ι) : ℤ := ∑ i ∈ m.keys, m.amount i

def Nonneg (m : Attribution ι) : Prop := ∀ i, 0 ≤ m.amount i

section Lemmas
variable {m : Attribution ι} {i j : ι} {x : ℤ} {C : ι → Prop} [DecidablePred C]

@[simp] theorem amount_empty : (empty : Attribution ι).amount i = 0 := rfl

@[simp] theorem amount_set_self : (m.set i x).amount i = x := Function.update_self ..

theorem amount_set_of_ne (h : j ≠ i) : (m.set i x).amount j = m.amount j :=
  Function.update_of_ne h ..

theorem amount_set : (m.set i x).amount j = if j = i then x else m.amount j :=
  Function.update_apply ..

theorem total_eq_sumOver : m.total = m.sumOver fun _ => True := by
  simp [total, sumOver]

/-- Zero entries outside the keys may be added to the sum. -/
theorem sumOver_eq_sum {s : Finset ι} (h : m.keys ⊆ s) :
    m.sumOver C = ∑ k ∈ s, if C k then m.amount k else 0 := by
  rw [sumOver, Finset.sum_filter]
  refine Finset.sum_subset h fun k _ hk => ?_
  rw [m.amount_eq_zero k hk, ite_self]

/-- Overwriting one entry moves the sum by the change of that entry. -/
theorem sumOver_set : (m.set i x).sumOver C =
    m.sumOver C + if C i then x - m.amount i else 0 := by
  have hi : i ∈ insert i m.keys := Finset.mem_insert_self ..
  have hother : ∀ k ∈ (insert i m.keys).erase i,
      (if C k then (m.set i x).amount k else 0) = if C k then m.amount k else 0 := by
    intro k hk
    rw [amount_set_of_ne (Finset.ne_of_mem_erase hk)]
  rw [sumOver_eq_sum (Finset.subset_insert i m.keys),
    sumOver_eq_sum (m := m.set i x) (s := insert i m.keys) (Finset.Subset.refl _),
    ← Finset.add_sum_erase _ _ hi, ← Finset.add_sum_erase (insert i m.keys) _ hi,
    Finset.sum_congr rfl hother, amount_set_self]
  split_ifs <;> abel

@[simp] theorem total_set : (m.set i x).total = m.total + (x - m.amount i) := by
  rw [total_eq_sumOver, total_eq_sumOver, sumOver_set, if_pos trivial]

theorem Nonneg.empty : (empty : Attribution ι).Nonneg := fun _ => le_rfl

theorem Nonneg.set (h : m.Nonneg) (hx : 0 ≤ x) : (m.set i x).Nonneg := by
  intro j
  rw [amount_set]
  split_ifs
  exacts [hx, h j]

theorem Nonneg.sumOver_nonneg (h : m.Nonneg) : 0 ≤ m.sumOver C :=
  Finset.sum_nonneg fun k _ => h k

theorem Nonneg.total_nonneg (h : m.Nonneg) : 0 ≤ m.total := Finset.sum_nonneg fun k _ => h k

/-- A class of holders owns no more than everybody together. -/
theorem Nonneg.sumOver_le_total (h : m.Nonneg) : m.sumOver C ≤ m.total :=
  Finset.sum_le_sum_of_subset_of_nonneg (Finset.filter_subset ..) fun k _ _ => h k

/-- A member of the class owns no more than the class. -/
theorem Nonneg.amount_le_sumOver (h : m.Nonneg) (hi : C i) : m.amount i ≤ m.sumOver C := by
  by_cases hk : i ∈ m.keys
  · exact Finset.single_le_sum (f := m.amount) (fun k _ => h k)
      (Finset.mem_filter.mpr ⟨hk, hi⟩)
  · rw [m.amount_eq_zero i hk]
    exact h.sumOver_nonneg

theorem Nonneg.amount_le_total (h : m.Nonneg) : m.amount i ≤ m.total := by
  rw [total_eq_sumOver]
  exact h.amount_le_sumOver trivial

/-- Any holders that are counted once own no more than all of them. -/
theorem Nonneg.sum_le_total (h : m.Nonneg) (s : Finset ι) : ∑ k ∈ s, m.amount k ≤ m.total := by
  rw [total_eq_sumOver, sumOver_eq_sum (s := m.keys ∪ s) Finset.subset_union_left]
  simp only [if_true]
  exact Finset.sum_le_sum_of_subset_of_nonneg Finset.subset_union_right fun k _ _ => h k

end Lemmas

end Attribution

end NekoStrategies
