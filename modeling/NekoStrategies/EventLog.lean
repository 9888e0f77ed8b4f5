import NekoStrategies.SorobanHost
import NekoStrategies.TransactionalRun
import Mathlib.Algebra.BigOperators.Group.List.Basic

/-!
# What a log of events adds up to

A strategy reports what each deposit brought, each withdrawal drew and each
harvest claimed. Along a run the log only grows, and a quantity that every
committed step moves by what it reports moves over the run by what the new
events add up to.
-/
namespace NekoStrategies.EventLog
open SorobanHost TransactionalRun

/-- The amount of a reported deposit. -/
def brought : Event → ℤ
  | .deposit _ amount _ => amount
  | _ => 0

/-- The amount of a reported withdrawal. -/
def drawn : Event → ℤ
  | .withdraw _ amount _ => amount
  | _ => 0

/-- The rewards of a reported harvest. -/
def harvested : Event → ℤ
  | .harvest _ amount _ _ => amount
  | _ => 0

def totalBrought (log : List Event) : ℤ := (log.map brought).sum

def totalDrawn (log : List Event) : ℤ := (log.map drawn).sum

def totalHarvested (log : List Event) : ℤ := (log.map harvested).sum

/-- No harvest is reported. -/
def NoHarvest (log : List Event) : Prop :=
  ∀ e ∈ log, ∀ strategy amount sender price, e ≠ .harvest strategy amount sender price

section Totals
variable {log log' : List Event} {e : Event}

@[simp] theorem totalBrought_nil : totalBrought [] = 0 := rfl

@[simp] theorem totalDrawn_nil : totalDrawn [] = 0 := rfl

@[simp] theorem totalBrought_singleton : totalBrought [e] = brought e := by simp [totalBrought]

@[simp] theorem totalDrawn_singleton : totalDrawn [e] = drawn e := by simp [totalDrawn]

@[simp] theorem totalHarvested_nil : totalHarvested [] = 0 := rfl

@[simp] theorem totalHarvested_singleton : totalHarvested [e] = harvested e := by
  simp [totalHarvested]

@[simp] theorem totalBrought_append :
    totalBrought (log ++ log') = totalBrought log + totalBrought log' := by simp [totalBrought]

@[simp] theorem totalDrawn_append :
    totalDrawn (log ++ log') = totalDrawn log + totalDrawn log' := by simp [totalDrawn]

@[simp] theorem totalHarvested_append :
    totalHarvested (log ++ log') = totalHarvested log + totalHarvested log' := by
  simp [totalHarvested]

theorem noHarvest_append : NoHarvest (log ++ log') ↔ NoHarvest log ∧ NoHarvest log' := by
  simp only [NoHarvest, List.mem_append, or_imp, forall_and]

end Totals

/-- The events that an action newly logs. -/
def newEvents {σ α ε : Type*} (step : α → σ → Except ε σ) (L : σ → List Event) (a : α) (s : σ) :
    List Event :=
  (L (settle s (step a s))).drop (L s).length

section Runs
variable {σ α ε : Type*} {step : α → σ → Except ε σ} {C : α → σ → Prop} {I : σ → Prop}
  {L : σ → List Event} {s : σ} {as : List α}

theorem newEvents_of_ok {a : α} {t : σ} {es : List Event} (h : step a s = .ok t)
    (hlog : L t = L s ++ es) : newEvents step L a s = es := by
  simp [newEvents, h, hlog]

/-- What every committed step reports accordingly, the new events of a run report:
`R` relates two states and the events between them. -/
theorem run_reports {R : σ → List Event → σ → Prop} (hrefl : ∀ s, R s [] s)
    (htrans : ∀ s t u es es', R s es t → R t es' u → R s (es ++ es') u)
    (hstep : ∀ a s t, C a s → I s → step a s = .ok t →
      I t ∧ ∃ es, L t = L s ++ es ∧ R s es t)
    (hs : I s) (hc : Each step C s as) :
    ∃ es, L (run step s as) = L s ++ es ∧ R s es (run step s as) := by
  induction as generalizing s with
  | nil => exact ⟨[], by simp, hrefl s⟩
  | cons a as ih =>
      obtain ⟨hca, hcas⟩ := hc
      cases h : step a s with
      | error e =>
          rw [h, settle_error] at hcas
          rw [run_cons, h, settle_error]
          exact ih hs hcas
      | ok t =>
          rw [h, settle_ok] at hcas
          rw [run_cons, h, settle_ok]
          obtain ⟨ht, es, hlog, hR⟩ := hstep a s t hca hs h
          obtain ⟨es', hlog', hR'⟩ := ih ht hcas
          refine ⟨es ++ es', ?_, htrans s t _ es es' hR hR'⟩
          rw [hlog', hlog, List.append_assoc]

end Runs

end NekoStrategies.EventLog
