import Mathlib.Algebra.Order.Group.Defs
import Mathlib.Tactic.Abel

/-!
# Runs of a transactional machine

An action either commits a new state or fails and is rolled back. A run is a
finite list of actions, and facts about runs come from facts about committed
steps: `run_invariant` for properties of states and `tally_le_of_potential` for sums
over the committed actions. A side condition may look at each action together
with the state it starts from.
-/
namespace NekoStrategies.TransactionalRun

variable {σ α ε : Type*}

/-- A failed action leaves the state as it was. -/
def settle (s : σ) : Except ε σ → σ
  | .ok t => t
  | .error _ => s

@[simp] theorem settle_ok (s t : σ) : settle s (.ok t : Except ε σ) = t := rfl
@[simp] theorem settle_error (s : σ) (e : ε) : settle s (.error e : Except ε σ) = s := rfl

def run (step : α → σ → Except ε σ) : σ → List α → σ
  | s, [] => s
  | s, a :: as => run step (settle s (step a s)) as

/-- Every action of the run meets `C` in the state it starts from. -/
def Each (step : α → σ → Except ε σ) (C : α → σ → Prop) : σ → List α → Prop
  | _, [] => True
  | s, a :: as => C a s ∧ Each step C (settle s (step a s)) as

section Rules
variable {step : α → σ → Except ε σ} {C : α → σ → Prop} {s : σ} {as bs : List α}

@[simp] theorem run_nil : run step s [] = s := rfl

@[simp] theorem run_cons (a : α) :
    run step s (a :: as) = run step (settle s (step a s)) as := rfl

theorem run_append : run step s (as ++ bs) = run step (run step s as) bs := by
  induction as generalizing s with
  | nil => rfl
  | cons a as ih => exact ih

theorem run_concat {a : α} {t : σ} (h : step a (run step s as) = .ok t) :
    run step s (as ++ [a]) = t := by
  rw [run_append, run_cons, h, settle_ok, run_nil]

theorem each_append : Each step C s (as ++ bs) ↔
    Each step C s as ∧ Each step C (run step s as) bs := by
  induction as generalizing s with
  | nil => simp [Each]
  | cons a as ih => simp only [List.cons_append, Each, ih, run_cons, and_assoc]

theorem each_of_forall (h : ∀ a ∈ as, ∀ s, C a s) : Each step C s as := by
  induction as generalizing s with
  | nil => trivial
  | cons a as ih =>
      exact ⟨h a (by simp) s, ih fun b hb => h b (by simp [hb])⟩

theorem each_and {D : α → σ → Prop} : Each step (fun a s => C a s ∧ D a s) s as ↔
    Each step C s as ∧ Each step D s as := by
  induction as generalizing s with
  | nil => simp [Each]
  | cons a as ih =>
      simp only [Each, ih]
      tauto

/-- The condition seen from one step of the run, with what came before it. -/
theorem each_iff_forall_split : Each step C s as ↔
    ∀ pre a post, as = pre ++ a :: post → C a (run step s pre) := by
  constructor
  · rintro h pre a post rfl
    exact (each_append.mp h).2.1
  · intro h
    induction as generalizing s with
    | nil => trivial
    | cons a as ih =>
        refine ⟨h [] a as rfl, ih fun pre b post hs => ?_⟩
        exact h (a :: pre) b post (by simp [hs])

/-- What every committed step keeps, every run keeps. -/
theorem run_invariant {I : σ → Prop}
    (hstep : ∀ a s t, C a s → I s → step a s = .ok t → I t)
    (hs : I s) (hc : Each step C s as) : I (run step s as) := by
  induction as generalizing s with
  | nil => exact hs
  | cons a as ih =>
      refine ih ?_ hc.2
      cases h : step a s with
      | ok t => exact hstep a s t hc.1 hs h
      | error e => exact hs

/-- An invariant can be used at every step of a run. -/
theorem each_of_invariant {I : σ → Prop} {D : α → σ → Prop}
    (hstep : ∀ a s t, C a s → I s → step a s = .ok t → I t)
    (hD : ∀ a s, C a s → I s → D a s) (hs : I s) (hc : Each step C s as) :
    Each step D s as := by
  rw [each_iff_forall_split] at hc ⊢
  rintro pre a post rfl
  apply hD a _ (hc pre a post rfl)
  apply run_invariant hstep hs
  rw [each_iff_forall_split]
  rintro pre' b post' rfl
  exact hc pre' b (post' ++ a :: post) (by simp)

theorem run_invariant_of_step {I : σ → Prop}
    (hstep : ∀ a s t, I s → step a s = .ok t → I t) (hs : I s) (as : List α) :
    I (run step s as) :=
  run_invariant (C := fun _ _ => True) (fun a s t _ => hstep a s t) hs
    (each_of_forall fun _ _ _ => trivial)

end Rules

section Queues
variable {κ : Type*} {step : α → σ → Except ε σ} {I : σ → Prop} {C : α → Prop}
  {R : α → σ → σ → Prop} {s : σ} {as : List α}

/-- Every action of the list commits in turn and does as `R` says. -/
def Serves (step : α → σ → Except ε σ) (R : α → σ → σ → Prop) : σ → List α → Prop
  | _, [] => True
  | s, a :: as => ∃ t, step a s = .ok t ∧ R a s t ∧ Serves step R t as

/-- Actions with different keys that leave each other due are served in any order. -/
theorem serves_of_independent (key : α → κ) (Due : α → σ → Prop)
    (hstep : ∀ a s, C a → I s → Due a s → ∃ t, step a s = .ok t ∧ R a s t ∧ I t ∧
      ∀ b, key b ≠ key a → Due b s → Due b t)
    (hs : I s) (hkeys : (as.map key).Nodup) (hc : ∀ a ∈ as, C a) (hdue : ∀ a ∈ as, Due a s) :
    Serves step R s as := by
  induction as generalizing s with
  | nil => trivial
  | cons a as ih =>
      rw [List.map_cons, List.nodup_cons] at hkeys
      obtain ⟨t, ht, hR, hIt, hothers⟩ := hstep a s (hc a (by simp)) hs (hdue a (by simp))
      refine ⟨t, ht, hR, ih hIt hkeys.2 (fun b hb => hc b (by simp [hb])) ?_⟩
      intro b hb
      refine hothers b ?_ (hdue b (by simp [hb]))
      intro he
      exact hkeys.1 (he ▸ List.mem_map_of_mem hb)

/-- The same where an action may fail: those behind it find the state as it was. -/
theorem each_of_independent {D : α → σ → Prop} (key : α → κ) (Due : α → σ → Prop)
    (hD : ∀ a s, C a → I s → Due a s → D a s)
    (hstep : ∀ a s t, C a → I s → step a s = .ok t →
      I t ∧ ∀ b, key b ≠ key a → Due b s → Due b t)
    (hs : I s) (hkeys : (as.map key).Nodup) (hc : ∀ a ∈ as, C a) (hdue : ∀ a ∈ as, Due a s) :
    Each step D s as := by
  induction as generalizing s with
  | nil => trivial
  | cons a as ih =>
      rw [List.map_cons, List.nodup_cons] at hkeys
      have hother : ∀ b ∈ as, key b ≠ key a := fun b hb he =>
        hkeys.1 (he ▸ List.mem_map_of_mem hb)
      have hcs : ∀ b ∈ as, C b := fun b hb => hc b (by simp [hb])
      refine ⟨hD a s (hc a (by simp)) hs (hdue a (by simp)), ?_⟩
      cases h : step a s with
      | error e =>
          rw [settle_error]
          exact ih hs hkeys.2 hcs fun b hb => hdue b (by simp [hb])
      | ok t =>
          rw [settle_ok]
          obtain ⟨ht, hkept⟩ := hstep a s t (hc a (by simp)) hs h
          exact ih ht hkeys.2 hcs fun b hb => hkept b (hother b hb) (hdue b (by simp [hb]))

end Queues

section Outputs
variable {β : Type*}

/-- What the committed actions put out, read off the state each leaves. -/
def outputs (step : α → σ → Except ε σ) (out : α → σ → List β) : σ → List α → List β
  | _, [] => []
  | s, a :: as => match step a s with
      | .ok t => out a t ++ outputs step out t as
      | .error _ => outputs step out s as

variable {step : α → σ → Except ε σ} {out : α → σ → List β} {C : α → σ → Prop} {I : σ → Prop}
  {F : β → σ → Prop} {R : β → β → Prop} {s t : σ} {a : α} {as : List α}

theorem outputs_cons_ok (h : step a s = .ok t) :
    outputs step out s (a :: as) = out a t ++ outputs step out t as := by
  simp only [outputs, h]

theorem outputs_cons_error {e : ε} (h : step a s = .error e) :
    outputs step out s (a :: as) = outputs step out s as := by
  simp only [outputs, h]

/-- An output that leaves a fact `F` about the state behind is related to all
later ones, if the steps keep the fact and it relates to what they put out. -/
theorem outputs_related {x : β}
    (hkeep : ∀ a s t, C a s → I s → step a s = .ok t → I t ∧ ∀ x, F x s → F x t)
    (huse : ∀ a s t x, C a s → I s → step a s = .ok t → F x s → ∀ y ∈ out a t, R x y)
    (hs : I s) (hx : F x s) (hc : Each step C s as) : ∀ y ∈ outputs step out s as, R x y := by
  induction as generalizing s with
  | nil => simp [outputs]
  | cons a as ih =>
      obtain ⟨hca, hcas⟩ := hc
      cases h : step a s with
      | error e =>
          simp only [outputs, h, settle_error] at hcas ⊢
          exact ih hs hx hcas
      | ok t =>
          obtain ⟨ht, hkept⟩ := hkeep a s t hca hs h
          simp only [outputs, h, settle_ok, List.mem_append] at hcas ⊢
          rintro y (hy | hy)
          · exact huse a s t x hca hs h hx y hy
          · exact ih ht (hkept x hx) hcas y hy

theorem outputs_pairwise
    (hkeep : ∀ a s t, C a s → I s → step a s = .ok t → I t ∧ ∀ x, F x s → F x t)
    (hout : ∀ a s t, C a s → I s → step a s = .ok t →
      (out a t).Pairwise R ∧ ∀ x ∈ out a t, F x t)
    (huse : ∀ a s t x, C a s → I s → step a s = .ok t → F x s → ∀ y ∈ out a t, R x y)
    (hs : I s) (hc : Each step C s as) : (outputs step out s as).Pairwise R := by
  induction as generalizing s with
  | nil => exact List.Pairwise.nil
  | cons a as ih =>
      obtain ⟨hca, hcas⟩ := hc
      cases h : step a s with
      | error e =>
          simp only [outputs, h, settle_error] at hcas ⊢
          exact ih hs hcas
      | ok t =>
          obtain ⟨ht, _⟩ := hkeep a s t hca hs h
          obtain ⟨hpairs, hleft⟩ := hout a s t hca hs h
          simp only [outputs, h, settle_ok] at hcas ⊢
          refine List.pairwise_append.mpr ⟨hpairs, ih ht hcas, fun x hx => ?_⟩
          exact outputs_related hkeep huse ht (hleft x hx) hcas

end Outputs

/-- The actions of a run that commit, in order. -/
def committed (step : α → σ → Except ε σ) : σ → List α → List α :=
  outputs step fun a _ => [a]

section Committed
variable {step : α → σ → Except ε σ} {s t : σ} {a : α} {as : List α}

theorem committed_cons_ok (h : step a s = .ok t) :
    committed step s (a :: as) = a :: committed step t as := outputs_cons_ok h

theorem committed_cons_error {e : ε} (h : step a s = .error e) :
    committed step s (a :: as) = committed step s as := outputs_cons_error h

end Committed

section Tally
variable {M : Type*}

/-- The sum of `f` over the actions that commit. -/
def tally [AddCommMonoid M] (step : α → σ → Except ε σ) (f : α → σ → M) : σ → List α → M
  | _, [] => 0
  | s, a :: as => match step a s with
      | .ok t => f a s + tally step f t as
      | .error _ => tally step f s as

theorem tally_eq_zero [AddCommMonoid M] {step : α → σ → Except ε σ} {C : α → σ → Prop}
    {I : σ → Prop} {f : α → σ → M} {s : σ} {as : List α}
    (hstep : ∀ a s t, C a s → I s → step a s = .ok t → I t ∧ f a s = 0)
    (hs : I s) (hc : Each step C s as) : tally step f s as = 0 := by
  induction as generalizing s with
  | nil => rfl
  | cons a as ih =>
      obtain ⟨hca, hcas⟩ := hc
      cases h : step a s with
      | error e =>
          simp only [tally, h, settle_error] at hcas ⊢
          exact ih hs hcas
      | ok t =>
          obtain ⟨ht, hzero⟩ := hstep a s t hca hs h
          simp only [tally, h, settle_ok] at hcas ⊢
          rw [hzero, ih ht hcas, add_zero]

/-- What every committed step adds to `P` adds up over the run. -/
theorem eq_add_tally [AddCommMonoid M] {step : α → σ → Except ε σ} {C : α → σ → Prop}
    {I : σ → Prop} {f : α → σ → M} {P : σ → M} {s : σ} {as : List α}
    (hstep : ∀ a s t, C a s → I s → step a s = .ok t → I t ∧ P t = P s + f a s)
    (hs : I s) (hc : Each step C s as) : P (run step s as) = P s + tally step f s as := by
  induction as generalizing s with
  | nil => simp [tally]
  | cons a as ih =>
      obtain ⟨hca, hcas⟩ := hc
      cases h : step a s with
      | error e =>
          simp only [tally, run_cons, h, settle_error] at hcas ⊢
          exact ih hs hcas
      | ok t =>
          obtain ⟨ht, heq⟩ := hstep a s t hca hs h
          simp only [tally, run_cons, h, settle_ok] at hcas ⊢
          rw [ih ht hcas, heq, add_assoc]

variable [AddCommGroup M] [PartialOrder M] [IsOrderedAddMonoid M]
  {step : α → σ → Except ε σ} {C : α → σ → Prop} {I : σ → Prop} {f g : α → σ → M} {P : σ → M}
  {s : σ} {as : List α}

/-- What `f` exceeds `g` by is paid out of the potential. -/
theorem tally_le_of_potential
    (hstep : ∀ a s t, C a s → I s → step a s = .ok t → I t ∧ f a s + P t ≤ g a s + P s)
    (hs : I s) (hc : Each step C s as) :
    tally step f s as + P (run step s as) ≤ tally step g s as + P s := by
  induction as generalizing s with
  | nil => simp [tally]
  | cons a as ih =>
      obtain ⟨hca, hcas⟩ := hc
      cases h : step a s with
      | error e =>
          simp only [tally, run_cons, h, settle_error] at hcas ⊢
          exact ih hs hcas
      | ok t =>
          obtain ⟨ht, hpay⟩ := hstep a s t hca hs h
          simp only [tally, run_cons, h, settle_ok] at hcas ⊢
          calc f a s + tally step f t as + P (run step t as)
              = f a s + (tally step f t as + P (run step t as)) := by abel
            _ ≤ f a s + (tally step g t as + P t) := add_le_add_right (ih ht hcas) _
            _ = f a s + P t + tally step g t as := by abel
            _ ≤ g a s + P s + tally step g t as := add_le_add_left hpay _
            _ = g a s + tally step g t as + P s := by abel

/-- What `P` loses over a run is within the sum of what the steps may take. -/
theorem le_add_tally (hstep : ∀ a s t, C a s → I s → step a s = .ok t → I t ∧ P s ≤ P t + g a s)
    (hs : I s) (hc : Each step C s as) : P s ≤ P (run step s as) + tally step g s as := by
  induction as generalizing s with
  | nil => simp [tally]
  | cons a as ih =>
      obtain ⟨hca, hcas⟩ := hc
      cases h : step a s with
      | error e =>
          simp only [tally, run_cons, h, settle_error] at hcas ⊢
          exact ih hs hcas
      | ok t =>
          obtain ⟨ht, hle⟩ := hstep a s t hca hs h
          simp only [tally, run_cons, h, settle_ok] at hcas ⊢
          calc P s ≤ P t + g a s := hle
            _ ≤ P (run step t as) + tally step g t as + g a s := add_le_add_left (ih ht hcas) _
            _ = P (run step t as) + (g a s + tally step g t as) := by abel

end Tally

end NekoStrategies.TransactionalRun
