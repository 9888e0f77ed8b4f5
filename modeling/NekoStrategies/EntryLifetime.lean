import NekoStrategies.TransactionalRun
import Mathlib.Logic.Function.Basic

/-!
# Entries that live until a ledger

A contract keeps its state in entries, each of which lives until some ledger.
Time shortens what is left, uses may prolong it, and an invocation that needs an
archived entry is refused until somebody restores it, be it the transaction itself
just before (a `prolong` ahead of the call). A machine is put under this
regime by saying which entries its actions need and how they prolong them. What
one committed action guarantees then lasts for a number of ledgers, whatever
happens in between; and refusals are all that the regime adds to its runs.
-/
namespace NekoStrategies.EntryLifetime
open TransactionalRun

/-- The limits that a network sets, in ledgers. -/
structure Network where
  minPersistentTtl : ℕ
  maxEntryTtl : ℕ
deriving DecidableEq, Repr

/-- `extend_ttl(threshold, extend_to)`: nothing happens while more than the
threshold is left, and no entry lives longer than the network lets it. -/
def extendTtl (net : Network) (now threshold extendTo liveUntil : ℕ) : ℕ :=
  let newLiveUntil := now + min extendTo (net.maxEntryTtl - 1)
  if liveUntil < newLiveUntil ∧ liveUntil - now ≤ threshold then newLiveUntil else liveUntil

section Ttl
variable {net : Network} {now threshold extendTo liveUntil : ℕ}

theorem le_extendTtl : liveUntil ≤ extendTtl net now threshold extendTo liveUntil := by
  unfold extendTtl
  dsimp only
  split_ifs with h
  · exact h.1.le
  · exact le_rfl

/-- At least the threshold is left after it. -/
theorem threshold_le_extendTtl (h : threshold ≤ extendTo) :
    now + min threshold (net.maxEntryTtl - 1) ≤
      extendTtl net now threshold extendTo liveUntil := by
  unfold extendTtl
  dsimp only
  split_ifs <;> omega

/-- A new entry that is extended at once. -/
theorem extendTtl_new :
    extendTtl net now threshold extendTo (now + (net.minPersistentTtl - 1)) ≤
      now + max (net.minPersistentTtl - 1) extendTo := by
  unfold extendTtl
  dsimp only
  split_ifs <;> omega

end Ttl

/-- The current ledger, and until when each entry lives that exists. -/
structure Lifetimes (κ : Type*) where
  now : ℕ
  liveUntil : κ → Option ℕ

namespace Lifetimes
variable {κ : Type*}

/-- The entry is not archived. -/
def Live (l : Lifetimes κ) (key : κ) : Prop := ∀ u, l.liveUntil key = some u → l.now ≤ u

instance (l : Lifetimes κ) (key : κ) : Decidable (l.Live key) :=
  match h : l.liveUntil key with
  | none => isTrue fun u hu => by rw [h] at hu; cases hu
  | some u => decidable_of_iff (l.now ≤ u) (by simp [Live, h])

/-- Every entry lives at least as long as before. -/
def Kept (l l' : Lifetimes κ) : Prop :=
  ∀ key u, l.liveUntil key = some u → ∃ u', l'.liveUntil key = some u' ∧ u ≤ u'

theorem Kept.refl (l : Lifetimes κ) : l.Kept l := fun _ u h => ⟨u, h, le_rfl⟩

theorem Kept.trans {l l' l'' : Lifetimes κ} (h : l.Kept l') (h' : l'.Kept l'') : l.Kept l'' := by
  intro key u hu
  obtain ⟨u', hu', hle⟩ := h key u hu
  obtain ⟨u'', hu'', hle'⟩ := h' key u' hu'
  exact ⟨u'', hu'', hle.trans hle'⟩

def elapse (l : Lifetimes κ) (ledgers : ℕ) : Lifetimes κ := { l with now := l.now + ledgers }

variable [DecidableEq κ]

/-- Change until when an existing entry lives. -/
def adjust (l : Lifetimes κ) (key : κ) (f : ℕ → ℕ) : Lifetimes κ :=
  { l with liveUntil := Function.update l.liveUntil key ((l.liveUntil key).map f) }

def extend (l : Lifetimes κ) (net : Network) (key : κ) (threshold extendTo : ℕ) : Lifetimes κ :=
  l.adjust key (extendTtl net l.now threshold extendTo)

/-- An extension or restoration that anybody may pay for. -/
def prolong (l : Lifetimes κ) (key : κ) (liveUntil : ℕ) : Lifetimes κ :=
  l.adjust key (max liveUntil)

/-- Until when an entry lives once it is written: one that exists as long as before. -/
def written (l : Lifetimes κ) (net : Network) (key : κ) : ℕ :=
  (l.liveUntil key).getD (l.now + (net.minPersistentTtl - 1))

def write (l : Lifetimes κ) (net : Network) (key : κ) : Lifetimes κ :=
  { l with liveUntil := Function.update l.liveUntil key (some (l.written net key)) }

section Rules
variable {l l' : Lifetimes κ} {net : Network} {key other : κ} {f : ℕ → ℕ} {n : ℕ}
  {threshold extendTo : ℕ}

theorem adjust_self : (l.adjust key f).liveUntil key = (l.liveUntil key).map f := by
  simp [adjust]

theorem adjust_of_ne (h : other ≠ key) : (l.adjust key f).liveUntil other = l.liveUntil other := by
  simp [adjust, h]

theorem extend_self : (l.extend net key threshold extendTo).liveUntil key =
    (l.liveUntil key).map (extendTtl net l.now threshold extendTo) := adjust_self

theorem extend_of_ne (h : other ≠ key) :
    (l.extend net key threshold extendTo).liveUntil other = l.liveUntil other := adjust_of_ne h

theorem write_self : (l.write net key).liveUntil key = some (l.written net key) := by
  simp [write]

theorem write_of_ne (h : other ≠ key) : (l.write net key).liveUntil other = l.liveUntil other := by
  simp [write, h]

theorem kept_adjust (hf : ∀ u, u ≤ f u) : l.Kept (l.adjust key f) := by
  intro other u hu
  by_cases h : other = key
  · subst h
    exact ⟨f u, by rw [adjust_self, hu, Option.map_some], hf u⟩
  · exact ⟨u, (adjust_of_ne h).trans hu, le_rfl⟩

theorem kept_extend : l.Kept (l.extend net key threshold extendTo) :=
  kept_adjust fun _ => le_extendTtl

theorem kept_prolong : l.Kept (l.prolong key n) := kept_adjust fun _ => le_max_right _ _

theorem kept_write : l.Kept (l.write net key) := by
  intro other u hu
  by_cases h : other = key
  · subst h
    exact ⟨u, by rw [write_self, written, hu, Option.getD_some], le_rfl⟩
  · exact ⟨u, (write_of_ne h).trans hu, le_rfl⟩

end Rules

end Lifetimes

/-- Which entries an action needs, and how it prolongs them once it commits. -/
structure Usage (σ α κ : Type*) where
  footprint : α → List κ
  touch : α → σ → Lifetimes κ → Lifetimes κ

/-- Actions take no time and never shorten a lifetime. -/
structure Usage.Lawful {σ α κ : Type*} (u : Usage σ α κ) : Prop where
  touch_now : ∀ a s (l : Lifetimes κ), (u.touch a s l).now = l.now
  touch_kept : ∀ a s (l : Lifetimes κ), l.Kept (u.touch a s l)

structure Timed (σ κ : Type*) where
  state : σ
  life : Lifetimes κ

inductive TimedAction (α κ : Type*) where
  | act (a : α)
  | elapse (ledgers : ℕ)
  | prolong (key : κ) (liveUntil : ℕ)

/-- The ledgers that it takes. -/
def TimedAction.ledgers {α κ : Type*} : TimedAction α κ → ℕ
  | .elapse ledgers => ledgers
  | _ => 0

def elapsed {α κ : Type*} (acts : List (TimedAction α κ)) : ℕ := (acts.map TimedAction.ledgers).sum

theorem elapsed_cons {α κ : Type*} (b : TimedAction α κ) (acts : List (TimedAction α κ)) :
    elapsed (b :: acts) = b.ledgers + elapsed acts := by simp [elapsed]

/-- Why an action does not commit. -/
inductive Refusal (ε : Type*) where
  | archived
  | fault (e : ε)

section Machine
variable {σ α κ ε : Type*} [DecidableEq κ] (step : α → σ → Except ε σ) (usage : Usage σ α κ)

def timedStep : TimedAction α κ → Timed σ κ → Except (Refusal ε) (Timed σ κ)
  | .act a, t =>
      if ∀ key ∈ usage.footprint a, t.life.Live key then
        match step a t.state with
        | .ok s => .ok ⟨s, usage.touch a t.state t.life⟩
        | .error e => .error (.fault e)
      else .error .archived
  | .elapse ledgers, t => .ok { t with life := t.life.elapse ledgers }
  | .prolong key liveUntil, t => .ok { t with life := t.life.prolong key liveUntil }

end Machine

section Runs
variable {σ α κ ε : Type*} [DecidableEq κ] {step : α → σ → Except ε σ} {usage : Usage σ α κ}
  {t t' : Timed σ κ} {a : α} {b : TimedAction α κ} {acts : List (TimedAction α κ)} {key : κ}
  {u d : ℕ}

theorem act_eq_ok : timedStep step usage (.act a) t = .ok t' ↔
    (∀ key ∈ usage.footprint a, t.life.Live key) ∧
      ∃ s, step a t.state = .ok s ∧ t' = ⟨s, usage.touch a t.state t.life⟩ := by
  simp only [timedStep]
  split_ifs with hlive
  · cases step a t.state with
    | ok s =>
        simp only [Except.ok.injEq, exists_eq_left', and_iff_right hlive]
        exact eq_comm
    | error e => simp
  · simp [hlive]

theorem act_archived (hkey : key ∈ usage.footprint a) (h : ¬t.life.Live key) :
    timedStep step usage (.act a) t = .error .archived := by
  simp only [timedStep]
  rw [if_neg fun hlive => h (hlive key hkey)]

/-- A step takes its ledgers and keeps all lifetimes. -/
theorem step_kept (hu : usage.Lawful) (h : timedStep step usage b t = .ok t') :
    t'.life.now = t.life.now + b.ledgers ∧ t.life.Kept t'.life := by
  cases b with
  | act a =>
      obtain ⟨_, s, _, rfl⟩ := act_eq_ok.mp h
      exact ⟨hu.touch_now a _ _, hu.touch_kept a _ _⟩
  | elapse ledgers =>
      obtain rfl := Except.ok.inj h
      exact ⟨rfl, Lifetimes.Kept.refl _⟩
  | prolong key liveUntil =>
      obtain rfl := Except.ok.inj h
      exact ⟨rfl, Lifetimes.kept_prolong⟩

/-- What is refused takes no time. -/
theorem ledgers_of_error {e : Refusal ε} (h : timedStep step usage b t = .error e) :
    b.ledgers = 0 := by
  cases b with
  | act a => rfl
  | elapse ledgers => cases h
  | prolong key liveUntil => rfl

theorem run_kept (step : α → σ → Except ε σ) (hu : usage.Lawful) (t : Timed σ κ)
    (acts : List (TimedAction α κ)) :
    (run (timedStep step usage) t acts).life.now = t.life.now + elapsed acts ∧
      t.life.Kept (run (timedStep step usage) t acts).life := by
  induction acts generalizing t with
  | nil => exact ⟨rfl, Lifetimes.Kept.refl _⟩
  | cons b acts ih =>
      rw [run_cons, elapsed_cons]
      cases h : timedStep step usage b t with
      | error e =>
          rw [settle_error, ledgers_of_error h, zero_add]
          exact ih t
      | ok s =>
          obtain ⟨hnow, hkept⟩ := step_kept hu h
          obtain ⟨hnow', hkept'⟩ := ih s
          rw [settle_ok]
          exact ⟨by rw [hnow', hnow, add_assoc], hkept.trans hkept'⟩

/-- What an entry has left it has left, whatever happens. -/
theorem run_live (hu : usage.Lawful) (hkey : t.life.liveUntil key = some u)
    (hleft : t.life.now + d ≤ u) (hd : elapsed acts ≤ d) :
    (run (timedStep step usage) t acts).life.Live key := by
  obtain ⟨hnow, hkept⟩ := run_kept step hu t acts
  obtain ⟨u', hu', hle⟩ := hkept key u hkey
  intro v hv
  obtain rfl := Option.some.inj (hu'.symm.trans hv)
  omega

/-- For `d` more ledgers the entry is not archived, whatever happens. -/
def LivesFor (step : TimedAction α κ → Timed σ κ → Except ε (Timed σ κ)) (t : Timed σ κ) (key : κ)
    (d : ℕ) : Prop :=
  ∀ acts, elapsed acts ≤ d → (run step t acts).life.Live key

/-- What an action leaves an entry, it has. -/
theorem livesFor_of_act (hu : usage.Lawful) (h : timedStep step usage (.act a) t = .ok t')
    (hkey : (usage.touch a t.state t.life).liveUntil key = some u) (hleft : t.life.now + d ≤ u) :
    LivesFor (timedStep step usage) t' key d := by
  obtain ⟨_, s, _, rfl⟩ := act_eq_ok.mp h
  intro acts hd
  refine run_live hu hkey ?_ hd
  dsimp only
  rwa [hu.touch_now]

/-- An entry that no action of a run prolongs keeps its end. -/
theorem run_liveUntil {I : σ → Prop} {C : α → Prop}
    (hstep : ∀ a s s', C a → I s → step a s = .ok s' → I s')
    (htouch : ∀ a s s' l, C a → I s → step a s = .ok s' →
      (usage.touch a s l).liveUntil key = l.liveUntil key)
    (hI : I t.state) (hacts : ∀ b ∈ acts, (∀ a, b = .act a → C a) ∧ ∀ n, b ≠ .prolong key n) :
    (run (timedStep step usage) t acts).life.liveUntil key = t.life.liveUntil key := by
  have heach : Each (timedStep step usage)
      (fun b _ => (∀ a, b = .act a → C a) ∧ ∀ n, b ≠ .prolong key n) t acts :=
    each_of_forall fun b hb _ => hacts b hb
  refine (run_invariant (I := fun s : Timed σ κ => I s.state ∧
    s.life.liveUntil key = t.life.liveUntil key) ?_ ⟨hI, rfl⟩ heach).2
  rintro b s s' ⟨hact, hprolong⟩ ⟨hs, hkey⟩ h
  cases b with
  | act a =>
      obtain ⟨_, r, hr, rfl⟩ := act_eq_ok.mp h
      exact ⟨hstep a _ _ (hact a rfl) hs hr, (htouch a _ _ _ (hact a rfl) hs hr).trans hkey⟩
  | elapse ledgers =>
      obtain rfl := Except.ok.inj h
      exact ⟨hs, hkey⟩
  | prolong other n =>
      obtain rfl := Except.ok.inj h
      have hne : key ≠ other := by
        rintro rfl
        exact hprolong n rfl
      exact ⟨hs, (Lifetimes.adjust_of_ne hne).trans hkey⟩

/-- Once its end has passed, whoever needs the entry is refused. -/
theorem run_archived {I : σ → Prop} {C : α → Prop} (hu : usage.Lawful)
    (hstep : ∀ a s s', C a → I s → step a s = .ok s' → I s')
    (htouch : ∀ a s s' l, C a → I s → step a s = .ok s' →
      (usage.touch a s l).liveUntil key = l.liveUntil key)
    (hI : I t.state) (hacts : ∀ b ∈ acts, (∀ a, b = .act a → C a) ∧ ∀ n, b ≠ .prolong key n)
    (hkey : t.life.liveUntil key = some u) (hlong : u < t.life.now + elapsed acts)
    (hmem : key ∈ usage.footprint a) :
    timedStep step usage (.act a) (run (timedStep step usage) t acts) = .error .archived := by
  apply act_archived hmem
  intro hlive
  have hend := run_liveUntil hstep htouch hI hacts
  have hle := hlive u (hend.trans hkey)
  rw [(run_kept step hu t acts).1] at hle
  omega

end Runs

end NekoStrategies.EntryLifetime
