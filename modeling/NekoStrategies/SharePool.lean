import NekoStrategies.Attribution
import Mathlib.Algebra.Order.Field.Rat
import Mathlib.Tactic.FieldSimp
import Mathlib.Tactic.Linarith
import Mathlib.Tactic.Ring

/-!
# Pooled assets owned through shares

Holders own a pool of assets through shares. Entering mints shares worth at
most the assets brought, leaving burns shares worth at least the assets taken,
and yield only adds assets. The first entry locks `dead` shares that nobody
holds. Rounding is left open: only these inequalities are used.

Three facts carry over to any implementation: the books stay backed and never
empty again, the price of a share never falls, and no class of holders takes
out more than it put in plus what it held.
-/
namespace NekoStrategies

/-- Totals of a pool and the shares of each holder. -/
structure SharePool (ι : Type*) [DecidableEq ι] where
  held : Attribution ι
  totalShares : ℤ
  assets : ℤ

namespace SharePool
variable {ι : Type*} [DecidableEq ι]

/-- What a move brings into or takes out of the pool, in assets. -/
inductive Flow (ι : Type*) where
  | enter (i : ι) (n : ℤ)
  | leave (i : ι) (n : ℤ)
  | yield (n : ℤ)

/-- The first holder founds the pool; later moves trade at a fair price. -/
inductive Move (dead : ℤ) : SharePool ι → Flow ι → SharePool ι → Prop
  | found (p : SharePool ι) (i : ι) (n : ℤ) : p.totalShares = 0 → dead < n →
      Move dead p (.enter i n)
        ⟨p.held.set i (p.held.amount i + (n - dead)), n, p.assets + n⟩
  | mint (p : SharePool ι) (i : ι) (n s : ℤ) : 0 < p.totalShares → 0 < n → 0 < s →
      s * p.assets ≤ n * p.totalShares →
      Move dead p (.enter i n)
        ⟨p.held.set i (p.held.amount i + s), p.totalShares + s, p.assets + n⟩
  | burn (p : SharePool ι) (i : ι) (n s : ℤ) : 0 < p.totalShares → 0 < n →
      s ≤ p.held.amount i → n * p.totalShares ≤ s * p.assets →
      Move dead p (.leave i n)
        ⟨p.held.set i (p.held.amount i - s), p.totalShares - s, p.assets - n⟩
  | yield (p : SharePool ι) (n : ℤ) : 0 < n →
      Move dead p (.yield n) ⟨p.held, p.totalShares, p.assets + n⟩

/-- Either nobody holds anything, or all shares but the dead ones are held and
each share is backed by at least one unit of assets. -/
structure Backed (dead : ℤ) (p : SharePool ι) : Prop where
  nonneg : p.held.Nonneg
  books : (p.totalShares = 0 ∧ p.held.total = 0 ∧ 0 ≤ p.assets) ∨
    (p.held.total + dead = p.totalShares ∧ p.totalShares ≤ p.assets)

section Books
variable {dead : ℤ} {p q : SharePool ι} {f : Flow ι}

theorem Backed.total_nonneg (h : Backed dead p) : 0 ≤ p.held.total :=
  Finset.sum_nonneg fun k _ => h.nonneg k

theorem Backed.amount_eq_zero (h : Backed dead p) (ht : p.held.total = 0) (i : ι) :
    p.held.amount i = 0 :=
  le_antisymm (ht ▸ h.nonneg.amount_le_total) (h.nonneg i)

theorem Backed.open_books (h : Backed dead p) (hp : 0 < p.totalShares) :
    p.held.total + dead = p.totalShares ∧ p.totalShares ≤ p.assets :=
  h.books.resolve_left fun hz => hp.ne' hz.1

theorem Backed.dead_le (h : Backed dead p) (hp : 0 < p.totalShares) :
    dead ≤ p.totalShares := by
  have hb := h.open_books hp
  have ht := h.total_nonneg
  omega

/-- Shares and assets are positive together, or the pool has no shares. -/
theorem Backed.pos_or_zero (hd : 0 < dead) (h : Backed dead p) :
    p.totalShares = 0 ∨ (0 < p.totalShares ∧ 0 < p.assets) := by
  have ht := h.total_nonneg
  rcases h.books with ⟨hz, _, _⟩ | ⟨hs, hle⟩
  · exact .inl hz
  · exact .inr ⟨by omega, by omega⟩

theorem cover_after_burn {S B n s : ℤ} (hS : 0 < S) (hSB : S ≤ B) (hsS : s ≤ S)
    (hfair : n * S ≤ s * B) : S - s ≤ B - n := by
  have hrest : (S - s) * S ≤ (S - s) * B :=
    mul_le_mul_of_nonneg_left hSB (by omega)
  have hmul : (S - s) * S ≤ (B - n) * S := by linarith
  exact le_of_mul_le_mul_right hmul hS

theorem Move.backed (hd : 0 < dead) (hp : Backed dead p) (h : Move dead p f q) :
    Backed dead q := by
  have ht := hp.total_nonneg
  cases h with
  | found i n hzero hn =>
      obtain ⟨_, htotal, hassets⟩ := hp.books.resolve_right fun hb => by omega
      refine ⟨hp.nonneg.set ?_, .inr ⟨?_, ?_⟩⟩
      · have := hp.nonneg i
        omega
      · simp only [Attribution.total_set]
        omega
      · dsimp only
        omega
  | mint i n s hS hn hs hfair =>
      obtain ⟨htotal, hle⟩ := hp.open_books hS
      have hsn : s ≤ n := by
        have hsS : s * p.totalShares ≤ n * p.totalShares :=
          (mul_le_mul_of_nonneg_left hle hs.le).trans hfair
        exact le_of_mul_le_mul_right hsS hS
      refine ⟨hp.nonneg.set ?_, .inr ⟨?_, ?_⟩⟩
      · have := hp.nonneg i
        omega
      · simp only [Attribution.total_set]
        omega
      · dsimp only
        omega
  | burn i n s hS hn hs hfair =>
      obtain ⟨htotal, hle⟩ := hp.open_books hS
      have hi := hp.nonneg.amount_le_total (i := i)
      refine ⟨hp.nonneg.set (by omega), .inr ⟨?_, ?_⟩⟩
      · simp only [Attribution.total_set]
        omega
      · exact cover_after_burn hS hle (by omega) hfair
  | yield n hn =>
      refine ⟨hp.nonneg, hp.books.imp (fun hz => ⟨hz.1, hz.2.1, ?_⟩) fun hb => ⟨hb.1, ?_⟩⟩
      · dsimp only
        omega
      · dsimp only
        omega

/-- A trade leaves shares in the pool, and so does yield if there were some. -/
theorem Move.opens (hd : 0 < dead) (hp : Backed dead p)
    (hf : 0 < p.totalShares ∨ ∀ n, f ≠ .yield n) (h : Move dead p f q) :
    0 < q.totalShares := by
  cases h with
  | found i n hzero hn =>
      dsimp only
      omega
  | mint i n s hS hn hs _ =>
      dsimp only
      omega
  | burn i n s hS hn hs _ =>
      have hb := hp.open_books hS
      have hi := hp.nonneg.amount_le_total (i := i)
      dsimp only
      omega
  | yield n hn => exact hf.resolve_right fun hne => hne n rfl

theorem Move.leave_open {i : ι} {n : ℤ} (h : Move dead p (.leave i n) q) :
    0 < p.totalShares := by
  cases h with
  | burn _ _ s hS _ _ _ => exact hS

/-- A pool with shares keeps its dead shares and some assets for ever. -/
theorem Move.stays_open (hd : 0 < dead) (hp : Backed dead p) (hS : 0 < p.totalShares)
    (h : Move dead p f q) : dead ≤ q.totalShares ∧ 0 < q.assets := by
  have hq := h.backed hd hp
  have hopen := h.opens hd hp (.inl hS)
  have hb := hq.open_books hopen
  exact ⟨hq.dead_le hopen, by omega⟩

end Books

/-- Assets per share do not fall from `p` to `q`, without dividing. -/
def PriceLe (p q : SharePool ι) : Prop := p.assets * q.totalShares ≤ q.assets * p.totalShares

section Price
variable {dead : ℤ} {p q : SharePool ι} {f : Flow ι}

theorem PriceLe.refl (p : SharePool ι) : PriceLe p p := le_rfl

theorem Move.priceLe (hS : 0 < p.totalShares) (h : Move dead p f q) : PriceLe p q := by
  unfold PriceLe
  cases h with
  | found i n hzero hn => omega
  | mint i n s _ hn hs hfair => linarith
  | burn i n s _ hn hs hfair => linarith
  | yield n hn =>
      have := mul_pos hn hS
      linarith

end Price

/-- The exact value of `v` shares, in assets; zero when there are no shares. -/
def worth (p : SharePool ι) (v : ℤ) : ℚ := v * p.assets / p.totalShares

section Worth
variable {dead : ℤ} {p q : SharePool ι} {i : ι} {n : ℤ} {C : ι → Prop} [DecidablePred C]

/-- Both trades rest on one identity: the slack of the trade times the shares
the class does not own. -/
theorem trade_slack {R : Type*} [CommRing R] [LinearOrder R] [IsStrictOrderedRing R]
    {S B V n s : R} (hV : V ≤ S) (hfair : s * B ≤ n * S) :
    (V + s) * (B + n) * S ≤ (V * B + n * S) * (S + s) := by
  have h := mul_nonneg (sub_nonneg.mpr hV) (sub_nonneg.mpr hfair)
  linarith

theorem worth_mint_le {S B V n s : ℚ} (hS : 0 < S) (hs : 0 ≤ s) (hV : V ≤ S)
    (hfair : s * B ≤ n * S) : (V + s) * (B + n) / (S + s) ≤ V * B / S + n := by
  have hne : S ≠ 0 := hS.ne'
  rw [div_add' _ _ _ hne, div_le_div_iff₀ (by linarith) hS]
  exact trade_slack hV hfair

theorem worth_burn_le {S B V n s : ℚ} (hS : 0 < S) (hs : s < S) (hV : V ≤ S)
    (hfair : n * S ≤ s * B) : (V - s) * (B - n) / (S - s) + n ≤ V * B / S := by
  have hpos : 0 < S - s := by linarith
  have h := trade_slack (n := -n) (s := -s) hV (by linarith)
  rw [div_add' _ _ _ hpos.ne', div_le_div_iff₀ hpos hS]
  linarith

theorem sumOver_le_totalShares (hd : 0 < dead) (hp : Backed dead p)
    (hS : 0 < p.totalShares) : p.held.sumOver C ≤ p.totalShares := by
  have hb := hp.open_books hS
  have hC := hp.nonneg.sumOver_le_total (C := C)
  omega

/-- Entering never makes a class richer than what it brought. A founder must
find the pool without assets: otherwise the yield collected before is its. -/
theorem Move.worth_enter_le (hd : 0 < dead) (hp : Backed dead p)
    (hopen : 0 < p.totalShares ∨ p.assets = 0) (hi : C i) (h : Move dead p (.enter i n) q) :
    q.worth (q.held.sumOver C) ≤ p.worth (p.held.sumOver C) + n := by
  cases h with
  | found _ _ hzero hn =>
      obtain ⟨_, htotal, _⟩ := hp.books.resolve_right fun hb => by
        have := hp.total_nonneg
        omega
      have hC : p.held.sumOver C = 0 := le_antisymm
        (htotal ▸ hp.nonneg.sumOver_le_total) hp.nonneg.sumOver_nonneg
      have hassets := hopen.resolve_left hzero.not_gt
      have hn0 : (n : ℚ) ≠ 0 := by exact_mod_cast (hd.trans hn).ne'
      have hd0 : (0 : ℚ) < dead := by exact_mod_cast hd
      simp only [worth, Attribution.sumOver_set, hi, if_true, hC, hassets, zero_add,
        add_sub_cancel_left, Int.cast_zero, zero_mul, zero_div, Int.cast_sub]
      rw [mul_div_assoc, div_self hn0]
      linarith
  | mint _ _ s hS hn hs hfair =>
      have hV : ((p.held.sumOver C : ℤ) : ℚ) ≤ p.totalShares := by
        exact_mod_cast sumOver_le_totalShares hd hp hS
      have h := worth_mint_le (n := (n : ℚ)) (s := (s : ℚ)) (B := (p.assets : ℚ))
        (by exact_mod_cast hS) (by exact_mod_cast hs.le) hV (by exact_mod_cast hfair)
      simpa only [worth, Attribution.sumOver_set, hi, if_true, add_sub_cancel_left,
        Int.cast_add] using h

theorem Move.worth_leave_le (hd : 0 < dead) (hp : Backed dead p) (hi : C i)
    (h : Move dead p (.leave i n) q) :
    q.worth (q.held.sumOver C) + n ≤ p.worth (p.held.sumOver C) := by
  cases h with
  | burn _ _ s hS hn hs hfair =>
      have hV : ((p.held.sumOver C : ℤ) : ℚ) ≤ p.totalShares := by
        exact_mod_cast sumOver_le_totalShares hd hp hS
      have hsS : s < p.totalShares := by
        have hb := hp.open_books hS
        have := hp.nonneg.amount_le_total (i := i)
        omega
      have h := worth_burn_le (n := (n : ℚ)) (s := (s : ℚ)) (B := (p.assets : ℚ))
        (by exact_mod_cast hS) (by exact_mod_cast hsS) hV (by exact_mod_cast hfair)
      simpa only [worth, Attribution.sumOver_set, hi, if_true, sub_sub_cancel_left,
        Int.cast_add, Int.cast_sub, Int.cast_neg, ← sub_eq_add_neg] using h

end Worth

/-- What a move brings to one holder, in assets. As a trade rounds by less than one
unit, the holder's part follows it up to one unit for each trade of its own. -/
def Flow.gain (i : ι) : Flow ι → ℤ
  | .enter j n => if j = i then n else 0
  | .leave j n => if j = i then -n else 0
  | .yield _ => 0

def Flow.holder : Flow ι → Option ι
  | .enter j _ => some j
  | .leave j _ => some j
  | .yield _ => none

/-- What a move may cost one holder: the founder locks the dead shares. -/
def Flow.cost (dead : ℤ) (p : SharePool ι) (i : ι) : Flow ι → ℤ
  | .enter j _ => if j = i then if p.totalShares = 0 then dead else 1 else 0
  | .leave j _ => if j = i then 1 else 0
  | .yield _ => 0

/-- Once there are shares a trade rounds by less than one unit of assets. -/
def Tight (p q : SharePool ι) : Flow ι → Prop
  | .enter i n => 0 < p.totalShares →
      (n - 1) * p.totalShares < (q.held.amount i - p.held.amount i) * p.assets
  | .leave i n => 0 < p.totalShares →
      (p.held.amount i - q.held.amount i) * p.assets < (n + 1) * p.totalShares
  | .yield _ => True

section Stakes
variable {dead : ℤ} {p q : SharePool ι} {f : Flow ι} {i : ι} {v s n : ℤ}

theorem worth_sub : p.worth (v - s) = p.worth v - p.worth s := by
  unfold worth
  push_cast
  ring

theorem worth_mono (hS : 0 < p.totalShares) (hS' : 0 < q.totalShares) (hv : 0 ≤ v)
    (h : PriceLe p q) : p.worth v ≤ q.worth v := by
  have hSq : (0 : ℚ) < p.totalShares := by exact_mod_cast hS
  have hSq' : (0 : ℚ) < q.totalShares := by exact_mod_cast hS'
  have hvq : (0 : ℚ) ≤ v := by exact_mod_cast hv
  have hprice : (p.assets * q.totalShares : ℚ) ≤ q.assets * p.totalShares := by
    exact_mod_cast h
  unfold worth
  rw [div_le_div_iff₀ hSq hSq']
  calc (v * p.assets * q.totalShares : ℚ) = v * (p.assets * q.totalShares) := by ring
    _ ≤ v * (q.assets * p.totalShares) := mul_le_mul_of_nonneg_left hprice hvq
    _ = v * q.assets * p.totalShares := by ring

theorem Move.held_of_ne (h : Move dead p f q) (hi : f.holder ≠ some i) :
    q.held.amount i = p.held.amount i := by
  cases h with
  | found j n _ _ => exact Attribution.amount_set_of_ne fun he => hi (congrArg some he.symm)
  | mint j n s _ _ _ _ => exact Attribution.amount_set_of_ne fun he => hi (congrArg some he.symm)
  | burn j n s _ _ _ _ => exact Attribution.amount_set_of_ne fun he => hi (congrArg some he.symm)
  | yield n _ => rfl

/-- The shares of a tight entry are worth almost what it brings. -/
theorem lt_worth_add_one (hS : 0 < p.totalShares) (h : (n - 1) * p.totalShares < s * p.assets) :
    (n : ℚ) < p.worth s + 1 := by
  have hSq : (0 : ℚ) < p.totalShares := by exact_mod_cast hS
  have hcast : ((n - 1) * p.totalShares : ℚ) < s * p.assets := by exact_mod_cast h
  have := (lt_div_iff₀ hSq).mpr hcast
  unfold worth
  linarith

/-- The shares of a tight exit are worth hardly more than it takes. -/
theorem worth_lt_add_one (hS : 0 < p.totalShares) (h : s * p.assets < (n + 1) * p.totalShares) :
    p.worth s < n + 1 := by
  have hSq : (0 : ℚ) < p.totalShares := by exact_mod_cast hS
  have hcast : (s * p.assets : ℚ) < (n + 1) * p.totalShares := by exact_mod_cast h
  exact (div_lt_iff₀ hSq).mpr hcast

theorem Move.founder_stake (hd : 0 < dead) (hp : Backed dead p) (hS : p.totalShares = 0)
    (h : Move dead p f q) :
    p.worth (p.held.amount i) + f.gain i ≤ q.worth (q.held.amount i) + f.cost dead p i := by
  obtain ⟨_, htotal, hassets⟩ := hp.books.resolve_right fun hb => by
    have := hp.total_nonneg
    omega
  have hnone := hp.amount_eq_zero htotal i
  cases h with
  | found j n _ hn =>
      rw [hnone]
      simp only [worth, Flow.gain, Flow.cost, hS, if_true, Attribution.amount_set]
      by_cases hij : i = j
      · subst hij
        have hnq : (0 : ℚ) < n := by exact_mod_cast hd.trans hn
        have hdn : (dead : ℚ) ≤ n := by exact_mod_cast hn.le
        have hA : (0 : ℚ) ≤ p.assets := by exact_mod_cast hassets
        have hpart : (n - dead : ℚ) ≤ (n - dead) * (p.assets + n) / n := by
          rw [le_div_iff₀ hnq]
          exact mul_le_mul_of_nonneg_left (by linarith) (by linarith)
        simp only [hnone, if_true, Int.cast_zero, zero_mul, zero_div, zero_add, Int.cast_sub,
          Int.cast_add]
        linarith
      · simp [hij, Ne.symm hij, hnone]
  | mint _ _ _ hS' => omega
  | burn _ _ _ hS' => omega
  | yield n hn => simp [worth, hS, Flow.gain, Flow.cost]

/-- Up to one unit a tight move leaves every holder what it had and brought. -/
theorem Move.stake_le (hd : 0 < dead) (hp : Backed dead p) (h : Move dead p f q)
    (ht : Tight p q f) :
    p.worth (p.held.amount i) + f.gain i ≤ q.worth (q.held.amount i) + f.cost dead p i := by
  rcases hp.pos_or_zero hd with hS | ⟨hS, _⟩
  · exact h.founder_stake hd hp hS
  · have hS' : 0 < q.totalShares := hd.trans_le (h.stays_open hd hp hS).1
    have hgrown := worth_mono hS hS' ((h.backed hd hp).nonneg i) (h.priceLe hS)
    have hframe : f.gain i = 0 ∧ f.cost dead p i = 0 → q.held.amount i = p.held.amount i →
        p.worth (p.held.amount i) + f.gain i ≤ q.worth (q.held.amount i) + f.cost dead p i := by
      rintro ⟨hgain, hcost⟩ hsame
      rw [hsame] at hgrown ⊢
      rw [hgain, hcost]
      linarith
    cases f with
    | enter j n =>
        by_cases hij : j = i
        · subst hij
          have hclose := lt_worth_add_one hS (ht hS)
          rw [worth_sub] at hclose
          simp only [Flow.gain, Flow.cost, hS.ne', if_true, if_false, Int.cast_one]
          linarith
        · exact hframe (by simp [Flow.gain, Flow.cost, hij])
            (h.held_of_ne (by simpa [Flow.holder] using hij))
    | leave j n =>
        by_cases hij : j = i
        · subst hij
          have hclose := worth_lt_add_one hS (ht hS)
          rw [worth_sub] at hclose
          simp only [Flow.gain, Flow.cost, if_true, Int.cast_one, Int.cast_neg]
          linarith
        · exact hframe (by simp [Flow.gain, Flow.cost, hij])
            (h.held_of_ne (by simpa [Flow.holder] using hij))
    | yield n => exact hframe ⟨rfl, rfl⟩ (h.held_of_ne (by simp [Flow.holder]))

end Stakes

/-- What a move brings to a class of holders, in assets. What it gains beyond is the
yield, which the founder collects if it came before, and less than one unit from
the rounding of each trade of somebody else. -/
def Flow.classGain (C : ι → Prop) [DecidablePred C] : Flow ι → ℤ
  | .enter j n => if C j then n else 0
  | .leave j n => if C j then -n else 0
  | .yield _ => 0

/-- What a class may gain from a move beyond what it brings. -/
def Flow.windfall (p : SharePool ι) (C : ι → Prop) [DecidablePred C] : Flow ι → ℤ
  | .enter j _ => if p.totalShares = 0 then p.assets else if C j then 0 else 1
  | .leave j _ => if C j then 0 else 1
  | .yield n => n

section Windfalls
variable {dead : ℤ} {p q : SharePool ι} {f : Flow ι} {C : ι → Prop} [DecidablePred C]

theorem worth_mint_windfall {S B V n s : ℚ} (hS : 0 < S) (hs : 0 ≤ s) (hV0 : 0 ≤ V) (hV : V ≤ S)
    (ht : (n - 1) * S < s * B) : V * (B + n) / (S + s) ≤ V * B / S + 1 := by
  have hround : V * ((n - 1) * S) ≤ V * (s * B) := mul_le_mul_of_nonneg_left ht.le hV0
  have hpart : V * S ≤ S * S := mul_le_mul_of_nonneg_right hV hS.le
  rw [div_add' _ _ _ hS.ne', div_le_div_iff₀ (by linarith) hS]
  have hSs := mul_nonneg hS.le hs
  linarith

/-- Somebody else's tight exit: the class holds no more than the shares left. -/
theorem worth_burn_windfall {S B V n s : ℚ} (hS : 0 < S) (hs : s < S) (hV0 : 0 ≤ V)
    (hV : V ≤ S - s) (ht : s * B < (n + 1) * S) : V * (B - n) / (S - s) ≤ V * B / S + 1 := by
  have hround : V * (s * B) ≤ V * ((n + 1) * S) := mul_le_mul_of_nonneg_left ht.le hV0
  have hpart : V * S ≤ (S - s) * S := mul_le_mul_of_nonneg_right hV hS.le
  rw [div_add' _ _ _ hS.ne', div_le_div_iff₀ (by linarith) hS]
  linarith

theorem Move.founder_gain (hd : 0 < dead) (hp : Backed dead p) (hS : p.totalShares = 0)
    (h : Move dead p f q) :
    q.worth (q.held.sumOver C) ≤
      p.worth (p.held.sumOver C) + f.classGain C + f.windfall p C := by
  obtain ⟨_, htotal, hassets⟩ := hp.books.resolve_right fun hb => by
    have := hp.total_nonneg
    omega
  have hC : p.held.sumOver C = 0 :=
    le_antisymm (htotal ▸ hp.nonneg.sumOver_le_total) hp.nonneg.sumOver_nonneg
  have hA : (0 : ℚ) ≤ p.assets := by exact_mod_cast hassets
  cases h with
  | found j n _ hn =>
      have hnq : (0 : ℚ) < n := by exact_mod_cast hd.trans hn
      have hdq : (0 : ℚ) < dead := by exact_mod_cast hd
      simp only [worth, Flow.classGain, Flow.windfall, Attribution.sumOver_set, hC, hS, if_true,
        add_sub_cancel_left, zero_add]
      by_cases hj : C j
      · have hpart : (n - dead : ℚ) * (p.assets + n) / n ≤ p.assets + n := by
          rw [div_le_iff₀ hnq, mul_comm]
          exact mul_le_mul_of_nonneg_left (by linarith) (by linarith)
        simp only [hj, if_true, Int.cast_sub, Int.cast_add, Int.cast_zero, zero_mul, zero_div]
        linarith
      · simpa [hj] using hA
  | mint _ _ _ hS' => omega
  | burn _ _ _ hS' => omega
  | yield n hn =>
      have hnq : (0 : ℚ) ≤ n := by exact_mod_cast hn.le
      simpa [worth, hS, Flow.classGain, Flow.windfall] using hnq

/-- A tight move makes no class richer than what it brings and the windfall. -/
theorem Move.class_gain_le (hd : 0 < dead) (hp : Backed dead p) (h : Move dead p f q)
    (ht : Tight p q f) :
    q.worth (q.held.sumOver C) ≤
      p.worth (p.held.sumOver C) + f.classGain C + f.windfall p C := by
  rcases hp.pos_or_zero hd with hS | ⟨hS, _⟩
  · exact h.founder_gain hd hp hS
  have hq := h.backed hd hp
  have hS' : 0 < q.totalShares := hd.trans_le (h.stays_open hd hp hS).1
  have hSq : (0 : ℚ) < p.totalShares := by exact_mod_cast hS
  have hV0 : (0 : ℚ) ≤ p.held.sumOver C := by exact_mod_cast hp.nonneg.sumOver_nonneg
  have hV : (p.held.sumOver C : ℚ) ≤ p.totalShares := by
    exact_mod_cast sumOver_le_totalShares hd hp hS
  have hVq : (q.held.sumOver C : ℚ) ≤ q.totalShares := by
    exact_mod_cast sumOver_le_totalShares hd hq hS'
  cases f with
  | enter j n =>
      by_cases hj : C j
      · have hfair := h.worth_enter_le hd hp (.inl hS) hj
        simpa [Flow.classGain, Flow.windfall, hj, hS.ne'] using hfair
      · have htight := ht hS
        cases h with
        | found _ _ hzero => omega
        | mint _ _ s _ _ hs _ =>
            simp only [Attribution.amount_set_self, add_sub_cancel_left] at htight
            have hround := worth_mint_windfall (B := p.assets) hSq (s := s) (n := n)
              (by exact_mod_cast hs.le) hV0 hV (by exact_mod_cast htight)
            simpa [worth, Flow.classGain, Flow.windfall, hj, hS.ne', Attribution.sumOver_set]
              using hround
  | leave j n =>
      by_cases hj : C j
      · have hfair := h.worth_leave_le hd hp hj
        simp only [Flow.classGain, Flow.windfall, hj, if_true, Int.cast_neg, Int.cast_zero]
        linarith
      · have htight := ht hS
        cases h with
        | burn _ _ s _ _ _ _ =>
            simp only [Attribution.amount_set_self, sub_sub_cancel] at htight
            simp only [Attribution.sumOver_set, hj, if_false, add_zero, Int.cast_sub] at hVq
            have hs : (s : ℚ) < p.totalShares := by
              have : s < p.totalShares := by simpa using hS'
              exact_mod_cast this
            have hround := worth_burn_windfall (B := p.assets) hSq (s := s) (n := n) hs hV0 hVq
              (by exact_mod_cast htight)
            simpa [worth, Flow.classGain, Flow.windfall, hj, Attribution.sumOver_set]
              using hround
  | yield n =>
      cases h with
      | yield _ hn =>
          have hnq : (0 : ℚ) ≤ n := by exact_mod_cast hn.le
          have hpart : (p.held.sumOver C : ℚ) * n / p.totalShares ≤ n := by
            rw [div_le_iff₀ hSq, mul_comm]
            exact mul_le_mul_of_nonneg_left hV hnq
          simp only [worth, Flow.classGain, Flow.windfall, Int.cast_zero, add_zero, Int.cast_add]
          rw [mul_add, add_div]
          linarith

end Windfalls

end SharePool

end NekoStrategies
