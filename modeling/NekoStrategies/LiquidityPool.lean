import Mathlib.Algebra.Order.Field.Rat
import Mathlib.Logic.Relation
import Mathlib.Tactic.FieldSimp
import Mathlib.Tactic.GCongr
import Mathlib.Tactic.Linarith
import Mathlib.Tactic.Positivity
import Mathlib.Tactic.Ring

/-!
# Liquidity of a two-token pool

Two reserves are owned through shares. A swap keeps their product from falling,
whoever joins brings at least the proportional part of both reserves, and
whoever leaves takes at most that part. So the product of the two reserves
behind one share, its depth, never falls, whoever trades.

The depth bounds what the owners of some of the shares can take out in one of
the tokens while the other shares stay: as much of the other token as is in the
pool, the depth of the staying shares keeps the rest of the first one there.
-/
namespace NekoStrategies

structure LiquidityPool where
  a : ℤ
  b : ℤ
  shares : ℤ
deriving DecidableEq, Repr

namespace LiquidityPool

/-- Somebody owns something of both reserves. -/
structure Open (p : LiquidityPool) : Prop where
  a_pos : 0 < p.a
  b_pos : 0 < p.b
  shares_pos : 0 < p.shares

/-- The reserves move by a swap, or with the shares. -/
inductive Move : LiquidityPool → LiquidityPool → Prop
  | swap (p : LiquidityPool) (x y : ℤ) : 0 < p.a + x → p.a * p.b ≤ (p.a + x) * (p.b + y) →
      Move p ⟨p.a + x, p.b + y, p.shares⟩
  | join (p : LiquidityPool) (x y n : ℤ) : 0 ≤ x → 0 ≤ y → 0 ≤ n →
      n * p.a ≤ x * p.shares → n * p.b ≤ y * p.shares →
      Move p ⟨p.a + x, p.b + y, p.shares + n⟩
  | leave (p : LiquidityPool) (x y n : ℤ) : n < p.shares →
      x * p.shares ≤ n * p.a → y * p.shares ≤ n * p.b →
      Move p ⟨p.a - x, p.b - y, p.shares - n⟩

/-- Any number of moves, by anybody. -/
abbrev Moves : LiquidityPool → LiquidityPool → Prop := Relation.ReflTransGen Move

/-- The product of the parts of the two reserves behind one share. -/
def depth (p : LiquidityPool) : ℚ := p.a * p.b / p.shares ^ 2

section Depth
variable {p q : LiquidityPool}

theorem Open.depth_pos (hp : p.Open) : 0 < p.depth := by
  have ha : (0 : ℚ) < p.a := by exact_mod_cast hp.a_pos
  have hb : (0 : ℚ) < p.b := by exact_mod_cast hp.b_pos
  have hs : (0 : ℚ) < p.shares := by exact_mod_cast hp.shares_pos
  unfold depth
  positivity

theorem rest_pos {r x s n : ℤ} (hr : 0 < r) (hs : 0 < s) (hn : n < s) (hx : x * s ≤ n * r) :
    0 < r - x := by
  have hrest : 0 < (s - n) * r := mul_pos (by omega) hr
  have hscaled : 0 < (r - x) * s := by linarith
  exact pos_of_mul_pos_left hscaled hs.le

theorem Move.open (hp : p.Open) (h : Move p q) : q.Open := by
  obtain ⟨ha, hb, hs⟩ := hp
  cases h with
  | swap x y hx hproduct =>
      have hpos : 0 < (p.a + x) * (p.b + y) := (mul_pos ha hb).trans_le hproduct
      exact ⟨hx, pos_of_mul_pos_right hpos hx.le, hs⟩
  | join x y n hx hy hn _ _ => exact ⟨by linarith, by linarith, by linarith⟩
  | leave x y n hn hxa hyb =>
      exact ⟨rest_pos ha hs hn hxa, rest_pos hb hs hn hyb, by linarith⟩

/-- The product per squared share does not fall if neither reserve per share does. -/
theorem depth_le_of_parts (hp : p.Open) (hq : q.Open) (ha : p.a * q.shares ≤ q.a * p.shares)
    (hb : p.b * q.shares ≤ q.b * p.shares) : p.depth ≤ q.depth := by
  have hps : (0 : ℚ) < p.shares := by exact_mod_cast hp.shares_pos
  have hqs : (0 : ℚ) < q.shares := by exact_mod_cast hq.shares_pos
  have hparts : (p.a * q.shares) * (p.b * q.shares) ≤ (q.a * p.shares) * (q.b * p.shares) :=
    mul_le_mul ha hb (mul_nonneg hp.b_pos.le hq.shares_pos.le)
      (mul_nonneg hq.a_pos.le hp.shares_pos.le)
  have hcast : (p.a * q.shares * (p.b * q.shares) : ℚ) ≤ q.a * p.shares * (q.b * p.shares) := by
    exact_mod_cast hparts
  unfold depth
  rw [div_le_div_iff₀ (by positivity) (by positivity)]
  linarith

theorem Move.depth_le (hp : p.Open) (h : Move p q) : p.depth ≤ q.depth := by
  have hq := h.open hp
  cases h with
  | swap x y hx hproduct =>
      have hs : (0 : ℚ) < p.shares := by exact_mod_cast hp.shares_pos
      have hcast : (p.a * p.b : ℚ) ≤ (p.a + x : ℤ) * (p.b + y : ℤ) := by exact_mod_cast hproduct
      unfold depth
      gcongr
  | join x y n _ _ _ hxa hyb =>
      apply depth_le_of_parts hp hq
      · dsimp only
        linarith
      · dsimp only
        linarith
  | leave x y n _ hxa hyb =>
      apply depth_le_of_parts hp hq
      · dsimp only
        linarith
      · dsimp only
        linarith

theorem Moves.deepen (hp : p.Open) (h : Moves p q) : q.Open ∧ p.depth ≤ q.depth := by
  induction h with
  | refl => exact ⟨hp, le_rfl⟩
  | tail _ hmove ih => exact ⟨hmove.open ih.1, ih.2.trans (hmove.depth_le ih.1)⟩

end Depth

/-- The product of the two parts of the reserves behind `n` shares. -/
def behind (p : LiquidityPool) (n : ℤ) : ℚ := n * p.a / p.shares * (n * p.b / p.shares)

/-- What the owners of all but `staying` shares may take out of the first
reserve, the second one being what it is. -/
def takeable (staying : ℤ) (p : LiquidityPool) : ℚ := p.a - staying ^ 2 * p.depth / p.b

section Claims
variable {p q : LiquidityPool} {n m : ℤ}

theorem behind_eq (p : LiquidityPool) (n : ℤ) : p.behind n = n ^ 2 * p.depth := by
  unfold behind depth
  ring

theorem behind_mono (hn : 0 ≤ n) (hnm : n ≤ m) (hp : p.Open) (h : p.depth ≤ q.depth) :
    p.behind n ≤ q.behind m := by
  have hdepth := hp.depth_pos
  have hn' : (0 : ℚ) ≤ n := by exact_mod_cast hn
  have hnm' : (n : ℚ) ≤ m := by exact_mod_cast hnm
  rw [behind_eq, behind_eq]
  gcongr

theorem takeable_self (hp : p.Open) : p.takeable p.shares = 0 := by
  have hb : (p.b : ℚ) ≠ 0 := by exact_mod_cast hp.b_pos.ne'
  have hs : (p.shares : ℚ) ≠ 0 := by exact_mod_cast hp.shares_pos.ne'
  unfold takeable depth
  field_simp
  ring

/-- Owners of some of the shares can take out something or nothing. -/
theorem takeable_nonneg (hp : p.Open) (hn : 0 ≤ n) (hle : n ≤ p.shares) : 0 ≤ p.takeable n := by
  have ha : (0 : ℚ) < p.a := by exact_mod_cast hp.a_pos
  have hb : (0 : ℚ) < p.b := by exact_mod_cast hp.b_pos
  have hs : (0 : ℚ) < p.shares := by exact_mod_cast hp.shares_pos
  have hn' : (0 : ℚ) ≤ n := by exact_mod_cast hn
  have hle' : (n : ℚ) ≤ p.shares := by exact_mod_cast hle
  have hkept : (n ^ 2 * p.depth / p.b : ℚ) ≤ p.a :=
    calc (n ^ 2 * p.depth / p.b : ℚ)
        = n ^ 2 * p.a / p.shares ^ 2 := by
          unfold depth
          field_simp
      _ ≤ p.shares ^ 2 * p.a / p.shares ^ 2 := by gcongr
      _ = p.a := by field_simp
  unfold takeable
  linarith

end Claims

/-- `paid` leaves the first reserve for `brought`, the second one does not grow,
and the depth does not fall. -/
structure Trade (p q : LiquidityPool) (paid brought : ℤ) : Prop where
  depth_le : p.depth ≤ q.depth
  b_le : q.b ≤ p.b
  a_le : q.a + paid ≤ p.a + brought

section Trades
variable {p q r : LiquidityPool} {n paid brought paid' brought' : ℤ}

theorem Trade.refl (p : LiquidityPool) : Trade p p 0 0 := ⟨le_rfl, le_rfl, le_rfl⟩

theorem Trade.trans (h : Trade p q paid brought) (h' : Trade q r paid' brought') :
    Trade p r (paid + paid') (brought + brought') := by
  refine ⟨h.depth_le.trans h'.depth_le, h'.b_le.trans h.b_le, ?_⟩
  have := h.a_le
  have := h'.a_le
  omega

/-- What leaves the first reserve beyond what is brought was takeable. -/
theorem Trade.takes (hq : q.Open) (h : Trade p q paid brought) :
    paid + q.takeable n ≤ brought + p.takeable n := by
  have hqb : (0 : ℚ) < q.b := by exact_mod_cast hq.b_pos
  have hbq : (q.b : ℚ) ≤ p.b := by exact_mod_cast h.b_le
  have haq : (q.a + paid : ℚ) ≤ p.a + brought := by exact_mod_cast h.a_le
  have hpos := hq.depth_pos
  have hdepth := h.depth_le
  have hkept : (n ^ 2 * p.depth / p.b : ℚ) ≤ n ^ 2 * q.depth / q.b := by gcongr
  unfold takeable
  linarith

/-- Those who own nothing at the start take no more than they bring. -/
theorem Trade.paid_le (hp : p.Open) (hq : q.Open) (h : Trade p q paid brought)
    (hle : p.shares ≤ q.shares) : paid ≤ brought := by
  have htakes := h.takes (n := p.shares) hq
  have hleft := takeable_nonneg hq hp.shares_pos.le hle
  rw [takeable_self hp, add_zero] at htakes
  have : (paid : ℚ) ≤ brought := by linarith
  exact_mod_cast this

end Trades

end LiquidityPool

end NekoStrategies
