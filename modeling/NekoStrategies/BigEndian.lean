import Mathlib.Algebra.Order.Ring.Int
import Mathlib.Data.List.Induction
import Mathlib.Tactic.Ring

/-!
# Integers as big-endian bytes

`value` reads a list of bytes as digits to the base 256, the first one the most
significant. `digits k` writes the last `k` digits of any integer, a negative
one in complement. Reading after writing reduces modulo `256 ^ k`, and writing
after reading gives back every list of `k` bytes.
-/
namespace NekoStrategies.BigEndian

def value (bytes : List UInt8) : ℤ := bytes.foldl (fun acc b => acc * 256 + b.toNat) 0

def digits : ℕ → ℤ → List UInt8
  | 0, _ => []
  | k + 1, x => digits k (x / 256) ++ [UInt8.ofNat (x % 256).toNat]

section Codec
variable {bytes : List UInt8} {b : UInt8} {k : ℕ} {x : ℤ}

@[simp] theorem value_nil : value [] = 0 := rfl

@[simp] theorem value_concat : value (bytes ++ [b]) = value bytes * 256 + b.toNat := by
  simp [value]

@[simp] theorem length_digits : (digits k x).length = k := by
  induction k generalizing x with
  | zero => rfl
  | succ k ih => simp [digits, ih]

theorem digit_bounds (b : UInt8) : (0 : ℤ) ≤ b.toNat ∧ (b.toNat : ℤ) < 256 := by
  have := b.toNat_lt
  omega

theorem value_bounds (bytes : List UInt8) : 0 ≤ value bytes ∧ value bytes < 256 ^ bytes.length := by
  induction bytes using List.reverseRecOn with
  | nil => simp
  | append_singleton bytes b ih =>
      obtain ⟨hlow, hhigh⟩ := digit_bounds b
      rw [value_concat, List.length_append, List.length_singleton, pow_succ]
      omega

theorem last_digit (x : ℤ) : ((UInt8.ofNat (x % 256).toNat).toNat : ℤ) = x % 256 := by
  have hlow : 0 ≤ x % 256 := Int.emod_nonneg x (by decide)
  have hhigh : x % 256 < 256 := Int.emod_lt_of_pos x (by decide)
  rw [UInt8.toNat_ofNat']
  omega

theorem value_digits (k : ℕ) (x : ℤ) : value (digits k x) = x % 256 ^ k := by
  induction k generalizing x with
  | zero =>
      rw [pow_zero, Int.emod_one]
      rfl
  | succ k ih =>
      rw [digits, value_concat, ih, last_digit]
      have hquot : x / 256 / 256 ^ k = x / 256 ^ (k + 1) := by
        rw [Int.ediv_ediv_of_nonneg (by decide), pow_succ, mul_comm]
      rw [Int.emod_def (x / 256), Int.emod_def x 256, Int.emod_def x (256 ^ (k + 1)), hquot]
      ring

theorem digits_value (bytes : List UInt8) : digits bytes.length (value bytes) = bytes := by
  induction bytes using List.reverseRecOn with
  | nil => rfl
  | append_singleton bytes b ih =>
      obtain ⟨hlow, hhigh⟩ := digit_bounds b
      have hquot : (value bytes * 256 + b.toNat) / 256 = value bytes := by omega
      have hrem : (value bytes * 256 + b.toNat) % 256 = b.toNat := by omega
      rw [List.length_append, List.length_singleton, digits, value_concat, hquot, hrem, ih,
        Int.toNat_natCast, UInt8.ofNat_toNat]

/-- Only the residue is written. -/
theorem digits_emod (k : ℕ) (x : ℤ) : digits k (x % 256 ^ k) = digits k x := by
  have h := digits_value (digits k x)
  rwa [length_digits, value_digits] at h

end Codec

end NekoStrategies.BigEndian
