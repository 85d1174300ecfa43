import Mathlib.Data.Int.Bitwise
import Mathlib.Data.Nat.Bitwise
import Mathlib.Tactic.Linarith
import Mathlib.Tactic.Ring

/-!
# Two's complement

An integer in a word of some bits, and back. An integer that does not fit is cut to the word; read
back with its sign it is the balanced remainder (`signed_bits`).
-/

namespace Twos

/-- The word of `w` bits that holds an integer. -/
def bits (w : ℕ) (z : ℤ) : ℕ := (z % 2 ^ w).toNat

/-- A word read with its sign: the highest bit counts negative. -/
def signed (w n : ℕ) : ℤ := if 2 ^ (w - 1) ≤ n then n - 2 ^ w else n

/-- An integer that fits a word of `w + 1` bits. -/
def Fits (w : ℕ) (z : ℤ) : Prop := -2 ^ w ≤ z ∧ z < 2 ^ w

variable {w : ℕ} {y z : ℤ}

theorem two_pow_pos (w : ℕ) : (0 : ℤ) < 2 ^ w := by positivity

theorem bits_cast (w : ℕ) (z : ℤ) : (bits w z : ℤ) = z % 2 ^ w := Int.toNat_of_nonneg (Int.emod_nonneg _ (two_pow_pos w).ne')

/-- A word cut to a shorter one. -/
theorem bits_mod {b : ℕ} (h : b ≤ w) (z : ℤ) : bits w z % 2 ^ b = bits b z := by
  have hcast : ((bits w z % 2 ^ b : ℕ) : ℤ) = bits b z := by
    push_cast
    rw [bits_cast, bits_cast, Int.emod_emod_of_dvd _ (pow_dvd_pow 2 h)]
  exact_mod_cast hcast

/-- Cut to a word and read with its sign. -/
theorem signed_bits (hw : 0 < w) (z : ℤ) : signed w (bits w z) = Int.bmod z (2 ^ w) := by
  obtain ⟨k, rfl⟩ : ∃ k, w = k + 1 := ⟨w - 1, by omega⟩
  have hhalf : (((2 ^ (k + 1) : ℕ) : ℤ) + 1) / 2 = 2 ^ k := by
    push_cast
    rw [pow_succ]
    omega
  have hle : 2 ^ k ≤ bits (k + 1) z ↔ (2 : ℤ) ^ k ≤ z % 2 ^ (k + 1) := by
    rw [← bits_cast]
    exact_mod_cast Iff.rfl
  rw [signed, Int.bmod_def, Nat.add_sub_cancel, hhalf, bits_cast]
  push_cast
  by_cases h : 2 ^ k ≤ bits (k + 1) z
  · rw [if_pos h, if_neg (by have := hle.mp h; omega)]
  · rw [if_neg h, if_pos (by have := mt hle.mpr h; omega)]

/-- What fits comes back. -/
theorem bmod_of_fits (h : Fits w z) : Int.bmod z (2 ^ (w + 1)) = z := by
  obtain ⟨hlo, hhi⟩ := h
  rw [Int.bmod_def]
  push_cast
  have hpos := two_pow_pos w
  have hpow : (2 : ℤ) ^ (w + 1) = 2 * 2 ^ w := by ring
  rw [hpow]
  generalize (2 : ℤ) ^ w = p at hlo hhi hpos ⊢
  rcases Int.lt_or_le z 0 with hz | hz
  · have hmod : z % (2 * p) = z + 2 * p := by
      rw [← Int.add_emod_right, Int.emod_eq_of_lt (by omega) (by omega)]
    rw [hmod, if_neg (by omega)]
    omega
  · have hmod : z % (2 * p) = z := Int.emod_eq_of_lt hz (by omega)
    rw [hmod, if_pos (by omega)]

end Twos
