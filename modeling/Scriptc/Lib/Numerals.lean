import Mathlib.Data.Nat.Digits.Defs

/-!
# Numerals

A text that is digits and nothing else, read as a number in some radix. The digits that a number is
written with read back as the number.
-/

namespace Numerals

open List Option

/-- The value of a hexadecimal digit. -/
def hexDigit (c : Char) : Option ℕ :=
  if '0' ≤ c ∧ c ≤ '9' then some (c.toNat - '0'.toNat)
  else if 'a' ≤ c ∧ c ≤ 'f' then some (c.toNat - 'a'.toNat + 10)
  else if 'A' ≤ c ∧ c ≤ 'F' then some (c.toNat - 'A'.toNat + 10)
  else none

section

variable {α β : Type*} (digit : α → Option ℕ) (radix : ℕ)

/-- Digits read onto a number. -/
def read : ℕ → List α → Option ℕ
  | acc, [] => some acc
  | acc, a :: as => (digit a).bind fun d => read (acc * radix + d) as

/-- At least one digit, and nothing else. -/
def number (as : List α) : Option ℕ := if as = [] then none else read digit radix 0 as

variable {digit radix}

theorem read_append (acc : ℕ) (as bs : List α) :
    read digit radix acc (as ++ bs) = (read digit radix acc as).bind fun n => read digit radix n bs := by
  induction as generalizing acc with
  | nil => rfl
  | cons a as ih =>
    rw [cons_append, read, read, bind_assoc]
    exact Option.bind_congr fun d _ => ih _

variable {as : List α}

/-- Digits only make a number larger. -/
theorem le_of_read (hr : 0 < radix) {acc n : ℕ} (h : read digit radix acc as = some n) : acc ≤ n := by
  induction as generalizing acc with
  | nil => exact Nat.le_of_eq (some.inj h)
  | cons a as ih =>
    obtain ⟨d, -, h⟩ := bind_eq_some_iff.mp h
    have := ih h
    have := Nat.le_mul_of_pos_right acc hr
    omega

theorem isSome_of_read {acc n : ℕ} (h : read digit radix acc as = some n) : ∀ a ∈ as, (digit a).isSome := by
  induction as generalizing acc with
  | nil => simp
  | cons a as ih =>
    obtain ⟨d, hd, h⟩ := bind_eq_some_iff.mp h
    exact forall_mem_cons.mpr ⟨isSome_of_eq_some hd, ih h⟩

theorem number_of_ne_nil (h : as ≠ []) : number digit radix as = read digit radix 0 as := if_neg h

theorem ne_nil_of_number {n : ℕ} (h : number digit radix as = some n) : as ≠ [] ∧ ∀ a ∈ as, (digit a).isSome := by
  rw [number] at h
  split at h
  next => cases h
  next hne => exact ⟨hne, isSome_of_read h⟩

/-- The digits of a number, most significant first, read back in whatever way they are written. -/
theorem read_digits {write : ℕ → α} (hr : 1 < radix) (hd : ∀ d < radix, digit (write d) = some d) (n : ℕ) :
    read digit radix 0 ((Nat.digits radix n).reverse.map write) = some n := by
  induction n using Nat.strongRecOn with
  | ind n ih =>
    rcases Nat.eq_zero_or_pos n with rfl | hn
    · rw [Nat.digits_zero]
      rfl
    · rw [Nat.digits_def' hr hn, reverse_cons, map_append, read_append, ih _ (Nat.div_lt_self hn hr), bind_some,
        map_singleton, read, hd _ (Nat.mod_lt n (by omega)), bind_some, read, Nat.mul_comm, Nat.div_add_mod]

end

/-- The digits of a number, most significant first, read back. -/
theorem read_toDigits {digit : Char → Option ℕ} {radix : ℕ} (hr : 1 < radix) (hd : ∀ d < radix, digit d.digitChar = some d) (n : ℕ) :
    read digit radix 0 (Nat.toDigits radix n) = some n := by
  induction n using Nat.strongRecOn with
  | ind n ih =>
    rw [Nat.toDigits_eq_if hr]
    split
    case isTrue hn => rw [read, hd n hn, bind_some, read, Nat.zero_mul, Nat.zero_add]
    case isFalse hn =>
      have hmod := Nat.mod_lt n (by omega : 0 < radix)
      rw [read_append, ih _ (Nat.div_lt_self (by omega) hr), bind_some, read, hd _ hmod, bind_some, read,
        Nat.mul_comm, Nat.div_add_mod]

theorem mem_toDigits {radix n : ℕ} {ch : Char} (hr : 1 < radix) (h : ch ∈ Nat.toDigits radix n) : ∃ d < radix, ch = d.digitChar := by
  induction n using Nat.strongRecOn with
  | ind n ih =>
    rw [Nat.toDigits_eq_if hr] at h
    split at h
    case isTrue hn => exact ⟨n, hn, mem_singleton.mp h⟩
    case isFalse hn =>
      rcases mem_append.mp h with h | h
      · exact ih _ (Nat.div_lt_self (by omega) hr) h
      · exact ⟨n % radix, Nat.mod_lt n (by omega), mem_singleton.mp h⟩

/-! ### A width -/

/-- A number with zeros before it. -/
def padded (width n : ℕ) : List Char := (Nat.toDigits 10 n).leftpad width '0'

theorem length_padded {width n : ℕ} (hw : 0 < width) (hn : n < 10 ^ width) : (padded width n).length = width := by
  have := (Nat.length_toDigits_le_iff (b := 10) (by decide) hw).mpr hn
  rw [padded, length_leftpad]
  omega

/-- A number that fills the width has no zeros before it. -/
theorem padded_of_le {width n : ℕ} (h : 10 ^ width ≤ n) : padded (width + 1) n = Nat.toDigits 10 n := by
  have hlength : ¬ (Nat.toDigits 10 n).length ≤ width := by
    intro hle
    rcases Nat.eq_zero_or_pos width with rfl | hw
    · exact Nat.toDigits_ne_nil (length_eq_zero_iff.mp (Nat.le_zero.mp hle))
    · exact ((Nat.length_toDigits_le_iff (b := 10) (by decide) hw).mp hle).not_ge h
  rw [padded, List.leftpad, Nat.sub_eq_zero_of_le (by omega)]
  rfl

theorem padded_one (n : ℕ) : padded 1 n = Nat.toDigits 10 n := by
  have := Nat.length_toDigits_pos (b := 10) (n := n)
  rw [padded, List.leftpad, Nat.sub_eq_zero_of_le (by omega)]
  rfl

theorem padded_succ {width : ℕ} (hw : 0 < width) (n : ℕ) : padded (width + 1) n = padded width (n / 10) ++ [(n % 10).digitChar] := by
  rcases Nat.lt_or_ge n 10 with hn | hn
  · obtain ⟨k, rfl⟩ := Nat.exists_eq_succ_of_ne_zero hw.ne'
    rw [padded, padded, Nat.toDigits_of_lt_base hn, Nat.div_eq_of_lt hn, Nat.mod_eq_of_lt hn, Nat.toDigits_zero]
    simp [List.leftpad, replicate_succ']
  · rw [padded, padded, Nat.toDigits_of_base_le (by decide) hn]
    simp [List.leftpad]

/-- The last digits of a number apart from the ones before them. -/
theorem padded_add {width : ℕ} (hw : 0 < width) (k n : ℕ) :
    padded (width + (k + 1)) n = padded width (n / 10 ^ (k + 1)) ++ padded (k + 1) (n % 10 ^ (k + 1)) := by
  induction k generalizing n with
  | zero =>
    rw [Nat.zero_add, pow_one, padded_succ hw, padded_one, Nat.toDigits_of_lt_base (Nat.mod_lt n (by decide))]
  | succ k ih =>
    have hsplit : width + (k + 1 + 1) = (width + (k + 1)) + 1 := by omega
    have hdiv : n % 10 ^ (k + 1 + 1) / 10 = n / 10 % 10 ^ (k + 1) := by rw [pow_succ' 10 (k + 1), Nat.mod_mul_right_div_self]
    have hmod : n % 10 ^ (k + 1 + 1) % 10 = n % 10 := Nat.mod_mod_of_dvd n (dvd_pow_self 10 (Nat.succ_ne_zero _))
    rw [hsplit, padded_succ (by omega), ih, padded_succ (Nat.succ_pos k) (n % 10 ^ (k + 1 + 1)), hdiv, hmod, Nat.div_div_eq_div_mul,
      ← pow_succ', append_assoc]

def digitValue (c : Char) : Option ℕ := if c.isDigit then some (c.toNat - '0'.toNat) else none

/-- The zeros before a number do not change what is read. -/
theorem read_padded (width n : ℕ) : read digitValue 10 0 (padded width n) = some n := by
  have hzeros : ∀ k, read digitValue 10 0 (replicate k '0') = some 0 := by
    intro k
    induction k with
    | zero => rfl
    | succ k ih => rwa [replicate_succ, read]
  rw [padded, List.leftpad, read_append, hzeros, bind_some]
  exact read_toDigits (by decide) (by decide) n

theorem number_padded (width n : ℕ) : number digitValue 10 (padded width n) = some n := by
  rw [number_of_ne_nil, read_padded]
  refine ne_nil_of_length_pos ?_
  rw [padded, length_leftpad]
  exact Nat.length_toDigits_pos.trans_le (le_max_right _ _)

end Numerals
