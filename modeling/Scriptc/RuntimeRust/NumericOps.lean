import Scriptc.Num.Integral
import Mathlib.Data.Int.ModEq

/-!
# The bitwise operators on binary64 patterns

`to_int32` works on the sixty-four bits of a number: it cuts the exponent out, puts the
hidden bit back, shifts the significand until its integer part stands at the bottom, keeps
thirty-two bits, and negates last. The bitwise operators are its only callers.

`ofBits` is what a pattern denotes. `toInt32_eq` says that the shifts compute the integer
part of that rational modulo `2³²`, exponent by exponent, and `bitwise_exact` carries it to
the operators of `F64`.
-/

namespace Scriptc.RuntimeRust.NumericOps

/-! ### The code

A shift by a negative amount, or by the width or more, panics: `none`. -/

/-- `significand << n` as a `u32`. -/
def shiftLeftLow (significand : BitVec 64) (n : ℤ) : Option (BitVec 32) :=
  if 0 ≤ n ∧ n < 64 then some ((significand <<< n.toNat).setWidth 32) else none

/-- `significand >> n` as a `u32`. -/
def shiftRightLow (significand : BitVec 64) (n : ℤ) : Option (BitVec 32) :=
  if 0 ≤ n ∧ n < 64 then some ((significand >>> n.toNat).setWidth 32) else none

def toInt32 (bits : BitVec 64) : Option (BitVec 32) := do
  let exponent : ℤ := ((bits >>> 52) &&& 0x7ff#64).toNat - 1023
  if ¬ (0 ≤ exponent ∧ exponent < 84) then some 0
  else
    let significand := (bits &&& 0x000fffffffffffff#64) ||| 0x0010000000000000#64
    let magnitude ← if 52 ≤ exponent then shiftLeftLow significand (exponent - 52)
      else shiftRightLow significand (52 - exponent)
    some (if bits >>> 63 ≠ 0 then -magnitude else magnitude)

/-- The same bits, read without a sign. -/
def toUint32 (bits : BitVec 64) : Option (BitVec 32) := toInt32 bits

/-- The count of `wrapping_shl` and `wrapping_shr` on thirty-two bits. -/
def wrapping (n : BitVec 32) : ℕ := n.toNat % 32

def bitNot (value : BitVec 64) : Option F64 := do
  some (.ofInt (~~~ (← toInt32 value)).toInt)

def bitAnd (left right : BitVec 64) : Option F64 := do
  some (.ofInt ((← toInt32 left) &&& (← toInt32 right)).toInt)

def bitOr (left right : BitVec 64) : Option F64 := do
  some (.ofInt ((← toInt32 left) ||| (← toInt32 right)).toInt)

def bitXor (left right : BitVec 64) : Option F64 := do
  some (.ofInt ((← toInt32 left) ^^^ (← toInt32 right)).toInt)

def shiftLeft (left right : BitVec 64) : Option F64 := do
  some (.ofInt ((← toInt32 left) <<< wrapping ((← toUint32 right) &&& 31)).toInt)

def shiftRight (left right : BitVec 64) : Option F64 := do
  some (.ofInt ((← toInt32 left).sshiftRight (wrapping ((← toUint32 right) &&& 31))).toInt)

def shiftRightUnsigned (left right : BitVec 64) : Option F64 := do
  some (.ofInt ((← toUint32 left) >>> wrapping ((← toUint32 right) &&& 31)).toNat)

/-! ### What a pattern denotes -/

/-- The eleven bits of the exponent. -/
def exponentField (bits : BitVec 64) : ℕ := bits.toNat / 2 ^ 52 % 2 ^ 11

/-- The fifty-two bits of the fraction. -/
def fractionField (bits : BitVec 64) : ℕ := bits.toNat % 2 ^ 52

/-- The magnitude behind an exponent and a fraction: subnormal below the first exponent. -/
def magnitude (e f : ℕ) : ℚ := if e = 0 then f * 2 ^ (-1074 : ℤ) else (2 ^ 52 + f : ℕ) * 2 ^ ((e : ℤ) - 1075)

/-- The rational of a pattern whose exponent is not the last one. -/
def value (bits : BitVec 64) : ℚ :=
  if bits.msb then -magnitude (exponentField bits) (fractionField bits)
  else magnitude (exponentField bits) (fractionField bits)

/-- The number a pattern denotes. -/
def ofBits (bits : BitVec 64) : F64 :=
  if exponentField bits = 2047 then if fractionField bits = 0 then .inf bits.msb else .nan
  else if bits.msb then .neg (.round (magnitude (exponentField bits) (fractionField bits)))
  else .round (magnitude (exponentField bits) (fractionField bits))

theorem exponentField_lt (bits : BitVec 64) : exponentField bits < 2048 := Nat.mod_lt _ (by norm_num)

theorem fractionField_lt (bits : BitVec 64) : fractionField bits < 2 ^ 52 := Nat.mod_lt _ (by norm_num)

theorem magnitude_nonneg (e f : ℕ) : 0 ≤ magnitude e f := by
  unfold magnitude
  split_ifs <;> exact mul_nonneg (Nat.cast_nonneg _) (zpow_nonneg (by norm_num) _)

variable {e f : ℕ}

theorem onGrid_magnitude (hf : f < 2 ^ 52) : Binary64.OnGrid (magnitude e f) := by
  have h0 := magnitude_nonneg e f
  by_cases he : e = 0
  · refine Binary64.onGrid_of_units h0 (n := f) (e := -1074) le_rfl (by omega) ?_
    rw [magnitude, if_pos he, Int.cast_natCast]
  · refine Binary64.onGrid_of_units h0 (n := (2 ^ 52 + f : ℕ)) (e := e - 1075) (by omega) (by omega) ?_
    rw [magnitude, if_neg he, Int.cast_natCast]

theorem magnitude_lt (he : e < 2047) (hf : f < 2 ^ 52) : magnitude e f < Binary64.limit := by
  have hunit : ∀ {n : ℕ} {k : ℤ}, n < 2 ^ 53 → k ≤ 971 → (n : ℚ) * 2 ^ k < 2 ^ 1024 := by
    intro n k hn hk
    calc (n : ℚ) * 2 ^ k < 2 ^ 53 * 2 ^ k := by
          apply mul_lt_mul_of_pos_right _ (zpow_pos (by norm_num) k)
          exact_mod_cast hn
      _ ≤ 2 ^ 53 * 2 ^ (971 : ℤ) := by
          apply mul_le_mul_of_nonneg_left _ (by norm_num)
          exact zpow_le_zpow_right₀ (by norm_num) hk
      _ = 2 ^ (53 + 971) := by rw [pow_add]; rfl
  unfold magnitude Binary64.limit
  split_ifs with h
  · exact hunit (by omega) (by norm_num)
  · exact hunit (by omega) (by omega)

/-- A pattern with a finite exponent denotes its rational: nothing is rounded. -/
theorem ofBits_finite {bits : BitVec 64} (h : exponentField bits ≠ 2047) :
    (ofBits bits).isFinite = true ∧ (ofBits bits).rat = value bits := by
  have hf := fractionField_lt bits
  have he := exponentField_lt bits
  obtain ⟨x, hx, hv⟩ := F64.round_of_onGrid (magnitude_nonneg _ _) (onGrid_magnitude hf)
    (magnitude_lt (e := exponentField bits) (by omega) hf)
  unfold ofBits value
  rw [if_neg h, hx]
  split_ifs
  · rw [← hv]
    by_cases h0 : x.val = 0
    · simp [F64.neg, h0, F64.isFinite, F64.rat]
    · simp [F64.neg, h0, F64.isFinite, F64.rat]
  · exact ⟨rfl, hv⟩

theorem ofBits_special {bits : BitVec 64} (h : exponentField bits = 2047) :
    (ofBits bits).isFinite = false ∧ (ofBits bits).rat = 0 := by
  unfold ofBits
  rw [if_pos h]
  split_ifs <;> exact ⟨rfl, rfl⟩

/-! ### The integer part -/

theorem truncRat_neg (q : ℚ) : F64.truncRat (-q) = -F64.truncRat q := by
  unfold F64.truncRat
  rcases lt_trichotomy q 0 with h | rfl | h
  · rw [if_neg (by linarith), if_pos h, Int.floor_neg]
  · simp
  · rw [if_pos (by linarith), if_neg (by linarith), Int.ceil_neg]

/-- The integer part of a magnitude: the significand shifted, to whichever side. -/
def integerPart (e f : ℕ) : ℕ :=
  if e = 0 then 0 else if 1075 ≤ e then (2 ^ 52 + f) * 2 ^ (e - 1075) else (2 ^ 52 + f) / 2 ^ (1075 - e)

theorem truncRat_magnitude (hf : f < 2 ^ 52) : F64.truncRat (magnitude e f) = integerPart e f := by
  rw [F64.truncRat, if_neg (magnitude_nonneg e f).not_gt]
  unfold magnitude integerPart
  split_ifs with h0 h
  · have hunit : (0 : ℚ) < 2 ^ (-1074 : ℤ) := zpow_pos (by norm_num) _
    have hlt : (f : ℚ) * 2 ^ (-1074 : ℤ) < 1 := by
      calc (f : ℚ) * 2 ^ (-1074 : ℤ) < 2 ^ 52 * 2 ^ (-1074 : ℤ) := by
            apply mul_lt_mul_of_pos_right _ hunit
            exact_mod_cast hf
        _ ≤ 2 ^ 52 * 2 ^ (-52 : ℤ) := by
            apply mul_le_mul_of_nonneg_left _ (by norm_num)
            exact zpow_le_zpow_right₀ (by norm_num) (by norm_num)
        _ = 1 := by norm_num
    exact Int.floor_eq_zero_iff.mpr ⟨mul_nonneg (Nat.cast_nonneg f) hunit.le, hlt⟩
  · have hz : (2 : ℚ) ^ ((e : ℤ) - 1075) = (2 ^ (e - 1075) : ℕ) := by
      rw [show (e : ℤ) - 1075 = (e - 1075 : ℕ) by omega, zpow_natCast, Nat.cast_pow, Nat.cast_ofNat]
    rw [hz, ← Nat.cast_mul, Int.floor_natCast]
  · have hz : (2 : ℚ) ^ ((e : ℤ) - 1075) = ((2 ^ (1075 - e) : ℕ) : ℚ)⁻¹ := by
      rw [show (e : ℤ) - 1075 = -(1075 - e : ℕ) by omega, zpow_neg, zpow_natCast, Nat.cast_pow, Nat.cast_ofNat]
    rw [hz, ← div_eq_mul_inv, ← Int.cast_natCast (R := ℚ), Rat.floor_intCast_div_natCast]
    rfl

/-! ### The fields as the code reads them -/

theorem toNat_exponent (bits : BitVec 64) : ((bits >>> 52) &&& 0x7ff#64).toNat = exponentField bits := by
  rw [BitVec.toNat_and, BitVec.toNat_ushiftRight, Nat.shiftRight_eq_div_pow]
  exact Nat.and_two_pow_sub_one_eq_mod _ 11

theorem toNat_significand (bits : BitVec 64) :
    ((bits &&& 0x000fffffffffffff#64) ||| 0x0010000000000000#64).toNat = 2 ^ 52 + fractionField bits := by
  rw [BitVec.toNat_or, BitVec.toNat_and]
  have hmask : bits.toNat &&& (0x000fffffffffffff#64).toNat = fractionField bits := Nat.and_two_pow_sub_one_eq_mod _ 52
  rw [hmask, Nat.or_comm]
  exact (Nat.two_pow_add_eq_or_of_lt (fractionField_lt bits) 1).symm

theorem sign_iff (bits : BitVec 64) : bits >>> 63 ≠ 0 ↔ bits.msb = true := by
  have hlt := bits.isLt
  have hzero : (0 : BitVec 64).toNat = 0 := rfl
  rw [BitVec.msb_eq_decide, decide_eq_true_iff, Ne, ← BitVec.toNat_inj, BitVec.toNat_ushiftRight,
    Nat.shiftRight_eq_div_pow, hzero]
  omega

/-! ### The two shifts -/

theorem setWidth_eq_ofNat {x : BitVec 64} {n : ℕ} (h : x.toNat % 2 ^ 32 = n % 2 ^ 32) : x.setWidth 32 = BitVec.ofNat 32 n := by
  apply BitVec.eq_of_toNat_eq
  rw [BitVec.toNat_setWidth, BitVec.toNat_ofNat, h]

theorem shiftLeftLow_eq {significand : BitVec 64} {n : ℤ} {k : ℕ} (hn : n = k) (hk : k < 64) :
    shiftLeftLow significand n = some (BitVec.ofNat 32 (significand.toNat * 2 ^ k)) := by
  rw [shiftLeftLow, if_pos (by omega), hn, Int.toNat_natCast]
  congr 1
  apply setWidth_eq_ofNat
  rw [BitVec.toNat_shiftLeft, Nat.shiftLeft_eq, Nat.mod_mod_of_dvd _ (by norm_num)]

theorem shiftRightLow_eq {significand : BitVec 64} {n : ℤ} {k : ℕ} (hn : n = k) (hk : k < 64) :
    shiftRightLow significand n = some (BitVec.ofNat 32 (significand.toNat / 2 ^ k)) := by
  rw [shiftRightLow, if_pos (by omega), hn, Int.toNat_natCast]
  congr 1
  apply setWidth_eq_ofNat
  rw [BitVec.toNat_ushiftRight, Nat.shiftRight_eq_div_pow]

/-- Below the first exponent of a whole number nothing is left, and from exponent `84` on
every bit has left the lower thirty-two. -/
theorem ofNat_integerPart (hf : f < 2 ^ 52) (h : e < 1023 ∨ 1107 ≤ e) : BitVec.ofNat 32 (integerPart e f) = 0 := by
  unfold integerPart
  apply BitVec.eq_of_toNat_eq
  rw [BitVec.toNat_ofNat]
  rcases h with h | h
  · rw [if_neg (by omega : ¬ 1075 ≤ e)]
    split_ifs
    · rfl
    · have hpow : 2 ^ 53 ≤ 2 ^ (1075 - e) := Nat.pow_le_pow_right (by norm_num) (by omega)
      rw [Nat.div_eq_of_lt (by omega)]
      rfl
  · rw [if_neg (by omega), if_pos (by omega), show e - 1075 = 32 + (e - 1107) by omega, pow_add, Nat.mul_left_comm,
      Nat.mul_mod_right]
    rfl

/-- **The shifts compute the integer part**, whatever the exponent, and never panic. -/
theorem toInt32_eq (bits : BitVec 64) : toInt32 bits = some (ofBits bits).toBits := by
  have hf := fractionField_lt bits
  have he := exponentField_lt bits
  have hsig := toNat_significand bits
  unfold toInt32
  simp only [toNat_exponent]
  by_cases hspecial : exponentField bits = 2047
  · rw [if_pos (by omega), F64.toBits, (ofBits_special hspecial).2]
    rfl
  have htrunc : F64.truncRat (ofBits bits).rat =
      if bits.msb then -(integerPart (exponentField bits) (fractionField bits) : ℤ)
      else integerPart (exponentField bits) (fractionField bits) := by
    rw [(ofBits_finite hspecial).2, value]
    split_ifs
    · rw [truncRat_neg, truncRat_magnitude hf]
    · rw [truncRat_magnitude hf]
  have hbits : (ofBits bits).toBits =
      if bits >>> 63 ≠ 0 then -BitVec.ofNat 32 (integerPart (exponentField bits) (fractionField bits))
      else BitVec.ofNat 32 (integerPart (exponentField bits) (fractionField bits)) := by
    rw [F64.toBits, htrunc, if_congr (sign_iff bits) rfl rfl]
    split_ifs
    · rw [BitVec.ofInt_neg, BitVec.ofInt_natCast]
    · rw [BitVec.ofInt_natCast]
  rw [hbits]
  generalize exponentField bits = e at *
  by_cases hrange : e < 1023 ∨ 1107 ≤ e
  · rw [if_pos (by omega), ofNat_integerPart hf hrange]
    split_ifs <;> rfl
  · rw [if_neg (by omega)]
    by_cases hleft : 1075 ≤ e
    · have hpart : integerPart e (fractionField bits) = (2 ^ 52 + fractionField bits) * 2 ^ (e - 1075) := by
        rw [integerPart, if_neg (by omega), if_pos hleft]
      rw [hpart, if_pos (by omega : (52 : ℤ) ≤ e - 1023), shiftLeftLow_eq (k := e - 1075) (by omega) (by omega), hsig]
      rfl
    · have hpart : integerPart e (fractionField bits) = (2 ^ 52 + fractionField bits) / 2 ^ (1075 - e) := by
        rw [integerPart, if_neg (by omega), if_neg hleft]
      rw [hpart, if_neg (by omega : ¬ (52 : ℤ) ≤ e - 1023), shiftRightLow_eq (k := 1075 - e) (by omega) (by omega), hsig]
      rfl

theorem wrapping_eq (y : F64) : wrapping (y.toBits &&& 31) = y.shiftCount := by
  have hmask : (y.toBits &&& 31).toNat = y.toBits.toNat % 32 := Nat.and_two_pow_sub_one_eq_mod _ 5
  rw [wrapping, hmask, F64.shiftCount, Nat.mod_mod]

/-- **`ToInt32` on the pattern is exact**: `0` for what is not finite, the integer part of the
exact rational modulo `2³²` for the rest; no shift panics, and the operators are ECMAScript's. -/
theorem bitwise_exact (x y : BitVec 64) :
    (∃ n, toInt32 x = some n ∧ ((ofBits x).isFinite = false → n = 0) ∧
      ((ofBits x).isFinite = true → (ofBits x).rat = value x ∧ n.toInt ≡ F64.truncRat (value x) [ZMOD 2 ^ 32])) ∧
    bitNot x = some (ofBits x).bitNot ∧ bitAnd x y = some ((ofBits x).bitAnd (ofBits y)) ∧
    bitOr x y = some ((ofBits x).bitOr (ofBits y)) ∧ bitXor x y = some ((ofBits x).bitXor (ofBits y)) ∧
    shiftLeft x y = some ((ofBits x).shl (ofBits y)) ∧ shiftRight x y = some ((ofBits x).sar (ofBits y)) ∧
    shiftRightUnsigned x y = some ((ofBits x).shr (ofBits y)) := by
  have hx := toInt32_eq x
  have hy := toInt32_eq y
  refine ⟨⟨_, hx, fun h => ?_, fun h => ?_⟩, ?_, ?_, ?_, ?_, ?_, ?_, ?_⟩
  · by_cases hspecial : exponentField x = 2047
    · rw [F64.toBits, (ofBits_special hspecial).2]
      rfl
    · rw [(ofBits_finite hspecial).1] at h
      cases h
  · have hspecial : exponentField x ≠ 2047 := by
      intro hspecial
      rw [(ofBits_special hspecial).1] at h
      cases h
    have hrat := (ofBits_finite hspecial).2
    refine ⟨hrat, ?_⟩
    rw [F64.toBits, hrat, BitVec.toInt_ofInt]
    exact Int.bmod_emod
  · rw [bitNot, hx]
    rfl
  · rw [bitAnd, hx, hy]
    rfl
  · rw [bitOr, hx, hy]
    rfl
  · rw [bitXor, hx, hy]
    rfl
  · rw [shiftLeft, toUint32, hx, hy, F64.shl, ← wrapping_eq]
    rfl
  · rw [shiftRight, toUint32, hx, hy, F64.sar, ← wrapping_eq]
    rfl
  · rw [shiftRightUnsigned, toUint32, toUint32, hx, hy, F64.shr, ← wrapping_eq]
    rfl

/-- `-2³² - 5.5` keeps `-5`. -/
example : toInt32 0xc1f0000000580000#64 = some (-5) := by decide

end Scriptc.RuntimeRust.NumericOps
