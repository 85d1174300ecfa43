import Scriptc.RuntimeRust.NumberFixed
import Scriptc.RuntimeRust.ShortestDigits

/-!
# `toPrecision` and `toExponential`

The digits that `number_to_precision` and `number_to_exponential_digits` of `number_format.rs` print. Their number
is rounded exactly, but at a place that is counted from the shortest digits: these may be a power of ten that is
above the number.
-/

namespace Scriptc.RuntimeRust.NumberFormat

open FixedInteger
open Numerals (padded length_padded number_padded digitValue)

/-! ### The code -/

def DIGITS : List Char := "0123456789abcdefghijklmnopqrstuvwxyz".toList

/-- The digits of a number from the last on. -/
def radixDigits (radix : UInt32) (hr : 1 < radix.toNat) (x : FixedInteger) : List Char :=
  if x.isZero then [] else DIGITS.getD (x.divideSmall radix).2 '0' :: radixDigits radix hr (x.divideSmall radix).1
termination_by x.value
decreasing_by
  rename_i h
  have hne := mt (isZero_iff x).mpr h
  rw [(value_divideSmall x (by rintro rfl; exact absurd hr (by decide))).1]
  exact Nat.div_lt_self (Nat.pos_of_ne_zero hne) hr

def toRadixString (radix : UInt32) (hr : 1 < radix.toNat) (x : FixedInteger) : List Char :=
  if x.isZero then ['0'] else (radixDigits radix hr x).reverse

/-- A magnitude as a fraction: the numerator, and how many bits the denominator has below its only one. -/
def positiveF64Ratio (magnitude : ℚ) : FixedInteger × ℕ :=
  let exponent := binaryExponent magnitude
  let numerator := fromU64 (mantissa magnitude)
  if 0 ≤ exponent then (numerator.shiftLeft exponent.toNat, 0) else (numerator, (-exponent).toNat)

def roundedRatio (numerator denominator : FixedInteger) (tiesUp : Bool) : FixedInteger :=
  let (quotient, remainder) := numerator.divideRem denominator
  let comparison := (remainder.shiftLeft 1).compare denominator
  if comparison = .gt ∨ comparison = .eq ∧ (tiesUp || quotient.isOdd) then quotient.increment else quotient

def roundedDecimalInteger (magnitude : ℚ) (decimalScale : ℤ) : FixedInteger :=
  let (numerator, denominatorBits) := positiveF64Ratio magnitude
  let denominator := fromU64 1
  let multiplyByFives (count : ℤ) (x : FixedInteger) := (fun x => x.multiplySmall 5)^[count.toNat] x
  let (numerator, denominator) :=
    if 0 ≤ decimalScale then (multiplyByFives decimalScale numerator, denominator)
    else (numerator, multiplyByFives (-decimalScale) denominator)
  let binaryShift := decimalScale - denominatorBits
  if 0 ≤ binaryShift then roundedRatio (numerator.shiftLeft binaryShift.toNat) denominator true
  else roundedRatio numerator (denominator.shiftLeft (-binaryShift).toNat) true

/-- The digits of a number and the exponent of the first; none where the code panics. -/
def significantDigits (shortest : ℚ → Decimal) (value : F64) (precision : ℕ) : Option (List Char × ℤ) :=
  if value.isZero then some (List.replicate precision '0', 0)
  else
    (decimalExponent (formatNumber shortest (F64.abs value))).bind fun exponent =>
      let rounded := roundedDecimalInteger |value.rat| (precision - exponent - 1)
      let rendered := toRadixString 10 (by decide) rounded
      if precision < rendered.length then
        let (rounded, remainder) := rounded.divideSmall 10
        if remainder = 0 then some ((toRadixString 10 (by decide) rounded).leftpad precision '0', exponent + 1) else none
      else some (rendered.leftpad precision '0', exponent)

def exponentialText (pointed : Bool) (digits : List Char) (exponent : ℤ) : List Char :=
  digits.take 1 ++ (if pointed then '.' :: digits.drop 1 else []) ++ 'e' :: ((if 0 ≤ exponent then ['+'] else []) ++ intText exponent)

def precisionText (precision : ℕ) (digits : List Char) (exponent : ℤ) : List Char :=
  if exponent < -6 ∨ precision ≤ exponent then exponentialText (digits.drop 1 ≠ []) digits exponent
  else if exponent = precision - 1 then digits
  else if 0 ≤ exponent then digits.take (exponent + 1).toNat ++ '.' :: digits.drop (exponent + 1).toNat
  else '0' :: '.' :: (List.replicate (-exponent - 1).toNat '0' ++ digits)

/-- An argument out of range throws. -/
def numberToExponentialDigits (shortest : ℚ → Decimal) (value fractionDigits : F64) : Option (List Char) :=
  let fractionDigits := if fractionDigits.isNaN then .zero else F64.trunc fractionDigits
  if !value.isFinite then some (formatNumber shortest value)
  else if !(F64.zero.le fractionDigits && fractionDigits.le (.ofInt 100)) then none
  else
    let fractionCount := (F64.truncRat fractionDigits.rat).toNat
    (significantDigits shortest value (fractionCount + 1)).map fun (digits, exponent) =>
      (if value.lt .zero then ['-'] else []) ++ exponentialText (0 < fractionCount) digits exponent

def numberToPrecision (shortest : ℚ → Decimal) (value precision : F64) : Option (List Char) :=
  let precision := if precision.isNaN then .zero else F64.trunc precision
  if !value.isFinite then some (formatNumber shortest value)
  else if !((F64.ofInt 1).le precision && precision.le (.ofInt 100)) then none
  else
    let precision := (F64.truncRat precision.rat).toNat
    (significantDigits shortest value precision).map fun (digits, exponent) =>
      (if value.lt .zero then ['-'] else []) ++ precisionText precision digits exponent

/-! ### The rounded integer -/

theorem radixDigits_eq (x : FixedInteger) : (radixDigits 10 (by decide) x).reverse = if x.value = 0 then [] else Nat.toDigits 10 x.value := by
  induction h : x.value using Nat.strongRecOn generalizing x with
  | ind n ih =>
    have hdigit : ∀ d < 10, DIGITS.getD d '0' = Nat.digitChar d := by decide
    obtain ⟨hrest, hlast⟩ := value_divideSmall x (show (10 : UInt32) ≠ 0 by decide)
    rw [h] at hrest hlast
    rw [radixDigits]
    by_cases h0 : n = 0
    · rw [if_pos ((isZero_iff x).mpr (h.trans h0)), if_pos h0, List.reverse_nil]
    · have hsplit := ih (n / 10) (Nat.div_lt_self (Nat.pos_of_ne_zero h0) (by norm_num)) (x.divideSmall 10).1 hrest
      rw [if_neg fun hzero => h0 (h ▸ (isZero_iff x).mp hzero), if_neg h0, List.reverse_cons, hsplit, hlast]
      have hchar := hdigit (n % 10) (Nat.mod_lt n (by norm_num))
      rcases Nat.lt_or_ge n 10 with hlt | hge
      · rw [if_pos (Nat.div_eq_of_lt hlt), Nat.toDigits_of_lt_base hlt]
        exact congrArg (fun c => [c]) (hchar.trans (by rw [Nat.mod_eq_of_lt hlt]))
      · rw [if_neg (by omega), Nat.toDigits_of_base_le (by norm_num) hge]
        exact congrArg (fun c => Nat.toDigits 10 (n / 10) ++ [c]) hchar

theorem toRadixString_eq (x : FixedInteger) : toRadixString 10 (by decide) x = Nat.toDigits 10 x.value := by
  rw [toRadixString]
  split_ifs with hzero
  · rw [(isZero_iff x).mp hzero]
    rfl
  · rw [radixDigits_eq, if_neg (mt (isZero_iff x).mpr hzero)]

/-- A quotient is rounded half up. -/
theorem value_roundedRatio (numerator : FixedInteger) {denominator : FixedInteger} (h : denominator.value ≠ 0) :
    (roundedRatio numerator denominator true).value = ⌊(numerator.value : ℚ) / denominator.value + 1 / 2⌋₊ := by
  obtain ⟨hquotient, hremainder⟩ := divideRem_spec numerator h
  have hround : (numerator.value : ℚ) / denominator.value + 1 / 2 = ((2 * numerator.value + denominator.value : ℕ) : ℚ) / (2 * denominator.value : ℕ) := by
    have hne : (denominator.value : ℚ) ≠ 0 := by exact_mod_cast h
    push_cast
    field_simp
  have hlt := Nat.mod_lt numerator.value (Nat.pos_of_ne_zero h)
  have hsplit : 2 * numerator.value + denominator.value =
      2 * (numerator.value % denominator.value) + denominator.value + 2 * denominator.value * (numerator.value / denominator.value) := by
    have := Nat.mod_add_div numerator.value denominator.value
    rw [Nat.mul_assoc]
    omega
  have hdown {r d : ℕ} (hr : r * 2 < d) : (2 * r + d) / (2 * d) = 0 := Nat.div_eq_of_lt (by omega)
  have hup {r d : ℕ} (hr : d ≤ r * 2) (hd : r < d) : (2 * r + d) / (2 * d) = 1 := Nat.div_eq_of_lt_le (by omega) (by omega)
  rw [hround, Nat.floor_div_natCast, Nat.floor_natCast, hsplit, Nat.add_mul_div_left _ _ (by omega), roundedRatio]
  dsimp only
  rw [compare_eq, value_shiftLeft, hremainder, pow_one, Bool.true_or]
  rcases lt_trichotomy (numerator.value % denominator.value * 2) denominator.value with hless | heq | hmore
  · rw [Nat.compare_eq_lt.mpr hless, if_neg (by simp), hquotient, hdown hless, Nat.zero_add]
  · rw [Nat.compare_eq_eq.mpr heq, if_pos (by simp), value_increment, hquotient, hup heq.ge hlt, Nat.add_comm]
  · rw [Nat.compare_eq_gt.mpr hmore, if_pos (by simp), value_increment, hquotient, hup hmore.le hlt, Nat.add_comm]

theorem positiveF64Ratio_spec {q : ℚ} (hq : 0 ≤ q) (h : Binary64.OnGrid q) :
    q = (positiveF64Ratio q).1.value / 2 ^ (positiveF64Ratio q).2 := by
  obtain ⟨hvalue, hm, -⟩ := mantissa_spec hq h
  rw [positiveF64Ratio]
  split_ifs with hexp
  · obtain ⟨k, hk⟩ := Int.eq_ofNat_of_zero_le hexp
    rw [value_shiftLeft, value_fromU64 hm, hk, Int.toNat_natCast, pow_zero, div_one]
    conv_lhs => rw [hvalue, hk, zpow_natCast]
    push_cast
    rfl
  · obtain ⟨k, hk⟩ : ∃ k : ℕ, binaryExponent q = -(k : ℤ) := ⟨(-binaryExponent q).toNat, by omega⟩
    rw [value_fromU64 hm, hk, neg_neg, Int.toNat_natCast]
    conv_lhs => rw [hvalue, hk, zpow_neg, zpow_natCast, ← div_eq_mul_inv]

/-- **The integer is exact**, but for one rounding half up. -/
theorem value_roundedDecimalInteger {q : ℚ} (hq : 0 ≤ q) (h : Binary64.OnGrid q) (scale : ℤ) :
    (roundedDecimalInteger q scale).value = ⌊q * 10 ^ scale + 1 / 2⌋₊ := by
  have hratio := positiveF64Ratio_spec hq h
  have hone : (fromU64 1).value = 1 := value_fromU64 (by norm_num)
  have hten (k : ℕ) : (10 : ℚ) ^ k = 5 ^ k * 2 ^ k := by rw [← mul_pow]; norm_num
  have h5 (k : ℕ) : (5 : ℕ) ^ k ≠ 0 := pow_ne_zero k (by norm_num)
  have h2 (k : ℕ) : (2 : ℕ) ^ k ≠ 0 := pow_ne_zero k (by norm_num)
  rw [roundedDecimalInteger]
  generalize positiveF64Ratio q = ratio at hratio ⊢
  obtain ⟨numerator, bits⟩ := ratio
  dsimp only at hratio ⊢
  subst hratio
  rcases Int.lt_or_le scale 0 with hneg | hpos
  · obtain ⟨k, rfl⟩ : ∃ k : ℕ, scale = -(k : ℤ) := ⟨(-scale).toNat, by omega⟩
    have hshift : (-(-(k : ℤ) - bits)).toNat = k + bits := by omega
    have hden : (((fun x => x.multiplySmall 5)^[k] (fromU64 1)).shiftLeft (k + bits)).value = 5 ^ k * 2 ^ (k + bits) := by
      rw [value_shiftLeft, value_five, hone, Nat.one_mul]
    rw [if_neg hneg.not_ge, if_neg (by omega), neg_neg, Int.toNat_natCast, hshift,
      value_roundedRatio _ (by rw [hden]; exact Nat.mul_ne_zero (h5 k) (h2 _)), hden, zpow_neg, zpow_natCast, hten]
    congr 2
    push_cast
    rw [pow_add]
    field_simp
  · obtain ⟨k, rfl⟩ := Int.eq_ofNat_of_zero_le hpos
    rw [if_pos hpos, zpow_natCast, hten]
    dsimp only
    split_ifs with hshift
    · obtain ⟨j, rfl⟩ : ∃ j, k = bits + j := ⟨k - bits, by omega⟩
      have htwo : (((bits + j : ℕ) : ℤ) - bits).toNat = j := by omega
      rw [value_roundedRatio _ (by rw [hone]; norm_num), value_shiftLeft, value_five, hone, htwo, Int.toNat_natCast]
      congr 2
      push_cast
      rw [pow_add 2]
      field_simp
    · obtain ⟨j, rfl⟩ : ∃ j, bits = k + j := ⟨bits - k, by omega⟩
      have htwo : (-((k : ℤ) - (k + j : ℕ))).toNat = j := by omega
      have hden : ((fromU64 1).shiftLeft j).value = 2 ^ j := by rw [value_shiftLeft, hone, Nat.one_mul]
      rw [htwo, Int.toNat_natCast, value_roundedRatio _ (by rw [hden]; exact h2 j), value_five, hden]
      congr 2
      push_cast
      rw [pow_add]
      field_simp

/-! ### The digits closest to a number -/

/-- `n · 10 ^ e`, with `p` digits of which the first is no zero, is as close to `q` as any such number, and of two the larger. -/
structure ClosestDigits (q : ℚ) (p : ℕ) (n : ℕ) (e : ℤ) : Prop where
  large : 10 ^ (p - 1) ≤ n
  lt : n < 10 ^ p
  close : ∀ (m : ℕ) (k : ℤ), 10 ^ (p - 1) ≤ m → m < 10 ^ p → |n * 10 ^ (e - p + 1) - q| ≤ |m * 10 ^ (k - p + 1) - q|
  tie : ∀ (m : ℕ) (k : ℤ), 10 ^ (p - 1) ≤ m → m < 10 ^ p → |n * 10 ^ (e - p + 1) - q| = |m * 10 ^ (k - p + 1) - q| →
    (m : ℚ) * 10 ^ (k - p + 1) ≤ n * 10 ^ (e - p + 1)

/-- `p` digits from below a power of ten stay away from it. -/
theorem mul_le_of_lt {p m : ℕ} {e k : ℤ} (hm : m < 10 ^ p) (hk : k < e) : (m : ℚ) * 10 ^ (k - p + 1) ≤ 10 ^ e - 10 ^ (e - p) := by
  have hunit : (10 : ℚ) ^ (k - p + 1) ≤ 10 ^ (e - p) := zpow_le_zpow_right₀ (by norm_num) (by omega)
  have hmax : (m : ℚ) ≤ 10 ^ p - 1 := by
    rw [le_sub_iff_add_le]
    exact_mod_cast hm
  have hpow : (10 : ℚ) ^ e = 10 ^ p * 10 ^ (e - p) := by
    rw [← zpow_natCast, ← zpow_add₀ (by norm_num), add_sub_cancel]
  have hone : (1 : ℚ) ≤ 10 ^ p := one_le_pow₀ (by norm_num)
  calc (m : ℚ) * 10 ^ (k - p + 1) ≤ (10 ^ p - 1) * 10 ^ (e - p) :=
        mul_le_mul hmax hunit (zpow_pos (by norm_num) _).le (sub_nonneg.mpr hone)
    _ = 10 ^ e - 10 ^ (e - p) := by rw [hpow]; ring

/-- Rounding to a unit is the closest multiple of it. -/
theorem closest_unit {q u : ℚ} (hq : 0 ≤ q) (hu : 0 < u) (k : ℤ) : |⌊q / u + 1 / 2⌋₊ * u - q| ≤ |k * u - q| ∧
    (|⌊q / u + 1 / 2⌋₊ * u - q| = |k * u - q| → k * u ≤ ⌊q / u + 1 / 2⌋₊ * u) := by
  have hscale (x : ℚ) : |x * u - q| = |x - q / u| * u := by
    rw [← abs_of_pos hu, ← abs_mul, abs_of_pos hu, sub_mul, div_mul_cancel₀ _ hu.ne']
  obtain ⟨hclose, htie⟩ := closest_floor (div_nonneg hq hu.le) k
  rw [hscale, hscale]
  refine ⟨mul_le_mul_of_nonneg_right hclose hu.le, fun heq => mul_le_mul_of_nonneg_right ?_ hu.le⟩
  exact_mod_cast htie (mul_right_cancel₀ hu.ne' heq)

/-- What the digits and their exponent are: one place too many is given back. -/
def carried (p n : ℕ) (e : ℤ) : ℕ × ℤ := if n = 10 ^ p then (10 ^ (p - 1), e + 1) else (n, e)

theorem carried_value {p : ℕ} (hp : 1 ≤ p) (n : ℕ) (e : ℤ) :
    ((carried p n e).1 : ℚ) * 10 ^ ((carried p n e).2 - p + 1) = n * 10 ^ (e - p + 1) := by
  rw [carried]
  split_ifs with hn
  · obtain ⟨k, rfl⟩ := Nat.exists_eq_add_of_le' hp
    rw [hn, Nat.add_sub_cancel]
    push_cast
    rw [← zpow_natCast, ← zpow_natCast, ← zpow_add₀ (by norm_num), ← zpow_add₀ (by norm_num)]
    congr 1
    push_cast
    ring
  · rfl

theorem carried_range {p n : ℕ} (hp : 1 ≤ p) (hn : n ≤ 10 ^ p) (e : ℤ) :
    (carried p n e).1 < 10 ^ p ∧ (10 ^ (p - 1) ≤ (carried p n e).1 ↔ 10 ^ (p - 1) ≤ n) := by
  have hlt : 10 ^ (p - 1) < 10 ^ p := Nat.pow_lt_pow_right (by norm_num) (by omega)
  rw [carried]
  split_ifs with h
  · exact ⟨hlt, iff_of_true le_rfl (h ▸ hlt.le)⟩
  · exact ⟨lt_of_le_of_ne hn h, Iff.rfl⟩

/-- **A place counted from some power of ten** gives the closest digits when the number is not too far below the power. -/
theorem closestDigits_iff {q : ℚ} (hq : 0 < q) {e : ℤ} (he : q < 10 ^ (e + 1)) {p : ℕ} (hp : 1 ≤ p) :
    ⌊q * 10 ^ (p - e - 1) + 1 / 2⌋₊ ≤ 10 ^ p ∧
      (ClosestDigits q p (carried p ⌊q * 10 ^ (p - e - 1) + 1 / 2⌋₊ e).1 (carried p ⌊q * 10 ^ (p - e - 1) + 1 / 2⌋₊ e).2 ↔
        10 ^ e - 10 ^ (e - p) / 2 ≤ q) := by
  have hu : (0 : ℚ) < 10 ^ (e - p + 1) := zpow_pos (by norm_num) _
  have hsmall : (0 : ℚ) < 10 ^ (e - p) := zpow_pos (by norm_num) _
  have hdiv : q * 10 ^ (p - e - 1) = q / 10 ^ (e - p + 1) := by
    rw [div_eq_mul_inv, ← zpow_neg]
    congr 2
    ring
  have hclosest := closest_unit hq.le hu
  have hunit : (10 : ℚ) ^ (e - p + 1) = 10 * 10 ^ (e - p) := by rw [zpow_add_one₀ (by norm_num), mul_comm]
  have htop : ((10 ^ p : ℕ) : ℚ) * 10 ^ (e - p + 1) = 10 ^ (e + 1) := by
    push_cast
    rw [← zpow_natCast, ← zpow_add₀ (by norm_num)]
    congr 1
    ring
  have hlow : ((10 ^ (p - 1) : ℕ) : ℚ) * 10 ^ (e - p + 1) = 10 ^ e := by
    push_cast
    rw [← zpow_natCast, ← zpow_add₀ (by norm_num)]
    congr 1
    omega
  rw [hdiv]
  have hmax : ⌊q / 10 ^ (e - p + 1) + 1 / 2⌋₊ ≤ 10 ^ p := by
    have hlt : q / 10 ^ (e - p + 1) < (10 ^ p : ℕ) := by rwa [div_lt_iff₀ hu, htop]
    refine Nat.lt_succ_iff.mp ((Nat.floor_lt (by positivity)).mpr ?_)
    push_cast at hlt ⊢
    linarith
  have hlarge : 10 ^ e - 10 ^ (e - p) / 2 ≤ q → 10 ^ (p - 1) ≤ ⌊q / 10 ^ (e - p + 1) + 1 / 2⌋₊ := by
    intro hnear
    refine Nat.le_floor ?_
    rw [← sub_le_iff_le_add, le_div_iff₀ hu, sub_mul, hlow, hunit]
    linarith
  have hless : q < 10 ^ e → ⌊q / 10 ^ (e - p + 1) + 1 / 2⌋₊ ≤ 10 ^ (p - 1) := by
    intro hlt
    have hq' : q / 10 ^ (e - p + 1) < (10 ^ (p - 1) : ℕ) := by rwa [div_lt_iff₀ hu, hlow]
    refine Nat.lt_succ_iff.mp ((Nat.floor_lt (by positivity)).mpr ?_)
    push_cast at hq' ⊢
    linarith
  generalize ⌊q / 10 ^ (e - p + 1) + 1 / 2⌋₊ = n at hclosest hmax hlarge hless ⊢
  have hvalue := carried_value hp n e
  obtain ⟨hrange, hfirst⟩ := carried_range hp hmax e
  refine ⟨hmax, fun hdigits => ?_, fun hnear => ?_⟩
  · -- a power of ten too far above has the digits that are one less before it
    by_contra hfar
    rw [not_le] at hfar
    have hlt : q < 10 ^ e := by linarith
    have hn : n = 10 ^ (p - 1) := le_antisymm (hless hlt) (hfirst.mp hdigits.large)
    have hnines : (((10 ^ p - 1 : ℕ) : ℚ)) * 10 ^ (e - 1 - p + 1) = 10 ^ e - 10 ^ (e - p) := by
      have hexp : e - 1 - p + 1 = e - p := by ring
      have hpow : (10 : ℚ) ^ p * 10 ^ (e - p) = 10 ^ e := by
        rw [← zpow_natCast, ← zpow_add₀ (by norm_num), add_sub_cancel]
      rw [hexp, Nat.cast_sub (Nat.one_le_pow _ _ (by norm_num)), sub_mul]
      push_cast
      rw [hpow, one_mul]
    have hclose := hdigits.close (10 ^ p - 1) (e - 1) (Nat.le_sub_one_of_lt (Nat.pow_lt_pow_right (by norm_num) (by omega)))
      (Nat.sub_lt (by positivity) Nat.one_pos)
    rw [hvalue, hn, hlow, hnines, abs_of_pos (sub_pos.mpr hlt)] at hclose
    rcases abs_cases (10 ^ e - 10 ^ (e - p) - q) with ⟨habs, -⟩ | ⟨habs, -⟩ <;> linarith
  · have hall (m : ℕ) (k : ℤ) (hm : m < 10 ^ p) : |n * 10 ^ (e - p + 1) - q| ≤ |m * 10 ^ (k - p + 1) - q| ∧
        (|n * 10 ^ (e - p + 1) - q| = |m * 10 ^ (k - p + 1) - q| → (m : ℚ) * 10 ^ (k - p + 1) ≤ n * 10 ^ (e - p + 1)) := by
      rcases le_or_gt e k with hle | hlt
      · -- a multiple of the unit
        obtain ⟨j, rfl⟩ : ∃ j : ℕ, k = e + j := ⟨(k - e).toNat, by omega⟩
        have hmultiple : (m : ℚ) * 10 ^ (e + j - p + 1) = ((m * 10 ^ j : ℕ) : ℤ) * 10 ^ (e - p + 1) := by
          push_cast
          rw [mul_assoc, ← zpow_natCast, ← zpow_add₀ (by norm_num)]
          congr 2
          ring
        rw [hmultiple]
        exact hclosest _
      · have hbelow := mul_le_of_lt hm hlt
        have hpower := (hclosest (10 ^ (p - 1) : ℕ)).1
        rw [Int.cast_natCast, hlow] at hpower
        have hdistance : |10 ^ e - q| ≤ q - m * 10 ^ (k - p + 1) := by
          rcases abs_cases (10 ^ e - q) with ⟨habs, -⟩ | ⟨habs, -⟩ <;> linarith
        rw [abs_sub_comm (m * 10 ^ (k - p + 1) : ℚ) q, abs_of_nonneg ((abs_nonneg _).trans hdistance)]
        refine ⟨hpower.trans hdistance, fun heq => ?_⟩
        have := neg_abs_le (n * 10 ^ (e - p + 1) - q)
        linarith
    exact ⟨hfirst.mpr (hlarge hnear), hrange, fun m k _ hm => by rw [hvalue]; exact (hall m k hm).1,
      fun m k _ hm => by rw [hvalue]; exact (hall m k hm).2⟩

/-! ### Which digits are printed -/

/-- The shortest digits that are read back as a number, and of these the closest. -/
structure Shortest (q : ℚ) (d : Decimal) : Prop extends d.WellFormed where
  reads : F64.round d.value = F64.round q
  short : ∀ d' : Decimal, d'.WellFormed → F64.round d'.value = F64.round q → d.digits.length ≤ d'.digits.length
  close : ∀ d' : Decimal, d'.WellFormed → F64.round d'.value = F64.round q → d'.digits.length = d.digits.length →
    |d.value - q| ≤ |d'.value - q|

theorem Decimal.value_lt {d : Decimal} (h : d.WellFormed) : d.value < 10 ^ d.point := by
  have hspelled : (spelled d.digits : ℚ) < 10 ^ d.digits.length := by exact_mod_cast spelled_lt h.lt
  have hpow : (10 : ℚ) ^ d.point = 10 ^ d.digits.length * 10 ^ (d.point - d.digits.length) := by
    rw [← zpow_natCast, ← zpow_add₀ (by norm_num), add_sub_cancel]
  rw [hpow, Decimal.value]
  exact mul_lt_mul_of_pos_right hspelled (zpow_pos (by norm_num) _)

theorem Decimal.value_nonneg (d : Decimal) : 0 ≤ d.value := mul_nonneg (Nat.cast_nonneg _) (zpow_pos (by norm_num) _).le

/-- The shortest digits are never below a power of ten that the number reaches: the power would be as short and closer. -/
theorem Shortest.lt_power {q : ℚ} (hq : 0 < q) (hgrid : Binary64.OnGrid q) (hlimit : q < Binary64.limit) {d : Decimal} (h : Shortest q d) :
    q < 10 ^ d.point := by
  by_contra hge
  rw [not_lt] at hge
  have hsame {v : ℚ} (hv : 0 ≤ v) : F64.round v = F64.round q ↔ Binary64.gridRound v = q := by
    rw [F64.round_eq_round_iff hv hq.le, Binary64.gridRound_of_onGrid hgrid]
    exact or_iff_left fun hlarge => hlimit.not_ge hlarge.2
  have hpos : (0 : ℚ) < 10 ^ d.point := zpow_pos (by norm_num) _
  have hbelow := Decimal.value_lt h.toWellFormed
  have hone : (⟨[1], d.point + 1⟩ : Decimal).value = 10 ^ d.point := by simp [Decimal.value, spelled]
  have hwell : (⟨[1], d.point + 1⟩ : Decimal).WellFormed := ⟨by simp, by simp, by simp, by simp⟩
  have hreads : F64.round (⟨[1], d.point + 1⟩ : Decimal).value = F64.round q := by
    rw [hone, hsame hpos.le]
    refine le_antisymm ?_ ?_
    · exact (Binary64.gridRound_mono hge).trans (Binary64.gridRound_of_onGrid hgrid).le
    · exact ((hsame d.value_nonneg).mp h.reads).ge.trans (Binary64.gridRound_mono hbelow.le)
  have hlength : ([1] : List ℕ).length = d.digits.length :=
    le_antisymm (List.length_pos_of_ne_nil h.ne_nil) (h.short _ hwell hreads)
  have hclose := h.close _ hwell hreads hlength
  rw [hone, abs_sub_comm, abs_of_pos (by linarith), abs_sub_comm, abs_of_nonneg (by linarith)] at hclose
  linarith

theorem abs_rat_lt (x : F64) : |x.rat| < Binary64.limit := by
  cases x with
  | fin x => exact x.bounded
  | _ => exact abs_zero.trans_lt Binary64.limit_pos

/-- What the code prints: the closest integer at a place that is counted from the shortest digits. -/
theorem significantDigits_eq {shortest : ℚ → Decimal} {x : F64} (hx : x.isFinite = true) (h0 : x.rat ≠ 0)
    (h : Shortest |x.rat| (shortest |x.rat|)) {p n : ℕ} (hp : 1 ≤ p) {e : ℤ} (he : e = (shortest |x.rat|).point - 1)
    (hn : n = ⌊|x.rat| * 10 ^ (p - e - 1) + 1 / 2⌋₊) :
    significantDigits shortest x p = some (padded p (carried p n e).1, (carried p n e).2) := by
  have hpos := abs_pos.mpr h0
  have hzero : x.isZero = false := by
    cases x <;> first | exact decide_eq_false h0 | cases hx
  have hexp := (formatNumber_digits (isFinite_abs hx) (by rwa [rat_abs]) (by rw [rat_abs]; exact h.toWellFormed)).1
  rw [rat_abs, ← he] at hexp
  have hvalue := value_roundedDecimalInteger hpos.le (onGrid_rat x).abs (p - e - 1)
  rw [← hn] at hvalue
  have hlt := h.lt_power hpos (onGrid_rat x).abs (abs_rat_lt x)
  have hle := (closestDigits_iff hpos (e := e) (by rwa [he, sub_add_cancel]) hp).1
  rw [← hn] at hle
  rw [significantDigits, hzero, hexp]
  simp only [Bool.false_eq_true, if_false, Option.bind_some, toRadixString_eq, hvalue]
  have hlength : p < (Nat.toDigits 10 n).length ↔ n = 10 ^ p := by
    rw [← not_le, Nat.length_toDigits_le_iff (by norm_num) (by omega), not_lt]
    exact ⟨fun hge => le_antisymm hle hge, fun heq => heq.ge⟩
  have hdivide := value_divideSmall (roundedDecimalInteger |x.rat| (p - e - 1)) (show (10 : UInt32) ≠ 0 by decide)
  rw [hvalue] at hdivide
  have hten : (10 : UInt32).toNat = 10 := rfl
  rw [hten] at hdivide
  by_cases htop : n = 10 ^ p
  · obtain ⟨k, rfl⟩ := Nat.exists_eq_add_of_le' hp
    have hdiv : n / 10 = 10 ^ k := by rw [htop, pow_succ, Nat.mul_div_cancel _ (by norm_num)]
    have hmod : n % 10 = 0 := by rw [htop, pow_succ, Nat.mul_mod_left]
    rw [hdiv, hmod] at hdivide
    rw [if_pos (hlength.mpr htop), if_pos hdivide.2, hdivide.1, carried, if_pos htop]
    rfl
  · rw [if_neg (mt hlength.mp htop), carried, if_neg htop]
    rfl

/-- The digits denote a number that has as many digits as were asked for, or fewer where the power is too far above. -/
theorem padded_carried {p n : ℕ} (hp : 1 ≤ p) (hn : n ≤ 10 ^ p) (e : ℤ) : (padded p (carried p n e).1).length = p ∧
    Numerals.number digitValue 10 (padded p (carried p n e).1) = some (carried p n e).1 :=
  ⟨length_padded hp (carried_range hp hn e).1, number_padded _ _⟩

theorem sign_lt {x : F64} (hx : x.isFinite = true) : x.lt .zero = decide (x.rat < 0) := by
  rw [Bool.eq_iff_iff, F64.lt_iff_rat hx rfl, decide_eq_true_iff]
  rfl

theorem numberToPrecision_eq (shortest : ℚ → Decimal) {x : F64} (hx : x.isFinite = true) {p : ℕ} (hp : 1 ≤ p) (hp' : p ≤ 100) :
    numberToPrecision shortest x (.ofInt p) = (significantDigits shortest x p).map fun (digits, e) =>
      (if x.rat < 0 then ['-'] else []) ++ precisionText p digits e := by
  obtain ⟨hs, hnan, hrange⟩ := digitCount_checked Int.one_nonneg (by omega) hp'
  rw [numberToPrecision, hnan]
  simp only [Bool.false_eq_true, if_false, F64.trunc_ofInt hs, hx, hrange, Bool.not_true, F64.rat_ofInt hs, F64.truncRat_intCast,
    Int.toNat_natCast, sign_lt hx, decide_eq_true_eq]

theorem numberToExponentialDigits_eq (shortest : ℚ → Decimal) {x : F64} (hx : x.isFinite = true) {f : ℕ} (hf : f ≤ 100) :
    numberToExponentialDigits shortest x (.ofInt f) = (significantDigits shortest x (f + 1)).map fun (digits, e) =>
      (if x.rat < 0 then ['-'] else []) ++ exponentialText (0 < f) digits e := by
  obtain ⟨hs, hnan, hrange⟩ := digitCount_checked le_rfl (Int.natCast_nonneg f) hf
  rw [F64.ofInt_zero] at hrange
  rw [numberToExponentialDigits, hnan]
  simp only [Bool.false_eq_true, if_false, F64.trunc_ofInt hs, hx, hrange, Bool.not_true, F64.rat_ofInt hs, F64.truncRat_intCast,
    Int.toNat_natCast, sign_lt hx, decide_eq_true_eq]

/-- **The digits of `toPrecision` and `toExponential`** are the closest ones when the number is no more than half a unit of
the last place below the power of ten that its shortest digits start at, and in no other case. -/
theorem precision_closest (shortest : ℚ → Decimal) (x : F64) (hx : x.isFinite = true) (h0 : x.rat ≠ 0)
    (h : Shortest |x.rat| (shortest |x.rat|)) (p : ℕ) (hp : 1 ≤ p) : ∃ digits n e, significantDigits shortest x p = some (digits, e) ∧
      digits.length = p ∧ Numerals.number digitValue 10 digits = some n ∧
      (p ≤ 100 → numberToPrecision shortest x (.ofInt p) = some ((if x.rat < 0 then ['-'] else []) ++ precisionText p digits e)) ∧
      (p ≤ 101 → numberToExponentialDigits shortest x (.ofInt (p - 1 : ℕ)) =
        some ((if x.rat < 0 then ['-'] else []) ++ exponentialText (0 < p - 1) digits e)) ∧
      (ClosestDigits |x.rat| p n e ↔ 10 ^ ((shortest |x.rat|).point - 1) - 10 ^ ((shortest |x.rat|).point - 1 - p) / 2 ≤ |x.rat|) := by
  have hpos := abs_pos.mpr h0
  have hlt := h.lt_power hpos (onGrid_rat x).abs (abs_rat_lt x)
  obtain ⟨hle, hiff⟩ := closestDigits_iff hpos (e := (shortest |x.rat|).point - 1) (by rwa [sub_add_cancel]) hp
  have hdigits := significantDigits_eq hx h0 h hp rfl rfl
  obtain ⟨hlength, hnumber⟩ := padded_carried hp hle ((shortest |x.rat|).point - 1)
  refine ⟨_, _, _, hdigits, hlength, hnumber, fun hp' => ?_, fun hp' => ?_, hiff⟩
  · rw [numberToPrecision_eq shortest hx hp hp', hdigits]
    rfl
  · rw [numberToExponentialDigits_eq shortest hx (by omega), Nat.sub_add_cancel hp, hdigits]
    rfl

/-! ### `1e23` -/

/-- The number that `1e23` is read as, which is below it. -/
theorem shortest_e23 : Shortest 99999999999999991611392 ⟨[1], 24⟩ := by
  have hvalue : (⟨[1], 24⟩ : Decimal).value = (10 ^ 23 : ℕ) := by
    simp only [Decimal.value, spelled]
    norm_num
  have hunits : Binary64.gridRound 99999999999999991611392 = 99999999999999991611392 := by
    have h := F64.gridRound_units (t := 5960464477539062) (e := 24) (by norm_num)
    norm_num at h
    exact h
  have hhalf : Binary64.gridRound ((10 ^ 23 : ℕ) : ℚ) = 99999999999999991611392 := by
    have heven : F64.halfEven (10 ^ 23) 24 = 5960464477539062 := by decide
    rw [F64.gridRound_natCast (e := 24) (by norm_num) (by norm_num), heven]
    norm_num
  refine ⟨⟨by simp, by simp, by simp, by simp⟩, ?_, fun d hd _ => List.length_pos_of_ne_nil hd.ne_nil, fun d hd _ hone => ?_⟩
  · rw [hvalue, F64.round_eq_round_iff (Nat.cast_nonneg _) (by norm_num), hhalf, hunits]
    exact .inl rfl
  · obtain ⟨first, rest, hdigits, hlt, hne, -⟩ := hd.cons
    obtain rfl : rest = [] := List.length_eq_zero_iff.mp (by rw [hdigits] at hone; exact Nat.succ.inj hone)
    have hd' : d.value = first * 10 ^ (d.point - 1) := by simp [Decimal.value, hdigits, spelled]
    have hfirst : (1 : ℚ) ≤ first := by exact_mod_cast Nat.one_le_iff_ne_zero.mpr hne
    have hfirst' : (first : ℚ) ≤ 9 := by exact_mod_cast Nat.le_of_lt_succ hlt
    have hpow (e : ℤ) : (0 : ℚ) < 10 ^ e := zpow_pos (by norm_num) e
    rw [hvalue, hd']
    rcases le_or_gt 23 (d.point - 1) with hle | hgt
    · have h23 : (10 : ℚ) ^ (23 : ℤ) ≤ 10 ^ (d.point - 1) := zpow_le_zpow_right₀ (by norm_num) hle
      have hmul : (10 : ℚ) ^ (23 : ℤ) ≤ first * 10 ^ (d.point - 1) := h23.trans (le_mul_of_one_le_left (hpow _).le hfirst)
      rw [abs_of_pos (by norm_num), abs_of_pos (by norm_num at hmul ⊢; linarith)]
      push_cast
      exact sub_le_sub_right (by exact_mod_cast hmul) _
    · have h22 : (10 : ℚ) ^ (d.point - 1) ≤ 10 ^ (22 : ℤ) := zpow_le_zpow_right₀ (by norm_num) (by omega)
      have hmul : first * (10 : ℚ) ^ (d.point - 1) ≤ 9 * 10 ^ (22 : ℤ) := mul_le_mul hfirst' h22 (hpow _).le (by norm_num)
      rw [abs_of_pos (by norm_num), abs_of_neg (by norm_num at hmul ⊢; linarith)]
      norm_num at hmul ⊢
      linarith

theorem exists_e23 : ∃ x : F64, x.isFinite = true ∧ x.rat = 99999999999999991611392 := by
  have hgrid : Binary64.OnGrid 99999999999999991611392 :=
    Binary64.onGrid_of_units (by norm_num) (n := 5960464477539062) (e := 24) (by norm_num) (by norm_num) (by norm_num)
  have hlimit : |(99999999999999991611392 : ℚ)| < Binary64.limit := by
    rw [abs_of_pos (by norm_num)]
    exact lt_of_lt_of_le (by norm_num : (99999999999999991611392 : ℚ) < 2 ^ 77) (pow_le_pow_right₀ (by norm_num) (by norm_num))
  exact ⟨.fin ⟨_, hgrid, hlimit⟩, rfl, rfl⟩

/-- Up to fifteen digits `1e23` is printed as it should be. -/
theorem precision_closest_e23 : ∃ x : F64, x.rat = 99999999999999991611392 ∧ ∃ digits n e,
    significantDigits (fun _ => ⟨[1], 24⟩) x 15 = some (digits, e) ∧ Numerals.number digitValue 10 digits = some n ∧
      ClosestDigits |x.rat| 15 n e := by
  obtain ⟨x, hx, hq⟩ := exists_e23
  have habs : |x.rat| = 99999999999999991611392 := by rw [hq, abs_of_pos (by norm_num)]
  obtain ⟨digits, n, e, hdigits, -, hn, -, -, hiff⟩ := precision_closest (fun _ => ⟨[1], 24⟩) x hx (by rw [hq]; norm_num)
    (by rw [habs]; exact shortest_e23) 15 (by norm_num)
  refine ⟨x, hq, digits, n, e, hdigits, hn, hiff.mpr ?_⟩
  rw [habs]
  norm_num

/-- With seventeen digits `1e23` has a zero for its first digit. -/
theorem precision_not_closest : ∃ (shortest : ℚ → Decimal) (x : F64), x.isFinite = true ∧ x.rat = 99999999999999991611392 ∧
    Shortest |x.rat| (shortest |x.rat|) ∧ numberToPrecision shortest x (.ofInt 17) = some "0.9999999999999999e+23".toList ∧
      numberToExponentialDigits shortest x (.ofInt 16) = some "0.9999999999999999e+23".toList ∧
      ∃ digits n e, significantDigits shortest x 17 = some (digits, e) ∧ Numerals.number digitValue 10 digits = some n ∧
        ¬ ClosestDigits |x.rat| 17 n e := by
  obtain ⟨x, hx, hq⟩ := exists_e23
  have habs : |x.rat| = 99999999999999991611392 := by rw [hq, abs_of_pos (by norm_num)]
  have hshortest : Shortest |x.rat| ⟨[1], 24⟩ := by
    rw [habs]
    exact shortest_e23
  have hfloor : (9999999999999999 : ℕ) = ⌊|x.rat| * 10 ^ (((17 : ℕ) : ℤ) - 23 - 1) + 1 / 2⌋₊ := by
    rw [habs, eq_comm, Nat.floor_eq_iff (by norm_num)]
    norm_num
  have hdigits := @significantDigits_eq (fun _ => ⟨[1], 24⟩) x hx (by rw [hq]; norm_num) hshortest 17 _ (by norm_num) 23 rfl hfloor
  have hcarried : carried 17 9999999999999999 23 = (9999999999999999, 23) := if_neg (by norm_num)
  have htext : padded 17 9999999999999999 = "09999999999999999".toList := by decide
  have hsign : ¬ x.rat < 0 := by
    rw [hq]
    norm_num
  rw [hcarried, htext] at hdigits
  refine ⟨_, x, hx, hq, hshortest, ?_, ?_, _, 9999999999999999, _, hdigits, by decide, fun hclosest => ?_⟩
  · rw [show (17 : ℤ) = (17 : ℕ) from rfl, numberToPrecision_eq _ hx (by norm_num) (by norm_num), hdigits, if_neg hsign]
    decide
  · rw [show (16 : ℤ) = (16 : ℕ) from rfl, numberToExponentialDigits_eq _ hx (by norm_num), hdigits, if_neg hsign]
    decide
  · exact absurd hclosest.large (by norm_num)

end Scriptc.RuntimeRust.NumberFormat
