import Mathlib.Algebra.Order.Floor.Semifield
import Scriptc.Num.Integral
import Scriptc.RuntimeRust.FixedInteger

/-!
# `toFixed`

`number_to_fixed` of `number_format.rs`. How a number prints is given. The text is
that of the closest decimal, and the limbs compute exactly.
-/

namespace Scriptc.RuntimeRust.NumberFormat

open List

open Binary64 (ulpExp ulp OnGrid)
open FixedInteger
open Numerals (padded padded_one padded_of_le padded_add length_padded)

/-! ### The parts of a number -/

/-- The exponent of the lowest bit that the bits of a magnitude have; those of zero are all zeros. -/
def binaryExponent (q : ℚ) : ℤ := if q = 0 then -1074 else ulpExp q

def mantissa (q : ℚ) : ℕ := (q / 2 ^ binaryExponent q).num.toNat

theorem mantissa_spec {q : ℚ} (hq : 0 ≤ q) (h : OnGrid q) :
    q = mantissa q * 2 ^ binaryExponent q ∧ mantissa q < 2 ^ 64 ∧ -1074 ≤ binaryExponent q := by
  rcases hq.eq_or_lt with rfl | hpos
  · simp [mantissa, binaryExponent]
  · have hexp : binaryExponent q = ulpExp q := if_neg hpos.ne'
    obtain ⟨n, hn⟩ := Binary64.onGrid_iff.mp h
    rw [abs_of_pos hpos] at hn
    have hu := Binary64.ulp_pos q
    have hdiv : q / 2 ^ binaryExponent q = n := by
      rw [hexp]
      exact (eq_div_of_mul_eq hu.ne' hn.symm).symm
    have hn0 : (0 : ℚ) < n := by
      rw [hn] at hpos
      exact (mul_pos_iff_of_pos_right hu).mp hpos
    have hlt : (n : ℚ) < 2 ^ 53 := by
      have h53 := Binary64.lt_two_pow_ulp q
      conv_lhs at h53 => rw [hn]
      exact_mod_cast lt_of_mul_lt_mul_right h53 hu.le
    have hnum : mantissa q = n.toNat := by rw [mantissa, hdiv, Rat.num_intCast]
    have hcast : ((n.toNat : ℕ) : ℚ) = n := by exact_mod_cast Int.toNat_of_nonneg (by exact_mod_cast hn0.le)
    refine ⟨by rw [hnum, hcast, hexp]; exact hn, ?_, by rw [hexp]; exact le_max_right _ _⟩
    rw [hnum]
    have : n < 2 ^ 53 := by exact_mod_cast hlt
    omega

/-! ### The code -/

def divideByBillion (x : FixedInteger) : FixedInteger × ℕ := x.divideSmall 1000000000

theorem divideByBillion_spec (x : FixedInteger) :
    (divideByBillion x).1.value = x.value / 10 ^ 9 ∧ (divideByBillion x).2 = x.value % 10 ^ 9 :=
  value_divideSmall x (by decide)

/-- The digits of a number, in chunks of nine from the lowest. -/
def chunks (x : FixedInteger) : List ℕ :=
  if (divideByBillion x).1.isZero then [(divideByBillion x).2] else (divideByBillion x).2 :: chunks (divideByBillion x).1
termination_by x.value
decreasing_by
  rename_i h
  have hne := mt (isZero_iff (divideByBillion x).1).mpr h
  rw [(divideByBillion_spec x).1] at hne ⊢
  exact Nat.div_lt_self (Nat.pos_of_ne_zero fun h0 => hne (by rw [h0, Nat.zero_div])) (by norm_num)

/-- The chunks from the highest down, each but the first with all of its zeros. -/
def decimal (x : FixedInteger) : List Char :=
  match (chunks x).reverse with
  | [] => []
  | first :: rest => Nat.toDigits 10 first ++ rest.flatMap (padded 9)

/-- The scaled magnitude, as an integer. -/
def scaled (mantissa : ℕ) (exponent : ℤ) (fractionCount : ℕ) : FixedInteger :=
  let integer := (fun x => x.multiplySmall 5)^[fractionCount] (fromU64 mantissa)
  let shift := exponent + fractionCount
  if 0 ≤ shift then integer.shiftLeft shift.toNat
  else
    let right := (-shift).toNat
    if integer.bit (right - 1) then (integer.shiftRight right).increment else integer.shiftRight right

/-- An argument out of range throws. -/
def numberToFixed (formatNumber : F64 → List Char) (value fractionDigits : F64) : Option (List Char) :=
  let digits := if fractionDigits.isNaN then .zero else F64.trunc fractionDigits
  if !(F64.zero.le digits && digits.le (.ofInt 100)) then none
  else
    let fractionCount := (F64.truncRat digits.rat).toNat
    if !value.isFinite || (F64.ofInt (10 ^ 21)).le (F64.abs value) then some (formatNumber value)
    else
      let magnitude := |value.rat|
      let text := (decimal (scaled (mantissa magnitude) (binaryExponent magnitude) fractionCount)).leftpad (fractionCount + 1) '0'
      some ((if value.lt .zero then ['-'] else []) ++ if fractionCount = 0 then text
        else text.take (text.length - fractionCount) ++ '.' :: text.drop (text.length - fractionCount))

/-! ### The digits -/

theorem chunks_ne_nil (x : FixedInteger) : chunks x ≠ [] := by
  rw [chunks]
  split_ifs <;> simp

theorem decimal_eq (x : FixedInteger) : decimal x = Nat.toDigits 10 x.value := by
  induction h : x.value using Nat.strongRecOn generalizing x with
  | ind n ih =>
    obtain ⟨hrest, hchunk⟩ := divideByBillion_spec x
    rw [h] at hrest hchunk
    rw [decimal, chunks]
    split_ifs with hzero
    · have hlt : n < 10 ^ 9 := by
        have := hrest.symm.trans ((isZero_iff _).mp hzero)
        omega
      rw [hchunk, Nat.mod_eq_of_lt hlt]
      simp
    · have hle : 10 ^ 9 ≤ n := by
        have := mt (isZero_iff _).mpr hzero
        rw [hrest] at this
        omega
      have hdecimal := ih _ (by omega) (divideByBillion x).1 hrest
      rw [decimal] at hdecimal
      rw [reverse_cons]
      obtain ⟨first, rest, hsplit⟩ := exists_cons_of_ne_nil (mt reverse_eq_nil_iff.mp (chunks_ne_nil (divideByBillion x).1))
      rw [hsplit] at hdecimal ⊢
      dsimp only [cons_append] at hdecimal ⊢
      rw [flatMap_append, ← append_assoc, hdecimal, flatMap_singleton, hchunk, ← padded_of_le hle, ← padded_one (n / 10 ^ 9)]
      exact (padded_add Nat.one_pos 8 n).symm

theorem value_five (x : FixedInteger) (k : ℕ) : ((fun x => x.multiplySmall 5)^[k] x).value = x.value * 5 ^ k := by
  induction k generalizing x with
  | zero => simp
  | succ k ih =>
    rw [Function.iterate_succ_apply, ih, value_multiplySmall, pow_succ', Nat.mul_assoc]
    rfl

/-- A number cut by some bits and the highest of them added, which rounds half up. -/
theorem floor_half (n k : ℕ) : ⌊(n : ℚ) / 2 ^ (k + 1) + 1 / 2⌋₊ = n / 2 ^ (k + 1) + (n.testBit k).toNat := by
  have hq : (n : ℚ) / 2 ^ (k + 1) + 1 / 2 = ((n + 2 ^ k : ℕ) : ℚ) / (2 ^ (k + 1) : ℕ) := by
    push_cast
    rw [pow_succ]
    field_simp
  have hbit : (n.testBit k).toNat = n / 2 ^ k % 2 := by
    rw [Nat.testBit_eq_decide_div_mod_eq]
    rcases Nat.mod_two_eq_zero_or_one (n / 2 ^ k) with h | h <;> simp [h]
  rw [hq, Nat.floor_div_natCast, Nat.floor_natCast, hbit, pow_succ, ← Nat.div_div_eq_div_mul, ← Nat.div_div_eq_div_mul,
    Nat.add_div_right _ (Nat.two_pow_pos k)]
  omega

/-- **Scaling is exact**, and rounds half up once. -/
theorem value_scaled {m : ℕ} (hm : m < 2 ^ 64) (e : ℤ) (f : ℕ) :
    (scaled m e f).value = ⌊(m : ℚ) * 2 ^ e * 10 ^ f + 1 / 2⌋₊ := by
  have hfive : ((fun x => x.multiplySmall 5)^[f] (fromU64 m)).value = m * 5 ^ f := by rw [value_five, value_fromU64 hm]
  have hscale : (m : ℚ) * 2 ^ e * 10 ^ f = ((m * 5 ^ f : ℕ) : ℚ) * 2 ^ (e + f) := by
    rw [zpow_add₀ (by norm_num), zpow_natCast, show (10 : ℚ) = 5 * 2 by norm_num, mul_pow]
    push_cast
    ring
  rw [scaled, hscale]
  dsimp only
  split_ifs with hshift hround
  · obtain ⟨k, hk⟩ := Int.eq_ofNat_of_zero_le hshift
    have hint : ((m * 5 ^ f : ℕ) : ℚ) * 2 ^ (e + f) + 1 / 2 = 1 / 2 + (m * 5 ^ f * 2 ^ k : ℕ) := by
      rw [hk, zpow_natCast]
      push_cast
      ring
    rw [value_shiftLeft, hfive, hint, hk, Int.toNat_natCast, Nat.floor_add_natCast (by norm_num),
      Nat.floor_eq_zero.mpr (by norm_num : (1 : ℚ) / 2 < 1), Nat.zero_add]
  all_goals
    obtain ⟨k, hk⟩ : ∃ k : ℕ, e + f = -((k + 1 : ℕ) : ℤ) := ⟨(-(e + f)).toNat - 1, by omega⟩
    have hright : (-(e + f)).toNat = k + 1 := by omega
    rw [hright, Nat.add_sub_cancel, bit_eq, hfive] at hround
    rw [hright, hk, zpow_neg, zpow_natCast, ← div_eq_mul_inv, floor_half]
  · rw [value_increment, value_shiftRight, hfive, hround]
    rfl
  · rw [value_shiftRight, hfive, eq_false_of_ne_true hround]
    rfl

/-- The integer closest to a rational, of two the larger. -/
def Closest (q : ℚ) (n : ℕ) : Prop := ∀ k : ℤ, |(n : ℚ) - q| ≤ |(k : ℚ) - q| ∧ (|(n : ℚ) - q| = |(k : ℚ) - q| → k ≤ n)

theorem closest_floor {q : ℚ} (hq : 0 ≤ q) : Closest q ⌊q + 1 / 2⌋₊ := by
  intro k
  have h1 := Nat.floor_le (by linarith : 0 ≤ q + 1 / 2)
  have h2 := Nat.lt_floor_add_one (q + 1 / 2)
  generalize ⌊q + 1 / 2⌋₊ = n at h1 h2 ⊢
  have hn : |(n : ℚ) - q| ≤ 1 / 2 := abs_le.mpr ⟨by linarith, by linarith⟩
  rcases lt_trichotomy k n with hlt | rfl | hgt
  · have hk : (k : ℚ) ≤ n - 1 := by exact_mod_cast Int.le_sub_one_of_lt hlt
    exact ⟨hn.trans ((by linarith : 1 / 2 ≤ -((k : ℚ) - q)).trans (neg_le_abs _)), fun _ => hlt.le⟩
  · exact ⟨le_rfl, fun _ => le_rfl⟩
  · have hk : (n : ℚ) + 1 ≤ k := by exact_mod_cast hgt
    have hfar : |(n : ℚ) - q| < |(k : ℚ) - q| := lt_of_le_of_lt hn (lt_of_lt_of_le (by linarith) (le_abs_self _))
    exact ⟨hfar.le, fun heq => absurd heq hfar.ne⟩

/-- The text of `n / 10 ^ f`, with `f` digits after the point. -/
def fixedText (n f : ℕ) : List Char := Nat.toDigits 10 (n / 10 ^ f) ++ if f = 0 then [] else '.' :: padded f (n % 10 ^ f)

/-- Where the point goes. -/
theorem pointed_eq (n f : ℕ) : (let text := (Nat.toDigits 10 n).leftpad (f + 1) '0'
    if f = 0 then text else text.take (text.length - f) ++ '.' :: text.drop (text.length - f)) = fixedText n f := by
  have hpadded : (Nat.toDigits 10 n).leftpad (f + 1) '0' = padded (f + 1) n := rfl
  rw [fixedText, hpadded]
  dsimp only
  split_ifs with hf
  · rw [hf, Nat.zero_add, padded_one, pow_zero, Nat.div_one, append_nil]
  · obtain ⟨k, rfl⟩ := Nat.exists_eq_succ_of_ne_zero hf
    have hlength := length_padded (Nat.succ_pos k) (Nat.mod_lt n (by positivity : 0 < 10 ^ (k + 1)))
    have hsplit := padded_add Nat.one_pos k n
    rw [padded_one, Nat.add_comm 1] at hsplit
    rw [hsplit, length_append, hlength, Nat.add_sub_cancel, take_left, drop_left]

theorem rat_abs (x : F64) : (F64.abs x).rat = |x.rat| := by
  rcases x with _ | _ | _ | x
  · simp [F64.abs, F64.isNeg, F64.rat]
  · unfold F64.abs
    split_ifs <;> simp [F64.neg, F64.rat]
  · simp [F64.abs, F64.isNeg, F64.neg, F64.rat, F64.zero]
  · unfold F64.abs
    split_ifs with h
    · have hneg : x.val < 0 := of_decide_eq_true h
      rw [F64.rat_neg]
      exact (abs_of_neg hneg).symm
    · have hneg : ¬ x.val < 0 := fun hlt => h (decide_eq_true hlt)
      exact (abs_of_nonneg (not_lt.mp hneg)).symm

theorem isFinite_abs {x : F64} (h : x.isFinite = true) : (F64.abs x).isFinite = true := by
  unfold F64.abs
  split_ifs
  · rw [F64.isFinite_neg, h]
  · exact h

theorem rat_e21 : (F64.ofInt (10 ^ 21)).isFinite = true ∧ (F64.ofInt (10 ^ 21)).rat = 10 ^ 21 := by
  have hgrid : OnGrid (10 ^ 21 : ℚ) := Binary64.onGrid_of_units (by norm_num) (n := 5 ^ 21) (e := 21) (by norm_num) (by norm_num) (by norm_num)
  have hlimit : (10 ^ 21 : ℚ) < Binary64.limit :=
    lt_of_le_of_lt (by norm_num : (10 ^ 21 : ℚ) ≤ 2 ^ 70) (pow_lt_pow_right₀ (by norm_num) (by norm_num))
  obtain ⟨y, hy, hv⟩ := F64.round_of_onGrid (by norm_num) hgrid hlimit
  have hint : F64.ofInt (10 ^ 21) = .fin y := by
    rw [← hy, F64.ofInt]
    norm_num
  rw [hint]
  exact ⟨rfl, hv⟩

theorem onGrid_rat (x : F64) : OnGrid x.rat := by
  cases x with
  | fin x => exact x.onGrid
  | _ => exact Binary64.onGrid_zero

/-- A number of digits passes the checks. -/
theorem digitCount_checked {least : ℤ} {f : ℕ} (hleast : 0 ≤ least) (hle : least ≤ f) (hf : f ≤ 100) : F64.IsSafe f ∧
    (F64.ofInt f).isNaN = false ∧ ((F64.ofInt least).le (.ofInt f) && (F64.ofInt f).le (.ofInt 100)) = true := by
  have hs : F64.IsSafe f := ⟨by unfold F64.maxSafeInteger; omega, by unfold F64.maxSafeInteger; omega⟩
  refine ⟨hs, F64.isNaN_eq_false.mpr (F64.round_ne_nan _), ?_⟩
  rw [F64.le_ofInt ⟨by unfold F64.maxSafeInteger; omega, by unfold F64.maxSafeInteger; omega⟩ hs, F64.le_ofInt hs (by decide)]
  simp only [Bool.and_eq_true, decide_eq_true_eq]
  omega

/-- A finite number below `10²¹` is printed as the closest decimal. -/
theorem numberToFixed_eq (formatNumber : F64 → List Char) {x : F64} (hx : x.isFinite = true) (hlt : |x.rat| < 10 ^ 21) {f : ℕ} (hf : f ≤ 100) :
    numberToFixed formatNumber x (.ofInt f) =
      some ((if x.rat < 0 then ['-'] else []) ++ fixedText ⌊|x.rat| * 10 ^ f + 1 / 2⌋₊ f) := by
  obtain ⟨hs, hnan, hrange⟩ := digitCount_checked le_rfl (Int.natCast_nonneg f) hf
  rw [F64.ofInt_zero] at hrange
  have hsmall : (F64.ofInt (10 ^ 21)).le (F64.abs x) = false := by
    rw [Bool.eq_false_iff, Ne, F64.le_iff_rat rat_e21.1 (isFinite_abs hx), rat_e21.2, rat_abs, not_le]
    exact hlt
  have hsign : x.lt .zero = decide (x.rat < 0) := by
    rw [Bool.eq_iff_iff, F64.lt_iff_rat hx rfl, decide_eq_true_iff]
    rfl
  obtain ⟨hval, hm, -⟩ := mantissa_spec (abs_nonneg x.rat) (onGrid_rat x).abs
  have hscaled := value_scaled hm (binaryExponent |x.rat|) f
  rw [← hval] at hscaled
  rw [numberToFixed, hnan]
  simp only [Bool.false_eq_true, if_false, F64.trunc_ofInt hs, hrange, Bool.not_true, hx, hsmall, Bool.or_self, hsign,
    decide_eq_true_eq, F64.rat_ofInt hs, F64.truncRat_intCast, Int.toNat_natCast, decimal_eq, hscaled]
  rw [← pointed_eq]

/-- **`toFixed` is exact.** The text is that of the closest decimal, with a sign for a negative number, a digit at least
before the point and as many as were asked for after it; and the arithmetic on limbs is that of the integers. -/
theorem toFixed_exact (formatNumber : F64 → List Char) :
    (∀ x : F64, x.isFinite = true → |x.rat| < 10 ^ 21 → ∀ f ≤ 100, ∃ n, Closest (|x.rat| * 10 ^ f) n ∧
      numberToFixed formatNumber x (.ofInt (f : ℕ)) = some ((if x.rat < 0 then ['-'] else []) ++
        (Nat.toDigits 10 (n / 10 ^ f) ++ if f = 0 then [] else '.' :: padded f (n % 10 ^ f))) ∧
      Nat.toDigits 10 (n / 10 ^ f) ≠ [] ∧ (f ≠ 0 → (padded f (n % 10 ^ f)).length = f)) ∧
    ∀ (a : FixedInteger) (k : UInt32) (b : ℕ), (a.multiplySmall k).value = a.value * k.toNat ∧
      (a.shiftLeft b).value = a.value * 2 ^ b ∧ (a.shiftRight b).value = a.value / 2 ^ b ∧ a.bit b = a.value.testBit b ∧
      a.increment.value = a.value + 1 ∧
      (k ≠ 0 → (a.divideSmall k).1.value = a.value / k.toNat ∧ (a.divideSmall k).2 = a.value % k.toNat) ∧
      ∀ d : FixedInteger, d.value ≠ 0 → (a.divideRem d).1.value = a.value / d.value ∧ (a.divideRem d).2.value = a.value % d.value := by
  refine ⟨fun x hx hlt f hf => ⟨_, closest_floor (by positivity), numberToFixed_eq formatNumber hx hlt hf, Nat.toDigits_ne_nil,
    fun h0 => length_padded (Nat.pos_of_ne_zero h0) (Nat.mod_lt _ (by positivity))⟩, fun a k b => ?_⟩
  exact ⟨value_multiplySmall a k, value_shiftLeft a b, value_shiftRight a b, bit_eq a b, value_increment a, value_divideSmall a,
    fun _ hd => divideRem_spec a hd⟩

end Scriptc.RuntimeRust.NumberFormat
