import Mathlib.Data.List.GetD
import Scriptc.RuntimeRust.NumberFixed
import Scriptc.RuntimeRust.ShortestDigits

/-!
# Numbers in `en-US`

`intl_number_format_en_us` of `number_format.rs`: the shortest digits of a number, rounded half away from zero
to three places.
-/

namespace Scriptc.RuntimeRust.NumberFormat

open List

open Numerals (padded)

/-! ### The code -/

/-- The digits from the last on: nines become zeros, and the first other digit goes up. -/
def bump : List ℕ → Option (List ℕ)
  | [] => none
  | digit :: digits => if digit ≠ 9 then some ((digit + 1) :: digits) else (bump digits).map (0 :: ·)

/-- The digits, and whether there were only nines. -/
def incrementDecimalDigits (digits : List ℕ) : List ℕ × Bool :=
  match bump digits.reverse with
  | some reversed => (reversed.reverse, false)
  | none => ([1], true)

/-- The digits with three places, and their point. -/
def roundThree (digits : List ℕ) (exponent : ℤ) : List ℕ × ℤ :=
  let kept := exponent + 3
  if kept < digits.length then
    let roundUp := 0 ≤ kept ∧ 5 ≤ digits.getD kept.toNat 0
    let digits := digits.take kept.toNat
    if roundUp then
      let (digits, carry) := incrementDecimalDigits digits
      (digits, if carry then exponent + 1 else exponent)
    else (digits, exponent)
  else (digits, exponent)

/-- A comma before every three digits that are left. -/
def integerText (digits : List ℕ) (exponent : ℕ) : List Char :=
  (List.range exponent).flatMap fun index =>
    (if 0 < index ∧ (exponent - index) % 3 = 0 then [','] else []) ++ [Nat.digitChar (digits.getD index 0)]

def fractionDigits (digits : List ℕ) (exponent : ℤ) : List ℕ :=
  (List.range 3).map fun offset =>
    let index := exponent + offset
    if 0 ≤ index ∧ index < digits.length then digits.getD index.toNat 0 else 0

def decimalText (digits : List ℕ) (exponent : ℤ) : List Char :=
  let fraction := (fractionDigits digits exponent).rdropWhile (· = 0)
  (if exponent ≤ 0 then ['0'] else integerText digits exponent.toNat) ++ if fraction = [] then [] else '.' :: digitsText fraction

/-- There is no text where a panic is. -/
def intlNumberFormatEnUs (shortest : ℚ → Decimal) (value : F64) : Option (List Char) :=
  if value.isNaN then some "NaN".toList
  else
    let sign := if value.isNeg then ['-'] else []
    if !value.isFinite then some (sign ++ ['∞'])
    else if value.isZero then some (sign ++ ['0'])
    else
      (shortestDecimalDigits (formatNumber shortest (F64.abs value))).map fun (digits, exponent) =>
        let (digits, exponent) := roundThree digits exponent
        if digits = [] then sign ++ ['0'] else sign ++ decimalText digits exponent

/-! ### Rounding -/

theorem bump_spec (digits : List ℕ) (h : ∀ d ∈ digits, d < 10) :
    match bump digits with
    | some bumped => bumped.length = digits.length ∧ (∀ d ∈ bumped, d < 10) ∧ spelled bumped.reverse = spelled digits.reverse + 1
    | none => spelled digits.reverse + 1 = 10 ^ digits.length := by
  induction digits with
  | nil => rfl
  | cons digit digits ih =>
    obtain ⟨hdigit, hdigits⟩ := forall_mem_cons.mp h
    specialize ih hdigits
    rw [bump]
    split_ifs with h9
    · refine ⟨rfl, forall_mem_cons.mpr ⟨by omega, hdigits⟩, ?_⟩
      rw [reverse_cons, reverse_cons, spelled_concat, spelled_concat]
      rfl
    · obtain rfl := not_not.mp h9
      cases hbump : bump digits with
      | none =>
        rw [hbump] at ih
        rw [Option.map_none, reverse_cons, spelled_concat, length_cons, pow_succ]
        dsimp only at ih ⊢
        omega
      | some bumped =>
        rw [hbump] at ih
        obtain ⟨hlength, hlt, hspelled⟩ := ih
        refine ⟨by rw [length_cons, hlength, length_cons], forall_mem_cons.mpr ⟨by norm_num, hlt⟩, ?_⟩
        rw [reverse_cons, reverse_cons, spelled_concat, spelled_concat, hspelled]
        ring

/-- Digits with no more than three places, which are `n` thousandths and start with no zero. -/
structure Rounded (n : ℕ) (digits : List ℕ) (exponent : ℤ) : Prop where
  lt : ∀ d ∈ digits, d < 10
  short : (digits.length : ℤ) ≤ exponent + 3
  value : spelled digits * 10 ^ (exponent + 3 - digits.length).toNat = n
  large : 10 ^ (digits.length - 1) ≤ spelled digits

variable {digits : List ℕ} {exponent : ℤ} {n : ℕ}

/-- A single one, when the digits are nines or none are left. -/
theorem increment_spec (h : ∀ d ∈ digits, d < 10) (hlength : (digits.length : ℤ) = exponent + 3)
    (hn : spelled digits + 1 = n) (hlarge : digits ≠ [] → 10 ^ (digits.length - 1) ≤ spelled digits) :
    Rounded n (incrementDecimalDigits digits).1 (if (incrementDecimalDigits digits).2 then exponent + 1 else exponent) := by
  have hbump := bump_spec digits.reverse fun d hd => h d (mem_reverse.mp hd)
  rw [incrementDecimalDigits]
  cases hsome : bump digits.reverse with
  | none =>
    rw [hsome, reverse_reverse, length_reverse] at hbump
    dsimp only at hbump
    refine ⟨by simp, by simp; omega, ?_, by simp [spelled]⟩
    have hone : (exponent + 1 + 3 - ([1] : List ℕ).length).toNat = digits.length := by
      rw [length_singleton]
      omega
    rw [if_pos rfl, hone, ← hn, hbump]
    simp [spelled]
  | some bumped =>
    rw [hsome, reverse_reverse, length_reverse] at hbump
    obtain ⟨hsame, hlt, hspelled⟩ := hbump
    have hne : digits ≠ [] := by
      rintro rfl
      cases hsome
    refine ⟨fun d hd => hlt d (mem_reverse.mp hd), by simp [hsame]; omega, ?_, ?_⟩
    · rw [length_reverse, hsame, if_neg (by simp), hspelled, hn, hlength, sub_self]
      simp
    · rw [length_reverse, hsame, hspelled]
      exact (hlarge hne).trans (Nat.le_succ _)

/-- The digit after the ones that stay tells whether they go up. -/
theorem floor_cut {as bs : List ℕ} {x : ℕ} (hx : x < 10) (hbs : ∀ d ∈ bs, d < 10) :
    ⌊(spelled (as ++ x :: bs) : ℚ) / 10 ^ (bs.length + 1) + 1 / 2⌋₊ = spelled as + if 5 ≤ x then 1 else 0 := by
  have hlow := spelled_lt hbs
  have hspelled : spelled (as ++ x :: bs) = (spelled as * 10 + x) * 10 ^ bs.length + spelled bs := by
    rw [← singleton_append, ← append_assoc, spelled_append, spelled_concat]
  have hpos : (0 : ℚ) < 10 ^ bs.length := by positivity
  have hlt : (spelled bs : ℚ) < 10 ^ bs.length := by exact_mod_cast hlow
  have hnonneg : (0 : ℚ) ≤ spelled bs := Nat.cast_nonneg _
  have hq : (spelled (as ++ x :: bs) : ℚ) / 10 ^ (bs.length + 1) = spelled as + (x + spelled bs / 10 ^ bs.length) / 10 := by
    rw [hspelled, pow_succ]
    push_cast
    field_simp
    ring
  have hunit : (spelled bs : ℚ) / 10 ^ bs.length < 1 := (div_lt_one hpos).mpr hlt
  have hunit0 : 0 ≤ (spelled bs : ℚ) / 10 ^ bs.length := by positivity
  rw [hq, Nat.floor_eq_iff (by positivity)]
  split_ifs with h5
  · have h5 : (5 : ℚ) ≤ x := by exact_mod_cast h5
    have h9 : (x : ℚ) ≤ 9 := by exact_mod_cast Nat.le_of_lt_succ hx
    push_cast
    exact ⟨by linarith, by linarith⟩
  · have h4 : (x : ℚ) ≤ 4 := by exact_mod_cast Nat.le_of_lt_succ (not_le.mp h5)
    have h0 : (0 : ℚ) ≤ x := Nat.cast_nonneg _
    push_cast
    exact ⟨by linarith, by linarith⟩

/-- The digits are rounded once, half away from zero. -/
theorem roundThree_spec {d : Decimal} (h : d.WellFormed) :
    (roundThree d.digits d.point).1 = [] ∧ ⌊d.value * 1000 + 1 / 2⌋₊ = 0 ∨
      Rounded ⌊d.value * 1000 + 1 / 2⌋₊ (roundThree d.digits d.point).1 (roundThree d.digits d.point).2 := by
  have hvalue : d.value * 1000 = spelled d.digits * 10 ^ (d.point + 3 - d.digits.length) := by
    rw [Decimal.value, add_sub_right_comm, zpow_add₀ (by norm_num), mul_assoc]
    norm_num
  have hspelled := spelled_lt h.lt
  rcases Int.lt_or_le (d.point + 3) 0 with hneg | hkept
  · -- nothing is left, and the number is below a tenth of a thousandth
    have hround : roundThree d.digits d.point = ([], d.point) := by
      have hlt : d.point + 3 < d.digits.length := by omega
      rw [roundThree]
      simp only [hlt, hneg.not_ge, false_and, if_true, if_false, Int.toNat_of_nonpos hneg.le, take_zero]
    refine .inl ⟨by rw [hround], Nat.floor_eq_zero.mpr ?_⟩
    have hle : (10 : ℚ) ^ (d.point + 3 - d.digits.length) ≤ 10 ^ (-(d.digits.length : ℤ) - 1) :=
      zpow_le_zpow_right₀ (by norm_num) (by omega)
    have hmul : (spelled d.digits : ℚ) * 10 ^ (d.point + 3 - d.digits.length) ≤ 10 ^ d.digits.length * 10 ^ (-(d.digits.length : ℤ) - 1) :=
      mul_le_mul (by exact_mod_cast hspelled.le) hle (zpow_pos (by norm_num) _).le (pow_pos (by norm_num) _).le
    have hten : (10 : ℚ) ^ d.digits.length * 10 ^ (-(d.digits.length : ℤ) - 1) = 1 / 10 := by
      have hexp : (d.digits.length : ℤ) + (-(d.digits.length : ℤ) - 1) = -1 := by ring
      rw [← zpow_natCast, ← zpow_add₀ (by norm_num), hexp]
      norm_num
    rw [hvalue]
    linarith
  obtain ⟨k, hk⟩ := Int.eq_ofNat_of_zero_le hkept
  rcases Nat.lt_or_ge k d.digits.length with hlt | hge
  · obtain ⟨x, bs, hsplit⟩ : ∃ x bs, d.digits.drop k = x :: bs := ⟨_, _, drop_eq_getElem_cons hlt⟩
    have hx : d.digits.getD k 0 = x := by
      rw [getD_eq_getElem?_getD, ← List.head?_drop, hsplit]
      rfl
    have hdrop : ∀ digit ∈ d.digits.drop k, digit < 10 := fun digit hd => h.lt _ (mem_of_mem_drop hd)
    have htake : ∀ digit ∈ d.digits.take k, digit < 10 := fun digit hd => h.lt _ (mem_of_mem_take hd)
    rw [hsplit, forall_mem_cons] at hdrop
    have hlength : (d.digits.take k).length = k := length_take_of_le hlt.le
    have hbs : d.digits.length = k + (bs.length + 1) := by
      rw [← length_cons (a := x), ← hsplit, length_drop]
      omega
    have hfloor : ⌊d.value * 1000 + 1 / 2⌋₊ = spelled (d.digits.take k) + if 5 ≤ x then 1 else 0 := by
      have hexp : d.point + 3 - d.digits.length = -((bs.length + 1 : ℕ) : ℤ) := by omega
      rw [hvalue, hexp, zpow_neg, zpow_natCast, ← div_eq_mul_inv, ← floor_cut hdrop.1 hdrop.2, ← hsplit, take_append_drop]
    have hlarge : d.digits.take k ≠ [] → 10 ^ ((d.digits.take k).length - 1) ≤ spelled (d.digits.take k) := by
      intro hne
      refine h.large (Nat.pos_of_ne_zero fun h0 => hne ?_)
      rw [h0, take_zero]
    have hround : roundThree d.digits d.point = if 5 ≤ x then ((incrementDecimalDigits (d.digits.take k)).1,
        if (incrementDecimalDigits (d.digits.take k)).2 then d.point + 1 else d.point) else (d.digits.take k, d.point) := by
      rw [roundThree]
      simp only [hk, Nat.cast_lt, hlt, if_true, Int.toNat_natCast, hx, Nat.cast_nonneg, true_and]
    rw [hfloor, hround]
    by_cases h5 : 5 ≤ x
    · rw [if_pos h5, if_pos h5]
      exact .inr (increment_spec htake (by omega) rfl hlarge)
    · rw [if_neg h5, if_neg h5, Nat.add_zero]
      by_cases hnil : d.digits.take k = []
      · exact .inl ⟨hnil, by rw [hnil]; rfl⟩
      · refine .inr ⟨htake, by rw [hlength, hk], ?_, hlarge hnil⟩
        rw [hlength, hk, sub_self]
        simp
  · have hcond : ¬ d.point + 3 < d.digits.length := by omega
    have hround : roundThree d.digits d.point = (d.digits, d.point) := by rw [roundThree]; exact if_neg hcond
    have hall := h.large (length_pos_of_ne_nil h.ne_nil)
    rw [take_length] at hall
    have hnat : d.value * 1000 + 1 / 2 = 1 / 2 + (spelled d.digits * 10 ^ (d.point + 3 - d.digits.length).toNat : ℕ) := by
      obtain ⟨j, hj⟩ := Int.eq_ofNat_of_zero_le (by omega : 0 ≤ d.point + 3 - d.digits.length)
      rw [hvalue, hj, Int.toNat_natCast, zpow_natCast]
      push_cast
      ring
    rw [hround]
    refine .inr ⟨h.lt, not_lt.mp hcond, ?_, hall⟩
    rw [hnat, Nat.floor_add_natCast (by norm_num), Nat.floor_eq_zero.mpr (by norm_num : (1 : ℚ) / 2 < 1), Nat.zero_add]

/-! ### The text -/

/-- The digits of a number in threes from the right. -/
def grouped (n : ℕ) : List Char :=
  if n < 1000 then Nat.toDigits 10 n else grouped (n / 1000) ++ ',' :: padded 3 (n % 1000)

theorem grouped_zero : grouped 0 = ['0'] := by
  rw [grouped, if_pos (by decide), Nat.toDigits_zero]

/-- Thousandths after a point, with no zeros at the end. -/
def fractionText (n : ℕ) : List Char :=
  if (padded 3 n).rdropWhile (· = '0') = [] then [] else '.' :: (padded 3 n).rdropWhile (· = '0')

/-- The first digits, with zeros after the last. -/
def firstDigits (digits : List ℕ) (k : ℕ) : List ℕ := (List.range k).map (digits.getD · 0)

theorem firstDigits_add (digits : List ℕ) (k : ℕ) :
    firstDigits digits (k + 3) = firstDigits digits k ++ [digits.getD k 0, digits.getD (k + 1) 0, digits.getD (k + 2) 0] := by
  simp only [firstDigits, range_succ, map_append, map_cons, map_nil, append_assoc, cons_append, nil_append]

@[simp] theorem length_firstDigits (digits : List ℕ) (k : ℕ) : (firstDigits digits k).length = k := by simp [firstDigits]

variable {k : ℕ}

theorem firstDigits_eq (h : digits.length ≤ k) :
    firstDigits digits k = digits ++ replicate (k - digits.length) 0 := by
  refine ext_getElem (by simp; omega) fun i hi _ => ?_
  have hget : (firstDigits digits k)[i] = digits.getD i 0 := by simp [firstDigits]
  rw [hget, getElem_append]
  split_ifs with hlt
  · exact getD_eq_getElem _ _ hlt
  · rw [getElem_replicate, getD_eq_default _ _ (not_lt.mp hlt)]

theorem getD_lt (h : ∀ d ∈ digits, d < 10) (k : ℕ) : digits.getD k 0 < 10 := by
  rw [getD_eq_getElem?_getD]
  cases hk : digits[k]? with
  | none => decide
  | some d => exact h d (mem_of_getElem? hk)

theorem firstDigits_lt (h : ∀ d ∈ digits, d < 10) (k : ℕ) : ∀ d ∈ firstDigits digits k, d < 10 := by
  rintro d hd
  obtain ⟨i, -, rfl⟩ := mem_map.mp hd
  exact getD_lt h i

/-- Three digits more are three digits after a comma. -/
theorem integerText_add (digits : List ℕ) (hk : 0 < k) : integerText digits (k + 3) =
    integerText digits k ++ ',' :: digitsText [digits.getD k 0, digits.getD (k + 1) 0, digits.getD (k + 2) 0] := by
  have hstart : (List.range k).flatMap (fun index =>
      (if 0 < index ∧ (k + 3 - index) % 3 = 0 then [','] else []) ++ [Nat.digitChar (digits.getD index 0)]) = integerText digits k := by
    rw [integerText]
    refine flatMap_congr fun index hindex => ?_
    have hlt := mem_range.mp hindex
    have hmod : (k + 3 - index) % 3 = (k - index) % 3 := by omega
    rw [hmod]
  have h0 : 0 < k ∧ (k + 3 - k) % 3 = 0 := by omega
  have h1 : ¬ (0 < k + 1 ∧ (k + 3 - (k + 1)) % 3 = 0) := by omega
  have h2 : ¬ (0 < k + 2 ∧ (k + 3 - (k + 2)) % 3 = 0) := by omega
  rw [integerText]
  simp only [range_succ, flatMap_append, flatMap_singleton, hstart, if_pos h0, if_neg h1, if_neg h2]
  simp [digitsText]

theorem integerText_of_le (digits : List ℕ) (hk : k ≤ 3) : integerText digits k = digitsText (firstDigits digits k) := by
  rw [integerText, firstDigits, digitsText, map_map, ← flatMap_pure_eq_map]
  refine flatMap_congr fun index hindex => ?_
  have hlt := mem_range.mp hindex
  rw [if_neg (by omega)]
  rfl

theorem spelled_three {a b c : ℕ} : spelled [a, b, c] = (a * 10 + b) * 10 + c := by simp [spelled]

theorem integerText_grouped (h : ∀ d ∈ digits, d < 10) (hk : 0 < k)
    (hlarge : 10 ^ (k - 1) ≤ spelled (firstDigits digits k)) : integerText digits k = grouped (spelled (firstDigits digits k)) := by
  induction k using Nat.strongRecOn with
  | ind k ih =>
    have hall := spelled_lt (firstDigits_lt h k)
    rw [length_firstDigits] at hall
    rcases Nat.lt_or_ge 3 k with hlt | hle
    · obtain ⟨j, rfl⟩ := Nat.exists_eq_add_of_le' hlt.le
      have hthree : ∀ d ∈ [digits.getD j 0, digits.getD (j + 1) 0, digits.getD (j + 2) 0], d < 10 := by
        simp only [forall_mem_cons]
        exact ⟨getD_lt h _, getD_lt h _, getD_lt h _, by simp⟩
      have htext := digitsText_eq_padded (by simp) hthree
      have hlow := spelled_lt hthree
      have hpow : 10 ^ (j + 3 - 1) = 10 ^ (j - 1) * 1000 := by
        rw [show j + 3 - 1 = j - 1 + 3 by omega, pow_add]
        norm_num
      have hone : 1 ≤ 10 ^ (j - 1) := Nat.one_le_pow _ _ (by norm_num)
      rw [firstDigits_add, spelled_append] at hlarge ⊢
      generalize spelled [digits.getD j 0, digits.getD (j + 1) 0, digits.getD (j + 2) 0] = low at hlarge hlow htext ⊢
      simp only [length_cons, length_nil, Nat.zero_add, Nat.reduceAdd, Nat.reducePow] at hlarge hlow htext ⊢
      rw [grouped, if_neg (by omega), integerText_add digits (by omega), htext, ih j (by omega) (by omega) (by omega)]
      congr 3 <;> omega
    · have hsmall : spelled (firstDigits digits k) < 1000 := hall.trans_le (Nat.pow_le_pow_right (by norm_num) hle)
      have htext := digitsText_eq_toDigits (firstDigits_lt h k) (by rwa [length_firstDigits])
      rw [integerText_of_le digits hle, htext, grouped, if_pos hsmall]

theorem spelled_firstDigits (h : Rounded n digits exponent) (hk : exponent + 3 = k) :
    spelled (firstDigits digits k) = n := by
  have hshort := h.short
  rw [hk] at hshort
  rw [firstDigits_eq (by exact_mod_cast hshort), spelled_append, spelled_zeros, length_replicate, Nat.add_zero, ← h.value, hk]
  congr 2
  omega

theorem Rounded.pos (h : Rounded n digits exponent) : 0 < exponent + 3 := by
  have hne : digits ≠ [] := by
    rintro rfl
    exact absurd h.large (by simp [spelled])
  have := length_pos_of_ne_nil hne
  have := h.short
  omega

/-- The digit of a place, which has a zero where there are none. -/
def placeDigit (digits : List ℕ) (place : ℤ) : ℕ := if 0 ≤ place then digits.getD place.toNat 0 else 0

theorem fractionDigits_eq (digits : List ℕ) (exponent : ℤ) : fractionDigits digits exponent =
    [placeDigit digits exponent, placeDigit digits (exponent + 1), placeDigit digits (exponent + 2)] := by
  have hplace (place : ℤ) : (if 0 ≤ place ∧ place < digits.length then digits.getD place.toNat 0 else 0) = placeDigit digits place := by
    rw [placeDigit]
    by_cases hlt : place < digits.length
    · simp only [hlt, and_true]
    · rw [if_neg fun hplace => hlt hplace.2, getD_eq_default _ _ (by omega), ite_self]
  rw [fractionDigits]
  simp only [hplace]
  simp [range_succ]

theorem placeDigit_lt (h : ∀ d ∈ digits, d < 10) (place : ℤ) : placeDigit digits place < 10 := by
  rw [placeDigit]
  split_ifs
  · exact getD_lt h _
  · decide

theorem placeDigit_natCast (digits : List ℕ) (k : ℕ) : placeDigit digits k = digits.getD k 0 := if_pos (Int.natCast_nonneg k)

theorem placeDigit_neg {place : ℤ} (h : place < 0) : placeDigit digits place = 0 := if_neg h.not_ge

/-- The places that are printed are the thousandths. -/
theorem fractionDigits_spec (h : Rounded n digits exponent) :
    digitsText (fractionDigits digits exponent) = padded 3 (n % 1000) := by
  have hlt : ∀ d ∈ fractionDigits digits exponent, d < 10 := by
    rw [fractionDigits_eq]
    simp only [forall_mem_cons]
    exact ⟨placeDigit_lt h.lt _, placeDigit_lt h.lt _, placeDigit_lt h.lt _, by simp⟩
  have hspelled : spelled (fractionDigits digits exponent) = n % 1000 := by
    have hpos := h.pos
    have hdigit := getD_lt h.lt
    rw [fractionDigits_eq, spelled_three]
    rcases Int.lt_or_le exponent 0 with hneg | hnonneg
    · obtain rfl | rfl : exponent = -1 ∨ exponent = -2 := by omega
      · have hn := spelled_firstDigits h (k := 2) (by norm_num)
        have htwo : firstDigits digits 2 = [digits.getD 0 0, digits.getD 1 0] := by simp [firstDigits, range_succ]
        have h0 : placeDigit digits (-1 + 1) = digits.getD 0 0 := placeDigit_natCast digits 0
        have h1 : placeDigit digits (-1 + 2) = digits.getD 1 0 := placeDigit_natCast digits 1
        have := hdigit 0
        have := hdigit 1
        rw [htwo] at hn
        rw [placeDigit_neg (by norm_num), h0, h1, ← hn, spelled, foldl_cons, foldl_cons, foldl_nil]
        omega
      · have hn := spelled_firstDigits h (k := 1) (by norm_num)
        have hone : firstDigits digits 1 = [digits.getD 0 0] := by simp [firstDigits, range_succ]
        have h0 : placeDigit digits (-2 + 2) = digits.getD 0 0 := placeDigit_natCast digits 0
        have := hdigit 0
        rw [hone] at hn
        rw [placeDigit_neg (by norm_num), placeDigit_neg (by norm_num), h0, ← hn, spelled, foldl_cons, foldl_nil]
        omega
    · obtain ⟨k, rfl⟩ := Int.eq_ofNat_of_zero_le hnonneg
      have hn := spelled_firstDigits h (k := k + 3) (by push_cast; ring)
      rw [firstDigits_add, spelled_append, spelled_three] at hn
      have h1 : placeDigit digits (k + 1) = digits.getD (k + 1) 0 := placeDigit_natCast digits (k + 1)
      have h2 : placeDigit digits (k + 2) = digits.getD (k + 2) 0 := placeDigit_natCast digits (k + 2)
      have := hdigit k
      have := hdigit (k + 1)
      have := hdigit (k + 2)
      rw [placeDigit_natCast, h1, h2, ← hn, length_cons, length_cons, length_singleton]
      omega
  rw [digitsText_eq_padded (by rw [fractionDigits_eq]; exact cons_ne_nil _ _) hlt, hspelled, fractionDigits_eq]
  rfl

theorem Rounded.le (h : Rounded n digits k) : 10 ^ (k + 2) ≤ n := by
  have hne : digits.length ≠ 0 := by
    intro h0
    exact absurd h.large (by rw [length_eq_zero_iff.mp h0]; simp [spelled])
  have hshort := h.short
  have hpow : 10 ^ (k + 2) = 10 ^ (digits.length - 1) * 10 ^ ((k : ℤ) + 3 - digits.length).toNat := by
    rw [← pow_add]
    congr 1
    omega
  rw [hpow, ← h.value]
  exact Nat.mul_le_mul_right _ h.large

theorem dropZeros_text (h : ∀ d ∈ digits, d < 10) :
    digitsText (digits.rdropWhile (· = 0)) = (digitsText digits).rdropWhile (· = '0') := by
  induction digits using reverseRecOn with
  | nil => rfl
  | append_singleton digits digit ih =>
    have hdigit := (digitChar_cases (h digit (by simp))).2.2.2
    have htext : digitsText (digits ++ [digit]) = digitsText digits ++ [Nat.digitChar digit] := map_append
    by_cases h0 : digit = 0
    · rw [htext, rdropWhile_concat_pos _ _ _ (by simpa using h0), rdropWhile_concat_pos _ _ _ (by simpa using hdigit.mpr h0)]
      exact ih fun d hd => h d (by simp [hd])
    · rw [htext, rdropWhile_concat_neg _ _ _ (by simpa using h0), rdropWhile_concat_neg _ _ _ (by simpa using mt hdigit.mp h0), htext]

theorem decimalText_spec (h : Rounded n digits exponent) :
    decimalText digits exponent = grouped (n / 1000) ++ fractionText (n % 1000) := by
  have hint : (if exponent ≤ 0 then ['0'] else integerText digits exponent.toNat) = grouped (n / 1000) := by
    rcases le_or_gt exponent 0 with hle | hpos
    · have hlt : n < 1000 := by
        obtain ⟨k, hk⟩ := Int.eq_ofNat_of_zero_le h.pos.le
        have hn := spelled_lt (firstDigits_lt h.lt k)
        rw [spelled_firstDigits h hk, length_firstDigits] at hn
        exact hn.trans_le (Nat.pow_le_pow_right (n := 10) (by norm_num) (by omega : k ≤ 3))
      rw [if_pos hle, Nat.div_eq_of_lt hlt, grouped_zero]
    · obtain ⟨k, rfl⟩ := Int.eq_ofNat_of_zero_le hpos.le
      have hn := spelled_firstDigits h (k := k + 3) (by push_cast; ring)
      have hthree : spelled [digits.getD k 0, digits.getD (k + 1) 0, digits.getD (k + 2) 0] < 10 ^ 3 := spelled_lt (by
        simp only [forall_mem_cons]
        exact ⟨getD_lt h.lt _, getD_lt h.lt _, getD_lt h.lt _, by simp⟩)
      rw [firstDigits_add, spelled_append] at hn
      simp only [length_cons, length_nil, Nat.zero_add, Nat.reduceAdd, Nat.reducePow] at hn hthree
      have hdiv : spelled (firstDigits digits k) = n / 1000 := by omega
      have hlarge : 10 ^ (k - 1) ≤ n / 1000 := by
        have hpow : 10 ^ (k + 2) = 10 ^ (k - 1) * 1000 := by
          rw [show k + 2 = k - 1 + 3 by omega, pow_add]
          norm_num
        rw [Nat.le_div_iff_mul_le (by norm_num), ← hpow]
        exact h.le
      rw [if_neg hpos.not_ge, Int.toNat_natCast, integerText_grouped h.lt (by omega) (by rw [hdiv]; exact hlarge), hdiv]
  have hzeros : digitsText ((fractionDigits digits exponent).rdropWhile (· = 0)) = (padded 3 (n % 1000)).rdropWhile (· = '0') := by
    rw [← fractionDigits_spec h]
    refine dropZeros_text ?_
    rw [fractionDigits_eq]
    simp only [forall_mem_cons]
    exact ⟨placeDigit_lt h.lt _, placeDigit_lt h.lt _, placeDigit_lt h.lt _, by simp⟩
  rw [decimalText, hint, fractionText, ← hzeros]
  simp only [digitsText, map_eq_nil_iff]

/-- The text of a number of thousandths. -/
def enUs (n : ℕ) : List Char := grouped (n / 1000) ++ fractionText (n % 1000)

/-- **Numbers in `en-US`.** The text is that of the shortest digits of the number, rounded half away from zero to
thousandths: the digits before the point in threes, and after it the places that are not zeros at the end. -/
theorem intlNumberFormatEnUs_eq (shortest : ℚ → Decimal) (x : F64) (hx : x.isFinite = true)
    (h : x.rat ≠ 0 → (shortest |x.rat|).WellFormed) :
    intlNumberFormatEnUs shortest x = some ((if x.isNeg then ['-'] else []) ++
      enUs (if x.rat = 0 then 0 else ⌊(shortest |x.rat|).value * 1000 + 1 / 2⌋₊)) := by
  have hnan : x.isNaN = false := by
    cases x <;> first | rfl | cases hx
  have hzero : x.isZero = decide (x.rat = 0) := by
    cases x <;> first | rfl | cases hx
  have henUs : enUs 0 = ['0'] := by
    rw [enUs, grouped_zero]
    decide
  rw [intlNumberFormatEnUs]
  simp only [hnan, hx, hzero, Bool.false_eq_true, Bool.not_true, if_false, decide_eq_true_eq]
  by_cases h0 : x.rat = 0
  · rw [if_pos h0, if_pos h0, henUs]
  have hwell := h h0
  have habs := rat_abs x
  have hdigits := (formatNumber_digits (isFinite_abs hx) (by rw [habs]; exact abs_pos.mpr h0) (by rwa [habs])).2
  rw [habs] at hdigits
  rw [if_neg h0, if_neg h0, hdigits, Option.map_some]
  dsimp only
  rcases roundThree_spec hwell with ⟨hnil, hn⟩ | hrounded
  · rw [if_pos hnil, hn, henUs]
  · have hne : (roundThree (shortest |x.rat|).digits (shortest |x.rat|).point).1 ≠ [] := by
      intro hnil
      exact absurd hrounded.large (by rw [hnil]; simp [spelled])
    rw [if_neg hne, decimalText_spec hrounded]
    rfl

theorem intlNumberFormatEnUs_carry : ∃ x : F64, x.rat = -(2047999 / 2048) ∧
    intlNumberFormatEnUs (fun _ => ⟨[9, 9, 9, 9, 9, 9, 5, 1, 1, 7, 1, 8, 7, 5], 3⟩) x = some "-1,000".toList := by
  have hgrid : Binary64.OnGrid (2047999 / 2048) :=
    Binary64.onGrid_of_units (by norm_num) (n := 2047999) (e := -11) (by norm_num) (by norm_num) (by norm_num)
  have hlimit : |(-(2047999 / 2048) : ℚ)| < Binary64.limit := by
    rw [abs_neg, abs_of_pos (by norm_num)]
    exact lt_of_lt_of_le (by norm_num : (2047999 / 2048 : ℚ) < 2 ^ 10) (pow_le_pow_right₀ (by norm_num) (by norm_num))
  obtain ⟨y, hy⟩ : ∃ y : Finite64, y.val = -(2047999 / 2048) := ⟨⟨_, hgrid.neg, hlimit⟩, rfl⟩
  refine ⟨.fin y, hy, ?_⟩
  have h := intlNumberFormatEnUs_eq (fun _ => ⟨[9, 9, 9, 9, 9, 9, 5, 1, 1, 7, 1, 8, 7, 5], 3⟩) (.fin y) rfl
    fun _ => ⟨by simp, by decide, by decide, by decide⟩
  have hneg : (F64.fin y).isNeg = true := decide_eq_true (by rw [hy]; norm_num)
  have hne : (F64.fin y).rat ≠ 0 := by
    change y.val ≠ 0
    rw [hy]
    norm_num
  have hvalue : (⟨[9, 9, 9, 9, 9, 9, 5, 1, 1, 7, 1, 8, 7, 5], 3⟩ : Decimal).value * 1000 + 1 / 2 = 1000000 + 6 / 512 := by
    norm_num [Decimal.value, spelled]
  have hfloor : ⌊(1000000 + 6 / 512 : ℚ)⌋₊ = 1000000 := by
    rw [Nat.floor_eq_iff (by norm_num)]
    norm_num
  have htext : enUs 1000000 = "1,000".toList := by
    rw [enUs, grouped, if_neg (by decide), grouped, if_pos (by decide)]
    decide
  rw [h, if_neg hne, if_pos hneg, hvalue, hfloor, htext]
  rfl

end Scriptc.RuntimeRust.NumberFormat
