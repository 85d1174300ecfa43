import Mathlib.Data.Nat.Size
import Scriptc.Num.Integral
import Scriptc.Runtime.BigIntGrammar
import Scriptc.RuntimeRust.BytesEncoding

/-!
# Numbers from strings

`number_parse.rs`: `parseInt`, ToNumber of a string, and `parseFloat`. The code scans the bytes of the UTF-8
for ASCII characters, none of whose bytes is part of another character, so that a scan of bytes is one of
characters. Rust's own parser is given; what is asked of it is that it reads decimal numbers.
-/

namespace Scriptc.RuntimeRust.NumberParse

open List

open Decoder (Units chars chars_encode chars_encode_append)
open Runtime.BigInt (digitOf digitOf_space trimmed trimmed_eq IsSpace)
open scoped Scriptc.Utf16

/-! ### Scanning -/

/-- `javascript_whitespace` -/
def trimStart (text : List Char) : List Char := text.dropWhile fun c => IsSpace c.toNat

def isAsciiDigit (c : Char) : Bool := '0' ≤ c ∧ c ≤ '9'

/-- The sign of a text, and what comes after it. -/
def takeSign : List Char → List Char × List Char
  | [] => ([], [])
  | c :: rest => if c = '+' ∨ c = '-' then ([c], rest) else ([], c :: rest)

/-- The digits at the start of a text, and what comes after them. -/
def takeDigits (text : List Char) : List Char × List Char := (text.takeWhile isAsciiDigit, text.dropWhile isAsciiDigit)

/-! ### `parseInt` -/

def stripRadix (requested : ℤ) (digits : List Char) : ℤ × List Char :=
  match digits with
  | '0' :: 'x' :: rest => if requested = 0 ∨ requested = 16 then (16, rest) else (requested, digits)
  | '0' :: 'X' :: rest => if requested = 0 ∨ requested = 16 then (16, rest) else (requested, digits)
  | digits => (if requested = 0 then 10 else requested, digits)

/-- The digits of a base at the start of a text. -/
def digitsOf (base : ℕ) : List Char → List ℕ
  | [] => []
  | c :: rest =>
    match digitOf base c with
    | some digit => digit :: digitsOf base rest
    | none => []

def accumulate (base : ℕ) (digits : List ℕ) : F64 :=
  digits.foldl (fun result (digit : ℕ) => F64.add (F64.mul result (.ofInt base)) (.ofInt digit)) .zero

def numberParseInt (parse : List Char → Option F64) (value : Units) (radix : F64) : F64 :=
  let (sign, digits) := takeSign (trimStart (chars value))
  let requested := (F64.toBits radix).toInt
  if requested ≠ 0 ∧ ¬ (2 ≤ requested ∧ requested ≤ 36) then .nan
  else
    let (base, digits) := stripRadix requested digits
    let read := digitsOf base.toNat digits
    if read = [] then .nan
    else
      let result := if base = 10 then (parse (digits.take read.length)).getD .posInf else accumulate base.toNat read
      if sign = ['-'] then F64.neg result else result

/-! ### Integers in a radix that is a power of two -/

/-- The significant bits so far. -/
structure Bits where
  top : ℕ
  index : ℕ
  roundBit : Bool
  sticky : Bool

def Bits.push (bits : Bits) (set : Bool) : Bits :=
  if bits.index < 53 then { bits with top := bits.top * 2 + set.toNat, index := bits.index + 1 }
  else if bits.index = 53 then { bits with roundBit := set, index := bits.index + 1 }
  else { bits with sticky := bits.sticky || set, index := bits.index + 1 }

/-- The bits of a digit from the highest of some width on. -/
def Bits.pushDigit (bits : Bits) (width digit : ℕ) : Bits :=
  ((List.range width).reverse.map digit.testBit).foldl Bits.push bits

/-- `digits` are the values of the digits, the first of which is no zero; the radix is `2 ^ bitsPerDigit`. -/
def powerOfTwoIntegerToF64 (bitsPerDigit : ℕ) : List ℕ → F64
  | [] => .nan
  | first :: digits =>
    let bitLength := first.size + digits.length * bitsPerDigit
    if 1024 < bitLength then .posInf
    else
      let bits := digits.foldl (fun bits digit => bits.pushDigit bitsPerDigit digit) (Bits.pushDigit ⟨0, 0, false, false⟩ first.size first)
      if bitLength ≤ 53 then .ofInt bits.top
      else
        let top := if bits.roundBit && (bits.sticky || bits.top.testBit 0) then bits.top + 1 else bits.top
        F64.mul (.ofInt top) (.round (2 ^ (bitLength - 53)))

/-! ### ToNumber -/

/-- The letter of a radix, and how many bits a digit of it has. -/
def radixBits : Char → Option ℕ
  | 'x' | 'X' => some 4
  | 'o' | 'O' => some 3
  | 'b' | 'B' => some 1
  | _ => none

/-- A text after the letter of a radix. -/
def radixInteger (bitsPerDigit : ℕ) (digits : List Char) : F64 :=
  match digits.mapM (digitOf (2 ^ bitsPerDigit)) with
  | none => .nan
  | some [] => .nan
  | some values =>
    match values.dropWhile (· = 0) with
    | [] => .zero
    | significant => powerOfTwoIntegerToF64 bitsPerDigit significant

/-- An exponent, and what comes after it; one without digits is an error. -/
def takeExponent : List Char → Option (List Char × List Char)
  | [] => some ([], [])
  | c :: rest =>
    if c = 'e' ∨ c = 'E' then
      let (sign, rest) := takeSign rest
      let (digits, rest) := takeDigits rest
      if digits = [] then none else some (c :: sign ++ digits, rest)
    else some ([], c :: rest)

/-- The point of a text with the digits after it, and what comes after them. -/
def takeFraction : List Char → Option (List Char) × List Char
  | '.' :: rest => (some (takeDigits rest).1, (takeDigits rest).2)
  | text => (none, text)

/-- What is scanned of a number before its exponent. -/
structure Scanned where
  integer : List Char
  fraction : Option (List Char)
  rest : List Char

def scan (text : List Char) : Scanned :=
  ⟨(takeDigits text).1, (takeFraction (takeDigits text).2).1, (takeFraction (takeDigits text).2).2⟩

/-- There are no digits. -/
def Scanned.Empty (s : Scanned) : Prop := s.integer = [] ∧ s.fraction.getD [] = []

instance (s : Scanned) : Decidable s.Empty := inferInstanceAs (Decidable (_ ∧ _))

/-- The point of a number with the digits after it. -/
def pointText (fraction : Option (List Char)) : List Char := fraction.elim [] ('.' :: ·)

/-- The text that is scanned. -/
def Scanned.text (s : Scanned) : List Char := s.integer ++ pointText s.fraction

/-- The text with zeros where digits are left out at the point. -/
def Scanned.normalized (s : Scanned) : List Char :=
  match s.fraction with
  | none => s.integer
  | some fraction => (if s.integer = [] then ['0'] else s.integer) ++ '.' :: if fraction = [] then ['0'] else fraction

/-- A whole text that is a decimal number, as it is parsed. -/
def decimalText (text : List Char) : Option (List Char) :=
  let (sign, rest) := takeSign text
  if (scan rest).Empty then none
  else
    match takeExponent (scan rest).rest with
    | some (exponent, []) => some (sign ++ ((scan rest).normalized ++ exponent))
    | _ => none

def numberFromDecimal (parse : List Char → Option F64) (text : List Char) : F64 :=
  let (sign, rest) := takeSign text
  if rest = "Infinity".toList then .inf (sign = ['-'])
  else
    match decimalText text with
    | some text => (parse text).getD .nan
    | none => .nan

def numberFromString (parse : List Char → Option F64) (value : Units) : F64 :=
  match trimmed (chars value) with
  | [] => .zero
  | '0' :: c :: digits =>
    match radixBits c with
    | some bitsPerDigit => radixInteger bitsPerDigit digits
    | none => numberFromDecimal parse ('0' :: c :: digits)
  | text => numberFromDecimal parse text

/-! ### `parseFloat` -/

/-- The number at the start of a text: an exponent without digits is none of its. -/
def floatText (text : List Char) : Option (List Char) :=
  let (sign, rest) := takeSign text
  if (scan rest).Empty then none
  else some (sign ++ ((scan rest).text ++ ((takeExponent (scan rest).rest).map Prod.fst).getD []))

def numberParseFloat (parse : List Char → Option F64) (value : Units) : F64 :=
  let text := trimStart (chars value)
  let (sign, rest) := takeSign text
  if "Infinity".toList <+: rest then .inf (sign = ['-'])
  else
    match floatText text with
    | some text => (parse text).getD .nan
    | none => .nan

/-! ### Rounding once -/

/-- The number that digits spell. -/
def valueOf (bitsPerDigit : ℕ) (digits : List ℕ) : ℕ := digits.foldl (fun value digit => value * 2 ^ bitsPerDigit + digit) 0

/-- What is kept of the bits that were seen, by their number. -/
structure Bits.Holds (bits : Bits) (value : ℕ) : Prop where
  lt : value < 2 ^ bits.index
  few : bits.index ≤ 53 → bits.top = value ∧ bits.roundBit = false ∧ bits.sticky = false
  many : ∀ e, bits.index = 53 + (e + 1) →
    bits.top = value / 2 ^ (e + 1) ∧ bits.roundBit = value.testBit e ∧ bits.sticky = decide (value % 2 ^ e ≠ 0)

theorem mod_two_mul_add {value k : ℕ} (set : Bool) : (value * 2 + set.toNat) % 2 ^ (k + 1) = value % 2 ^ k * 2 + set.toNat := by
  have hbit : set.toNat < 2 := set.toNat_lt
  have h := Nat.div_add_mod value (2 ^ k)
  have hsplit : value * 2 + set.toNat = (value % 2 ^ k * 2 + set.toNat) + 2 ^ (k + 1) * (value / 2 ^ k) := by
    conv_lhs => rw [← h]
    ring
  rw [hsplit, Nat.add_mul_mod_self_left, Nat.mod_eq_of_lt]
  have := Nat.mod_lt value (Nat.two_pow_pos k)
  rw [pow_succ]
  omega

theorem Bits.Holds.push {bits : Bits} {value : ℕ} (h : bits.Holds value) (set : Bool) :
    (bits.push set).Holds (value * 2 + set.toNat) ∧ (bits.push set).index = bits.index + 1 := by
  have hbit : set.toNat < 2 := set.toNat_lt
  have hlt : value * 2 + set.toNat < 2 ^ (bits.index + 1) := by
    have := h.lt
    rw [pow_succ]
    omega
  have hhalf : (value * 2 + set.toNat) / 2 = value := by omega
  unfold Bits.push
  split_ifs with h1 h2
  · obtain ⟨htop, hround, hsticky⟩ := h.few h1.le
    refine ⟨⟨hlt, fun _ => ⟨by rw [htop], hround, hsticky⟩, fun e he => ?_⟩, rfl⟩
    simp only at he
    omega
  · obtain ⟨htop, -, hsticky⟩ := h.few h2.le
    refine ⟨⟨hlt, fun hle => ?_, fun e he => ?_⟩, rfl⟩
    · simp only at hle
      omega
    · obtain rfl : e = 0 := by
        simp only at he
        omega
      refine ⟨by rw [htop, pow_one, hhalf], ?_, by simp [hsticky, Nat.mod_one]⟩
      rw [Nat.testBit_zero]
      cases set <;> simp
  · obtain ⟨k, hk⟩ : ∃ k, bits.index = 53 + (k + 1) := ⟨bits.index - 54, by omega⟩
    obtain ⟨htop, hround, hsticky⟩ := h.many k hk
    refine ⟨⟨hlt, fun hle => ?_, fun e he => ?_⟩, rfl⟩
    · simp only at hle
      omega
    · obtain rfl : e = k + 1 := by
        simp only at he
        omega
      refine ⟨?_, ?_, ?_⟩
      · rw [htop, pow_succ' 2 (k + 1), ← Nat.div_div_eq_div_mul, hhalf]
      · rw [hround, Nat.testBit_succ, hhalf]
      · rw [hsticky, mod_two_mul_add]
        cases set <;> simp

/-- The highest bit of a number apart from the ones below it. -/
theorem mod_pow_bit (n e : ℕ) : n % 2 ^ (e + 1) = (n.testBit e).toNat * 2 ^ e + n % 2 ^ e := by
  have hbit : (n.testBit e).toNat = n / 2 ^ e % 2 := by
    rw [Nat.testBit_eq_decide_div_mod_eq]
    rcases Nat.mod_two_eq_zero_or_one (n / 2 ^ e) with h | h <;> simp [h]
  rw [Nat.mod_pow_succ, hbit, Nat.add_comm, Nat.mul_comm]

theorem Bits.Holds.pushDigit {bits : Bits} {value : ℕ} (h : bits.Holds value) (width digit : ℕ) :
    (bits.pushDigit width digit).Holds (value * 2 ^ width + digit % 2 ^ width) ∧
      (bits.pushDigit width digit).index = bits.index + width := by
  induction width generalizing bits value with
  | zero => exact ⟨by simpa [Bits.pushDigit, Nat.mod_one] using h, rfl⟩
  | succ width ih =>
    obtain ⟨hpush, hindex⟩ := h.push (digit.testBit width)
    obtain ⟨hrest, hwidth⟩ := ih hpush
    have hsplit : bits.pushDigit (width + 1) digit = (bits.push (digit.testBit width)).pushDigit width digit := by
      simp [Bits.pushDigit, range_succ]
    rw [hsplit]
    refine ⟨?_, by rw [hwidth, hindex]; omega⟩
    rw [mod_pow_bit]
    convert hrest using 1
    ring

variable {digits : List ℕ}

theorem Bits.Holds.pushDigits {bits : Bits} {value bitsPerDigit : ℕ} (h : bits.Holds value)
    (hd : ∀ digit ∈ digits, digit < 2 ^ bitsPerDigit) :
    (digits.foldl (fun bits digit => bits.pushDigit bitsPerDigit digit) bits).Holds
        (digits.foldl (fun value digit => value * 2 ^ bitsPerDigit + digit) value) ∧
      (digits.foldl (fun bits digit => bits.pushDigit bitsPerDigit digit) bits).index = bits.index + digits.length * bitsPerDigit := by
  induction digits generalizing bits value with
  | nil => exact ⟨h, by simp⟩
  | cons digit digits ih =>
    obtain ⟨hdigit, hd⟩ := forall_mem_cons.mp hd
    obtain ⟨hpush, hindex⟩ := h.pushDigit bitsPerDigit digit
    rw [Nat.mod_eq_of_lt hdigit] at hpush
    obtain ⟨hrest, hrestIndex⟩ := ih hpush hd
    refine ⟨hrest, hrestIndex.trans ?_⟩
    rw [hindex, length_cons]
    ring

theorem le_foldl {bitsPerDigit value : ℕ} (digits : List ℕ) :
    value * 2 ^ (digits.length * bitsPerDigit) ≤ digits.foldl (fun value digit => value * 2 ^ bitsPerDigit + digit) value := by
  induction digits generalizing value with
  | nil => simp
  | cons digit digits ih =>
    refine le_trans ?_ ih
    rw [length_cons, Nat.succ_mul, pow_add, Nat.mul_comm (2 ^ _) (2 ^ bitsPerDigit), ← Nat.mul_assoc]
    exact Nat.mul_le_mul_right _ (Nat.le_add_right _ _)

/-- Rounding up is told by the bit below the ones that are kept, the ones below it, and the last that is kept. -/
theorem halfEven_succ (n e : ℕ) : F64.halfEven n (e + 1) =
    if n.testBit e && (decide (n % 2 ^ e ≠ 0) || (n / 2 ^ (e + 1)).testBit 0) then n / 2 ^ (e + 1) + 1 else n / 2 ^ (e + 1) := by
  have hlow := Nat.mod_lt n (Nat.two_pow_pos e)
  rw [F64.halfEven, Nat.testBit_zero, mod_pow_bit]
  generalize n / 2 ^ (e + 1) = q
  generalize n % 2 ^ e = r at hlow ⊢
  rw [pow_succ]
  generalize 2 ^ e = p at hlow ⊢
  cases n.testBit e
  · simp only [Bool.toNat_false, Bool.false_and, Bool.false_eq_true, if_false]
    rw [if_neg (by omega), Nat.add_zero]
  · simp only [Bool.toNat_true, Bool.true_and, Bool.or_eq_true, decide_eq_true_eq]
    split_ifs <;> omega

/-- **The loop over the bits rounds once**: the number that the digits spell, to the nearest. -/
theorem powerOfTwoIntegerToF64_eq {bitsPerDigit first : ℕ} (hfirst : 0 < first)
    (hd : ∀ digit ∈ first :: digits, digit < 2 ^ bitsPerDigit) :
    powerOfTwoIntegerToF64 bitsPerDigit (first :: digits) = .ofInt (valueOf bitsPerDigit (first :: digits)) := by
  obtain ⟨hlt, hd⟩ := forall_mem_cons.mp hd
  have hvalue : valueOf bitsPerDigit (first :: digits) =
      digits.foldl (fun value digit => value * 2 ^ bitsPerDigit + digit) first := by
    rw [valueOf, foldl_cons, Nat.zero_mul, Nat.zero_add]
  have hnew : Bits.Holds ⟨0, 0, false, false⟩ 0 :=
    ⟨Nat.one_pos, fun _ => ⟨rfl, rfl, rfl⟩, fun e he => by simp only at he; omega⟩
  obtain ⟨hstart, hindex⟩ := hnew.pushDigit first.size first
  rw [Nat.zero_mul, Nat.zero_add, Nat.mod_eq_of_lt (Nat.lt_size_self first)] at hstart
  obtain ⟨hbits, hlength⟩ := hstart.pushDigits hd
  rw [← hvalue] at hbits
  rw [hindex, Nat.zero_add] at hlength
  -- the highest of the bits is set
  have hlow : 2 ^ (first.size - 1 + digits.length * bitsPerDigit) ≤ valueOf bitsPerDigit (first :: digits) := by
    rw [hvalue, pow_add]
    exact (Nat.mul_le_mul_right _ (Nat.lt_size.mp (by have := Nat.size_pos.mpr hfirst; omega))).trans (le_foldl digits)
  have hsize := Nat.size_pos.mpr hfirst
  unfold powerOfTwoIntegerToF64
  generalize valueOf bitsPerDigit (first :: digits) = n at hbits hlow ⊢
  dsimp only
  by_cases hlarge : 1024 < first.size + digits.length * bitsPerDigit
  · -- every number of this length overflows
    rw [if_pos hlarge]
    refine (F64.round_of_limit_le ?_).symm
    have h : 2 ^ 1024 ≤ n := (Nat.pow_le_pow_right Nat.two_pos (by omega)).trans hlow
    rwa [Int.cast_natCast, F64.limit_le_natCast]
  rw [if_neg hlarge]
  by_cases hsmall : first.size + digits.length * bitsPerDigit ≤ 53
  · rw [if_pos hsmall, (hbits.few (by omega)).1]
  · rw [if_neg hsmall]
    obtain ⟨e, he⟩ : ∃ e, first.size + digits.length * bitsPerDigit = 53 + (e + 1) :=
      ⟨first.size + digits.length * bitsPerDigit - 54, by omega⟩
    obtain ⟨htop, hround, hsticky⟩ := hbits.many e (by omega)
    have hlt := hbits.lt
    rw [hlength, he] at hlt
    rw [htop, hround, hsticky, ← halfEven_succ, he, Nat.add_sub_cancel_left]
    refine F64.mul_halfEven ?_ hlt (by omega)
    have hexp : first.size - 1 + digits.length * bitsPerDigit = 52 + (e + 1) := by omega
    rwa [hexp] at hlow

/-! ### Rounding at every digit -/

/-- The step of `parseInt` in radix 16. -/
def hexStep (result : F64) (digit : ℕ) : F64 := F64.add (F64.mul result (.ofInt (16 : ℕ))) (.ofInt digit)

/-- The steps of digits, from what was read before them. -/
def hexFrom (value : ℕ) (digits : List ℕ) : ℕ := digits.foldl (fun value digit => value * 2 ^ 4 + digit) value

theorem hexFrom_append (value : ℕ) (as bs : List ℕ) : hexFrom value (as ++ bs) = hexFrom (hexFrom value as) bs := foldl_append

theorem hexFrom_eq (value : ℕ) (digits : List ℕ) : hexFrom value digits = value * 2 ^ (4 * digits.length) + valueOf 4 digits := by
  induction digits using reverseRecOn with
  | nil => simp [hexFrom, valueOf]
  | append_singleton digits digit ih =>
    rw [hexFrom_append, ih, length_append, length_singleton, Nat.mul_add, pow_add]
    simp only [hexFrom, valueOf, foldl_append, foldl_cons, foldl_nil]
    ring

theorem valueOf_lt (hd : ∀ digit ∈ digits, digit < 16) : valueOf 4 digits < 2 ^ (4 * digits.length) := by
  induction digits using reverseRecOn with
  | nil => simp [valueOf]
  | append_singleton digits digit ih =>
    have hdigit := hd digit (by simp)
    have hlt := ih fun d h => hd d (by simp [h])
    rw [length_append, length_singleton, Nat.mul_add, pow_add]
    simp only [valueOf, foldl_append, foldl_cons, foldl_nil] at hlt ⊢
    omega

open Binary64 in
/-- A step from a number is exact but for one rounding. -/
theorem hexStep_round {q : ℚ} (hq : 0 ≤ q) (hgrid : OnGrid q) {digit : ℕ} (hd : digit < 16) :
    hexStep (.round q) digit = .round (16 * q + digit) := by
  obtain ⟨s, hs, hsv⟩ := F64.ofInt_eq_fin (n := (16 : ℕ)) (by norm_num)
  obtain ⟨d, hdigit, hdv⟩ := F64.ofInt_eq_fin (n := digit) (by rw [Nat.abs_cast]; exact_mod_cast (by omega : digit ≤ 2 ^ 53))
  rw [Int.cast_natCast] at hsv hdv
  have hspos : 0 < s.val := by
    rw [hsv]
    norm_num
  have hdigit0 : (0 : ℚ) ≤ digit := Nat.cast_nonneg digit
  rw [hexStep, hs, hdigit]
  -- an infinity stays
  have hinf : F64.add .posInf (.fin d) = .posInf := by simp [F64.add, F64.posInf, F64.isNaN, F64.isFinite]
  rcases le_or_gt limit q with hlarge | hsmall
  · have hmul : F64.mul .posInf (.fin s) = .posInf := by
      simp [F64.mul, F64.posInf, F64.isNaN, F64.isZero, F64.isFinite, F64.isNeg, hspos.ne', hspos.not_gt]
    rw [F64.round_of_limit_le hlarge, hmul, hinf, F64.round_of_limit_le]
    have : q ≤ 16 * q := by linarith
    exact hlarge.trans (this.trans (le_add_of_nonneg_right hdigit0))
  obtain ⟨x, hx, hxv⟩ := F64.round_of_onGrid hq hgrid hsmall
  rw [hx]
  rcases hq.eq_or_lt with rfl | hpos
  · have hmul : F64.mul (.fin x) (.fin s) = .zero := by
      simp [F64.mul, F64.isNaN, F64.isZero, F64.isFinite, F64.isNeg, hxv, hspos.not_gt, F64.signedZero]
    rw [hmul, F64.add_eq_round rfl rfl (by simp [F64.zero])]
    simp [F64.rat, F64.zero, hdv]
  · rw [F64.mul_fin (by rwa [hxv]) hspos, hxv, hsv]
    obtain ⟨n, hn⟩ := onGrid_iff.mp hgrid
    have h16 : OnGrid (q * 16) := by
      rw [abs_of_pos hpos] at hn
      have hle : n ≤ 2 ^ 53 := by
        have hlt := lt_two_pow_ulp q
        conv_lhs at hlt => rw [hn]
        exact_mod_cast (lt_of_mul_lt_mul_right hlt (ulp_pos q).le).le
      refine onGrid_of_units (by positivity) (n := n) (e := ulpExp q + 4) (le_add_of_le_of_nonneg (le_max_right _ _) (by norm_num)) hle ?_
      rw [zpow_add₀ (by norm_num), ← mul_assoc]
      congr 1
    push_cast
    rcases le_or_gt limit (q * 16) with hover | hfit
    · rw [F64.round_of_limit_le hover, hinf, F64.round_of_limit_le]
      exact hover.trans (by rw [mul_comm]; exact le_add_of_nonneg_right hdigit0)
    · obtain ⟨y, hy, hyv⟩ := F64.round_of_onGrid (by positivity) h16 hfit
      rw [hy, F64.add_eq_round rfl rfl (by simp)]
      simp only [F64.rat]
      rw [hyv, hdv, mul_comm]

/-- As long as numbers are small, all steps are exact, and the next one rounds once. -/
theorem foldl_hexStep_small {value : ℕ} (hd : ∀ digit ∈ digits, digit < 16)
    (hsmall : hexFrom value digits < 2 ^ 53) : digits.foldl hexStep (.ofInt value) = .ofInt (hexFrom value digits) := by
  induction digits generalizing value with
  | nil => rfl
  | cons digit digits ih =>
    obtain ⟨hdigit, hd⟩ := forall_mem_cons.mp hd
    have hcons : hexFrom value (digit :: digits) = hexFrom (value * 2 ^ 4 + digit) digits := rfl
    have hle := hexFrom_eq (value * 2 ^ 4 + digit) digits
    rw [hcons] at hsmall ⊢
    have hvalue : value * 2 ^ 4 + digit ≤ hexFrom (value * 2 ^ 4 + digit) digits := by
      rw [hle]
      exact (Nat.le_mul_of_pos_right _ (Nat.two_pow_pos _)).trans (Nat.le_add_right _ _)
    rw [foldl_cons, ← ih hd hsmall]
    congr 1
    have hgrid := Binary64.onGrid_intCast (n := value) (by rw [Nat.abs_cast]; exact_mod_cast (by omega : value ≤ 2 ^ 53))
    rw [F64.ofInt, hexStep_round (by positivity) hgrid hdigit, F64.ofInt]
    congr 1
    push_cast
    ring

/-- A large number with nothing below its 53 bits. -/
def Normal (n : ℕ) : Prop := ∃ t e, n = t * 2 ^ (e + 1) ∧ 2 ^ 52 ≤ t ∧ t < 2 ^ 53

theorem Normal.onGrid {n : ℕ} (h : Normal n) : Binary64.OnGrid n := by
  obtain ⟨t, e, rfl, -, ht⟩ := h
  refine Binary64.onGrid_of_units (by positivity) (n := t) (e := (e + 1 : ℕ)) (by omega) (by exact_mod_cast ht.le) ?_
  rw [zpow_natCast]
  push_cast
  rfl

/-- A digit is too small to change a large number. -/
theorem Normal.step {n digit : ℕ} (h : Normal n) (hd : digit < 16) :
    Normal (16 * n) ∧ hexStep (.ofInt n) digit = .ofInt ((16 * n : ℕ) : ℤ) := by
  have hgrid := h.onGrid
  obtain ⟨t, e, rfl, hlo, hhi⟩ := h
  have h16 : 16 * (t * 2 ^ (e + 1)) = t * 2 ^ (e + 5) := by
    rw [pow_add, pow_add]
    ring
  refine ⟨⟨t, e + 4, by rw [h16], hlo, hhi⟩, ?_⟩
  rw [F64.ofInt, Int.cast_natCast, hexStep_round (by positivity) hgrid hd, F64.ofInt]
  have hp : 32 ≤ 2 ^ (e + 5) := Nat.pow_le_pow_right Nat.two_pos (by omega : 5 ≤ e + 5)
  have hround : ∀ d < 16, Binary64.gridRound ((t * 2 ^ (e + 5) + d : ℕ) : ℚ) = (t * 2 ^ (e + 5) : ℕ) := by
    intro d hd
    have hlow : 2 ^ (52 + (e + 5)) ≤ t * 2 ^ (e + 5) + d := by
      rw [pow_add]
      exact (Nat.mul_le_mul_right _ hlo).trans (Nat.le_add_right _ _)
    have hhigh : t * 2 ^ (e + 5) + d < 2 ^ (53 + (e + 5)) := by
      rw [pow_add 2 53]
      have := Nat.mul_le_mul_right (2 ^ (e + 5)) (Nat.succ_le_of_lt hhi)
      rw [Nat.succ_mul] at this
      omega
    have hdiv : (t * 2 ^ (e + 5) + d) / 2 ^ (e + 5) = t := by
      rw [Nat.mul_comm, Nat.mul_add_div (Nat.two_pow_pos _), Nat.div_eq_of_lt (by omega), Nat.add_zero]
    have hmod : (t * 2 ^ (e + 5) + d) % 2 ^ (e + 5) = d := by
      rw [Nat.mul_comm, Nat.mul_add_mod, Nat.mod_eq_of_lt (by omega)]
    rw [F64.gridRound_natCast hlow hhigh, F64.halfEven, hdiv, hmod, if_neg (by omega), Nat.add_zero]
    push_cast
    rfl
  have h1 := hround digit hd
  have h0 := hround 0 (by norm_num)
  refine (F64.round_eq_round_iff (by positivity) (by positivity)).mpr (.inl ?_)
  rw [Int.cast_natCast, h16, ← Nat.add_zero (t * 2 ^ (e + 5)), h0, ← h1]
  congr 1
  rw [← h16]
  push_cast
  ring

/-- What rounding leaves of a number over 53 bits. -/
theorem Normal.of_halfEven {n e : ℕ} (hlo : 2 ^ (52 + (e + 1)) ≤ n) (hhi : n < 2 ^ (53 + (e + 1))) :
    Normal (F64.halfEven n (e + 1) * 2 ^ (e + 1)) := by
  obtain ⟨h1, h2⟩ := F64.halfEven_bounds hlo hhi
  rcases h2.lt_or_eq with h2 | h2
  · exact ⟨_, e, rfl, h1, h2⟩
  · exact ⟨2 ^ 52, e + 1, by rw [h2, pow_succ 2 (e + 1)]; ring, le_rfl, by norm_num⟩

theorem Normal.foldl {n : ℕ} (h : Normal n) (hd : ∀ digit ∈ digits, digit < 16) :
    digits.foldl hexStep (.ofInt n) = .ofInt ((n * 2 ^ (4 * digits.length) : ℕ) : ℤ) := by
  induction digits generalizing n with
  | nil => simp
  | cons digit digits ih =>
    obtain ⟨hdigit, hd⟩ := forall_mem_cons.mp hd
    obtain ⟨hnormal, hstep⟩ := h.step hdigit
    rw [foldl_cons, hstep, ih hnormal hd, length_cons, Nat.mul_succ, pow_add]
    congr 2
    ring

/-- A number over 53 bits rounds to the same as what rounding leaves of it. -/
theorem ofInt_halfEven {n e : ℕ} (hlo : 2 ^ (52 + e) ≤ n) (hhi : n < 2 ^ (53 + e)) :
    F64.ofInt ((F64.halfEven n e * 2 ^ e : ℕ) : ℤ) = .ofInt n := by
  rw [F64.ofInt, F64.ofInt, F64.round_eq_round_iff (by positivity) (by positivity)]
  refine .inl ?_
  rw [Int.cast_natCast, Int.cast_natCast, F64.gridRound_natCast hlo hhi, F64.gridRound_units (F64.halfEven_bounds hlo hhi).2]
  push_cast
  rfl

/-- A number of 54 bits ending in `01`, cut by some bits that are zeros. -/
def Tie (n : ℕ) : Prop := ∃ k e, n = (4 * k + 1) * 2 ^ e ∧ 2 ^ 53 ≤ 4 * k + 1 ∧ 4 * k + 1 < 2 ^ 54

theorem tie_iff {n e : ℕ} (hlo : 2 ^ (52 + (e + 1)) ≤ n) (hhi : n < 2 ^ (53 + (e + 1))) :
    Tie n ↔ 2 * (n % 2 ^ (e + 1)) = 2 ^ (e + 1) ∧ n / 2 ^ (e + 1) % 2 = 0 := by
  have hpos := Nat.two_pow_pos e
  constructor
  · rintro ⟨k, e', rfl, h1, h2⟩
    -- the unit is told by the length
    have hle : 53 + e' < 53 + (e + 1) := by
      refine (Nat.pow_lt_pow_iff_right Nat.one_lt_two).mp (lt_of_le_of_lt ?_ hhi)
      rw [pow_add]
      exact Nat.mul_le_mul_right _ h1
    have hge : 52 + (e + 1) < 54 + e' := by
      refine (Nat.pow_lt_pow_iff_right Nat.one_lt_two).mp (lt_of_le_of_lt hlo ?_)
      rw [pow_add]
      exact Nat.mul_lt_mul_of_pos_right h2 (Nat.two_pow_pos _)
    obtain rfl : e' = e := by omega
    have hsplit : (4 * k + 1) * 2 ^ e' = 2 ^ (e' + 1) * (2 * k) + 2 ^ e' := by
      rw [pow_succ]
      ring
    have hlt : 2 ^ e' < 2 ^ (e' + 1) := Nat.pow_lt_pow_right Nat.one_lt_two (Nat.lt_succ_self e')
    rw [hsplit, Nat.mul_add_mod, Nat.mod_eq_of_lt hlt, Nat.mul_add_div (Nat.two_pow_pos _), Nat.div_eq_of_lt hlt, pow_succ]
    omega
  · rintro ⟨hhalf, heven⟩
    have hsplit := Nat.div_add_mod n (2 ^ (e + 1))
    obtain ⟨k, hk⟩ : ∃ k, n / 2 ^ (e + 1) = 2 * k := ⟨_, (Nat.mul_div_cancel' (Nat.dvd_of_mod_eq_zero heven)).symm⟩
    have hn : n = (4 * k + 1) * 2 ^ e := by
      rw [← hsplit, hk]
      rw [pow_succ] at hhalf ⊢
      have : n % (2 ^ e * 2) = 2 ^ e := by omega
      rw [this]
      ring
    refine ⟨k, e, hn, ?_, ?_⟩
    · refine le_of_mul_le_mul_right ?_ hpos
      rw [← hn, ← pow_add]
      exact (Nat.pow_le_pow_right Nat.two_pos (by omega)).trans hlo
    · refine lt_of_mul_lt_mul_right (a := 2 ^ e) ?_ (Nat.zero_le _)
      rw [← hn, ← pow_add]
      exact hhi.trans_le (Nat.pow_le_pow_right Nat.two_pos (by omega))

/-- Digits whose value takes more than 53 bits, with the last of which it does so. -/
structure FirstLong (front : List ℕ) : Prop where
  long : 2 ^ 53 ≤ valueOf 4 front
  first : valueOf 4 front.dropLast < 2 ^ 53

theorem hexFrom_zero (digits : List ℕ) : hexFrom 0 digits = valueOf 4 digits := rfl

theorem accumulate_small (hd : ∀ digit ∈ digits, digit < 16) (hsmall : valueOf 4 digits < 2 ^ 53) :
    accumulate 16 digits = .ofInt (valueOf 4 digits) := by
  have h : digits.foldl hexStep (.ofInt (0 : ℕ)) = _ := foldl_hexStep_small hd hsmall
  rwa [Nat.cast_zero, F64.ofInt_zero] at h

/-- Up to the last of the 53 bits nothing is rounded, and from there on nothing changes. -/
theorem accumulate_front {front rest : List ℕ} (hd : ∀ digit ∈ front ++ rest, digit < 16) (h : FirstLong front) {e : ℕ}
    (hlo : 2 ^ (52 + (e + 1)) ≤ valueOf 4 front) (hhi : valueOf 4 front < 2 ^ (53 + (e + 1))) :
    accumulate 16 (front ++ rest) = .ofInt ((F64.halfEven (valueOf 4 front) (e + 1) * 2 ^ (e + 1) * 2 ^ (4 * rest.length) : ℕ) : ℤ) := by
  obtain ⟨hlong, hfirst⟩ := h
  obtain rfl | ⟨start, last, rfl⟩ := front.eq_nil_or_concat
  · simp [valueOf] at hlong
  simp only [forall_mem_append, concat_eq_append, forall_mem_singleton] at hd
  rw [concat_eq_append] at hlong hlo hhi ⊢
  rw [concat_eq_append, dropLast_concat] at hfirst
  have hvalue : valueOf 4 (start ++ [last]) = 16 * valueOf 4 start + last := by
    simp only [valueOf, foldl_append, foldl_cons, foldl_nil]
    ring
  have hexact := accumulate_small hd.1.1 hfirst
  have hgrid := Binary64.onGrid_intCast (n := valueOf 4 start) (by rw [Nat.abs_cast]; exact_mod_cast hfirst.le)
  have hlast : hexStep (.ofInt (valueOf 4 start)) last = .ofInt (valueOf 4 (start ++ [last])) := by
    rw [F64.ofInt, hexStep_round (by positivity) hgrid hd.1.2, F64.ofInt, hvalue]
    congr 1
    push_cast
    rfl
  have hfold : accumulate 16 (start ++ [last] ++ rest) = rest.foldl hexStep (hexStep (accumulate 16 start) last) := by
    rw [accumulate, foldl_append, foldl_append]
    rfl
  rw [hfold, hexact, hlast, ← ofInt_halfEven hlo hhi, (Normal.of_halfEven hlo hhi).foldl hd.2]

/-- `parseInt` rounds such digits once, but for a tie that the digits after it undo. -/
theorem accumulate_append {front rest : List ℕ} (hd : ∀ digit ∈ front ++ rest, digit < 16) (h : FirstLong front) :
    accumulate 16 (front ++ rest) = .ofInt (valueOf 4 (front ++ rest)) ↔
      ¬ (Tie (valueOf 4 front) ∧ valueOf 4 rest ≠ 0 ∧ valueOf 4 (front ++ rest) < 2 ^ 1024) := by
  obtain ⟨e, he⟩ : ∃ e, (valueOf 4 front).size = 53 + (e + 1) := by
    have := Nat.lt_size.mpr h.long
    exact ⟨(valueOf 4 front).size - 54, by omega⟩
  have hlo : 2 ^ (52 + (e + 1)) ≤ valueOf 4 front := Nat.lt_size.mp (by omega)
  have hhi : valueOf 4 front < 2 ^ (53 + (e + 1)) := Nat.size_le.mp he.le
  rw [accumulate_front hd h hlo hhi, tie_iff hlo hhi, ← hexFrom_zero (front ++ rest), hexFrom_append, hexFrom_eq, hexFrom_zero]
  have hw := valueOf_lt fun digit hm => hd digit (mem_append_right front hm)
  have happend := F64.halfEven_append (v := valueOf 4 front) (e := e) hw
  have hbounds := (F64.halfEven_bounds hlo hhi).1
  have hhalf : F64.halfEven (valueOf 4 front) (e + 1) = valueOf 4 front / 2 ^ (e + 1) +
      if 2 ^ (e + 1) < 2 * (valueOf 4 front % 2 ^ (e + 1)) ∨ 2 * (valueOf 4 front % 2 ^ (e + 1)) = 2 ^ (e + 1) ∧
        valueOf 4 front / 2 ^ (e + 1) % 2 = 1 then 1 else 0 := rfl
  generalize valueOf 4 front = v at *
  generalize valueOf 4 rest = w at *
  generalize 4 * rest.length = j at *
  have hlo' : 2 ^ (52 + (e + 1 + j)) ≤ v * 2 ^ j + w := by
    rw [← Nat.add_assoc, pow_add]
    exact (Nat.mul_le_mul_right _ hlo).trans (Nat.le_add_right _ _)
  have hhi' : v * 2 ^ j + w < 2 ^ (53 + (e + 1 + j)) := by
    rw [← Nat.add_assoc, pow_add]
    have := Nat.mul_le_mul_right (2 ^ j) (Nat.succ_le_of_lt hhi)
    rw [Nat.succ_mul] at this
    omega
  rw [← ofInt_halfEven hlo' hhi', happend, Nat.mul_assoc, ← pow_add]
  by_cases htie : 2 * (v % 2 ^ (e + 1)) = 2 ^ (e + 1) ∧ v / 2 ^ (e + 1) % 2 = 0 ∧ w ≠ 0
  · obtain ⟨htwice, heven, hne⟩ := htie
    rw [if_neg (by omega), Nat.add_zero] at hhalf
    rw [if_pos ⟨htwice, heven, hne⟩, F64.ofInt, F64.ofInt, F64.round_eq_round_iff (by positivity) (by positivity)]
    have hbounds' := (F64.halfEven_bounds hlo' hhi').2
    rw [happend, if_pos ⟨htwice, heven, hne⟩] at hbounds'
    rw [Int.cast_natCast, Int.cast_natCast, F64.gridRound_units hbounds', F64.gridRound_units (by omega), F64.limit_le_natCast,
      F64.limit_le_natCast, Nat.cast_inj]
    have hpos := Nat.two_pow_pos (e + 1 + j)
    rw [or_iff_right fun h => by have := Nat.eq_of_mul_eq_mul_right hpos h; omega]
    -- both overflow when the number does
    have hfloor : F64.halfEven v (e + 1) * 2 ^ (e + 1 + j) ≤ v * 2 ^ j + w := by
      rw [hhalf, pow_add 2 (e + 1), ← Nat.mul_assoc]
      exact (Nat.mul_le_mul_right _ (Nat.div_mul_le_self v (2 ^ (e + 1)))).trans (Nat.le_add_right _ _)
    constructor
    · rintro ⟨h1, -⟩ ⟨-, -, hlt⟩
      exact (h1.trans hfloor).not_gt hlt
    · intro hn
      have hover : 2 ^ 1024 ≤ v * 2 ^ j + w := not_lt.mp fun hlt => hn ⟨⟨htwice, heven⟩, hne, hlt⟩
      have hlength := (Nat.pow_lt_pow_iff_right Nat.one_lt_two).mp (hover.trans_lt hhi')
      have hle : 2 ^ 1024 ≤ F64.halfEven v (e + 1) * 2 ^ (e + 1 + j) := by
        refine (Nat.pow_le_pow_right Nat.two_pos (by omega : 1024 ≤ 52 + (e + 1 + j))).trans ?_
        rw [pow_add]
        exact Nat.mul_le_mul_right _ hbounds
      exact ⟨hle, hle.trans (Nat.mul_le_mul_right _ (Nat.le_succ _))⟩
  · rw [if_neg htie, Nat.add_zero]
    refine iff_of_true rfl ?_
    rintro ⟨⟨h1, h2⟩, h3, -⟩
    exact htie ⟨h1, h2, h3⟩

/-- The digits up to the first that takes the value over 53 bits end a tie, and there is more after it. -/
def RoundsTwice (digits : List ℕ) : Prop :=
  ∃ front rest, digits = front ++ rest ∧ FirstLong front ∧ Tie (valueOf 4 front) ∧ valueOf 4 rest ≠ 0 ∧ valueOf 4 digits < 2 ^ 1024

/-- Large numbers have a first digit that takes them over 53 bits. -/
theorem exists_firstLong (h : 2 ^ 53 ≤ valueOf 4 digits) : ∃ front rest, digits = front ++ rest ∧ FirstLong front := by
  induction digits using reverseRecOn with
  | nil => simp [valueOf] at h
  | append_singleton digits last ih =>
    by_cases hlong : 2 ^ 53 ≤ valueOf 4 digits
    · obtain ⟨front, rest, rfl, hfirst⟩ := ih hlong
      exact ⟨front, rest ++ [last], append_assoc _ _ _, hfirst⟩
    · exact ⟨_, [], (append_nil _).symm, h, by rwa [dropLast_concat, ← not_le]⟩

theorem accumulate_hex (hd : ∀ digit ∈ digits, digit < 16) :
    accumulate 16 digits = .ofInt (valueOf 4 digits) ↔ ¬ RoundsTwice digits := by
  rcases lt_or_ge (valueOf 4 digits) (2 ^ 53) with hsmall | hlarge
  · refine iff_of_true (accumulate_small hd hsmall) ?_
    rintro ⟨front, rest, rfl, hfirst, -⟩
    have hle : valueOf 4 front ≤ valueOf 4 (front ++ rest) := by
      rw [← hexFrom_zero (front ++ rest), hexFrom_append, hexFrom_eq]
      exact (Nat.le_mul_of_pos_right _ (Nat.two_pow_pos _)).trans (Nat.le_add_right _ _)
    exact (hfirst.long.trans hle).not_gt hsmall
  · constructor
    · rintro h ⟨front, rest, rfl, hfirst, htie⟩
      exact (accumulate_append hd hfirst).mp h htie
    · intro h
      obtain ⟨front, rest, rfl, hfirst⟩ := exists_firstLong hlarge
      exact (accumulate_append hd hfirst).mpr fun htie => h ⟨front, rest, rfl, hfirst, htie⟩

/-! ### Hexadecimal strings -/

theorem digitOf_lt {base digit : ℕ} {c : Char} (h : digitOf base c = some digit) : digit < base := by
  obtain ⟨-, hlt⟩ := Option.filter_eq_some_iff.mp h
  exact of_decide_eq_true hlt

theorem digitsOf_lt (base : ℕ) (text : List Char) : ∀ digit ∈ digitsOf base text, digit < base := by
  induction text with
  | nil => simp [digitsOf]
  | cons c rest ih =>
    rw [digitsOf]
    split
    next digit h => exact forall_mem_cons.mpr ⟨digitOf_lt h, ih⟩
    next => simp

variable {text : List Char}

/-- A text of digits is read to its end. -/
theorem mapM_digitOf {base : ℕ} (h : ∀ c ∈ text, (digitOf base c).isSome) :
    text.mapM (digitOf base) = some (digitsOf base text) := by
  induction text with
  | nil => rfl
  | cons c rest ih =>
    obtain ⟨hc, hrest⟩ := forall_mem_cons.mp h
    obtain ⟨digit, hdigit⟩ := Option.isSome_iff_exists.mp hc
    rw [mapM_cons, ih hrest, digitsOf, hdigit]
    rfl

theorem valueOf_cons_zero (bitsPerDigit : ℕ) (digits : List ℕ) : valueOf bitsPerDigit (0 :: digits) = valueOf bitsPerDigit digits := by
  rw [valueOf, foldl_cons, Nat.zero_mul]
  rfl

/-- Zeros in front of a number are left out. -/
theorem valueOf_dropWhile (bitsPerDigit : ℕ) (digits : List ℕ) :
    valueOf bitsPerDigit (digits.dropWhile (· = 0)) = valueOf bitsPerDigit digits := by
  induction digits with
  | nil => rfl
  | cons digit digits ih =>
    by_cases h : digit = 0
    · subst h
      rw [dropWhile_cons_of_pos (by simp), ih, valueOf_cons_zero]
    · rw [dropWhile_cons_of_neg (by simpa using h)]

/-- The number that the digits after the letter of a radix spell, to the nearest. -/
theorem radixInteger_eq {bitsPerDigit : ℕ} (h : ∀ c ∈ text, (digitOf (2 ^ bitsPerDigit) c).isSome) :
    radixInteger bitsPerDigit text =
      if text = [] then .nan else .ofInt (valueOf bitsPerDigit (digitsOf (2 ^ bitsPerDigit) text)) := by
  have hd := digitsOf_lt (2 ^ bitsPerDigit) text
  cases text with
  | nil => rfl
  | cons c rest =>
    rw [if_neg (cons_ne_nil c rest), radixInteger, mapM_digitOf h, ← valueOf_dropWhile]
    obtain ⟨digit, hdigit⟩ := Option.isSome_iff_exists.mp (forall_mem_cons.mp h).1
    have hcons : digitsOf (2 ^ bitsPerDigit) (c :: rest) = digit :: digitsOf (2 ^ bitsPerDigit) rest := by rw [digitsOf, hdigit]
    rw [hcons] at hd ⊢
    have hnot := List.head?_dropWhile_not (p := (fun n : ℕ => decide (n = 0))) (digit :: digitsOf (2 ^ bitsPerDigit) rest)
    have hmem : ∀ d ∈ (digit :: digitsOf (2 ^ bitsPerDigit) rest).dropWhile (· = 0), d < 2 ^ bitsPerDigit :=
      fun d hm => hd d ((dropWhile_sublist _).subset hm)
    dsimp only
    generalize (digit :: digitsOf (2 ^ bitsPerDigit) rest).dropWhile (· = 0) = significant at hnot hmem ⊢
    cases significant with
    | nil => exact F64.ofInt_zero.symm
    | cons first significant =>
      have hfirst : first ≠ 0 := by simpa using hnot
      exact powerOfTwoIntegerToF64_eq (Nat.pos_of_ne_zero hfirst) hmem

theorem digits_not_space {base : ℕ} (h : ∀ c ∈ text, (digitOf base c).isSome) : ∀ c ∈ text, ¬ IsSpace c.toNat := by
  intro c hc hspace
  have hsome := h c hc
  rw [digitOf_space hspace] at hsome
  cases hsome

/-- After `0x`, both read the same digits, and agree where rounding at every digit is rounding once. -/
theorem hex_eq_iff (parse : List Char → Option F64) {s : List Char} (hs : ∀ c ∈ s, (digitOf 16 c).isSome) :
    numberParseInt parse (Utf16.encode ('0' :: 'x' :: s)) .zero = numberFromString parse (Utf16.encode ('0' :: 'x' :: s)) ↔
      ¬ RoundsTwice (digitsOf 16 s) := by
  have hspaces : ∀ c ∈ '0' :: 'x' :: s, ¬ IsSpace c.toNat :=
    forall_mem_cons.mpr ⟨by decide, forall_mem_cons.mpr ⟨by decide, digits_not_space hs⟩⟩
  have htrim : trimmed ([] ++ '0' :: 'x' :: s ++ []) = '0' :: 'x' :: s := trimmed_eq (by simp) hspaces (by simp)
  rw [nil_append, append_nil] at htrim
  have hint : numberParseInt parse (Utf16.encode ('0' :: 'x' :: s)) .zero =
      if digitsOf 16 s = [] then .nan else accumulate 16 (digitsOf 16 s) := by
    rw [numberParseInt, chars_encode, trimStart, dropWhile_cons_of_neg (by decide)]
    rfl
  have hstring : numberFromString parse (Utf16.encode ('0' :: 'x' :: s)) = radixInteger 4 s := by
    rw [numberFromString, chars_encode, htrim]
    rfl
  rw [hint, hstring, radixInteger_eq hs]
  have hnil : digitsOf 16 s = [] ↔ s = [] := by
    cases s with
    | nil => exact iff_of_true rfl rfl
    | cons c rest =>
      obtain ⟨digit, hdigit⟩ := Option.isSome_iff_exists.mp (hs c mem_cons_self)
      rw [digitsOf, hdigit]
      simp
  by_cases hempty : s = []
  · subst hempty
    refine iff_of_true rfl ?_
    rintro ⟨front, rest, hsplit, hfirst, -⟩
    obtain ⟨rfl, rfl⟩ := append_eq_nil_iff.mp hsplit.symm
    exact absurd hfirst.long (by decide)
  · rw [if_neg (mt hnil.mp hempty), if_neg hempty]
    exact accumulate_hex (digitsOf_lt 16 s)

/-- **Integers in a radix that is a power of two.** ToNumber rounds the exact integer once, with leading zeros or not.
`parseInt` rounds at every digit, which on hexadecimal digits comes to the same but for the numbers that round twice. -/
theorem powerOfTwo_radix (parse : List Char → Option F64) :
    (∀ bitsPerDigit first digits, 0 < first → (∀ digit ∈ first :: digits, digit < 2 ^ bitsPerDigit) →
      powerOfTwoIntegerToF64 bitsPerDigit (first :: digits) = .ofInt (valueOf bitsPerDigit (first :: digits))) ∧
    (∀ bitsPerDigit text, text ≠ [] → (∀ c ∈ text, (digitOf (2 ^ bitsPerDigit) c).isSome) →
      radixInteger bitsPerDigit text = .ofInt (valueOf bitsPerDigit (digitsOf (2 ^ bitsPerDigit) text))) ∧
    ∀ s : List Char, (∀ c ∈ s, (digitOf 16 c).isSome) →
      (numberParseInt parse (Utf16.encode ('0' :: 'x' :: s)) .zero = numberFromString parse (Utf16.encode ('0' :: 'x' :: s)) ↔
        ¬ RoundsTwice (digitsOf 16 s)) :=
  ⟨fun _ _ _ hfirst hd => powerOfTwoIntegerToF64_eq hfirst hd,
    fun _ _ hne hdigits => (radixInteger_eq hdigits).trans (if_neg hne), fun _ hs => hex_eq_iff parse hs⟩

/-- `0x200000000000011`: `2⁵³ + 1` is rounded down before the last digit shows that the number is above the middle. -/
theorem not_hex_eq : ¬ ∀ s : List Char, (∀ c ∈ s, (digitOf 16 c).isSome) →
    numberParseInt (fun _ => none) (Utf16.encode ('0' :: 'x' :: s)) .zero =
      numberFromString (fun _ => none) (Utf16.encode ('0' :: 'x' :: s)) := by
  intro h
  have hs : ∀ c ∈ "200000000000011".toList, (digitOf 16 c).isSome := by decide
  refine (hex_eq_iff _ hs).mp (h _ hs) ⟨2 :: (replicate 12 0 ++ [1]), [1], by decide, ⟨by decide, by decide⟩, ?_, by decide, ?_⟩
  · exact ⟨2 ^ 51, 0, by decide, by decide, by decide⟩
  · exact Nat.lt_of_lt_of_le (by decide : _ < 2 ^ 60) (Nat.pow_le_pow_right Nat.two_pos (by decide))

end Scriptc.RuntimeRust.NumberParse
