import Mathlib.Data.List.DropRight
import Mathlib.Tactic.Ring
import Scriptc.Num.Integral
import Scriptc.Lib.Numerals

/-!
# The shortest digits of a number

`format_number` of `number_format.rs`, and the two functions there that take the digits and the exponent back out
of its text and find those that were printed. Which digits are the shortest is Rust's to say.
-/

namespace Scriptc.RuntimeRust.NumberFormat

open List

open Numerals (digitValue padded padded_one padded_of_le padded_succ)

/-- Digits with a point before the first, scaled: `0.d₁d₂… × 10 ^ point`. -/
structure Decimal where
  digits : List ℕ
  point : ℤ
  deriving DecidableEq

/-- There are no zeros at the ends. -/
structure Decimal.WellFormed (d : Decimal) : Prop where
  ne_nil : d.digits ≠ []
  lt : ∀ digit ∈ d.digits, digit < 10
  head : d.digits.head ne_nil ≠ 0
  last : d.digits.getLast ne_nil ≠ 0

def digitsText (digits : List ℕ) : List Char := digits.map Nat.digitChar

def intText (n : ℤ) : List Char := (if n < 0 then ['-'] else []) ++ Nat.toDigits 10 n.natAbs

/-- `to_string` of a positive number. -/
def Decimal.display (d : Decimal) : List Char :=
  if d.point ≤ 0 then '0' :: '.' :: (replicate (-d.point).toNat '0' ++ digitsText d.digits)
  else if d.digits.length ≤ d.point then digitsText d.digits ++ replicate (d.point - d.digits.length).toNat '0'
  else digitsText (d.digits.take d.point.toNat) ++ '.' :: digitsText (d.digits.drop d.point.toNat)

/-- `format!("{value:e}")` of a positive number, as `format_number` changes it. -/
def Decimal.scientific (d : Decimal) : List Char :=
  digitsText (d.digits.take 1) ++ (if d.digits.length = 1 then [] else '.' :: digitsText (d.digits.drop 1)) ++
    'e' :: ((if 0 ≤ d.point - 1 then ['+'] else []) ++ intText (d.point - 1))

def formatNumber (shortest : ℚ → Decimal) (value : F64) : List Char :=
  match value with
  | .nan => "NaN".toList
  | .inf negative => if negative then "-Infinity".toList else "Infinity".toList
  | value =>
    if value.isZero then ['0']
    else
      let d := shortest |value.rat|
      (if value.isNeg then ['-'] else []) ++
        if (F64.round (1 / 10 ^ 6)).le (F64.abs value) && (F64.abs value).lt (.ofInt (10 ^ 21)) then d.display else d.scientific

/-! ### Taking a text apart -/

def splitOnce (c : Char) (text : List Char) : Option (List Char × List Char) :=
  if c ∈ text then some (text.takeWhile (· ≠ c), (text.dropWhile (· ≠ c)).tail) else none

/-- `parse::<i32>`, of texts with few digits. -/
def parseI32 : List Char → Option ℤ
  | '-' :: digits => (Numerals.number digitValue 10 digits).map fun n => -(n : ℤ)
  | '+' :: digits => (Numerals.number digitValue 10 digits).map fun n => (n : ℤ)
  | digits => (Numerals.number digitValue 10 digits).map fun n => (n : ℤ)

def isNonZeroDigit (c : Char) : Bool := '1' ≤ c ∧ c ≤ '9'

/-- What is expected and not there is a panic. -/
def decimalExponent (plain : List Char) : Option ℤ :=
  match splitOnce 'e' plain with
  | some (_, exponent) => parseI32 exponent
  | none =>
    match plain.findIdx? (· = '.') with
    | some decimal =>
      if decimal ≠ 1 ∨ plain.head? ≠ some '0' then some (decimal - 1)
      else (plain.findIdx? isNonZeroDigit).map fun (first : ℕ) => 1 - (first : ℤ)
    | none => some (plain.length - 1)

/-- Zeros at the end go, but for a single digit. -/
def popZeros (digits : List ℕ) : List ℕ :=
  if digits.rdropWhile (· = 0) = [] then digits.take 1 else digits.rdropWhile (· = 0)

/-- The digits of a text of digits and points. -/
def digitBytes (text : List Char) : List ℕ := (text.filter (· ≠ '.')).map fun c => c.toNat - '0'.toNat

def shortestDecimalDigits (rendered : List Char) : Option (List ℕ × ℤ) :=
  match splitOnce 'e' rendered with
  | some (mantissa, exponent) => (parseI32 exponent).map fun exponent => (popZeros (digitBytes mantissa), exponent + 1)
  | none =>
    match rendered.findIdx? (· = '.') with
    | some decimal =>
      if rendered.head? = some '0' then
        (rendered.findIdx? isNonZeroDigit).map fun (first : ℕ) => (popZeros (digitBytes (rendered.drop first)), (decimal : ℤ) - first + 1)
      else some (popZeros (digitBytes rendered), decimal)
    | none => some (popZeros (digitBytes rendered), rendered.length)

/-! ### The digits come back -/

theorem digitChar_cases {d : ℕ} (h : d < 10) : (Nat.digitChar d).isDigit = true ∧ (Nat.digitChar d).toNat - '0'.toNat = d ∧
    (isNonZeroDigit (Nat.digitChar d) = true ↔ d ≠ 0) ∧ (Nat.digitChar d = '0' ↔ d = 0) := by
  revert d
  decide

variable {digits : List ℕ}

theorem digitsText_digit (h : ∀ d ∈ digits, d < 10) : ∀ c ∈ digitsText digits, c.isDigit = true := by
  rintro c hc
  obtain ⟨d, hd, rfl⟩ := mem_map.mp hc
  exact (digitChar_cases (h d hd)).1

variable {text : List Char}

theorem digit_ne (h : ∀ c ∈ text, c.isDigit = true) : 'e' ∉ text ∧ '.' ∉ text :=
  ⟨fun hc => absurd (h _ hc) (by decide), fun hc => absurd (h _ hc) (by decide)⟩

theorem digitBytes_append (as bs : List Char) : digitBytes (as ++ bs) = digitBytes as ++ digitBytes bs := by
  rw [digitBytes, filter_append, map_append]
  rfl

theorem digitBytes_point (text : List Char) : digitBytes ('.' :: text) = digitBytes text := rfl

theorem digitBytes_digitsText (h : ∀ d ∈ digits, d < 10) : digitBytes (digitsText digits) = digits := by
  have hfilter : (digitsText digits).filter (· ≠ '.') = digitsText digits :=
    filter_eq_self.mpr fun c hc => by
      have hdigit := digitsText_digit h c hc
      simp only [decide_eq_true_eq]
      rintro rfl
      exact absurd hdigit (by decide)
  rw [digitBytes, hfilter, digitsText, map_map]
  exact (map_congr_left fun d hd => (digitChar_cases (h d hd)).2.1).trans (map_id digits)

theorem digitBytes_zeros (k : ℕ) : digitBytes (replicate k '0') = replicate k 0 := by
  rw [digitBytes, filter_replicate_of_pos (by decide), map_replicate]
  rfl

/-- Zeros after digits that end in no zero go. -/
theorem popZeros_append (hne : digits ≠ []) (hlast : digits.getLast hne ≠ 0) (k : ℕ) :
    popZeros (digits ++ replicate k 0) = digits := by
  have hdrop : (digits ++ replicate k 0).rdropWhile (· = 0) = digits := by
    induction k with
    | zero =>
      rw [replicate_zero, append_nil]
      exact rdropWhile_eq_self_iff.mpr fun _ => by simpa using hlast
    | succ k ih =>
      rw [replicate_succ', ← append_assoc, rdropWhile_concat_pos _ _ _ (by simp), ih]
  rw [popZeros, hdrop, if_neg hne]

theorem popZeros_self (hne : digits ≠ []) (hlast : digits.getLast hne ≠ 0) : popZeros digits = digits := by
  have h := popZeros_append hne hlast 0
  rwa [replicate_zero, append_nil] at h

variable {c : Char}

theorem splitOnce_append {text rest : List Char} (h : c ∉ text) : splitOnce c (text ++ c :: rest) = some (text, rest) := by
  have hne : ∀ d ∈ text, decide (d ≠ c) = true := fun d hd => decide_eq_true fun heq => h (heq ▸ hd)
  rw [splitOnce, if_pos (by simp), takeWhile_append_of_pos hne, dropWhile_append_of_pos hne]
  simp

theorem splitOnce_none (h : c ∉ text) : splitOnce c text = none := if_neg h

theorem parseI32_intText (n : ℤ) : parseI32 ((if 0 ≤ n then ['+'] else []) ++ intText n) = some n := by
  have hread : Numerals.number digitValue 10 (Nat.toDigits 10 n.natAbs) = some n.natAbs := by
    rw [Numerals.number_of_ne_nil Nat.toDigits_ne_nil]
    exact Numerals.read_toDigits (by decide) (by decide) _
  rw [intText]
  split_ifs with h1 h2 h2
  · omega
  · simp only [singleton_append, nil_append, parseI32, hread]
    exact congrArg some (Int.natAbs_of_nonneg h1)
  · simp only [singleton_append, nil_append, parseI32, hread]
    exact congrArg some (by omega : -(n.natAbs : ℤ) = n)
  · omega

theorem findIdx?_append_cons {p : Char → Bool} {text rest : List Char} (h : ∀ d ∈ text, p d = false) (hc : p c = true) :
    (text ++ c :: rest).findIdx? p = some text.length := by
  induction text with
  | nil =>
    rw [nil_append, List.findIdx?_cons, hc]
    rfl
  | cons d text ih =>
    obtain ⟨hd, htext⟩ := forall_mem_cons.mp h
    rw [cons_append, List.findIdx?_cons, hd, ih htext]
    rfl

theorem findIdx?_none (h : c ∉ text) : text.findIdx? (· = c) = none :=
  List.findIdx?_eq_none_iff.mpr fun _ hd => decide_eq_false fun heq => h (heq ▸ hd)

variable {d : Decimal}

theorem Decimal.WellFormed.cons (h : d.WellFormed) :
    ∃ first rest, d.digits = first :: rest ∧ first < 10 ∧ first ≠ 0 ∧ ∀ digit ∈ rest, digit < 10 := by
  obtain ⟨hne, hlt, hhead, -⟩ := h
  cases hdigits : d.digits with
  | nil => exact absurd hdigits hne
  | cons first rest =>
    simp only [hdigits, head_cons, forall_mem_cons] at hlt hhead
    exact ⟨first, rest, rfl, hlt.1, hhead, hlt.2⟩

/-- In scientific notation, the digits stand before the `e`. -/
theorem splitOnce_scientific (h : d.WellFormed) : ∃ mantissa, splitOnce 'e' d.scientific =
    some (mantissa, (if 0 ≤ d.point - 1 then ['+'] else []) ++ intText (d.point - 1)) ∧ digitBytes mantissa = d.digits := by
  have htake : ∀ digit ∈ d.digits.take 1, digit < 10 := fun digit hd => h.lt _ (mem_of_mem_take hd)
  have hdrop : ∀ digit ∈ d.digits.drop 1, digit < 10 := fun digit hd => h.lt _ (mem_of_mem_drop hd)
  have hfirst := (digit_ne (digitsText_digit htake)).1
  rw [Decimal.scientific]
  by_cases hone : d.digits.length = 1
  · rw [if_pos hone, append_nil]
    exact ⟨_, splitOnce_append hfirst, by rw [digitBytes_digitsText htake, take_of_length_le hone.le]⟩
  · rw [if_neg hone]
    refine ⟨_, splitOnce_append ?_, ?_⟩
    · rw [mem_append, mem_cons, not_or, not_or]
      exact ⟨hfirst, by decide, (digit_ne (digitsText_digit hdrop)).1⟩
    · rw [digitBytes_append, digitBytes_point, digitBytes_digitsText htake, digitBytes_digitsText hdrop, take_append_drop]

theorem decimalExponent_scientific (h : d.WellFormed) : decimalExponent d.scientific = some (d.point - 1) := by
  obtain ⟨mantissa, hsplit, -⟩ := splitOnce_scientific h
  rw [decimalExponent, hsplit]
  exact parseI32_intText _

theorem shortestDecimalDigits_scientific (h : d.WellFormed) : shortestDecimalDigits d.scientific = some (d.digits, d.point) := by
  obtain ⟨mantissa, hsplit, hdigits⟩ := splitOnce_scientific h
  rw [shortestDecimalDigits, hsplit]
  dsimp only
  rw [parseI32_intText, Option.map_some, hdigits, popZeros_self h.ne_nil h.last, sub_add_cancel]

/-- The forms of a number that is written out. -/
theorem display_cases (h : d.WellFormed) : splitOnce 'e' d.display = none ∧
    decimalExponent d.display = some (d.point - 1) ∧ shortestDecimalDigits d.display = some (d.digits, d.point) := by
  obtain ⟨first, rest, hdigits, hlt, hne, hrest⟩ := h.cons
  have hall := digitsText_digit h.lt
  obtain ⟨hdigit, -, hnonzero, hzero⟩ := digitChar_cases hlt
  by_cases hsmall : d.point ≤ 0
  · have hdisplay : d.display = '0' :: '.' :: (replicate (-d.point).toNat '0' ++ digitsText d.digits) := if_pos hsmall
    have he : splitOnce 'e' d.display = none := by
      rw [hdisplay]
      refine splitOnce_none ?_
      simp only [mem_cons, mem_append, mem_replicate, not_or]
      exact ⟨by decide, by decide, by simp, (digit_ne hall).1⟩
    have hpoint : d.display.findIdx? (· = '.') = some 1 := by
      rw [hdisplay]
      rfl
    have hfirst : d.display.findIdx? isNonZeroDigit = some ((-d.point).toNat + 2) := by
      have hsplit : d.display = ('0' :: '.' :: replicate (-d.point).toNat '0') ++ Nat.digitChar first :: digitsText rest := by
        rw [hdisplay, hdigits]
        rfl
      rw [hsplit, findIdx?_append_cons _ (hnonzero.mpr hne)]
      · simp
      · simp only [mem_cons, mem_replicate]
        rintro c (rfl | rfl | ⟨-, rfl⟩) <;> rfl
    have hhead : d.display.head? = some '0' := by rw [hdisplay]; rfl
    have hdrop : d.display.drop ((-d.point).toNat + 2) = digitsText d.digits := by
      rw [hdisplay]
      simp
    refine ⟨he, ?_, ?_⟩
    · rw [decimalExponent, he, hpoint]
      dsimp only
      rw [if_neg (by simp [hhead]), hfirst, Option.map_some]
      congr 1
      push_cast
      omega
    · rw [shortestDecimalDigits, he, hpoint]
      dsimp only
      rw [if_pos hhead, hfirst, Option.map_some, hdrop, digitBytes_digitsText h.lt, popZeros_self h.ne_nil h.last]
      congr 2
      push_cast
      omega
  · obtain ⟨k, hk⟩ := Int.eq_ofNat_of_zero_le (not_le.mp hsmall).le
    by_cases hwhole : d.digits.length ≤ d.point
    · have hdisplay : d.display = digitsText d.digits ++ replicate (k - d.digits.length) '0' := by
        rw [Decimal.display, if_neg hsmall, if_pos hwhole, hk]
        congr 2
        omega
      have hchars : ∀ c ∈ d.display, c.isDigit = true := by
        rw [hdisplay]
        refine forall_mem_append.mpr ⟨hall, fun c hc => ?_⟩
        rw [eq_of_mem_replicate hc]
        rfl
      have he := splitOnce_none (digit_ne hchars).1
      have hlength : (d.display.length : ℤ) = d.point := by
        rw [hdisplay, length_append, length_replicate, digitsText, length_map]
        omega
      refine ⟨he, ?_, ?_⟩
      · rw [decimalExponent, he, findIdx?_none (digit_ne hchars).2]
        dsimp only
        rw [hlength]
      · rw [shortestDecimalDigits, he, findIdx?_none (digit_ne hchars).2]
        dsimp only
        rw [hlength, hdisplay, digitBytes_append, digitBytes_digitsText h.lt, digitBytes_zeros, popZeros_append h.ne_nil h.last]
    · have hdisplay : d.display = digitsText (d.digits.take k) ++ '.' :: digitsText (d.digits.drop k) := by
        rw [Decimal.display, if_neg hsmall, if_neg hwhole, hk]
        rfl
      have htake : ∀ digit ∈ d.digits.take k, digit < 10 := fun digit hd => h.lt _ (mem_of_mem_take hd)
      have hdrop : ∀ digit ∈ d.digits.drop k, digit < 10 := fun digit hd => h.lt _ (mem_of_mem_drop hd)
      have hbefore := digit_ne (digitsText_digit htake)
      have he : splitOnce 'e' d.display = none := by
        rw [hdisplay]
        refine splitOnce_none ?_
        rw [mem_append, mem_cons, not_or, not_or]
        exact ⟨hbefore.1, by decide, (digit_ne (digitsText_digit hdrop)).1⟩
      have hpoint : d.display.findIdx? (· = '.') = some k := by
        have hno : ∀ c ∈ digitsText (d.digits.take k), decide (c = '.') = false :=
          fun c hc => decide_eq_false fun heq => hbefore.2 (heq ▸ hc)
        rw [hdisplay, findIdx?_append_cons hno (by simp), digitsText, length_map, length_take, Nat.min_eq_left (by omega)]
      have hhead : d.display.head? ≠ some '0' := by
        obtain ⟨j, rfl⟩ := Nat.exists_eq_succ_of_ne_zero (by omega : k ≠ 0)
        rw [hdisplay, hdigits]
        exact fun hsome => hne (hzero.mp (Option.some.inj hsome))
      refine ⟨he, ?_, ?_⟩
      · rw [decimalExponent, he, hpoint]
        dsimp only
        rw [if_pos (.inr hhead), hk]
      · rw [shortestDecimalDigits, he, hpoint]
        dsimp only
        rw [if_neg hhead, hdisplay, digitBytes_append, digitBytes_point, digitBytes_digitsText htake, digitBytes_digitsText hdrop,
          take_append_drop, popZeros_self h.ne_nil h.last, hk]

/-- **The digits and the exponent come back** out of the text of a positive number, in whichever form it is printed. -/
theorem formatNumber_digits {shortest : ℚ → Decimal} {x : F64} (hx : x.isFinite = true) (hpos : 0 < x.rat)
    (h : (shortest x.rat).WellFormed) : decimalExponent (formatNumber shortest x) = some ((shortest x.rat).point - 1) ∧
      shortestDecimalDigits (formatNumber shortest x) = some ((shortest x.rat).digits, (shortest x.rat).point) := by
  obtain ⟨-, hexp, hdigits⟩ := display_cases h
  cases x with
  | nan => cases hx
  | inf negative => cases hx
  | negZero => exact absurd hpos (lt_irrefl 0)
  | fin y =>
    have hzero : (F64.fin y).isZero = false := decide_eq_false (ne_of_gt hpos)
    have hneg : (F64.fin y).isNeg = false := decide_eq_false hpos.not_gt
    have htext : formatNumber shortest (.fin y) = (shortest y.val).display ∨ formatNumber shortest (.fin y) = (shortest y.val).scientific := by
      unfold formatNumber
      simp only [hzero, hneg, Bool.false_eq_true, if_false, nil_append, abs_of_pos hpos]
      split_ifs
      · exact .inl rfl
      · exact .inr rfl
    rcases htext with htext | htext
    · rw [htext]
      exact ⟨hexp, hdigits⟩
    · rw [htext]
      exact ⟨decimalExponent_scientific h, shortestDecimalDigits_scientific h⟩

/-! ### What digits spell -/

def spelled (digits : List ℕ) : ℕ := digits.foldl (fun n digit => n * 10 + digit) 0

theorem spelled_concat (digits : List ℕ) (digit : ℕ) : spelled (digits ++ [digit]) = spelled digits * 10 + digit := by
  rw [spelled, foldl_append]
  rfl

theorem spelled_append (as bs : List ℕ) : spelled (as ++ bs) = spelled as * 10 ^ bs.length + spelled bs := by
  induction bs using reverseRecOn with
  | nil => simp [spelled]
  | append_singleton bs digit ih =>
    rw [← append_assoc, spelled_concat, spelled_concat, ih, length_append, length_singleton, pow_succ]
    ring

theorem spelled_zeros (k : ℕ) : spelled (replicate k 0) = 0 := by
  induction k with
  | zero => rfl
  | succ k ih => rw [replicate_succ', spelled_concat, ih]

theorem spelled_lt (h : ∀ d ∈ digits, d < 10) : spelled digits < 10 ^ digits.length := by
  induction digits using reverseRecOn with
  | nil => simp [spelled]
  | append_singleton digits digit ih =>
    have hdigit := h digit (by simp)
    have hlt := ih fun d hd => h d (by simp [hd])
    rw [spelled_concat, length_append, length_singleton, pow_succ]
    omega

/-- The digits of a number, with the zeros that are before it. -/
theorem digitsText_eq_padded (hne : digits ≠ []) (h : ∀ d ∈ digits, d < 10) :
    digitsText digits = padded digits.length (spelled digits) := by
  induction digits using reverseRecOn with
  | nil => exact absurd rfl hne
  | append_singleton digits digit ih =>
    have hdigit := h digit (by simp)
    have hdigits : ∀ d ∈ digits, d < 10 := fun d hd => h d (by simp [hd])
    rw [digitsText, map_append, length_append, length_singleton]
    rcases eq_or_ne digits [] with rfl | hne'
    · have hspelled : spelled [digit] = digit := by simp [spelled]
      rw [length_nil, Nat.zero_add, padded_one, nil_append, hspelled, Nat.toDigits_of_lt_base hdigit]
      rfl
    · rw [padded_succ (length_pos_of_ne_nil hne'), spelled_concat, ← digitsText, ih hne' hdigits,
        Nat.mul_comm, Nat.mul_add_div (by norm_num), Nat.div_eq_of_lt hdigit, Nat.mul_add_mod, Nat.mod_eq_of_lt hdigit]
      rfl

theorem digitsText_eq_toDigits (h : ∀ d ∈ digits, d < 10) (hlarge : 10 ^ (digits.length - 1) ≤ spelled digits) :
    digitsText digits = Nat.toDigits 10 (spelled digits) := by
  rcases eq_or_ne digits [] with rfl | hne
  · simp [spelled] at hlarge
  · obtain ⟨k, hk⟩ := Nat.exists_eq_succ_of_ne_zero (length_pos_of_ne_nil hne).ne'
    rw [hk, Nat.succ_sub_one] at hlarge
    rw [digitsText_eq_padded hne h, hk, padded_of_le hlarge]

def Decimal.value (d : Decimal) : ℚ := spelled d.digits * 10 ^ (d.point - d.digits.length)

theorem Decimal.WellFormed.large (h : d.WellFormed) {k : ℕ} (hk : 0 < k) :
    10 ^ ((d.digits.take k).length - 1) ≤ spelled (d.digits.take k) := by
  obtain ⟨first, rest, hdigits, -, hne, -⟩ := h.cons
  obtain ⟨j, rfl⟩ := Nat.exists_eq_succ_of_ne_zero hk.ne'
  rw [hdigits, take_succ_cons, length_cons, Nat.add_sub_cancel, ← singleton_append, spelled_append]
  refine le_trans (Nat.le_mul_of_pos_left _ ?_) (Nat.le_add_right _ _)
  have : spelled [first] = first := by simp [spelled]
  omega

end Scriptc.RuntimeRust.NumberFormat
