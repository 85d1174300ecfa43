import Mathlib.Data.List.DropRight
import Mathlib.Data.Nat.Digits.Lemmas
import Scriptc.Runtime.BigIntText

/-!
# The texts that are BigInt values

StringToBigInt as a grammar of characters, and that `bi_parse_string` accepts it and nothing else:
white space goes character by character from both ends, and what is left is a literal or not. The
text of a value is a literal of it.
-/

namespace Scriptc.Runtime.BigInt

open Limbs Except List
open scoped Scriptc.Utf16

/-! ### White space -/

/-- The code points of white space and line terminators. -/
def IsSpace (n : ℕ) : Prop :=
  0x09 ≤ n ∧ n ≤ 0x0D ∨ n = 0x20 ∨ n = 0xA0 ∨ n = 0x1680 ∨ 0x2000 ≤ n ∧ n ≤ 0x200A ∨ n = 0x2028 ∨ n = 0x2029 ∨ n = 0x202F ∨
    n = 0x205F ∨ n = 0x3000 ∨ n = 0xFEFF

instance (n : ℕ) : Decidable (IsSpace n) := inferInstanceAs (Decidable (_ ∨ _))

theorem mem_ascii_space (a : UInt8) :
    a ∈ ([0x09, 0x0a, 0x0b, 0x0c, 0x0d, 0x20] : Bytes) ↔ 0x09 ≤ a.toNat ∧ a.toNat ≤ 0x0D ∨ a.toNat = 0x20 := by
  simp only [mem_cons, not_mem_nil, or_false, ← UInt8.toNat_inj, UInt8.reduceToNat]
  omega

variable {a : UInt8}

theorem biSpacePrefix_ascii (ha : a.toNat < 0x80) (s : Bytes) : biSpacePrefix (a :: s) = if IsSpace a.toNat then 1 else 0 := by
  have hne : ∀ b : UInt8, 0x80 ≤ b.toNat → a ≠ b := by
    rintro b hb rfl
    omega
  have hspace : a ∈ ([0x09, 0x0a, 0x0b, 0x0c, 0x0d, 0x20] : Bytes) ↔ IsSpace a.toNat := by
    rw [mem_ascii_space, IsSpace]
    omega
  rcases s with _ | ⟨b, _ | ⟨c, s⟩⟩
  · simp only [biSpacePrefix, hspace]
  · simp only [biSpacePrefix, hspace, hne 0xc2 (by decide), false_and, if_false]
  · simp only [biSpacePrefix, hspace, hne 0xc2 (by decide), hne 0xe1 (by decide), hne 0xe2 (by decide), hne 0xe3 (by decide),
      hne 0xef (by decide), false_and, if_false]

theorem biSpacePrefix_code (c : Char) (s : Bytes) :
    biSpacePrefix (utf8.code c ++ s) = if IsSpace c.toNat then (utf8.code c).length else 0 := by
  have hcode := bytes8_code c
  generalize utf8.code c = code at hcode ⊢
  generalize c.toNat = n at hcode ⊢
  cases hcode with
  | one ha hn =>
    subst ha
    exact biSpacePrefix_ascii hn s
  | @two a b ha hb hge hlt =>
    have hspace : a = 0xc2 ∧ b = 0xa0 ↔ IsSpace n := by
      simp only [← UInt8.toNat_inj, UInt8.reduceToNat, IsSpace]
      omega
    have hmem : a ∉ ([0x09, 0x0a, 0x0b, 0x0c, 0x0d, 0x20] : Bytes) := by
      rw [mem_ascii_space]
      omega
    have hne : ∀ x : UInt8, 0xe0 ≤ x.toNat → a ≠ x := by
      rintro x hx rfl
      omega
    rcases s with _ | ⟨c, s⟩
    · simp only [cons_append, nil_append, biSpacePrefix, hmem, if_false, hspace]
      rfl
    · simp only [cons_append, nil_append, biSpacePrefix, hmem, if_false, hspace, hne 0xe1 (by decide), hne 0xe2 (by decide),
        hne 0xe3 (by decide), hne 0xef (by decide), false_and]
      rfl
  | @three a b c ha hb hc hge hlt =>
    have hspace : (a = 0xe1 ∧ b = 0x9a ∧ c = 0x80 ∨ (a = 0xe2 ∧ b = 0x80 ∧ (0x80 ≤ c ∧ c ≤ 0x8a ∨ c = 0xa8 ∨ c = 0xa9 ∨ c = 0xaf)) ∨
        a = 0xe2 ∧ b = 0x81 ∧ c = 0x9f ∨ a = 0xe3 ∧ b = 0x80 ∧ c = 0x80 ∨ a = 0xef ∧ b = 0xbb ∧ c = 0xbf) ↔ IsSpace n := by
      have hn : n + 0xe2080 = a.toNat * 0x1000 + b.toNat * 0x40 + c.toNat := by omega
      have hbound : 0x80 ≤ b.toNat ∧ b.toNat < 0xc0 ∧ 0x80 ≤ c.toNat ∧ c.toNat < 0xc0 := by omega
      simp only [← UInt8.toNat_inj, UInt8.le_iff_toNat_le, UInt8.reduceToNat, IsSpace]
      clear ha hb hc
      constructor
      · omega
      · rintro (h | h | h | h | h | h | h | h | h | h | h) <;> omega
    have hmem : a ∉ ([0x09, 0x0a, 0x0b, 0x0c, 0x0d, 0x20] : Bytes) := by
      rw [mem_ascii_space]
      omega
    have hne : a ≠ 0xc2 := by
      rintro rfl
      simp only [UInt8.reduceToNat] at ha
      omega
    simp only [cons_append, nil_append, biSpacePrefix, hmem, if_false, hne, false_and, ← hspace, ite_or]
    rfl
  | @four a b c d ha hb hc hd hge hlt =>
    have hspace : ¬IsSpace n := by
      rw [IsSpace]
      omega
    have hmem : a ∉ ([0x09, 0x0a, 0x0b, 0x0c, 0x0d, 0x20] : Bytes) := by
      rw [mem_ascii_space]
      omega
    have hne : ∀ x : UInt8, x.toNat < 0xf0 → a ≠ x := by
      rintro x hx rfl
      omega
    simp only [cons_append, biSpacePrefix, hmem, if_false, hspace, hne 0xc2 (by decide), hne 0xe1 (by decide),
      hne 0xe2 (by decide), hne 0xe3 (by decide), hne 0xef (by decide), false_and]

theorem skipPrefix_text (cs : List Char) : skipPrefix (utf8.text cs) = utf8.text (cs.dropWhile fun c => IsSpace c.toNat) := by
  induction cs with
  | nil => rw [skipPrefix]; rfl
  | cons c cs ih =>
    have hpos := utf8_lawful.length_pos c
    rw [skipPrefix, Coding.text_cons, biSpacePrefix_code, dropWhile_cons]
    by_cases hc : IsSpace c.toNat
    · rw [if_pos hc, if_pos (by omega), drop_left, ih, if_pos (decide_eq_true hc)]
    · rw [if_neg hc, if_neg (by simp), if_neg (by simpa using hc), Coding.text_cons]

theorem and_c0_iff (b : UInt8) : b &&& 0xc0 = 0x80 ↔ 0x80 ≤ b.toNat ∧ b.toNat < 0xc0 := by
  have hall : ∀ n : Fin 256, UInt8.ofNat n &&& 0xc0 = 0x80 ↔ 0x80 ≤ (UInt8.ofNat n).toNat ∧ (UInt8.ofNat n).toNat < 0xc0 := by
    decide +kernel
  have hb := hall ⟨b.toNat, b.toNat_lt⟩
  rwa [UInt8.ofNat_toNat] at hb

/-- The last character starts behind what is before it. -/
theorem lastStart_eq {tail : Bytes} (ha : ¬(0x80 ≤ a.toNat ∧ a.toNat < 0xc0)) (htail : ∀ x ∈ tail, 0x80 ≤ x.toNat ∧ x.toNat < 0xc0)
    (before : Bytes) {k : ℕ} (hk : k ≤ tail.length) : lastStart (before ++ a :: tail) (before.length + k) = before.length := by
  induction k with
  | zero =>
    cases hn : before.length with
    | zero => rfl
    | succ n =>
      have hget : (before ++ a :: tail).getD (n + 1) 0 = a := by
        rw [← hn, getD_append_right _ _ _ _ le_rfl, Nat.sub_self, getD_cons_zero]
      rw [Nat.add_zero, lastStart, hget, if_neg (mt (and_c0_iff a).mp ha)]
  | succ k ih =>
    have hget : (before ++ a :: tail).getD (before.length + k + 1) 0 = tail[k] := by
      rw [getD_append_right _ _ _ _ (by omega), show before.length + k + 1 - before.length = k + 1 by omega, getD_cons_succ,
        getD_eq_getElem _ _ hk]
    rw [← Nat.add_assoc, lastStart, hget, if_pos ((and_c0_iff _).mpr (htail _ (getElem_mem hk))), ih (by omega)]

theorem biSpaceSuffix_text (cs : List Char) (c : Char) :
    biSpaceSuffix (utf8.text (cs ++ [c])) = if IsSpace c.toNat then (utf8.code c).length else 0 := by
  have hcode := bytes8_code c
  obtain ⟨a, tail, heq, ha⟩ := hcode.lead
  have htail := hcode.tail
  have hspace := biSpacePrefix_code c []
  rw [heq, tail_cons] at htail
  rw [append_nil] at hspace
  have hstart := lastStart_eq (a := a) (by omega) htail (utf8.text cs) le_rfl
  have hlength : (utf8.text cs ++ a :: tail).length - 1 = (utf8.text cs).length + tail.length := by
    rw [length_append, length_cons]
    omega
  rw [biSpaceSuffix, Coding.text_append, Coding.text_cons, Coding.text_nil, append_nil, if_neg (by rw [heq]; simp), heq, hlength,
    hstart]
  dsimp only
  rw [drop_left, ← heq, hspace, length_append, Nat.add_sub_cancel_left]
  split
  · exact if_pos rfl
  · rw [ite_self]

theorem skipSuffix_text (cs : List Char) : skipSuffix (utf8.text cs) = utf8.text (cs.rdropWhile fun c => IsSpace c.toNat) := by
  induction cs using reverseRecOn with
  | nil => rw [skipSuffix]; rfl
  | append_singleton cs c ih =>
    have hpos := utf8_lawful.length_pos c
    rw [skipSuffix, biSpaceSuffix_text, rdropWhile_concat]
    by_cases hc : IsSpace c.toNat
    · have htake : (utf8.text (cs ++ [c])).take ((utf8.text (cs ++ [c])).length - (utf8.code c).length) = utf8.text cs := by
        rw [Coding.text_append, Coding.text_cons, Coding.text_nil, append_nil, length_append, Nat.add_sub_cancel,
          take_left]
      rw [if_pos hc, if_pos (by omega), htake, ih, if_pos (decide_eq_true hc)]
    · rw [if_neg hc, if_neg (by simp), if_neg (by simpa using hc)]

/-! ### The grammar -/

/-- The value of a digit, in either case. -/
def digitValue (c : Char) : Option ℕ :=
  if '0' ≤ c ∧ c ≤ '9' then some (c.toNat - '0'.toNat)
  else if 'a' ≤ c ∧ c ≤ 'z' then some (c.toNat - 'a'.toNat + 10)
  else if 'A' ≤ c ∧ c ≤ 'Z' then some (c.toNat - 'A'.toNat + 10)
  else none

def digitOf (radix : ℕ) (c : Char) : Option ℕ := (digitValue c).filter (· < radix)

/-- The radix that a letter names. -/
def radixOf (p : Char) : Option ℕ :=
  if p = 'x' ∨ p = 'X' then some 16
  else if p = 'o' ∨ p = 'O' then some 8
  else if p = 'b' ∨ p = 'B' then some 2
  else none

/-- A literal and its value: decimal digits, which may have a sign, or a radix and its digits. -/
inductive Literal : List Char → ℤ → Prop
  | unsigned {ds : List Char} {n : ℕ} : Numerals.number (digitOf 10) 10 ds = some n → Literal ds n
  | plus {ds : List Char} {n : ℕ} : Numerals.number (digitOf 10) 10 ds = some n → Literal ('+' :: ds) n
  | minus {ds : List Char} {n : ℕ} : Numerals.number (digitOf 10) 10 ds = some n → Literal ('-' :: ds) (-n)
  | radix {p : Char} {radix : ℕ} {ds : List Char} {n : ℕ} : radixOf p = some radix →
      Numerals.number (digitOf radix) radix ds = some n → Literal ('0' :: p :: ds) n

/-- StringToBigInt: nothing is zero, and white space around a literal does not count. -/
inductive StringToBigInt : List Char → ℤ → Prop
  | blank {cs : List Char} : (∀ c ∈ cs, IsSpace c.toNat) → StringToBigInt cs 0
  | literal {before cs after : List Char} {z : ℤ} : (∀ c ∈ before, IsSpace c.toNat) → Literal cs z → (∀ c ∈ after, IsSpace c.toNat) →
      StringToBigInt (before ++ cs ++ after) z

/-! ### Reading a literal -/

/-- The first byte of a character tells which one it is, if it is ASCII. -/
theorem first_byte (c : Char) : ∃ a tail, utf8.code c = a :: tail ∧
    (a.toNat = c.toNat ∧ c.toNat < 0x80 ∧ tail = [] ∨ 0xc0 ≤ a.toNat ∧ 0x80 ≤ c.toNat) := by
  have hcode := bytes8_code c
  generalize utf8.code c = code at hcode
  cases hcode with
  | one ha hn => exact ⟨_, _, rfl, .inl ⟨ha, hn, rfl⟩⟩
  | two ha => exact ⟨_, _, rfl, .inr (by omega)⟩
  | three ha => exact ⟨_, _, rfl, .inr (by omega)⟩
  | four ha => exact ⟨_, _, rfl, .inr (by omega)⟩

/-- An ASCII character by its byte. -/
theorem byte_eq_iff {c d : Char} (h : a.toNat = c.toNat ∧ c.toNat < 0x80 ∨ 0xc0 ≤ a.toNat ∧ 0x80 ≤ c.toNat)
    {b : UInt8} (hb : b.toNat = d.toNat) (hd : d.toNat < 0x80) : a = b ↔ c = d := by
  rw [← UInt8.toNat_inj, hb]
  constructor
  · exact fun heq => char_eq (by omega)
  · rintro rfl
    omega

variable {c : Char}

theorem biDigit_ascii (h : a.toNat = c.toNat) (radix : ℕ) : radixDigit radix a = digitOf radix c := by
  have hle : ∀ (b : UInt8) (d : Char), b.toNat = d.toNat → ((b ≤ a ↔ d ≤ c) ∧ (a ≤ b ↔ c ≤ d)) := by
    intro b d hbd
    rw [UInt8.le_iff_toNat_le, UInt8.le_iff_toNat_le, h, hbd]
    exact ⟨Iff.rfl, Iff.rfl⟩
  rw [radixDigit, digitOf, digitValue, biDigit, h]
  simp only [(hle 48 '0' rfl).1, (hle 57 '9' rfl).2, (hle 97 'a' rfl).1, (hle 122 'z' rfl).2, (hle 65 'A' rfl).1, (hle 90 'Z' rfl).2]
  rfl

theorem digitOf_ge (hc : 0x80 ≤ c.toNat) (radix : ℕ) : digitOf radix c = none := by
  have hle : ∀ d : Char, d.toNat < 0x80 → ¬c ≤ d := by
    intro d hd hcd
    have hcd : c.toNat ≤ d.toNat := hcd
    omega
  rw [digitOf, digitValue, if_neg fun h => hle '9' (by decide) h.2, if_neg fun h => hle 'z' (by decide) h.2, if_neg fun h => hle 'Z' (by decide) h.2]
  rfl

theorem radixDigit_ge (ha : 0x80 ≤ a.toNat) (radix : ℕ) : radixDigit radix a = none := by
  have hle : ∀ b : UInt8, b.toNat < 0x80 → ¬a ≤ b := by
    intro b hb hab
    rw [UInt8.le_iff_toNat_le] at hab
    omega
  rw [radixDigit, biDigit, if_neg fun h => hle 57 (by decide) h.2, if_neg fun h => hle 122 (by decide) h.2,
    if_neg fun h => hle 90 (by decide) h.2]
  rfl

/-- The digits of a text are its bytes. -/
theorem read_text (radix acc : ℕ) (cs : List Char) :
    Numerals.read (radixDigit radix) radix acc (utf8.text cs) = Numerals.read (digitOf radix) radix acc cs := by
  induction cs generalizing acc with
  | nil => rfl
  | cons c cs ih =>
    obtain ⟨a, tail, hcode, ⟨ha, hc, rfl⟩ | ⟨ha, hc⟩⟩ := first_byte c
    · rw [Coding.text_cons, hcode, singleton_append, Numerals.read, Numerals.read, biDigit_ascii ha]
      exact Option.bind_congr fun d _ => ih _
    · rw [Coding.text_cons, hcode, cons_append, Numerals.read, Numerals.read, radixDigit_ge (by omega), digitOf_ge hc]
      rfl

/-- A sign of a text, whether there is one, and what follows. -/
def charSign : List Char → ℤ × Bool × List Char
  | [] => (1, false, [])
  | c :: cs => if c = '+' then (1, true, cs) else if c = '-' then (-1, true, cs) else (1, false, c :: cs)

/-- A radix that a text names, and what follows. -/
def charRadix : List Char → Option (ℕ × List Char)
  | c :: p :: cs => if c = '0' then (radixOf p).map fun radix => (radix, cs) else none
  | _ => none

variable {radix : ℕ}

theorem radixOf_cases {p : Char} (h : radixOf p = some radix) :
    radix = 16 ∧ (p = 'x' ∨ p = 'X') ∨ radix = 8 ∧ (p = 'o' ∨ p = 'O') ∨ radix = 2 ∧ (p = 'b' ∨ p = 'B') := by
  rw [radixOf] at h
  split at h
  next hp => exact .inl ⟨(Option.some.inj h).symm, hp⟩
  · split at h
    next hp => exact .inr (.inl ⟨(Option.some.inj h).symm, hp⟩)
    · split at h
      next hp => exact .inr (.inr ⟨(Option.some.inj h).symm, hp⟩)
      · cases h

theorem takeSign_text (cs : List Char) :
    takeSign (utf8.text cs) = ((charSign cs).1, (charSign cs).2.1, utf8.text (charSign cs).2.2) := by
  cases cs with
  | nil => rfl
  | cons c cs =>
    obtain ⟨a, tail, hcode, hcase⟩ := first_byte c
    have hbyte : a.toNat = c.toNat ∧ c.toNat < 0x80 ∨ 0xc0 ≤ a.toNat ∧ 0x80 ≤ c.toNat := hcase.imp_left fun h => ⟨h.1, h.2.1⟩
    have hplus : a = 0x2b ↔ c = '+' := byte_eq_iff hbyte rfl (by decide)
    have hminus : a = 0x2d ↔ c = '-' := byte_eq_iff hbyte rfl (by decide)
    have htail : c.toNat < 0x80 → tail = [] := fun hc => by
      rcases hcase with h | h
      · exact h.2.2
      · omega
    rw [Coding.text_cons, hcode, cons_append, takeSign, charSign]
    by_cases hp : c = '+'
    · rw [if_pos (hplus.mpr hp), if_pos hp, htail (by rw [hp]; decide)]
      rfl
    · by_cases hm : c = '-'
      · rw [if_neg (mt hplus.mp hp), if_neg hp, if_pos (hminus.mpr hm), if_pos hm, htail (by rw [hm]; decide)]
        rfl
      · rw [if_neg (mt hplus.mp hp), if_neg hp, if_neg (mt hminus.mp hm), if_neg hm, Coding.text_cons, hcode]
        rfl

theorem radixDigits_of_ne (h : a ≠ 0x30) (signedInput : Bool) (s : Bytes) :
    radixDigits signedInput (a :: s) = (10, a :: s) := by
  cases s with
  | nil => rfl
  | cons b s => rw [radixDigits, if_neg h]

theorem radixDigits_text (signedInput : Bool) (cs : List Char) : radixDigits signedInput (utf8.text cs) =
    match charRadix cs with
    | some (radix, ds) => (radix, if signedInput then [] else utf8.text ds)
    | none => (10, utf8.text cs) := by
  rcases cs with _ | ⟨c, cs⟩
  · rfl
  obtain ⟨a, tail, hcode, hcase⟩ := first_byte c
  have hzero : a = 0x30 ↔ c = '0' := byte_eq_iff (hcase.imp_left fun h => ⟨h.1, h.2.1⟩) rfl (by decide)
  by_cases hc : c = '0'
  · obtain rfl : tail = [] := by
      rcases hcase with h | h
      · exact h.2.2
      · rw [hc] at h
        exact absurd h.2 (by decide)
    rw [Coding.text_cons, hcode, singleton_append, hzero.mpr hc]
    rcases cs with _ | ⟨p, cs⟩
    · rfl
    obtain ⟨b, tail, hcode', hcase'⟩ := first_byte p
    have hbyte : ∀ {x : UInt8} {d : Char}, x.toNat = d.toNat → d.toNat < 0x80 → (b = x ↔ p = d) := fun hx hd =>
      byte_eq_iff (hcase'.imp_left fun h => ⟨h.1, h.2.1⟩) hx hd
    have hradix : prefixRadix b = radixOf p := by
      rw [prefixRadix, radixOf]
      simp only [hbyte (x := 0x78) (d := 'x') rfl (by decide), hbyte (x := 0x58) (d := 'X') rfl (by decide),
        hbyte (x := 0x6f) (d := 'o') rfl (by decide), hbyte (x := 0x4f) (d := 'O') rfl (by decide),
        hbyte (x := 0x62) (d := 'b') rfl (by decide), hbyte (x := 0x42) (d := 'B') rfl (by decide)]
    rw [Coding.text_cons, hcode', cons_append, radixDigits, if_pos rfl, hradix, charRadix, if_pos hc]
    cases hp : radixOf p with
    | none => rfl
    | some radix =>
      have htail : tail = [] := by
        rcases hcase' with h | h
        · exact h.2.2
        · rcases radixOf_cases hp with ⟨-, rfl | rfl⟩ | ⟨-, rfl | rfl⟩ | ⟨-, rfl | rfl⟩ <;> exact absurd h.2 (by decide)
      rw [htail]
      rfl
  · have hnone : charRadix (c :: cs) = none := by
      cases cs with
      | nil => rfl
      | cons p cs => exact if_neg hc
    rw [hnone, Coding.text_cons, hcode, cons_append, radixDigits_of_ne (mt hzero.mp hc)]

/-- The value of a literal, if a text is one. -/
def readLiteral (cs : List Char) : Option ℤ :=
  let (sign, signedInput, body) := charSign cs
  match charRadix body with
  | some (radix, ds) => if signedInput then none else (Numerals.number (digitOf radix) radix ds).map fun n => sign * n
  | none => (Numerals.number (digitOf 10) 10 body).map fun n => sign * n

theorem charRadix_eq_some {cs ds : List Char} :
    charRadix cs = some (radix, ds) ↔ ∃ p, cs = '0' :: p :: ds ∧ radixOf p = some radix := by
  rcases cs with _ | ⟨c, _ | ⟨p, cs⟩⟩
  · simp [charRadix]
  · simp [charRadix]
  · rw [charRadix]
    by_cases hc : c = '0'
    · rw [if_pos hc]
      cases hp : radixOf p with
      | none => simp [hp]
      | some r => simp [hp, hc, and_comm]
    · simp [hc]

/-- What names a radix is not a decimal numeral, nor is what starts with a sign. -/
theorem number_radix {p : Char} (h : radixOf p = some radix) (ds : List Char) :
    Numerals.number (digitOf 10) 10 ('0' :: p :: ds) = none := by
  have hp : digitOf 10 p = none := by
    rcases radixOf_cases h with ⟨-, rfl | rfl⟩ | ⟨-, rfl | rfl⟩ | ⟨-, rfl | rfl⟩ <;> decide
  have hzero : digitOf 10 '0' = some 0 := by decide
  rw [Numerals.number_of_ne_nil (by simp), Numerals.read, hzero, Option.bind_some, Numerals.read, hp]
  rfl

theorem number_of_digit_none (h : digitOf 10 c = none) (ds : List Char) : Numerals.number (digitOf 10) 10 (c :: ds) = none := by
  rw [Numerals.number_of_ne_nil (by simp), Numerals.read, h]
  rfl

variable {ds : List Char}

/-- A decimal numeral names no radix. -/
theorem charRadix_of_number {n : ℕ} (h : Numerals.number (digitOf 10) 10 ds = some n) : charRadix ds = none := by
  by_contra hne
  obtain ⟨⟨radix, rest⟩, hr⟩ := Option.ne_none_iff_exists'.mp hne
  obtain ⟨p, rfl, hp⟩ := charRadix_eq_some.mp hr
  rw [number_radix hp] at h
  cases h

theorem readLiteral_iff (cs : List Char) (z : ℤ) : readLiteral cs = some z ↔ Literal cs z := by
  constructor
  · intro h
    rw [readLiteral] at h
    rcases cs with _ | ⟨c, cs⟩
    · cases h
    by_cases hplus : c = '+'
    · rw [hplus] at h ⊢
      cases hr : charRadix cs with
      | some r => simp [charSign, hr] at h
      | none =>
        obtain ⟨n, hn, rfl⟩ : ∃ n, Numerals.number (digitOf 10) 10 cs = some n ∧ (n : ℤ) = z := by simpa [charSign, hr, Option.bind_eq_some_iff] using h
        exact .plus hn
    · by_cases hminus : c = '-'
      · rw [hminus] at h ⊢
        cases hr : charRadix cs with
        | some r => simp [charSign, hr] at h
        | none =>
          obtain ⟨n, hn, rfl⟩ : ∃ n, Numerals.number (digitOf 10) 10 cs = some n ∧ -(n : ℤ) = z := by simpa [charSign, hr, Option.bind_eq_some_iff] using h
          exact .minus hn
      · cases hr : charRadix (c :: cs) with
        | some r =>
          obtain ⟨n, hn, rfl⟩ : ∃ n, Numerals.number (digitOf r.1) r.1 r.2 = some n ∧ (n : ℤ) = z := by
            simpa [charSign, hplus, hminus, hr, Option.bind_eq_some_iff] using h
          obtain ⟨p, heq, hp⟩ := charRadix_eq_some.mp hr
          rw [heq]
          exact .radix hp hn
        | none =>
          obtain ⟨n, hn, rfl⟩ : ∃ n, Numerals.number (digitOf 10) 10 (c :: cs) = some n ∧ (n : ℤ) = z := by
            simpa [charSign, hplus, hminus, hr, Option.bind_eq_some_iff] using h
          exact .unsigned hn
  · intro h
    cases h with
    | @unsigned _ n hn =>
      have hr := charRadix_of_number hn
      rcases cs with _ | ⟨c, cs⟩
      · cases hn
      have hplus : c ≠ '+' := by
        rintro rfl
        rw [number_of_digit_none (by decide)] at hn
        cases hn
      have hminus : c ≠ '-' := by
        rintro rfl
        rw [number_of_digit_none (by decide)] at hn
        cases hn
      simp [readLiteral, charSign, hplus, hminus, hr, hn]
    | plus hn => simp [readLiteral, charSign, charRadix_of_number hn, hn]
    | minus hn => simp [readLiteral, charSign, charRadix_of_number hn, hn]
    | @radix p radix ds n hp hn =>
      have hr : charRadix ('0' :: p :: ds) = some (radix, ds) := charRadix_eq_some.mpr ⟨p, rfl, hp⟩
      simp [readLiteral, charSign, hr, hn]

/-- What a run of the parser gives, by what the text is. -/
def Reads (s : Bytes) (reportError : Bool) (x : Run Parsed) : Option ℤ → Prop
  | some z => ∃ v, x = .ok (.value v) ∧ Normal v ∧ v.value = z
  | none => x = .ok (biParseInvalid s reportError)

theorem parseNumeral_reads (s : Bytes) (reportError : Bool) {sign : ℤ} (hsign : sign = -1 ∨ sign = 1) (radix : ℕ) (hpos : 0 < radix)
    (hradix : radix ≤ 16) (hlength : (utf8.text ds).length ≤ SIZE_MAX) :
    Reads s reportError (parseNumeral s reportError sign radix (utf8.text ds))
      ((Numerals.number (digitOf radix) radix ds).map fun n => sign * n) := by
  rcases ds with _ | ⟨c, ds⟩
  · rfl
  have hne : utf8.text (c :: ds) ≠ [] := by
    obtain ⟨a, tail, hcode, -⟩ := first_byte c
    rw [Coding.text_cons, hcode]
    exact cons_ne_nil _ _
  have hdigits := parseDigits_eq hpos hradix (normal_zero [] (by simp)) (s := utf8.text (c :: ds)) (j := 0) le_rfl
    (by simp [ScrBigInt.mag]) (by omega)
  have hread : Numerals.read (radixDigit radix) radix (⟨0, 0, []⟩ : ScrBigInt).mag (utf8.text (c :: ds)) =
    Numerals.read (digitOf radix) radix 0 (c :: ds) := read_text radix 0 (c :: ds)
  rw [hread] at hdigits
  rw [parseNumeral, if_neg hne, biZero_eq, ok_bind, Numerals.number_of_ne_nil (cons_ne_nil c ds)]
  cases hn : Numerals.read (digitOf radix) radix 0 (c :: ds) with
  | none =>
    rw [hn] at hdigits
    dsimp only at hdigits
    rw [hdigits]
    rfl
  | some n =>
    rw [hn] at hdigits
    obtain ⟨r, hr, hnormal, hrsign, hmag⟩ := hdigits
    by_cases h0 : r.sign = 0
    · have hzero : r.mag = 0 := hnormal.mag_eq_zero.mpr h0
      refine ⟨r, by rw [hr, ok_bind]; simp only [h0, ne_eq, not_true, if_false]; rfl, hnormal, ?_⟩
      rw [value_eq_zero h0, ← hmag, hzero]
      exact (mul_zero sign).symm
    · have hmag0 : r.mag ≠ 0 := mt hnormal.mag_eq_zero.mp h0
      obtain ⟨hsigned, hvalue⟩ := hnormal.withSign hmag0 hsign
      refine ⟨{ r with sign }, by rw [hr, ok_bind]; simp only [ne_eq, h0, not_false_eq_true, if_true]; rfl, hsigned, ?_⟩
      rw [hvalue, hmag]

/-- What is left of a text without the white space around it. -/
def trimmed (cs : List Char) : List Char := (cs.dropWhile fun c => IsSpace c.toNat).rdropWhile fun c => IsSpace c.toNat

theorem charSign_cases (cs : List Char) : ((charSign cs).1 = -1 ∨ (charSign cs).1 = 1) ∧ (charSign cs).2.2 <:+ cs := by
  rcases cs with _ | ⟨c, cs⟩
  · exact ⟨.inr rfl, suffix_rfl⟩
  · rw [charSign]
    split
    · exact ⟨.inr rfl, suffix_cons c cs⟩
    · split
      · exact ⟨.inl rfl, suffix_cons c cs⟩
      · exact ⟨.inr rfl, suffix_rfl⟩

theorem length_text_le {cs ds : List Char} (h : ds <:+: cs) : (utf8.text ds).length ≤ (utf8.text cs).length := by
  obtain ⟨before, after, rfl⟩ := h
  rw [Coding.text_append, Coding.text_append, length_append, length_append]
  omega

theorem trimmed_within (cs : List Char) : trimmed cs <:+: cs :=
  (List.rdropWhile_prefix _ _).isInfix.trans (dropWhile_suffix _).isInfix

theorem biParseString_reads (cs : List Char) (reportError : Bool) (hlength : (utf8.text cs).length ≤ SIZE_MAX) :
    Reads (utf8.text cs) reportError (biParseString (utf8.text cs) reportError)
      (if trimmed cs = [] then some 0 else readLiteral (trimmed cs)) := by
  have hbody : skipSuffix (skipPrefix (utf8.text cs)) = utf8.text (trimmed cs) := by rw [skipPrefix_text, skipSuffix_text]; rfl
  have hle := length_text_le (trimmed_within cs)
  rw [biParseString, hbody]
  generalize trimmed cs = body at hle
  by_cases hnil : body = []
  · rw [if_pos hnil, hnil, Coding.text_nil]
    exact ⟨⟨0, 0, []⟩, rfl, normal_zero [] (by simp), by simp [ScrBigInt.value]⟩
  · have hne : utf8.text body ≠ [] := by
      obtain ⟨c, body, rfl⟩ := exists_cons_of_ne_nil hnil
      obtain ⟨a, tail, hcode, -⟩ := first_byte c
      rw [Coding.text_cons, hcode]
      exact cons_ne_nil _ _
    obtain ⟨hsign, hsuffix⟩ := charSign_cases body
    have hrest := length_text_le hsuffix.isInfix
    rw [if_neg hnil, if_neg hne, takeSign_text, readLiteral]
    generalize charSign body = read at hsign hrest
    obtain ⟨sign, signedInput, rest⟩ := read
    dsimp only at hsign hrest ⊢
    rw [radixDigits_text]
    cases hr : charRadix rest with
    | none => exact parseNumeral_reads _ reportError hsign 10 (by decide) (by decide) (by omega)
    | some r =>
      obtain ⟨radix, ds⟩ := r
      obtain ⟨p, rfl, hp⟩ := charRadix_eq_some.mp hr
      cases signedInput with
      | true => rfl
      | false =>
        have hds : (utf8.text ds).length ≤ (utf8.text ('0' :: p :: ds)).length := length_text_le ⟨['0', p], [], by simp⟩
        have hradix := radixOf_cases hp
        exact parseNumeral_reads _ reportError hsign radix (by omega) (by omega) (by omega)

theorem digitOf_space (h : IsSpace c.toNat) (radix : ℕ) : digitOf radix c = none := by
  have hrange : ∀ a b : Char, (IsSpace c.toNat → ¬(a.toNat ≤ c.toNat ∧ c.toNat ≤ b.toNat)) → ¬(a ≤ c ∧ c ≤ b) := fun a b hab => hab h
  have hdigit : ¬('0' ≤ c ∧ c ≤ '9') := hrange _ _ fun h => by
    rw [IsSpace] at h
    change ¬(0x30 ≤ c.toNat ∧ c.toNat ≤ 0x39)
    omega
  have hlower : ¬('a' ≤ c ∧ c ≤ 'z') := hrange _ _ fun h => by
    rw [IsSpace] at h
    change ¬(0x61 ≤ c.toNat ∧ c.toNat ≤ 0x7A)
    omega
  have hupper : ¬('A' ≤ c ∧ c ≤ 'Z') := hrange _ _ fun h => by
    rw [IsSpace] at h
    change ¬(0x41 ≤ c.toNat ∧ c.toNat ≤ 0x5A)
    omega
  rw [digitOf, digitValue, if_neg hdigit, if_neg hlower, if_neg hupper]
  rfl

theorem number_not_space {radix n : ℕ} (h : Numerals.number (digitOf radix) radix ds = some n) :
    ∀ c ∈ ds, ¬IsSpace c.toNat := by
  intro c hc hspace
  have hsome := (Numerals.ne_nil_of_number h).2 c hc
  rw [digitOf_space hspace] at hsome
  cases hsome

theorem Literal.not_space {cs : List Char} {z : ℤ} (h : Literal cs z) : cs ≠ [] ∧ ∀ c ∈ cs, ¬IsSpace c.toNat := by
  cases h with
  | unsigned hn => exact ⟨(Numerals.ne_nil_of_number hn).1, number_not_space hn⟩
  | plus hn => exact ⟨cons_ne_nil _ _, forall_mem_cons.mpr ⟨by decide, number_not_space hn⟩⟩
  | minus hn => exact ⟨cons_ne_nil _ _, forall_mem_cons.mpr ⟨by decide, number_not_space hn⟩⟩
  | radix hp hn =>
    refine ⟨cons_ne_nil _ _, forall_mem_cons.mpr ⟨by decide, forall_mem_cons.mpr ⟨?_, number_not_space hn⟩⟩⟩
    rcases radixOf_cases hp with ⟨-, rfl | rfl⟩ | ⟨-, rfl | rfl⟩ | ⟨-, rfl | rfl⟩ <;> decide

/-- White space around a text that has none. -/
theorem trimmed_eq {before cs after : List Char} (hbefore : ∀ c ∈ before, IsSpace c.toNat) (hcs : ∀ c ∈ cs, ¬IsSpace c.toNat)
    (hafter : ∀ c ∈ after, IsSpace c.toNat) : trimmed (before ++ cs ++ after) = cs := by
  have hskip : ∀ {l : List Char} (rest : List Char), (∀ c ∈ l, IsSpace c.toNat) →
      (l ++ rest).dropWhile (fun c => IsSpace c.toNat) = rest.dropWhile fun c => IsSpace c.toNat := fun _ hl =>
    dropWhile_append_of_pos fun c hc => decide_eq_true (hl c hc)
  have hkeep : ∀ {l : List Char} (rest : List Char), l ≠ [] → (∀ c ∈ l, ¬IsSpace c.toNat) →
      (l ++ rest).dropWhile (fun c => IsSpace c.toNat) = l ++ rest := by
    intro l rest hne hl
    obtain ⟨c, l, rfl⟩ := exists_cons_of_ne_nil hne
    exact dropWhile_cons_of_neg (by simpa using hl c mem_cons_self)
  rw [trimmed, append_assoc, hskip _ hbefore]
  by_cases hne : cs = []
  · have hnil := hskip [] hafter
    rw [append_nil] at hnil
    rw [hne, nil_append, hnil]
    rfl
  · have hne' : cs.reverse ≠ [] := by simpa using hne
    have hlast := hkeep [] hne' fun c hc => hcs c (mem_reverse.mp hc)
    rw [append_nil] at hlast
    rw [hkeep _ hne hcs, List.rdropWhile, reverse_append, hskip _ fun c hc => hafter c (mem_reverse.mp hc), hlast,
      reverse_reverse]

/-- What is trimmed off is white space. -/
theorem trimmed_decompose (cs : List Char) : ∃ before after, cs = before ++ trimmed cs ++ after ∧ (∀ c ∈ before, IsSpace c.toNat) ∧
    ∀ c ∈ after, IsSpace c.toNat := by
  refine ⟨cs.takeWhile fun c => IsSpace c.toNat, (cs.dropWhile fun c => IsSpace c.toNat).rtakeWhile fun c => IsSpace c.toNat, ?_,
    fun c hc => by simpa using mem_takeWhile_imp hc, fun c hc => by simpa using mem_rtakeWhile_imp hc⟩
  rw [trimmed, append_assoc, rdropWhile_append_rtakeWhile, takeWhile_append_dropWhile]

theorem stringToBigInt_iff (cs : List Char) (z : ℤ) :
    StringToBigInt cs z ↔ (if trimmed cs = [] then some 0 else readLiteral (trimmed cs)) = some z := by
  constructor
  · intro h
    cases h with
    | blank h =>
      have hnil : trimmed cs = [] := by
        have htrim : trimmed (cs ++ [] ++ []) = [] := trimmed_eq h (by simp) (by simp)
        rwa [append_nil, append_nil] at htrim
      rw [if_pos hnil]
    | literal hbefore hliteral hafter =>
      obtain ⟨hne, hspace⟩ := hliteral.not_space
      rw [trimmed_eq hbefore hspace hafter, if_neg hne]
      exact (readLiteral_iff _ z).mpr hliteral
  · intro h
    obtain ⟨before, after, heq, hbefore, hafter⟩ := trimmed_decompose cs
    split at h
    next hnil =>
      cases h
      apply StringToBigInt.blank
      rw [heq, hnil, append_nil]
      intro c hc
      exact (mem_append.mp hc).elim (hbefore c) (hafter c)
    next hne =>
      rw [heq]
      exact .literal hbefore ((readLiteral_iff _ z).mp h) hafter
/-- The parser accepts the grammar, with its values, and rejects everything else without a value. -/
theorem biParseString_grammar (cs : List Char) (reportError : Bool) (hlength : (utf8.text cs).length ≤ SIZE_MAX) :
    (∀ z, StringToBigInt cs z ↔ ∃ v, biParseString (utf8.text cs) reportError = .ok (.value v) ∧ Normal v ∧ v.value = z) ∧
      ((∀ z, ¬StringToBigInt cs z) →
        biParseString (utf8.text cs) reportError = .ok (biParseInvalid (utf8.text cs) reportError)) := by
  have hreads := biParseString_reads cs reportError hlength
  constructor
  · intro z
    rw [stringToBigInt_iff]
    constructor
    · intro h
      rwa [h] at hreads
    · rintro ⟨v, hv, -, rfl⟩
      cases hz : if trimmed cs = [] then some 0 else readLiteral (trimmed cs) with
      | none =>
        rw [hz] at hreads
        rw [show biParseString _ _ = _ from hreads] at hv
        cases hv
      | some z =>
        rw [hz] at hreads
        obtain ⟨w, hw, -, rfl⟩ := hreads
        rw [hw] at hv
        cases hv
        rfl
  · intro h
    cases hz : if trimmed cs = [] then some 0 else readLiteral (trimmed cs) with
    | none => rwa [hz] at hreads
    | some z => exact absurd ((stringToBigInt_iff cs z).mpr hz) (h z)

/-! ### Round trips -/

/-- The character of a digit. -/
def digitChar (d : ℕ) : Char := Char.ofNat (digitByte d).toNat

/-- What is checked digit by digit and radix by radix. -/
theorem digits_checked : (∀ d : Fin 36, digitValue (digitChar d) = some d.val ∧ (digitByte d).toNat < 0x80) ∧
    IsRadix (F64.ofInt 16) 16 ∧ IsRadix (F64.ofInt 8) 8 ∧ IsRadix (F64.ofInt 2) 2 ∧ IsRadix (F64.ofInt 10) 10 := by
  decide +kernel

theorem digitValue_digitChar {d : ℕ} (h : d < 36) : digitValue (digitChar d) = some d ∧ (digitByte d).toNat < 0x80 :=
  digits_checked.1 ⟨d, h⟩

theorem digitOf_digitChar {d radix : ℕ} (hd : d < radix) (h : radix ≤ 36) : digitOf radix (digitChar d) = some d := by
  rw [digitOf, (digitValue_digitChar (by omega)).1, Option.filter_some, if_pos (decide_eq_true hd)]

/-- The text of an integer as characters. -/
def integerChars (radix n : ℕ) : List Char := if n = 0 then ['0'] else (Nat.digits radix n).reverse.map digitChar

theorem number_integerChars (radix : ℕ) (h2 : 2 ≤ radix) (h36 : radix ≤ 36) (n : ℕ) :
    Numerals.number (digitOf radix) radix (integerChars radix n) = some n := by
  rw [integerChars]
  split
  next h0 =>
    have hzero : digitOf radix '0' = some 0 := digitOf_digitChar (d := 0) (by omega) h36
    rw [Numerals.number_of_ne_nil (cons_ne_nil _ _), Numerals.read, hzero, Option.bind_some, h0]
    simp [Numerals.read]
  next h0 =>
    rw [Numerals.number_of_ne_nil (by simpa using Nat.digits_ne_nil_iff_ne_zero.mpr h0),
      Numerals.read_digits (by omega) (fun d hd => digitOf_digitChar hd h36)]

theorem text_integerChars (radix n : ℕ) (h2 : 2 ≤ radix) (h36 : radix ≤ 36) :
    utf8.text (integerChars radix n) = integerText radix n := by
  have hcast : ((n : ℤ) = 0) ↔ n = 0 := by omega
  rw [integerChars, integerText]
  split
  next h0 =>
    rw [if_pos (hcast.mpr h0)]
    exact show utf8.text ([48].map Char.ofNat) = _ from text_ascii (by decide)
  next h0 =>
    have hdigits : (Nat.digits radix n).reverse.map digitChar =
        ((Nat.digits radix n).reverse.map fun d => (digitByte d).toNat).map Char.ofNat := by
      rw [map_map]
      rfl
    rw [if_neg (mt hcast.mp h0), if_neg (by omega), nil_append, Int.natAbs_natCast, numeral, hdigits, text_ascii, map_map]
    · refine map_congr_left fun d _ => ?_
      exact UInt8.ofNat_toNat
    · refine forall_mem_map.mpr fun d hd => ?_
      have hlt := Nat.digits_lt_base (by omega) (mem_reverse.mp hd)
      exact (digitValue_digitChar (by omega)).2

theorem length_integerText (radix : ℕ) {k n : ℕ} (h2 : 2 ≤ radix) (hk : 0 < k) (h : n < 2 ^ k) : (integerText radix n).length ≤ k := by
  rw [integerText]
  split
  · exact hk
  · rw [if_neg (by omega), nil_append, numeral, length_map, length_reverse, Nat.digits_length_le_iff h2]
    exact h.trans_le (Nat.pow_le_pow_left h2 k)

theorem StringToBigInt.of_literal {cs : List Char} {z : ℤ} (h : Literal cs z) : StringToBigInt cs z := by
  have hwhole : StringToBigInt ([] ++ cs ++ []) z := .literal (by simp) h (by simp)
  rwa [nil_append, append_nil] at hwhole

/-- The decimal text of an integer is a literal of it. -/
theorem decimal_literal (z : ℤ) : ∃ cs, utf8.text cs = integerText 10 z ∧
    (utf8.text cs).length ≤ (integerText 10 z.natAbs).length + 1 ∧ Literal cs z := by
  have hnumber := number_integerChars 10 (by decide) (by decide) z.natAbs
  have htext := text_integerChars 10 z.natAbs (by decide) (by decide)
  have hdash : utf8.code '-' = [0x2d] := code_ascii (n := 45) (by decide)
  by_cases hz : z < 0
  · refine ⟨'-' :: integerChars 10 z.natAbs, ?_, ?_, ?_⟩
    · rw [Coding.text_cons, htext, hdash, integerText, integerText, if_neg (by omega), if_neg (by omega), if_neg (by omega), if_pos hz,
        Int.natAbs_natCast]
      rfl
    · rw [Coding.text_cons, htext, hdash, length_append, Nat.add_comm]
      rfl
    · have hminus := Literal.minus hnumber
      rwa [show -(z.natAbs : ℤ) = z by omega] at hminus
  · refine ⟨integerChars 10 z.natAbs, ?_, by rw [htext]; omega, ?_⟩
    · rw [htext, show (z.natAbs : ℤ) = z by omega]
    · have hplus := Literal.unsigned hnumber
      rwa [show (z.natAbs : ℤ) = z by omega] at hplus

theorem isRadix_of_radixOf {p : Char} (h : radixOf p = some radix) : IsRadix (F64.ofInt radix) radix := by
  rcases radixOf_cases h with ⟨rfl, -⟩ | ⟨rfl, -⟩ | ⟨rfl, -⟩
  · exact digits_checked.2.1
  · exact digits_checked.2.2.1
  · exact digits_checked.2.2.2.1

/-- A value without its sign. -/
def ScrBigInt.abs (v : ScrBigInt) : ScrBigInt := { v with sign := |v.sign| }

theorem Normal.abs {v : ScrBigInt} (h : Normal v) : Normal v.abs ∧ v.abs.value = |v.value| := by
  refine ⟨⟨⟨h.len_le, h.limb_lt⟩, ?_, ?_, h.top⟩, ?_⟩
  · rcases h.sign_cases with hs | hs | hs <;> simp [ScrBigInt.abs, hs]
  · exact abs_eq_zero.trans h.sign_iff
  · rw [ScrBigInt.value, ScrBigInt.value, abs_mul, Nat.abs_cast]
    rfl

/-- Rendering and parsing. A value of more bits than a `size_t` counts, less two, has no text: there the
program ends. -/
theorem bigint_text :
    (∀ v, Normal v → v.mag < 2 ^ (SIZE_MAX - 2) →
      ∃ t r, scrBigintToString v (F64.ofInt 10) = .ok t ∧ scrBigintParse t = .ok (.value r) ∧ Normal r ∧ r.value = v.value) ∧
    (∀ v p radix, Normal v → v.mag < 2 ^ (SIZE_MAX - 2) → radixOf p = some radix →
      ∃ t r, scrBigintToString v.abs (F64.ofInt radix) = .ok t ∧ scrBigintParse (utf8.text ['0', p] ++ t) = .ok (.value r) ∧
        Normal r ∧ r.value = |v.value|) ∧
    (∀ v radixValue radix, Normal v → 2 ^ (SIZE_MAX - 2) ≤ v.mag → IsRadix radixValue radix →
      scrBigintToString v radixValue = .error .outOfMemory) ∧
    ∀ cs reportError, (utf8.text cs).length ≤ SIZE_MAX →
      (∀ z, StringToBigInt cs z ↔ ∃ r, biParseString (utf8.text cs) reportError = .ok (.value r) ∧ Normal r ∧ r.value = z) ∧
        ((∀ z, ¬StringToBigInt cs z) →
          biParseString (utf8.text cs) reportError = .ok (biParseInvalid (utf8.text cs) reportError)) := by
  refine ⟨fun v hv hlt => ?_, fun v p radix hv hlt hp => ?_, fun v radixValue radix hv hle hr => (scrBigintToString_eq hv hr).2 hle,
    biParseString_grammar⟩
  · obtain ⟨cs, htext, hle, hliteral⟩ := decimal_literal v.value
    rw [hv.natAbs_value] at hle
    have hlength := length_integerText 10 (by decide) (by decide) hlt
    have hsize : 2 ≤ SIZE_MAX := by decide
    obtain ⟨r, hr, hnormal, hvalue⟩ := ((biParseString_grammar cs true (by omega)).1 v.value).mp (.of_literal hliteral)
    exact ⟨integerText 10 v.value, r, (scrBigintToString_eq hv digits_checked.2.2.2.2).1 hlt, by rw [← htext]; exact hr, hnormal, hvalue⟩
  · obtain ⟨hnormal', habs⟩ := hv.abs
    have hvalue : v.abs.value = (v.mag : ℤ) := by
      rw [habs, ← hv.natAbs_value]
      exact (Int.natCast_natAbs v.value).symm
    have hradix := radixOf_cases hp
    have hnumber := number_integerChars radix (by omega) (by omega) v.mag
    have htext := text_integerChars radix v.mag (by omega) (by omega)
    have hlength := length_integerText radix (by omega) (by decide) hlt
    have hsize : 2 ≤ SIZE_MAX := by decide
    have hprefix : (utf8.text ['0', p]).length = 2 := by
      rcases hradix with ⟨-, rfl | rfl⟩ | ⟨-, rfl | rfl⟩ | ⟨-, rfl | rfl⟩ <;> rfl
    have hwhole : utf8.text ('0' :: p :: integerChars radix v.mag) = utf8.text ['0', p] ++ integerText radix v.mag := by
      rw [← htext, ← Coding.text_append]
      rfl
    obtain ⟨r, hr, hnormal, hrvalue⟩ := ((biParseString_grammar ('0' :: p :: integerChars radix v.mag) true (by
      rw [hwhole, length_append, hprefix]
      omega)).1 v.mag).mp (.of_literal (.radix hp hnumber))
    refine ⟨integerText radix v.mag, r, ?_, by rw [← hwhole]; exact hr, hnormal, by rw [hrvalue, ← hvalue, habs]⟩
    have hrender := (scrBigintToString_eq hnormal' (isRadix_of_radixOf hp)).1 hlt
    rwa [hvalue] at hrender

theorem bigint_text_five :
    let v : ScrBigInt := ⟨1, -1, [5]⟩
    (∃ t r, scrBigintToString v (F64.ofInt 10) = .ok t ∧ scrBigintParse t = .ok (.value r) ∧ Normal r ∧ r.value = v.value) ∧
      (∃ t r, scrBigintToString v.abs (F64.ofInt 2) = .ok t ∧ scrBigintParse (utf8.text ['0', 'b'] ++ t) = .ok (.value r) ∧
        Normal r ∧ r.value = |v.value|) ∧
      ∃ r, biParseString (utf8.text [' ', '-', '7', '\n']) false = .ok (.value r) ∧ Normal r ∧ r.value = -7 := by
  intro v
  have hnormal : Normal v := ⟨⟨by decide, by decide⟩, by decide, by decide, fun n hn => by
    obtain rfl : n = 0 := by
      have hn : 1 = n + 1 := hn
      omega
    decide⟩
  have hlt : v.mag < 2 ^ (SIZE_MAX - 2) := (show v.mag < 2 ^ 3 by decide).trans_le (Nat.pow_le_pow_right (by decide) (by decide))
  have htext : StringToBigInt [' ', '-', '7', '\n'] (-7) :=
    show StringToBigInt ([' '] ++ ['-', '7'] ++ ['\n']) (-((7 : ℕ) : ℤ)) from .literal (by decide) (.minus (by decide)) (by decide)
  exact ⟨bigint_text.1 v hnormal hlt, bigint_text.2.1 v 'b' 2 hnormal hlt rfl,
    ((bigint_text.2.2.2 [' ', '-', '7', '\n'] false (by decide +kernel)).1 (-7)).mp htext⟩

end Scriptc.Runtime.BigInt
