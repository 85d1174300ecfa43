import Scriptc.RuntimeRust.BytesEncoding
import Mathlib.Tactic.IntervalCases

/-!
# URI escapes

`encode_uri` and `decode_uri_try` of `strings_and_process.rs`. Both read a string as UTF-8, and decoding
writes bytes that are read as UTF-8 again. What decoding is for is said of units (`Decodes`): a sequence of
escapes becomes the character whose bytes it spells, and every other unit stays.
-/

namespace Scriptc.RuntimeRust.UriCoding

open List

open Decoder (Units chars toUtf8Lossy forall_uint8)
open scoped Scriptc.Utf16

/-! ### Encoding -/

def isReserved (byte : UInt8) : Bool :=
  byte ∈ ([0x3b, 0x2f, 0x3f, 0x3a, 0x40, 0x26, 0x3d, 0x2b, 0x24, 0x2c, 0x23] : List UInt8)

def isAlphanumeric (byte : UInt8) : Bool :=
  0x30 ≤ byte ∧ byte ≤ 0x39 ∨ 0x41 ≤ byte ∧ byte ≤ 0x5a ∨ 0x61 ≤ byte ∧ byte ≤ 0x7a

def uriUnescaped (byte : UInt8) (keepReserved : Bool) : Bool :=
  isAlphanumeric byte || byte ∈ ([0x2d, 0x5f, 0x2e, 0x21, 0x7e, 0x2a, 0x27, 0x28, 0x29] : List UInt8) ||
    (keepReserved && isReserved byte)

def isWellFormed (value : Units) : Bool := (Utf16.decode value).all Sum.isLeft

/-- The byte of a digit in `0123456789ABCDEF`. -/
def hexDigit (n : UInt8) : UInt8 := if n < 10 then 0x30 + n else 0x37 + n

/-- What is pushed for a byte. -/
def encodeByte (keepReserved : Bool) (byte : UInt8) : Bytes :=
  if uriUnescaped byte keepReserved then [byte] else [0x25, hexDigit (byte >>> 4), hexDigit (byte &&& 0x0f)]

/-- A string whose encoding ends in `None` throws; so does `expect` if it ever met bytes that are not UTF-8. -/
def encodeUri (value : Units) (keepReserved : Bool) : Option Units :=
  if !isWellFormed value then none
  else if (toUtf8Lossy value).all (uriUnescaped · keepReserved) then some value
  else
    (fromUtf8 ((toUtf8Lossy value).flatMap (encodeByte keepReserved))).map utf16.text

/-! ### Decoding -/

def uriHexNibble (byte : UInt8) : Option UInt8 :=
  if 0x30 ≤ byte ∧ byte ≤ 0x39 then some (byte - 0x30)
  else if 0x41 ≤ byte ∧ byte ≤ 0x46 then some (byte - 0x41 + 10)
  else if 0x61 ≤ byte ∧ byte ≤ 0x66 then some (byte - 0x61 + 10)
  else none

/-- The byte of an escape, and what comes after it. -/
def uriHexByte : Bytes → Option (UInt8 × Bytes)
  | percent :: high :: low :: rest =>
    if percent = 0x25 then do
      let high ← uriHexNibble high
      let low ← uriHexNibble low
      return (high <<< 4 ||| low, rest)
    else none
  | _ => none

/-- How many bytes go on a leading one, and where the first of them lies. -/
def continuations (leading : UInt8) : Option (ℕ × UInt8 × UInt8) :=
  if 0xc2 ≤ leading ∧ leading ≤ 0xdf then some (1, 0x80, 0xbf)
  else if leading = 0xe0 then some (2, 0xa0, 0xbf)
  else if 0xe1 ≤ leading ∧ leading ≤ 0xec ∨ 0xee ≤ leading ∧ leading ≤ 0xef then some (2, 0x80, 0xbf)
  else if leading = 0xed then some (2, 0x80, 0x9f)
  else if leading = 0xf0 then some (3, 0x90, 0xbf)
  else if 0xf1 ≤ leading ∧ leading ≤ 0xf3 then some (3, 0x80, 0xbf)
  else if leading = 0xf4 then some (3, 0x80, 0x8f)
  else none

def takeContinuations : ℕ → UInt8 → UInt8 → Bytes → Option (Bytes × Bytes)
  | 0, _, _, bytes => some ([], bytes)
  | count + 1, low, high, bytes => do
    let (continuation, rest) ← uriHexByte bytes
    if low ≤ continuation ∧ continuation ≤ high then
      let (more, rest) ← takeContinuations count 0x80 0xbf rest
      return (continuation :: more, rest)
    else none

/-- What is pushed for the escapes of one character, and what comes after them. -/
def decodeSequence (keepReserved : Bool) (bytes : Bytes) : Option (Bytes × Bytes) := do
  let (leading, rest) ← uriHexByte bytes
  if leading < 0x80 then
    return (if keepReserved && isReserved leading then bytes.take 3 else [leading], rest)
  else
    let (count, low, high) ← continuations leading
    let (more, rest) ← takeContinuations count low high rest
    return (leading :: more, rest)

theorem uriHexByte_eq_some {bytes rest : Bytes} {byte : UInt8} :
    uriHexByte bytes = some (byte, rest) ↔ ∃ high low h l, bytes = 0x25 :: high :: low :: rest ∧
      uriHexNibble high = some h ∧ uriHexNibble low = some l ∧ byte = h <<< 4 ||| l := by
  constructor
  · intro hbyte
    rcases bytes with _ | ⟨percent, _ | ⟨high, _ | ⟨low, tail⟩⟩⟩ <;> simp only [uriHexByte, reduceCtorEq] at hbyte
    split_ifs at hbyte with hp
    simp only [Option.bind_eq_bind, Option.bind_eq_some_iff] at hbyte
    obtain ⟨h, hh, l, hl, heq⟩ := hbyte
    cases heq
    exact ⟨high, low, h, l, by rw [hp], hh, hl, rfl⟩
  · rintro ⟨high, low, h, l, rfl, hh, hl, rfl⟩
    simp [uriHexByte, hh, hl]

variable {bytes out rest : Bytes} {count : ℕ} {low high : UInt8}

theorem takeContinuations_succ :
    takeContinuations (count + 1) low high bytes = some (out, rest) ↔ ∃ continuation more middle,
      uriHexByte bytes = some (continuation, middle) ∧ (low ≤ continuation ∧ continuation ≤ high) ∧
      takeContinuations count 0x80 0xbf middle = some (more, rest) ∧ out = continuation :: more := by
  simp only [takeContinuations, Option.bind_eq_bind, Option.bind_eq_some_iff]
  constructor
  · rintro ⟨⟨continuation, middle⟩, hbyte, h⟩
    split_ifs at h with hrange
    simp only [Option.bind_eq_some_iff] at h
    obtain ⟨⟨more, _⟩, hmore, h⟩ := h
    cases h
    exact ⟨continuation, more, middle, hbyte, hrange, hmore, rfl⟩
  · rintro ⟨continuation, more, middle, hbyte, hrange, hmore, rfl⟩
    exact ⟨_, hbyte, by simp [hrange, hmore]⟩

variable {keepReserved : Bool}

theorem decodeSequence_eq_some :
    decodeSequence keepReserved bytes = some (out, rest) ↔
      (∃ leading, uriHexByte bytes = some (leading, rest) ∧ leading < 0x80 ∧
        out = if keepReserved && isReserved leading then bytes.take 3 else [leading]) ∨
      ∃ leading middle count low high more, uriHexByte bytes = some (leading, middle) ∧ ¬ leading < 0x80 ∧
        continuations leading = some (count, low, high) ∧ takeContinuations count low high middle = some (more, rest) ∧
        out = leading :: more := by
  simp only [decodeSequence, Option.bind_eq_bind, Option.bind_eq_some_iff]
  constructor
  · rintro ⟨⟨leading, middle⟩, hbyte, h⟩
    by_cases hlow : leading < 0x80
    · rw [if_pos hlow] at h
      cases h
      exact .inl ⟨leading, hbyte, hlow, rfl⟩
    · simp only [if_neg hlow, Option.bind_eq_some_iff] at h
      obtain ⟨⟨count, low, high⟩, hcount, ⟨more, _⟩, hmore, h⟩ := h
      cases h
      exact .inr ⟨leading, middle, count, low, high, more, hbyte, hlow, hcount, hmore, rfl⟩
  · rintro (⟨leading, hbyte, hlow, rfl⟩ | ⟨leading, middle, count, low, high, more, hbyte, hlow, hcount, hmore, rfl⟩)
    · exact ⟨_, hbyte, by rw [if_pos hlow]; rfl⟩
    · exact ⟨_, hbyte, by simp [hlow, hcount, hmore]⟩

theorem takeContinuations_length {bytes more rest : Bytes}
    (h : takeContinuations count low high bytes = some (more, rest)) : rest.length ≤ bytes.length := by
  induction count generalizing low high bytes more with
  | zero =>
    cases h
    exact le_rfl
  | succ count ih =>
    obtain ⟨_, more, middle, hbyte, -, hmore, -⟩ := takeContinuations_succ.mp h
    obtain ⟨_, _, _, _, rfl, -⟩ := uriHexByte_eq_some.mp hbyte
    have := ih hmore
    simp only [length_cons]
    omega

theorem decodeSequence_length
    (h : decodeSequence keepReserved bytes = some (out, rest)) : rest.length < bytes.length := by
  rcases decodeSequence_eq_some.mp h with ⟨_, hbyte, -⟩ | ⟨_, middle, _, _, _, _, hbyte, -, -, hmore, -⟩
  · obtain ⟨_, _, _, _, rfl, -⟩ := uriHexByte_eq_some.mp hbyte
    simp only [length_cons]
    omega
  · have := takeContinuations_length hmore
    obtain ⟨_, _, _, _, rfl, -⟩ := uriHexByte_eq_some.mp hbyte
    simp only [length_cons]
    omega

/-- The loop over the bytes that are left. -/
def decodeLoop (keepReserved : Bool) : Bytes → Option Bytes
  | [] => some []
  | byte :: bytes =>
    if byte = 0x25 then
      match _h : decodeSequence keepReserved (byte :: bytes) with
      | none => none
      | some (out, rest) => (decodeLoop keepReserved rest).map (out ++ ·)
    else (decodeLoop keepReserved bytes).map (byte :: ·)
termination_by bytes => bytes.length
decreasing_by
  · exact decodeSequence_length _h
  · exact Nat.lt_succ_self _

def decodeUriTry (value : Units) (keepReserved : Bool) : Option Units :=
  (decodeLoop keepReserved (toUtf8Lossy value)).bind fun decoded => (fromUtf8 decoded).map utf16.text

/-! ### What decoding is for -/

/-- A digit of a number below sixteen. -/
def IsHexDigit (c : Char) (n : ℕ) : Prop := "0123456789abcdef".toList[n]? = some c ∨ "0123456789ABCDEF".toList[n]? = some c

/-- Escapes that spell some bytes. -/
inductive Spells : List Char → Bytes → Prop
  | nil : Spells [] []
  | escape {high low : Char} {h l : ℕ} {cs : List Char} {bytes : Bytes} : IsHexDigit high h → IsHexDigit low l →
      Spells cs bytes → Spells ('%' :: high :: low :: cs) (UInt8.ofNat (16 * h + l) :: bytes)

/-- A character that `decodeURI` does not decode. -/
def Reserved (c : Char) : Prop := c ∈ ";/?:@&=+$,#".toList

variable {α : Type}

/-- **Decoding.** A code that is not that of `%` stays, and escapes that spell the bytes of a character become
it, unless it is reserved. -/
inductive Decodes (E : Coding α) (keepReserved : Bool) : List α → List α → Prop
  | nil : Decodes E keepReserved [] []
  | keep {x : α} {xs ys : List α} : E.code '%' ≠ [x] → Decodes E keepReserved xs ys → Decodes E keepReserved (x :: xs) (x :: ys)
  | replace {cs : List Char} {c : Char} {xs ys : List α} : Spells cs (utf8.code c) → ¬ (keepReserved = true ∧ Reserved c) →
      Decodes E keepReserved xs ys → Decodes E keepReserved (E.text cs ++ xs) (E.code c ++ ys)
  | reserve {cs : List Char} {c : Char} {xs ys : List α} : Spells cs (utf8.code c) → keepReserved = true → Reserved c →
      Decodes E keepReserved xs ys → Decodes E keepReserved (E.text cs ++ xs) (E.text cs ++ ys)

instance (c : Char) (n : ℕ) : Decidable (IsHexDigit c n) := inferInstanceAs (Decidable (_ ∨ _))

instance (c : Char) : Decidable (Reserved c) := inferInstanceAs (Decidable (_ ∈ _))

/-! ### Escapes in bytes -/

variable {c : Char}

theorem IsHexDigit.nibble {n : ℕ} (h : IsHexDigit c n) :
    n < 16 ∧ c.toNat < 0x80 ∧ uriHexNibble (UInt8.ofNat c.toNat) = some (UInt8.ofNat n) := by
  have hn : n < 16 := by
    rcases h with h | h <;> exact (List.getElem?_eq_some_iff.mp h).1
  rcases h with h | h <;> interval_cases n <;> cases h <;> decide

theorem nibble_digit (b : UInt8) : ∀ n ∈ uriHexNibble b, b.toNat < 0x80 ∧ IsHexDigit (Char.ofNat b.toNat) n.toNat := by
  have hall : ∀ n < 0x80, ∀ d ∈ uriHexNibble (UInt8.ofNat n), IsHexDigit (Char.ofNat n) d.toNat := by decide +kernel
  intro n hn
  have hb : b.toNat < 0x80 := by
    simp only [uriHexNibble, UInt8.le_iff_toNat_le, UInt8.reduceToNat] at hn
    by_contra hb
    rw [if_neg (by omega), if_neg (by omega), if_neg (by omega)] at hn
    cases hn
  have hdigit := hall b.toNat hb
  rw [UInt8.ofNat_toNat] at hdigit
  exact ⟨hb, hdigit n hn⟩

theorem nibbles_or (h : ℕ) (hh : h < 16) (l : ℕ) (hl : l < 16) : UInt8.ofNat h <<< 4 ||| UInt8.ofNat l = UInt8.ofNat (16 * h + l) := by
  have hhigh : (UInt8.ofNat h).toNat = h := UInt8.toNat_ofNat_of_lt' (show h < 256 by omega)
  have hlow : (UInt8.ofNat l).toNat = l := UInt8.toNat_ofNat_of_lt' (show l < 256 by omega)
  have hor : (UInt8.ofNat h <<< 4 ||| UInt8.ofNat l).toNat = (UInt8.ofNat h).toNat % 16 * 16 + (UInt8.ofNat l).toNat :=
    Decoder.toNat_shiftLeft_or (k := 4) (by decide) _ (show _ < 16 by omega)
  rw [← UInt8.toNat_inj, hor, UInt8.toNat_ofNat_of_lt' (show 16 * h + l < 256 by omega), hhigh, hlow]
  omega

theorem code_single (h : c.toNat < 0x80) : utf8.code c = [UInt8.ofNat c.toNat] := by
  rw [← code_ascii h, Char.ofNat_toNat]

theorem uriHexByte_iff {bytes rest : Bytes} {byte : UInt8} :
    uriHexByte bytes = some (byte, rest) ↔ ∃ cs, Spells cs [byte] ∧ bytes = utf8.text cs ++ rest := by
  rw [uriHexByte_eq_some]
  constructor
  · rintro ⟨high, low, h, l, rfl, hh, hl, rfl⟩
    obtain ⟨hhigh, hh⟩ := nibble_digit high h hh
    obtain ⟨hlow, hl⟩ := nibble_digit low l hl
    have hvalue : h <<< 4 ||| l = UInt8.ofNat (16 * h.toNat + l.toNat) := by
      rw [← nibbles_or _ hh.nibble.1 _ hl.nibble.1, UInt8.ofNat_toNat, UInt8.ofNat_toNat]
    refine ⟨['%', Char.ofNat high.toNat, Char.ofNat low.toNat], by rw [hvalue]; exact .escape hh hl .nil, ?_⟩
    simp only [Coding.text_cons, Coding.text_nil, code_ascii hhigh, code_ascii hlow, UInt8.ofNat_toNat]
    rfl
  · rintro ⟨cs, hspells, rfl⟩
    cases hspells with
    | @escape high low h l cs _ hh hl hrest =>
      cases hrest
      obtain ⟨hh16, hhigh, hh⟩ := hh.nibble
      obtain ⟨hl16, hlow, hl⟩ := hl.nibble
      refine ⟨_, _, _, _, ?_, hh, hl, (nibbles_or h hh16 l hl16).symm⟩
      simp only [Coding.text_cons, Coding.text_nil, code_single hhigh, code_single hlow]
      rfl

theorem Spells.append {cs ds : List Char} {bs bytes : Bytes} (h : Spells cs bs) (h' : Spells ds bytes) :
    Spells (cs ++ ds) (bs ++ bytes) := by
  induction h with
  | nil => exact h'
  | escape hh hl _ ih => exact .escape hh hl ih

variable {cs : List Char} {bytes : Bytes}

theorem Spells.cons {b : UInt8} (h : Spells cs (b :: bytes)) :
    ∃ ds es, cs = ds ++ es ∧ Spells ds [b] ∧ Spells es bytes := by
  cases h with
  | escape hh hl h => exact ⟨_, _, rfl, .escape hh hl .nil, h⟩

/-- Bytes that go on a leading one, the first of them in a range. -/
def Continues : ℕ → UInt8 → UInt8 → Bytes → Prop
  | 0, _, _, bytes => bytes = []
  | count + 1, low, high, bytes => ∃ b more, bytes = b :: more ∧ (low ≤ b ∧ b ≤ high) ∧ Continues count 0x80 0xbf more

theorem takeContinuations_iff {bytes more rest : Bytes} :
    takeContinuations count low high bytes = some (more, rest) ↔
      Continues count low high more ∧ ∃ cs, Spells cs more ∧ bytes = utf8.text cs ++ rest := by
  induction count generalizing low high bytes more with
  | zero =>
    constructor
    · intro h
      cases h
      exact ⟨rfl, [], .nil, rfl⟩
    · rintro ⟨rfl, cs, hspells, rfl⟩
      cases hspells
      rfl
  | succ count ih =>
    rw [takeContinuations_succ]
    constructor
    · rintro ⟨b, more, middle, hbyte, hrange, hmore, rfl⟩
      obtain ⟨ds, hds, rfl⟩ := uriHexByte_iff.mp hbyte
      obtain ⟨hcont, es, hes, rfl⟩ := ih.mp hmore
      exact ⟨⟨b, more, rfl, hrange, hcont⟩, ds ++ es, hds.append hes, by rw [Coding.text_append, append_assoc]⟩
    · rintro ⟨⟨b, more, rfl, hrange, hcont⟩, cs, hspells, rfl⟩
      obtain ⟨ds, es, rfl, hds, hes⟩ := hspells.cons
      exact ⟨b, more, utf8.text es ++ rest, uriHexByte_iff.mpr ⟨ds, hds, by rw [Coding.text_append, append_assoc]⟩, hrange,
        ih.mpr ⟨hcont, es, hes, rfl⟩, rfl⟩

theorem Bytes8.unique {n : ℕ} {as bs : Bytes} (ha : Bytes8 n as) (hb : Bytes8 n bs) : as = bs := by
  cases ha <;> cases hb <;> simp only [List.cons.injEq, ← UInt8.toNat_inj, and_true, reduceCtorEq] <;> omega

/-- The ranges, as numbers. -/
theorem continuations_eq_some {leading low high : UInt8} :
    continuations leading = some (count, low, high) ↔
      count = 1 ∧ low.toNat = 0x80 ∧ high.toNat = 0xbf ∧ 0xc2 ≤ leading.toNat ∧ leading.toNat ≤ 0xdf ∨
      count = 2 ∧ low.toNat = (if leading.toNat = 0xe0 then 0xa0 else 0x80) ∧
        high.toNat = (if leading.toNat = 0xed then 0x9f else 0xbf) ∧ 0xe0 ≤ leading.toNat ∧ leading.toNat ≤ 0xef ∨
      count = 3 ∧ low.toNat = (if leading.toNat = 0xf0 then 0x90 else 0x80) ∧
        high.toNat = (if leading.toNat = 0xf4 then 0x8f else 0xbf) ∧ 0xf0 ≤ leading.toNat ∧ leading.toNat ≤ 0xf4 := by
  simp only [continuations, UInt8.le_iff_toNat_le, ← UInt8.toNat_inj, UInt8.reduceToNat]
  split_ifs <;> simp [← UInt8.toNat_inj] <;> omega

/-- **The ranges leave exactly the bytes of a character.** -/
theorem continues_iff {leading : UInt8} (h : ¬ leading < 0x80) (more : Bytes) :
    (∃ count low high, continuations leading = some (count, low, high) ∧ Continues count low high more) ↔
      ∃ c, utf8.code c = leading :: more := by
  have hofNat : ∀ n bytes, (n < 0xD800 ∨ 0xDFFF < n ∧ n < 0x110000) → Bytes8 n bytes → ∃ c, utf8.code c = bytes := by
    intro n bytes hn hbytes
    refine ⟨Char.ofNat n, Bytes8.unique (n := n) ?_ hbytes⟩
    have hcode := bytes8_code (Char.ofNat n)
    rwa [Utf16.toNat_ofNat_char hn] at hcode
  constructor
  · rintro ⟨count, low, high, hcount, hcont⟩
    rcases continuations_eq_some.mp hcount with ⟨rfl, hlow, hhigh, h1, h2⟩ | ⟨rfl, hlow, hhigh, h1, h2⟩ | ⟨rfl, hlow, hhigh, h1, h2⟩
    · obtain ⟨a, _, rfl, ⟨ha, ha'⟩, rfl⟩ := hcont
      simp only [UInt8.le_iff_toNat_le] at ha ha'
      exact hofNat ((leading.toNat - 0xc0) * 64 + (a.toNat - 0x80)) _ (by omega)
        (.two (by omega) (by omega) (by omega) (by omega))
    · obtain ⟨a, _, rfl, ⟨ha, ha'⟩, b, _, rfl, ⟨hb, hb'⟩, rfl⟩ := hcont
      simp only [UInt8.le_iff_toNat_le, UInt8.reduceToNat] at ha ha' hb hb'
      split_ifs at hlow hhigh <;>
      exact hofNat ((leading.toNat - 0xe0) * 4096 + (a.toNat - 0x80) * 64 + (b.toNat - 0x80)) _ (by omega)
        (.three (by omega) (by omega) (by omega) (by omega) (by omega))
    · obtain ⟨a, _, rfl, ⟨ha, ha'⟩, b, _, rfl, ⟨hb, hb'⟩, c, _, rfl, ⟨hc, hc'⟩, rfl⟩ := hcont
      simp only [UInt8.le_iff_toNat_le, UInt8.reduceToNat] at ha ha' hb hb' hc hc'
      split_ifs at hlow hhigh <;>
      exact hofNat ((leading.toNat - 0xf0) * 262144 + (a.toNat - 0x80) * 4096 + (b.toNat - 0x80) * 64 + (c.toNat - 0x80)) _
        (by omega) (.four (by omega) (by omega) (by omega) (by omega) (by omega) (by omega))
  · rintro ⟨c, hc⟩
    have hbytes := bytes8_code c
    have hvalid := toNat_char c
    have h80 : ¬ leading.toNat < 0x80 := h
    rw [hc] at hbytes
    have hofNat8 : ∀ n : ℕ, n < 256 → (UInt8.ofNat n).toNat = n := fun n hn => UInt8.toNat_ofNat_of_lt' hn
    cases hbytes with
    | one ha hlt => omega
    | @two _ a hl ha hlo hhi =>
      refine ⟨1, 0x80, 0xbf, continuations_eq_some.mpr (.inl ⟨rfl, rfl, rfl, by omega, by omega⟩), a, [], rfl, ?_, rfl⟩
      simp only [UInt8.le_iff_toNat_le, UInt8.reduceToNat]
      omega
    | @three _ a b hl ha hb hlo hhi =>
      refine ⟨2, UInt8.ofNat (if leading.toNat = 0xe0 then 0xa0 else 0x80), UInt8.ofNat (if leading.toNat = 0xed then 0x9f else 0xbf),
        continuations_eq_some.mpr (.inr (.inl ⟨rfl, hofNat8 _ (by split_ifs <;> omega), hofNat8 _ (by split_ifs <;> omega),
          by omega, by omega⟩)), a, [b], rfl, ?_, b, [], rfl, ?_, rfl⟩
      · rw [UInt8.le_iff_toNat_le, UInt8.le_iff_toNat_le, hofNat8 _ (by split_ifs <;> omega), hofNat8 _ (by split_ifs <;> omega)]
        split_ifs <;> omega
      · simp only [UInt8.le_iff_toNat_le, UInt8.reduceToNat]
        omega
    | @four _ a b d hl ha hb hd hlo hhi =>
      refine ⟨3, UInt8.ofNat (if leading.toNat = 0xf0 then 0x90 else 0x80), UInt8.ofNat (if leading.toNat = 0xf4 then 0x8f else 0xbf),
        continuations_eq_some.mpr (.inr (.inr ⟨rfl, hofNat8 _ (by split_ifs <;> omega), hofNat8 _ (by split_ifs <;> omega),
          by omega, by omega⟩)), a, [b, d], rfl, ?_, b, [d], rfl, ?_, d, [], rfl, ?_, rfl⟩
      · rw [UInt8.le_iff_toNat_le, UInt8.le_iff_toNat_le, hofNat8 _ (by split_ifs <;> omega), hofNat8 _ (by split_ifs <;> omega)]
        split_ifs <;> omega
      all_goals
        simp only [UInt8.le_iff_toNat_le, UInt8.reduceToNat]
        omega

theorem Spells.ne_nil (h : Spells cs bytes) (hb : bytes ≠ []) : ∃ ds, cs = '%' :: ds := by
  cases h with
  | nil => exact absurd rfl hb
  | escape => exact ⟨_, rfl⟩

theorem isReserved_iff (h : c.toNat < 0x80) : isReserved (UInt8.ofNat c.toNat) = true ↔ Reserved c := by
  have hall : ∀ n : Fin 128, isReserved (UInt8.ofNat n) = true ↔ Reserved (Char.ofNat n) := by decide +kernel
  have hc := hall ⟨c.toNat, h⟩
  rwa [Char.ofNat_toNat] at hc

theorem not_reserved (h : ¬ c.toNat < 0x80) : ¬ Reserved c := by
  have hall : ∀ d ∈ ";/?:@&=+$,#".toList, d.toNat < 0x80 := by decide
  exact fun hc => h (hall c hc)

/-- The escapes of a character are decoded to its bytes or stay. -/
theorem decodeSequence_iff :
    decodeSequence keepReserved bytes = some (out, rest) ↔ ∃ cs c, Spells cs (utf8.code c) ∧ bytes = utf8.text cs ++ rest ∧
      out = if keepReserved = true ∧ Reserved c then utf8.text cs else utf8.code c := by
  rw [decodeSequence_eq_some]
  constructor
  · rintro (⟨leading, hbyte, hlow, rfl⟩ | ⟨leading, middle, count, low, high, more, hbyte, hlow, hcount, hmore, rfl⟩)
    · have hlow : leading.toNat < 0x80 := hlow
      have htoNat : (Char.ofNat leading.toNat).toNat = leading.toNat := Utf16.toNat_ofNat_char (.inl (by omega))
      have hcode := code_ascii hlow
      have hreserved := isReserved_iff (c := Char.ofNat leading.toNat) (by omega)
      rw [UInt8.ofNat_toNat] at hcode
      rw [htoNat, UInt8.ofNat_toNat] at hreserved
      obtain ⟨cs, hspells, rfl⟩ := uriHexByte_iff.mp hbyte
      refine ⟨cs, Char.ofNat leading.toNat, by rwa [hcode], rfl, ?_⟩
      have htake : (utf8.text cs ++ rest).take 3 = utf8.text cs := by
        obtain ⟨_, _, _, _, heq, -⟩ := uriHexByte_eq_some.mp hbyte
        have hlength := congrArg List.length heq
        rw [length_append, length_cons, length_cons, length_cons] at hlength
        exact take_left' (by omega)
      rw [htake, hcode]
      simp only [Bool.and_eq_true, hreserved]
    · obtain ⟨ds, hds, rfl⟩ := uriHexByte_iff.mp hbyte
      obtain ⟨hcont, es, hes, rfl⟩ := takeContinuations_iff.mp hmore
      obtain ⟨c, hc⟩ := (continues_iff hlow more).mp ⟨count, low, high, hcount, hcont⟩
      refine ⟨ds ++ es, c, by rw [hc]; exact hds.append hes, by rw [Coding.text_append, append_assoc], ?_⟩
      rw [if_neg, hc]
      rintro ⟨-, hr⟩
      refine not_reserved (fun hlt => hlow ?_) hr
      rw [code_single hlt] at hc
      cases hc
      rw [UInt8.lt_iff_toNat_lt, UInt8.toNat_ofNat_of_lt' (hlt.trans (by decide))]
      exact hlt
  · rintro ⟨cs, c, hspells, rfl, rfl⟩
    by_cases hc : c.toNat < 0x80
    · rw [code_single hc] at hspells ⊢
      have hbyte : uriHexByte (utf8.text cs ++ rest) = some (UInt8.ofNat c.toNat, rest) := uriHexByte_iff.mpr ⟨cs, hspells, rfl⟩
      refine .inl ⟨_, hbyte, ?_, ?_⟩
      · rw [UInt8.lt_iff_toNat_lt, UInt8.toNat_ofNat_of_lt' (hc.trans (by decide))]
        exact hc
      · obtain ⟨_, _, _, _, heq, -⟩ := uriHexByte_eq_some.mp hbyte
        have hlength := congrArg List.length heq
        rw [length_append, length_cons, length_cons, length_cons] at hlength
        rw [take_left' (by omega)]
        simp only [Bool.and_eq_true, isReserved_iff hc]
    · rw [if_neg fun hr => not_reserved hc hr.2]
      obtain ⟨leading, more, hcode⟩ := exists_cons_of_ne_nil (utf8_lawful.ne_nil c)
      have hlow : ¬ leading < 0x80 := by
        intro hlow
        have hbytes := bytes8_code c
        rw [hcode] at hbytes
        have hlow : leading.toNat < 0x80 := hlow
        cases hbytes <;> omega
      rw [hcode] at hspells ⊢
      obtain ⟨ds, es, rfl, hds, hes⟩ := hspells.cons
      obtain ⟨count, low, high, hcount, hcont⟩ := (continues_iff hlow more).mpr ⟨c, hcode⟩
      exact .inr ⟨leading, utf8.text es ++ rest, count, low, high, more,
        uriHexByte_iff.mpr ⟨ds, hds, by rw [Coding.text_append, append_assoc]⟩, hlow, hcount,
        takeContinuations_iff.mpr ⟨hcont, es, hes, rfl⟩, rfl⟩

/-- The loop decodes bytes. -/
theorem decodeLoop_iff {bytes out : Bytes} :
    decodeLoop keepReserved bytes = some out ↔ Decodes utf8 keepReserved bytes out := by
  have hpercent : utf8.code '%' = [0x25] := by decide
  constructor
  · intro h
    induction bytes using decodeLoop.induct keepReserved generalizing out with
    | case1 =>
      rw [decodeLoop] at h
      cases h
      exact .nil
    | case2 bytes hseq =>
      rw [decodeLoop, if_pos rfl, hseq] at h
      cases h
    | case3 bytes pushed rest hseq ih =>
      rw [decodeLoop, if_pos rfl, hseq] at h
      obtain ⟨tail, htail, rfl⟩ := Option.map_eq_some_iff.mp h
      obtain ⟨cs, c, hspells, heq, rfl⟩ := decodeSequence_iff.mp hseq
      rw [heq]
      split_ifs with hr
      · exact .reserve hspells hr.1 hr.2 (ih htail)
      · exact .replace hspells hr (ih htail)
    | case4 byte bytes hbyte ih =>
      rw [decodeLoop, if_neg hbyte] at h
      obtain ⟨tail, htail, rfl⟩ := Option.map_eq_some_iff.mp h
      exact .keep (by rw [hpercent]; simpa using Ne.symm hbyte) (ih htail)
  · intro h
    have hsequence : ∀ {cs : List Char} {c : Char} {xs ys pushed : Bytes}, Spells cs (utf8.code c) →
        (pushed = if keepReserved = true ∧ Reserved c then utf8.text cs else utf8.code c) → decodeLoop keepReserved xs = some ys →
        decodeLoop keepReserved (utf8.text cs ++ xs) = some (pushed ++ ys) := by
      intro cs c xs ys pushed hspells hpushed hxs
      have hseq : decodeSequence keepReserved (utf8.text cs ++ xs) = _ := decodeSequence_iff.mpr ⟨cs, c, hspells, rfl, hpushed⟩
      obtain ⟨ds, rfl⟩ := hspells.ne_nil (utf8_lawful.ne_nil c)
      rw [Coding.text_cons, hpercent, append_assoc, singleton_append] at hseq ⊢
      rw [decodeLoop, if_pos rfl, hseq]
      simp [hxs]
    induction h with
    | nil => rw [decodeLoop]
    | @keep x xs ys hx _ ih =>
      have hx : x ≠ 0x25 := by
        rintro rfl
        exact hx hpercent
      rw [decodeLoop, if_neg hx, ih]
      rfl
    | replace hspells hr _ ih => exact hsequence hspells (by rw [if_neg hr]) ih
    | reserve hspells hk hr _ ih => exact hsequence hspells (by rw [if_pos ⟨hk, hr⟩]) ih

/-! ### Decoding in other encodings -/

/-- Characters as they are. -/
def plain : Coding Char := ⟨fun c => [c]⟩

@[simp] theorem text_plain (cs : List Char) : plain.text cs = cs := flatMap_singleton' cs

section Transfer

variable {E : Coding α} {keepReserved : Bool}

/-- The code of `%` goes on no other character. -/
theorem percent_ne (hE : E.Lawful) (hc : c ≠ '%') : ∀ x ∈ E.code c, E.code '%' ≠ [x] := by
  intro x hx heq
  obtain ⟨y, ys, hys⟩ := exists_cons_of_ne_nil (hE.ne_nil c)
  rw [hys] at hx
  rcases mem_cons.mp hx with rfl | hx
  · exact hc (hE.eq_of_prefix '%' c (by rw [heq, hys]; exact ⟨ys, rfl⟩)).symm
  · exact hE.tail_ne_lead c '%' x (by rw [hys]; exact hx) (by rw [heq]; rfl)

/-- Codes of ASCII characters are read as these. -/
theorem text_split (hE : E.Lawful) {t cs : List Char} {xs : List α} (ht : ∀ c ∈ t, ∃ x, E.code c = [x])
    (h : E.text t ++ xs = E.text cs) : ∃ ds, cs = t ++ ds ∧ xs = E.text ds := by
  induction t generalizing cs with
  | nil => exact ⟨cs, rfl, h⟩
  | cons a t ih =>
    obtain ⟨⟨x, hx⟩, ht⟩ := forall_mem_cons.mp ht
    rw [Coding.text_cons, hx] at h
    cases cs with
    | nil => simp at h
    | cons d cs =>
      rw [Coding.text_cons] at h
      obtain ⟨y, ys, hys⟩ := exists_cons_of_ne_nil (hE.ne_nil d)
      rw [hys] at h
      obtain ⟨rfl, -⟩ := List.cons.inj h
      obtain rfl := hE.eq_of_prefix a d (by rw [hx, hys]; exact ⟨ys, rfl⟩)
      rw [hx] at hys
      cases hys
      obtain ⟨ds, rfl, rfl⟩ := ih ht (List.cons.inj h).2
      exact ⟨ds, rfl, rfl⟩

theorem Spells.ascii (h : Spells cs bytes) : ∀ c ∈ cs, c.toNat < 0x80 := by
  induction h with
  | nil => simp
  | escape hh hl _ ih =>
    intro c hc
    rcases mem_cons.mp hc with rfl | hc
    · decide
    rcases mem_cons.mp hc with rfl | hc
    · exact hh.nibble.2.1
    rcases mem_cons.mp hc with rfl | hc
    · exact hl.nibble.2.1
    · exact ih c hc

theorem Decodes.keep_all {l xs ys : List α} (hl : ∀ x ∈ l, E.code '%' ≠ [x]) (h : Decodes E keepReserved xs ys) :
    Decodes E keepReserved (l ++ xs) (l ++ ys) := by
  induction l with
  | nil => exact h
  | cons x l ih =>
    obtain ⟨hx, hl⟩ := forall_mem_cons.mp hl
    exact .keep hx (ih hl)

/-- Codes that are not that of `%` were kept. -/
theorem Decodes.of_keep (hp : ∃ p, E.code '%' = [p]) {l xs out : List α} (hl : ∀ x ∈ l, E.code '%' ≠ [x])
    (h : Decodes E keepReserved (l ++ xs) out) : ∃ ys, out = l ++ ys ∧ Decodes E keepReserved xs ys := by
  induction l generalizing out with
  | nil => exact ⟨out, rfl, h⟩
  | cons x l ih =>
    obtain ⟨hx, hl⟩ := forall_mem_cons.mp hl
    obtain ⟨p, hp⟩ := hp
    have hno : ∀ {cs : List Char} {c : Char} {zs : List α}, Spells cs (utf8.code c) → E.text cs ++ zs ≠ x :: (l ++ xs) := by
      intro cs c zs hspells heq
      obtain ⟨ds, rfl⟩ := hspells.ne_nil (utf8_lawful.ne_nil c)
      rw [Coding.text_cons, hp] at heq
      exact hx (by rw [hp, (List.cons.inj heq).1])
    generalize hwhole : x :: l ++ xs = whole at h
    cases h with
    | nil => simp at hwhole
    | keep _ h =>
      cases hwhole
      obtain ⟨zs, hzs, hdecodes⟩ := ih hl h
      exact ⟨zs, by rw [hzs]; rfl, hdecodes⟩
    | replace hspells _ _ => exact absurd hwhole.symm (hno hspells)
    | reserve hspells _ _ _ => exact absurd hwhole.symm (hno hspells)

/-- **Decoding does not depend on the encoding**, as long as ASCII is one code. -/
theorem decodes_text (hE : E.Lawful) (hascii : ∀ c : Char, c.toNat < 0x80 → ∃ x, E.code c = [x]) {out : List α} :
    Decodes E keepReserved (E.text cs) out ↔ ∃ ds, out = E.text ds ∧ Decodes plain keepReserved cs ds := by
  have hp := hascii '%' (by decide)
  constructor
  · intro h
    induction hn : cs.length using Nat.strong_induction_on generalizing cs out with
    | _ n ih =>
      subst hn
      have hlt : ∀ {t ds : List Char} {c : Char}, cs = t ++ ds → Spells t (utf8.code c) → ds.length < cs.length := by
        rintro t ds c rfl hspells
        obtain ⟨t, rfl⟩ := hspells.ne_nil (utf8_lawful.ne_nil c)
        rw [length_append, length_cons]
        omega
      generalize hwhole : E.text cs = whole at h
      cases h with
      | nil =>
        cases cs with
        | nil => exact ⟨[], rfl, .nil⟩
        | cons c cs => exact absurd (append_eq_nil_iff.mp hwhole).1 (hE.ne_nil c)
      | @keep x xs ys hx h =>
        cases cs with
        | nil => simp at hwhole
        | cons c cs =>
          obtain ⟨p, hp'⟩ := hp
          have hc : c ≠ '%' := by
            rintro rfl
            rw [Coding.text_cons, hp'] at hwhole
            exact hx (by rw [hp', (List.cons.inj hwhole).1])
          have hagain : Decodes E keepReserved (E.code c ++ E.text cs) (x :: ys) := by
            rw [← Coding.text_cons, hwhole]
            exact .keep hx h
          obtain ⟨zs, hzs, hdecodes⟩ := hagain.of_keep ⟨p, hp'⟩ (percent_ne hE hc)
          obtain ⟨ds, rfl, hds⟩ := ih _ (Nat.lt_succ_self _) hdecodes rfl
          exact ⟨c :: ds, hzs, .keep (by simpa [plain] using Ne.symm hc) hds⟩
      | replace hspells hr h =>
        obtain ⟨rest, hcs, rfl⟩ := text_split hE (fun c hc => hascii c (hspells.ascii c hc)) hwhole.symm
        obtain ⟨ds, rfl, hds⟩ := ih _ (hlt hcs hspells) h rfl
        refine ⟨_ :: ds, rfl, ?_⟩
        rw [hcs, ← text_plain (_ ++ rest), Coding.text_append, text_plain rest]
        exact .replace hspells hr hds
      | @reserve t _ _ _ hspells hk hr h =>
        obtain ⟨rest, hcs, rfl⟩ := text_split hE (fun c hc => hascii c (hspells.ascii c hc)) hwhole.symm
        obtain ⟨ds, rfl, hds⟩ := ih _ (hlt hcs hspells) h rfl
        refine ⟨plain.text t ++ ds, by rw [text_plain, Coding.text_append], ?_⟩
        rw [hcs, ← text_plain (_ ++ rest), Coding.text_append, text_plain rest]
        exact .reserve hspells hk hr hds
  · rintro ⟨ds, rfl, h⟩
    induction h with
    | nil => exact .nil
    | @keep c cs ds hc _ ih =>
      have hc : c ≠ '%' := by
        rintro rfl
        exact hc rfl
      exact ih.keep_all (percent_ne hE hc)
    | replace hspells hr _ ih =>
      rw [text_plain, Coding.text_append]
      exact .replace hspells hr ih
    | reserve hspells hk hr _ ih =>
      rw [text_plain, Coding.text_append, Coding.text_append]
      exact .reserve hspells hk hr ih

end Transfer

/-! ### Lone surrogates -/

/-- Units that are the same or both not of ASCII characters. -/
def Alike (u v : UInt16) : Prop := u = v ∨ 0x80 ≤ u.toNat ∧ 0x80 ≤ v.toNat

theorem Alike.symm {u v : UInt16} (h : Alike u v) : Alike v u := h.imp Eq.symm And.symm

theorem code16_single (h : c.toNat < 0x80) : utf16.code c = [UInt16.ofNat c.toNat] := if_pos (h.trans (by decide))

theorem text16_ascii (h : ∀ c ∈ cs, c.toNat < 0x80) : ∀ u ∈ utf16.text cs, u.toNat < 0x80 := by
  intro u hu
  obtain ⟨c, hc, hu⟩ := mem_flatMap.mp hu
  rw [code16_single (h c hc), mem_singleton] at hu
  rw [hu, UInt16.toNat_ofNat_of_lt' ((h c hc).trans (by decide))]
  exact h c hc

/-- Decoding does not tell like units apart, and keeps what is different. -/
theorem Decodes.alike {us us' out : Units} (h : Decodes utf16 keepReserved us out)
    (ha : List.Forall₂ Alike us us') : ∃ out', Decodes utf16 keepReserved us' out' ∧ (out = out' → us = us') := by
  have hsplit : ∀ {l xs us' : Units}, (∀ u ∈ l, u.toNat < 0x80) → List.Forall₂ Alike (l ++ xs) us' →
      ∃ xs', us' = l ++ xs' ∧ List.Forall₂ Alike xs xs' := by
    intro l xs us' hl ha
    induction l generalizing us' with
    | nil => exact ⟨us', rfl, ha⟩
    | cons u l ih =>
      obtain ⟨hu, hl⟩ := forall_mem_cons.mp hl
      cases ha with
      | cons hx ha =>
        obtain rfl := hx.resolve_right fun hx => absurd hx.1 (by omega)
        obtain ⟨xs', rfl, hsame⟩ := ih hl ha
        exact ⟨xs', rfl, hsame⟩
  induction h generalizing us' with
  | nil =>
    cases ha
    exact ⟨[], .nil, fun _ => rfl⟩
  | keep hx _ ih =>
    cases ha with
    | @cons _ x' _ _ hxx' ha =>
      obtain ⟨out', hout, hinj⟩ := ih ha
      refine ⟨x' :: out', .keep ?_ hout, fun heq => ?_⟩
      · rcases hxx' with rfl | hbig
        · exact hx
        · rintro hp
          cases hp
          exact absurd hbig.2 (by decide)
      · obtain ⟨hx, hrest⟩ := List.cons.inj heq
        rw [hx, hinj hrest]
  | replace hspells hr _ ih =>
    obtain ⟨xs', rfl, hsame⟩ := hsplit (text16_ascii hspells.ascii) ha
    obtain ⟨out', hout, hinj⟩ := ih hsame
    exact ⟨_, .replace hspells hr hout, fun heq => by rw [hinj (append_cancel_left heq)]⟩
  | reserve hspells hk hr _ ih =>
    obtain ⟨xs', rfl, hsame⟩ := hsplit (text16_ascii hspells.ascii) ha
    obtain ⟨out', hout, hinj⟩ := ih hsame
    exact ⟨_, .reserve hspells hk hr hout, fun heq => by rw [hinj (append_cancel_left heq)]⟩

/-- The units of what a `str` shows of a string. -/
def lossy (value : Units) : Units := utf16.text (chars value)

theorem alike_lossy (value : Units) : List.Forall₂ Alike value (lossy value) := by
  have hdecode : ∀ items : List (Char ⊕ UInt16), (∀ u, .inr u ∈ items → Utf16.IsHigh u ∨ Utf16.IsLow u) →
      List.Forall₂ Alike (items.flatMap Utf16.encodeItem) (utf16.text (items.map (Sum.elim id fun _ => Char.ofNat 0xFFFD))) := by
    intro items halone
    induction items with
    | nil => exact .nil
    | cons item items ih =>
      have ih := ih fun u hu => halone u (mem_cons_of_mem _ hu)
      rw [flatMap_cons, map_cons, Coding.text_cons]
      refine rel_append ?_ ih
      cases item with
      | inl c => exact forall₂_same.mpr fun _ _ => .inl rfl
      | inr u =>
        have hu := halone u mem_cons_self
        simp only [Utf16.IsHigh, Utf16.IsLow] at hu
        have hreplacement : 0x80 ≤ (UInt16.ofNat (Char.ofNat 0xFFFD).toNat).toNat := by decide
        exact .cons (.inr ⟨by omega, hreplacement⟩) .nil
  have h := hdecode (Utf16.decode value) fun u hu => Utf16.decode_alone hu
  rwa [Utf16.flatMap_decode] at h

variable {value : Units}

theorem lossy_eq_iff : value = lossy value ↔ isWellFormed value = true := by
  constructor
  · intro h
    have hdecode : Utf16.decode value = (chars value).map .inl := by
      conv_lhs => rw [h]
      exact Utf16.decode_encode _
    rw [isWellFormed, hdecode]
    simp
  · intro h
    conv_lhs => rw [← Utf16.flatMap_decode value]
    rw [lossy, chars, Coding.text, flatMap_map]
    refine flatMap_congr fun item hitem => ?_
    have hleft := all_eq_true.mp h item hitem
    cases item with
    | inl c => rfl
    | inr u => cases hleft

theorem decodeUriTry_iff (value : Units) (keepReserved : Bool) (out : Units) :
    decodeUriTry value keepReserved = some out ↔ Decodes utf16 keepReserved (lossy value) out := by
  have h8 : ∀ {bytes}, Decodes utf8 keepReserved (toUtf8Lossy value) bytes ↔ _ :=
    decodes_text utf8_lawful fun c hc => ⟨_, code_single hc⟩
  have h16 : Decodes utf16 keepReserved (lossy value) out ↔ _ := decodes_text utf16_lawful fun c hc => ⟨_, code16_single hc⟩
  rw [decodeUriTry, Option.bind_eq_some_iff, h16]
  constructor
  · rintro ⟨bytes, hloop, hout⟩
    obtain ⟨ds, rfl, hds⟩ := h8.mp (decodeLoop_iff.mp hloop)
    rw [fromUtf8_text] at hout
    exact ⟨ds, (Option.some.inj hout).symm, hds⟩
  · rintro ⟨ds, rfl, hds⟩
    exact ⟨utf8.text ds, decodeLoop_iff.mpr (h8.mpr ⟨ds, rfl, hds⟩), by rw [fromUtf8_text]; rfl⟩

/-! ### Encoding and back -/

/-- The escape of a byte. -/
def escapeByte (byte : UInt8) : List Char :=
  ['%', Char.ofNat (hexDigit (byte >>> 4)).toNat, Char.ofNat (hexDigit (byte &&& 0x0f)).toNat]

/-- How a character is encoded. -/
def escape (keepReserved : Bool) (c : Char) : List Char :=
  if c.toNat < 0x80 ∧ uriUnescaped (UInt8.ofNat c.toNat) keepReserved then [c] else (utf8.code c).flatMap escapeByte

theorem hexDigit_spells (byte : UInt8) : (hexDigit (byte >>> 4)).toNat < 0x80 ∧ (hexDigit (byte &&& 0x0f)).toNat < 0x80 ∧
    IsHexDigit (Char.ofNat (hexDigit (byte >>> 4)).toNat) (byte.toNat / 16) ∧
    IsHexDigit (Char.ofNat (hexDigit (byte &&& 0x0f)).toNat) (byte.toNat % 16) := by
  have hall : ∀ n < 16, (hexDigit (UInt8.ofNat n)).toNat < 0x80 ∧ IsHexDigit (Char.ofNat (hexDigit (UInt8.ofNat n)).toNat) n := by
    decide +kernel
  have hbyte := byte.toNat_lt
  have hhigh : byte.toNat / 16 = (byte >>> 4).toNat := (Decoder.toNat_shiftRight (k := 4) (by decide) byte).symm
  have hlow : byte.toNat % 16 = (byte &&& 0x0f).toNat :=
    (Decoder.toNat_and_mask (n := 4) (by decide) byte).symm
  have hfirst := hall (byte.toNat / 16) (by omega)
  have hsecond := hall (byte.toNat % 16) (by omega)
  rw [hhigh, UInt8.ofNat_toNat] at hfirst
  rw [hlow, UInt8.ofNat_toNat] at hsecond
  rw [hhigh, hlow]
  exact ⟨hfirst.1, hsecond.1, hfirst.2, hsecond.2⟩

theorem escape_spells (bytes : Bytes) : Spells (bytes.flatMap escapeByte) bytes := by
  induction bytes with
  | nil => exact .nil
  | cons byte bytes ih =>
    obtain ⟨-, -, hhigh, hlow⟩ := hexDigit_spells byte
    have h := Spells.escape hhigh hlow ih
    rw [Nat.div_add_mod, UInt8.ofNat_toNat] at h
    exact h

/-- Bytes above ASCII are escaped, and so is `%`. -/
theorem unescaped_ascii (keepReserved : Bool) (byte : UInt8) (h : uriUnescaped byte keepReserved = true) :
    byte.toNat < 0x80 ∧ byte ≠ 0x25 := by
  simp only [uriUnescaped, isAlphanumeric, isReserved, mem_cons, not_mem_nil, or_false, Bool.or_eq_true, Bool.and_eq_true,
    decide_eq_true_eq, UInt8.le_iff_toNat_le, ne_eq, ← UInt8.toNat_inj, UInt8.reduceToNat] at h ⊢
  omega

theorem encode_code (keepReserved : Bool) (c : Char) :
    (utf8.code c).flatMap (encodeByte keepReserved) = utf8.text (escape keepReserved c) := by
  by_cases hc : c.toNat < 0x80 ∧ uriUnescaped (UInt8.ofNat c.toNat) keepReserved
  · rw [escape, if_pos hc, Coding.text_cons, code_single hc.1, flatMap_singleton, encodeByte, if_pos hc.2]
    rfl
  · have hbyte : ∀ byte ∈ utf8.code c, uriUnescaped byte keepReserved ≠ true := by
      intro byte hbyte hu
      by_cases hlow : c.toNat < 0x80
      · rw [code_single hlow, mem_singleton] at hbyte
        exact hc ⟨hlow, hbyte ▸ hu⟩
      · have h8 := bytes8_code c
        have := (unescaped_ascii keepReserved byte hu).1
        generalize utf8.code c = code at h8 hbyte
        cases h8 <;> simp only [mem_cons, not_mem_nil, or_false] at hbyte
        · omega
        · rcases hbyte with rfl | rfl <;> omega
        · rcases hbyte with rfl | rfl | rfl <;> omega
        · rcases hbyte with rfl | rfl | rfl | rfl <;> omega
    rw [escape, if_neg hc, Coding.text, flatMap_assoc]
    refine flatMap_congr fun byte hmem => ?_
    obtain ⟨hhigh, hlow, -⟩ := hexDigit_spells byte
    rw [encodeByte, if_neg (hbyte byte hmem), escapeByte]
    simp only [flatMap_cons, flatMap_nil, code_ascii hhigh, code_ascii hlow, UInt8.ofNat_toNat]
    rfl

theorem encodeUri_eq (h : isWellFormed value = true) (keepReserved : Bool) :
    encodeUri value keepReserved = some (utf16.text ((chars value).flatMap (escape keepReserved))) := by
  rw [encodeUri, h]
  simp only [Bool.not_true, Bool.false_eq_true, if_false]
  split_ifs with hall
  · have hsame : (chars value).flatMap (escape keepReserved) = chars value := by
      conv_rhs => rw [← flatMap_singleton' (chars value)]
      refine flatMap_congr fun c hc => ?_
      obtain ⟨byte, more, hcode⟩ := exists_cons_of_ne_nil (utf8_lawful.ne_nil c)
      have hu := all_eq_true.mp hall byte (mem_flatMap.mpr ⟨c, hc, by simp [hcode]⟩)
      have hlow : c.toNat < 0x80 := by
        have hascii := (unescaped_ascii keepReserved byte hu).1
        have h8 := bytes8_code c
        rw [hcode] at h8
        cases h8 <;> omega
      rw [code_single hlow] at hcode
      cases hcode
      rw [escape, if_pos ⟨hlow, hu⟩]
    rw [hsame]
    exact congrArg some (lossy_eq_iff.mpr h)
  · have hbytes : (toUtf8Lossy value).flatMap (encodeByte keepReserved) =
        utf8.text ((chars value).flatMap (escape keepReserved)) := by
      rw [toUtf8Lossy, Coding.text, Coding.text, flatMap_assoc, flatMap_assoc]
      exact flatMap_congr fun c _ => encode_code keepReserved c
    rw [hbytes, fromUtf8_text]
    rfl

theorem decodes_escape (keepReserved : Bool) (cs : List Char) :
    Decodes plain keepReserved (cs.flatMap (escape keepReserved)) cs := by
  induction cs with
  | nil => exact .nil
  | cons c cs ih =>
    rw [flatMap_cons, escape]
    split_ifs with hc
    · refine .keep ?_ ih
      rintro heq
      cases heq
      exact (unescaped_ascii keepReserved _ hc.2).2 rfl
    · rw [← text_plain (List.flatMap _ _)]
      refine .replace (escape_spells _) (fun hr => hc ?_) ih
      have hlow : c.toNat < 0x80 := by_contra fun hlow => not_reserved hlow hr.2
      exact ⟨hlow, by rw [uriUnescaped, hr.1, (isReserved_iff hlow).mpr hr.2]; simp⟩

theorem encodeUri_decodes (h : isWellFormed value = true) (keepReserved : Bool) :
    ∃ encoded, encodeUri value keepReserved = some encoded ∧ decodeUriTry encoded keepReserved = some value := by
  have hascii : ∀ c : Char, c.toNat < 0x80 → ∃ x, utf16.code c = [x] := fun c hc => ⟨_, code16_single hc⟩
  refine ⟨_, encodeUri_eq h keepReserved, (decodeUriTry_iff ..).mpr ?_⟩
  have hwell : isWellFormed (utf16.text ((chars value).flatMap (escape keepReserved))) = true := by
    have hdecode : Utf16.decode (utf16.text ((chars value).flatMap (escape keepReserved))) = _ := Utf16.decode_encode _
    rw [isWellFormed, hdecode, all_map, all_eq_true]
    exact fun _ _ => rfl
  rw [← lossy_eq_iff.mpr hwell, decodes_text utf16_lawful hascii]
  exact ⟨chars value, lossy_eq_iff.mpr h, decodes_escape keepReserved _⟩

/-- A surrogate that stands alone is decoded to U+FFFD. -/
theorem decodeUriTry_surrogate :
    decodeUriTry [0xD800] false = some [0xFFFD] ∧ Decodes utf16 false [0xD800] [0xD800] := by
  have hpercent : utf16.code '%' = [0x25] := by decide
  have hlossy : lossy [0xD800] = [0xFFFD] := by decide
  constructor
  · rw [decodeUriTry_iff, hlossy]
    exact .keep (by rw [hpercent]; decide) .nil
  · exact .keep (by rw [hpercent]; decide) .nil

/-- **Encoding and decoding are inverse on well-formed strings**, encoding fails on no others, and a string is
decoded as it should be just when it is well-formed or should not be decoded at all. -/
theorem uri_coding (value : Units) (keepReserved : Bool) :
    (encodeUri value keepReserved = none ↔ isWellFormed value = false) ∧
    (isWellFormed value = true →
      ∃ encoded, encodeUri value keepReserved = some encoded ∧ decodeUriTry encoded keepReserved = some value) ∧
    ((∀ out, decodeUriTry value keepReserved = some out ↔ Decodes utf16 keepReserved value out) ↔
      isWellFormed value = true ∨ ∀ out, ¬ Decodes utf16 keepReserved value out) := by
  refine ⟨⟨fun h => ?_, fun h => by rw [encodeUri, h]; rfl⟩, fun h => encodeUri_decodes h keepReserved, fun h => ?_, fun h out => ?_⟩
  · by_contra hwell
    rw [encodeUri_eq (Bool.not_eq_false _ ▸ hwell)] at h
    cases h
  · by_contra hno
    obtain ⟨hill, hdec⟩ := not_or.mp hno
    push Not at hdec
    obtain ⟨out, hout⟩ := hdec
    -- what the code decodes differs from what should be decoded where the string differs from what was read
    obtain ⟨out', hout', hinj⟩ := hout.alike (alike_lossy value)
    have hcode := (decodeUriTry_iff ..).mpr hout'
    rw [(h out).mpr hout] at hcode
    exact hill (lossy_eq_iff.mp (hinj (Option.some.inj hcode)))
  · rw [decodeUriTry_iff]
    rcases h with hwell | hno
    · rw [← lossy_eq_iff.mpr hwell]
    · refine iff_of_false (fun hout => ?_) (hno out)
      obtain ⟨out', hout', -⟩ := hout.alike ((alike_lossy value).flip.imp fun _ _ ha => Alike.symm ha)
      exact hno out' hout'

end Scriptc.RuntimeRust.UriCoding
