import Mathlib.Data.List.TakeWhile
import Scriptc.RuntimeRust.JsonGrammar
import Scriptc.RuntimeRust.JsonScan

/-!
# The source of the parser

The parser reads the UTF-8 of a text in which surrogates that stand alone are escaped, or replaced outside of
strings. What it reads of it as tokens and strings stands in the text.
-/

namespace Scriptc.RuntimeRust.Json

open Scriptc.Utf16 List

variable {F : Type} {floats : Floats F} {total : ℕ}

/-! ### The source -/

/-- What becomes of the rest of a text. -/
def sourceFrom : Bool → Bool → List (Char ⊕ UInt16) → List Char
  | _, _, [] => []
  | quoted, escaped, .inl ch :: items =>
    ch :: if escaped then sourceFrom quoted false items
      else if quoted ∧ ch = '\\' then sourceFrom quoted true items
      else if ch = '"' then sourceFrom (!quoted) false items
      else sourceFrom quoted false items
  | quoted, escaped, .inr u :: items =>
    (if quoted ∧ ¬ escaped then '\\' :: 'u' :: hex4 u.toNat else [Char.ofNat 0xfffd]) ++ sourceFrom quoted false items

theorem foldl_sourceStep (items : List (Char ⊕ UInt16)) (s : Quoting) :
    (items.foldl sourceStep s).output = s.output ++ sourceFrom s.quoted s.escaped items := by
  induction items generalizing s with
  | nil => rw [foldl_nil, sourceFrom, append_nil]
  | cons item items ih =>
    obtain ⟨output, quoted, escaped⟩ := s
    rw [foldl_cons, ih]
    cases item with
    | inl ch =>
      rw [sourceStep, sourceFrom]
      cases escaped <;> split_ifs <;> simp_all
    | inr u =>
      rw [sourceStep, sourceFrom]
      split_ifs <;> simp

theorem sourceFrom_chars (quoted escaped : Bool) (text : List Char) : sourceFrom quoted escaped (text.map .inl) = text := by
  induction text generalizing quoted escaped with
  | nil => rfl
  | cons ch text ih =>
    rw [map_cons, sourceFrom]
    split_ifs <;> rw [ih]

theorem map_charOf {items : List (Char ⊕ UInt16)} (h : items.all isChar = true) : (items.filterMap charOf).map .inl = items := by
  induction items with
  | nil => rfl
  | cons item items ih =>
    rw [all_cons, Bool.and_eq_true] at h
    cases item with
    | inl ch => exact congrArg (Sum.inl ch :: ·) (ih h.2)
    | inr u => cases h.1

/-- A text from outside of a string on. -/
def unquoted (us : Units) : List Char := sourceFrom false false (decode us)

/-- A text from inside of a string on. -/
def quoted (us : Units) : List Char := sourceFrom true false (decode us)

/-- A text from a backslash in a string on. -/
def afterBackslash (us : Units) : List Char := sourceFrom true true (decode us)

theorem jsonSourceUtf8_eq (text : Units) : jsonSourceUtf8 text = unquoted text := by
  rw [jsonSourceUtf8, unquoted]
  split_ifs with hall
  · conv_rhs => rw [← map_charOf hall, sourceFrom_chars]
  · exact foldl_sourceStep _ _

/-- A text begins with a character or with a surrogate that stands alone. -/
theorem units_cases (us : Units) : us = [] ∨ (∃ c rest, us = encodeChar c ++ rest) ∨
    ∃ u rest, us = u :: rest ∧ (IsHigh u ∨ IsLow u) ∧ decode us = .inr u :: decode rest := by
  cases us using decode.fun_cases with
  | case1 => exact .inl rfl
  | case2 u h => exact .inr (.inr ⟨u, [], rfl, h, by simp [decode, h]⟩)
  | case3 u h => exact .inr (.inl ⟨Char.ofNat u.toNat, [], by rw [encodeChar_ofNat h]; rfl⟩)
  | case4 u v rest h => exact .inr (.inl ⟨pair u v, rest, by rw [encodeChar_pair h.1 h.2]; rfl⟩)
  | case5 u v rest h h' => exact .inr (.inr ⟨u, v :: rest, rfl, h', by rw [decode, if_neg h, if_pos h']⟩)
  | case6 u v rest h h' => exact .inr (.inl ⟨Char.ofNat u.toNat, v :: rest, by rw [encodeChar_ofNat h']; rfl⟩)

theorem unquoted_char (c : Char) (us : Units) : unquoted (encodeChar c ++ us) = c :: if c = '"' then quoted us else unquoted us := by
  rw [unquoted, decode_encodeChar, sourceFrom]
  simp only [Bool.false_eq_true, if_false, false_and, Bool.not_false]
  rfl

theorem quoted_char (c : Char) (us : Units) : quoted (encodeChar c ++ us) =
    c :: if c = '\\' then afterBackslash us else if c = '"' then unquoted us else quoted us := by
  rw [quoted, decode_encodeChar, sourceFrom]
  simp only [Bool.false_eq_true, if_false, true_and, Bool.not_true]
  rfl

theorem afterBackslash_char (c : Char) (us : Units) : afterBackslash (encodeChar c ++ us) = c :: quoted us := by
  rw [afterBackslash, decode_encodeChar, sourceFrom, if_pos rfl]
  rfl

theorem alone {us rest : Units} {u : UInt16} (h : decode us = .inr u :: decode rest) :
    unquoted us = Char.ofNat 0xfffd :: unquoted rest ∧ quoted us = '\\' :: 'u' :: (hex4 u.toNat ++ quoted rest) ∧
      afterBackslash us = Char.ofNat 0xfffd :: quoted rest := by
  rw [unquoted, quoted, afterBackslash, h]
  exact ⟨rfl, rfl, rfl⟩

/-! ### Bytes of the source -/

variable {c : Char}

theorem encodeChar_ascii (h : c.toNat < 128) : encodeChar c = [unit c] := if_pos (by omega)

theorem byte_inj {c d : Char} (hc : c.toNat < 128) (hd : d.toNat < 128) (h : byte c = byte d) : c = d := by
  have hnat := congrArg UInt8.toNat h
  rw [byte, byte, UInt8.toNat_ofNat', UInt8.toNat_ofNat'] at hnat
  exact Char.ext (UInt32.toNat_inj.mp (by change c.toNat = d.toNat; omega))

variable {cs : List Char} {rest : Source} {b : UInt8}

theorem utf8_cons_inv (h : utf8 cs = b :: rest) (hb : b.toNat < 128) :
    ∃ c cs', cs = c :: cs' ∧ c.toNat < 128 ∧ b = byte c ∧ rest = utf8 cs' := by
  cases cs with
  | nil => cases h
  | cons c cs =>
    by_cases hc : c.toNat < 128
    · rw [utf8_ascii hc] at h
      cases h
      exact ⟨c, cs, rfl, hc, rfl, rfl⟩
    · obtain ⟨b', rest', hlead, hge⟩ := utf8_lead hc
      rw [utf8_cons, hlead] at h
      cases h
      omega

theorem not_ascii_replacement : ¬ (Char.ofNat 0xfffd).toNat < 128 := by decide

variable {us : Units}

theorem unquoted_cons_inv (h : unquoted us = c :: cs) (hc : c.toNat < 128) :
    ∃ us', us = unit c :: us' ∧ cs = if c = '"' then quoted us' else unquoted us' := by
  rcases units_cases us with rfl | ⟨d, rest, rfl⟩ | ⟨u, rest, rfl, -, hdecode⟩
  · cases h
  · rw [unquoted_char] at h
    cases h
    exact ⟨rest, by rw [encodeChar_ascii hc]; rfl, rfl⟩
  · rw [(alone hdecode).1] at h
    cases h
    exact absurd hc not_ascii_replacement

theorem quoted_cons_inv (h : quoted us = c :: cs) (hc : c.toNat < 128) (hback : c ≠ '\\') :
    ∃ us', us = unit c :: us' ∧ cs = if c = '"' then unquoted us' else quoted us' := by
  rcases units_cases us with rfl | ⟨d, rest, rfl⟩ | ⟨u, rest, rfl, -, hdecode⟩
  · cases h
  · rw [quoted_char] at h
    cases h
    exact ⟨rest, by rw [encodeChar_ascii hc]; rfl, if_neg hback⟩
  · rw [(alone hdecode).2.1] at h
    cases h
    exact absurd rfl hback

theorem exists_byte (h : b.toNat < 128) : ∃ c, c.toNat < 128 ∧ b = byte c := by
  have hnat : (Char.ofNat b.toNat).toNat = b.toNat := toNat_ofNat_char (by omega)
  exact ⟨Char.ofNat b.toNat, by rwa [hnat], by rw [byte, hnat, UInt8.ofNat_toNat]⟩

/-- The characters of tokens: none of them begins a string. -/
def Token (c : Char) : Prop := c.toNat < 128 ∧ c ≠ '"'

instance (c : Char) : Decidable (Token c) := inferInstanceAs (Decidable (_ ∧ _))

theorem unquoted_token (h : ∀ c ∈ cs, Token c) (us : Units) : unquoted (cs.map unit ++ us) = cs ++ unquoted us := by
  induction cs with
  | nil => rfl
  | cons c cs ih =>
    obtain ⟨hc, hcs⟩ := forall_mem_cons.mp h
    have hchar := unquoted_char c (cs.map unit ++ us)
    rw [encodeChar_ascii hc.1, if_neg hc.2, ih hcs] at hchar
    exact hchar

theorem toNat_byte (hc : c.toNat < 128) : (byte c).toNat < 128 := by
  rw [byte, UInt8.toNat_ofNat']
  exact (Nat.mod_le _ _).trans_lt hc

/-- A byte that is read stands in the text. -/
theorem unquoted_byte (hc : c.toNat < 128) (h : utf8 (unquoted us) = byte c :: rest) :
    ∃ us', us = unit c :: us' ∧ rest = utf8 (if c = '"' then quoted us' else unquoted us') := by
  obtain ⟨d, cs, hcs, hd, hbyte, hrest⟩ := utf8_cons_inv h (toNat_byte hc)
  obtain rfl := byte_inj hc hd hbyte
  obtain ⟨us', hus, rfl⟩ := unquoted_cons_inv hcs hc
  exact ⟨us', hus, hrest⟩

/-- Tokens that are read stand in the text. -/
theorem unquoted_token_inv (h : ∀ c ∈ cs, Token c)
    (hread : utf8 (unquoted us) = cs.map byte ++ rest) : ∃ us', us = cs.map unit ++ us' ∧ rest = utf8 (unquoted us') := by
  induction cs generalizing us with
  | nil => exact ⟨us, rfl, hread.symm⟩
  | cons c cs ih =>
    obtain ⟨hc, hcs⟩ := forall_mem_cons.mp h
    obtain ⟨us', rfl, hrest⟩ := unquoted_byte hc.1 hread
    rw [if_neg hc.2] at hrest
    obtain ⟨us'', rfl, hus⟩ := ih hcs hrest.symm
    exact ⟨us'', rfl, hus⟩

theorem exists_map {α β : Type*} {f : α → β} {P : α → Prop} {bs : List β} (h : ∀ b ∈ bs, ∃ a, P a ∧ b = f a) :
    ∃ as : List α, bs = as.map f ∧ ∀ a ∈ as, P a := by
  induction bs with
  | nil => exact ⟨[], rfl, by simp⟩
  | cons b bs ih =>
    obtain ⟨⟨a, ha, rfl⟩, hbs⟩ := forall_mem_cons.mp h
    obtain ⟨as, rfl, has⟩ := ih hbs
    exact ⟨a :: as, rfl, forall_mem_cons.mpr ⟨ha, has⟩⟩

theorem Blank.token (h : Blank c) : Token c := by
  simp only [Blank, mem_cons, not_mem_nil, or_false] at h
  rcases h with rfl | rfl | rfl | rfl <;> decide

theorem blanks_map (h : ∀ c ∈ cs, Blank c) : Blanks (cs.map unit) := by
  intro u hu
  obtain ⟨c, hc, rfl⟩ := mem_map.mp hu
  have := h c hc
  simp only [Blank, mem_cons, not_mem_nil, or_false] at this
  rcases this with rfl | rfl | rfl | rfl <;> decide

theorem Blanks.chars (h : Blanks us) : ∃ cs : List Char, us = cs.map unit ∧ ∀ c ∈ cs, Blank c := by
  refine exists_map fun u hu => ?_
  have := h u hu
  simp only [mem_cons, not_mem_nil, or_false] at this
  rcases this with rfl | rfl | rfl | rfl <;> exact ⟨_, by simp [Blank], rfl⟩

theorem isBlank_iff (h : isBlank b = true) : ∃ c, Blank c ∧ b = byte c := by
  simp only [isBlank, Bool.or_eq_true, decide_eq_true_eq] at h
  rcases h with ((rfl | rfl) | rfl) | rfl <;> exact ⟨_, by simp [Blank], rfl⟩

theorem whitespace_unquoted (us : Units) : ∃ before us', us = before ++ us' ∧ Blanks before ∧
    whitespace (utf8 (unquoted us)) = utf8 (unquoted us') := by
  obtain ⟨cs, hcs, hblank⟩ : ∃ cs : List Char, (utf8 (unquoted us)).takeWhile isBlank = cs.map byte ∧ ∀ c ∈ cs, Blank c :=
    exists_map fun b hb => isBlank_iff (mem_takeWhile_imp hb)
  have hsplit := (takeWhile_append_dropWhile (p := isBlank) (l := utf8 (unquoted us))).symm
  rw [hcs] at hsplit
  obtain ⟨us', hus, hrest⟩ := unquoted_token_inv (fun c hc => (hblank c hc).token) hsplit
  exact ⟨cs.map unit, us', hus, blanks_map hblank, hrest⟩

theorem whitespace_append {before : Units} (h : Blanks before) (us : Units) :
    whitespace (utf8 (unquoted (before ++ us))) = whitespace (utf8 (unquoted us)) := by
  obtain ⟨cs, rfl, hcs⟩ := h.chars
  rw [unquoted_token fun c hc => (hcs c hc).token, whitespace_blanks hcs]

/-! ### Strings that are read -/

theorem toNat_isHexDigit (h : isHexDigit b = true) : b.toNat < 128 := by
  simp only [isHexDigit, isDigit, Bool.or_eq_true, Bool.and_eq_true, decide_eq_true_eq, UInt8.le_iff_toNat_le] at h
  have hbounds : (byte '9').toNat < 128 ∧ (byte 'f').toNat < 128 ∧ (byte 'F').toNat < 128 := by decide
  omega

theorem hexDigit_of_byte (hc : c.toNat < 128) (h : isHexDigit (byte c) = true) :
    Numerals.hexDigit c = some (hexValue (byte c)) ∧ Token c ∧ c ≠ '\\' := by
  have hall : ∀ n : Fin 128, isHexDigit (byte (Char.ofNat n)) = true → Numerals.hexDigit (Char.ofNat n) = some (hexValue (byte (Char.ofNat n))) ∧
      Token (Char.ofNat n) ∧ Char.ofNat n ≠ '\\' := by decide
  exact @ascii_induct (fun c => isHexDigit (byte c) = true → Numerals.hexDigit c = some (hexValue (byte c)) ∧ Token c ∧ c ≠ '\\') hall c hc h

theorem quoted_token_inv (h : ∀ c ∈ cs, Token c ∧ c ≠ '\\')
    (hread : utf8 (quoted us) = cs.map byte ++ rest) : ∃ us', us = cs.map unit ++ us' ∧ rest = utf8 (quoted us') := by
  induction cs generalizing us with
  | nil => exact ⟨us, rfl, hread.symm⟩
  | cons c cs ih =>
    obtain ⟨⟨hc, hback⟩, hcs⟩ := forall_mem_cons.mp h
    obtain ⟨d, text, htext, hd, hcd, hrest⟩ := utf8_cons_inv hread (toNat_byte hc.1)
    obtain rfl := byte_inj hc.1 hd hcd
    obtain ⟨us', rfl, rfl⟩ := quoted_cons_inv htext hd hback
    rw [if_neg hc.2] at hrest
    obtain ⟨us'', rfl, hus⟩ := ih hcs hrest.symm
    exact ⟨us'', rfl, hus⟩

theorem read_hexDigit (h : ∀ c ∈ cs, Numerals.hexDigit c = some (hexValue (byte c))) (acc : ℕ) :
    Numerals.read Numerals.hexDigit 16 acc cs = some ((cs.map byte).foldl (fun n b => 16 * n + hexValue b) acc) := by
  induction cs generalizing acc with
  | nil => rfl
  | cons c cs ih =>
    obtain ⟨hc, hcs⟩ := forall_mem_cons.mp h
    rw [Numerals.read, hc, Option.bind_some, ih hcs, Nat.mul_comm]
    rfl

theorem hexQuad_sound {n : UInt16} (h : hexQuad total (utf8 (quoted us)) = .ok (n, rest)) :
    ∃ (digits : List Char) (k : ℕ) (us' : Units), us = digits.map unit ++ us' ∧ digits.length = 4 ∧
      Numerals.read Numerals.hexDigit 16 0 digits = some k ∧ n = UInt16.ofNat k ∧ rest = utf8 (quoted us') := by
  rw [hexQuad] at h
  split_ifs at h with hlength hall
  · cases h
  · cases h
    rw [all_eq_true] at hall
    obtain ⟨digits, hdigits, hhex⟩ : ∃ digits : List Char, (utf8 (quoted us)).take 4 = digits.map byte ∧
        ∀ c ∈ digits, Numerals.hexDigit c = some (hexValue (byte c)) ∧ Token c ∧ c ≠ '\\' := by
      refine exists_map fun b hb => ?_
      obtain ⟨c, hc, rfl⟩ := exists_byte (toNat_isHexDigit (hall b hb))
      exact ⟨c, hexDigit_of_byte hc (hall _ hb), rfl⟩
    have hsplit := (take_append_drop 4 (utf8 (quoted us))).symm
    rw [hdigits] at hsplit
    obtain ⟨us', hus, hrest⟩ := quoted_token_inv (fun c hc => (hhex c hc).2) hsplit
    refine ⟨digits, _, us', hus, ?_, read_hexDigit (fun c hc => (hhex c hc).1) 0, ?_, hrest⟩
    · have := congrArg List.length hdigits
      rw [length_take, length_map] at this
      omega
    · rw [hdigits]
      rfl

/-- No escape begins with a byte that is not ASCII. -/
theorem escape_lead (h : 128 ≤ b.toNat) (rest : Source) :
    escape total (b :: rest) = syntaxError total rest "invalid string escape" := by
  have hne : ∀ c : Char, c.toNat < 128 → b ≠ byte c := by
    rintro c hc rfl
    rw [byte, UInt8.toNat_ofNat'] at h
    omega
  rw [escape]
  simp only [hne _ (by decide : '"'.toNat < 128), hne _ (by decide : '\\'.toNat < 128), hne _ (by decide : '/'.toNat < 128),
    hne _ (by decide : 'b'.toNat < 128), hne _ (by decide : 'f'.toNat < 128), hne _ (by decide : 'n'.toNat < 128),
    hne _ (by decide : 'r'.toNat < 128), hne _ (by decide : 't'.toNat < 128), hne _ (by decide : 'u'.toNat < 128), if_false]

variable {us vs : Units}

theorem escape_sound (h : escape total (utf8 (afterBackslash us)) = .ok (vs, rest)) :
    ∃ (es : Units) (v : UInt16) (us' : Units), us = es ++ us' ∧ Escape es v ∧ vs = [v] ∧ rest = utf8 (quoted us') := by
  have hlead {c : Char} (hc : ¬ c.toNat < 128) (cs : List Char) : escape total (utf8 (c :: cs)) ≠ .ok (vs, rest) := by
    obtain ⟨b, rest', hb, hge⟩ := utf8_lead hc
    rw [utf8_cons, hb, cons_append, escape_lead hge]
    exact fun heq => by cases heq
  rcases units_cases us with rfl | ⟨c, us, rfl⟩ | ⟨u, us, rfl, -, hdecode⟩
  · cases h
  · rw [afterBackslash_char] at h
    by_cases hc : c.toNat < 128
    · have hshort {e d : Char} (he : e.toNat < 128) (hd : d.toNat < 128) (hmem : Escape [unit e] (unit d)) (heq : byte c = byte e)
          (hok : (.ok (encodeChar d, utf8 (quoted us)) : Except String (Units × Source)) = .ok (vs, rest)) :
          ∃ (es : Units) (v : UInt16) (us' : Units), encodeChar c ++ us = es ++ us' ∧ Escape es v ∧ vs = [v] ∧ rest = utf8 (quoted us') := by
        obtain rfl := byte_inj hc he heq
        rw [encodeChar_ascii hd] at hok
        cases hok
        exact ⟨_, _, us, by rw [encodeChar_ascii he], hmem, rfl, rfl⟩
      rw [utf8_ascii hc, escape] at h
      -- one after the other: all at once takes every branch through every simplification
      iterate 8
        split at h
        next hb => exact hshort (by decide) (by decide) (.short (by decide)) hb h
      split at h
      next hb =>
        obtain rfl := byte_inj hc (by decide) hb
        cases hquad : hexQuad total (utf8 (quoted us)) with
        | error message =>
          rw [hquad] at h
          cases h
        | ok quad =>
          rw [hquad] at h
          cases h
          obtain ⟨digits, k, us', rfl, hlength, hread, hn, hrest⟩ := hexQuad_sound (show _ = Except.ok (quad.1, quad.2) from hquad)
          exact ⟨_, _, us', by rw [encodeChar_ascii (by decide)]; rfl, .unicode hlength hread, by rw [hn], hrest⟩
      · cases h
    · exact absurd h (hlead hc _)
  · rw [(alone hdecode).2.2] at h
    exact absurd h (hlead not_ascii_replacement _)

/-- The units of a character that needs no escape. -/
theorem StringChars.char (hquote : c ≠ '"') (hback : c ≠ '\\') (hcontrol : ¬c.toNat ≤ 0x1f)
    (h : StringChars us vs) : StringChars (encodeChar c ++ us) (encodeChar c ++ vs) := by
  have hvalid : c.toNat < 0xD800 ∨ 0xDFFF < c.toNat ∧ c.toNat < 0x110000 := c.valid
  have hne {n : ℕ} {d : Char} (hn : n < 2 ^ 16) (hd : d.toNat < 128) (hnd : n ≠ d.toNat) : UInt16.ofNat n ≠ unit d := by
    intro heq
    have := congrArg UInt16.toNat heq
    rw [unit, UInt16.toNat_ofNat', UInt16.toNat_ofNat'] at this
    omega
  have hunit {n : ℕ} (hn : n < 2 ^ 16) (h20 : 0x20 ≤ n) (h1 : n ≠ '"'.toNat) (h2 : n ≠ '\\'.toNat) {us vs : Units} (h : StringChars us vs) :
      StringChars (UInt16.ofNat n :: us) (UInt16.ofNat n :: vs) := by
    refine .unescaped ?_ (hne hn (by decide) h1) (hne hn (by decide) h2) h
    rw [UInt16.toNat_ofNat']
    omega
  have hcode {d : Char} (h : c ≠ d) : c.toNat ≠ d.toNat := fun heq => h (Char.ext (UInt32.toNat_inj.mp heq))
  have hquote' : '"'.toNat = 34 := rfl
  have hback' : '\\'.toNat = 92 := rfl
  rw [encodeChar]
  split_ifs with hsmall
  · exact hunit (by omega) (by omega) (hcode hquote) (hcode hback) h
  · exact hunit (by omega) (by omega) (by omega) (by omega) (hunit (by omega) (by omega) (by omega) (by omega) h)

theorem StringChars.alone {u : UInt16} (hu : IsHigh u ∨ IsLow u) (h : StringChars us vs) : StringChars (u :: us) (u :: vs) := by
  have hle : 0xD800 ≤ u.toNat := by
    simp only [IsHigh, IsLow] at hu
    omega
  refine .unescaped (by omega) ?_ ?_ h
  · rintro rfl
    exact absurd hle (by decide)
  · rintro rfl
    exact absurd hle (by decide)

/-- What the loop reads is written between quotation marks. -/
theorem stringLoop_sound {turns : ℕ} {us output vs : Units}
    (h : stringLoop total turns (utf8 (quoted us)) output = .ok (vs, rest)) :
    ∃ body more us', us = body ++ unit '"' :: us' ∧ StringChars body more ∧ vs = output ++ more ∧ rest = utf8 (unquoted us') := by
  induction turns generalizing us output with
  | zero => cases h
  | succ turns ih =>
    rcases units_cases us with rfl | ⟨c, us, rfl⟩ | ⟨u, us, rfl, hu, hdecode⟩
    · cases h
    · rw [quoted_char] at h
      by_cases hquote : c = '"'
      · obtain rfl := hquote
        rw [if_neg (by decide), if_pos rfl, utf8_ascii (by decide), stringLoop, if_pos rfl] at h
        cases h
        exact ⟨[], [], us, rfl, .nil, (append_nil _).symm, rfl⟩
      by_cases hback : c = '\\'
      · obtain rfl := hback
        rw [if_pos rfl, utf8_ascii (by decide), stringLoop, if_neg (by decide), if_pos rfl] at h
        cases hescape : escape total (utf8 (afterBackslash us)) with
        | error message =>
          rw [hescape] at h
          cases h
        | ok read =>
          obtain ⟨es, v, us', rfl, hes, hv, hrest⟩ := escape_sound (show _ = Except.ok (read.1, read.2) from hescape)
          rw [hescape] at h
          dsimp only [Except.bind] at h
          rw [hrest, hv] at h
          obtain ⟨body, more, us'', rfl, hbody, rfl, rfl⟩ := ih h
          exact ⟨_, _, us'', by simp [encodeChar_ascii], .escaped hes hbody, by simp, rfl⟩
      by_cases hcontrol : c.toNat ≤ 0x1f
      · have hle : byte c ≤ 0x1f := by
          have h31 : (0x1f : UInt8).toNat = 31 := rfl
          rw [UInt8.le_iff_toNat_le, byte, UInt8.toNat_ofNat', h31]
          exact (Nat.mod_le _ _).trans hcontrol
        have hne {d : Char} (hd : d.toNat < 128) (hcd : c ≠ d) : byte c ≠ byte d := fun heq => hcd (byte_inj (by omega) hd heq)
        rw [utf8_ascii (by omega), stringLoop, if_neg (hne (by decide) hquote), if_neg (hne (by decide) hback), if_pos hle] at h
        cases h
      · rw [if_neg hback, if_neg hquote, stringLoop_unescaped hquote hback hcontrol] at h
        obtain ⟨body, more, us', rfl, hbody, rfl, rfl⟩ := ih h
        exact ⟨_, _, us', (append_assoc _ _ _).symm, hbody.char hquote hback hcontrol, append_assoc _ _ _, rfl⟩
    · have hunit := @escape_unit total u.toNat u.toNat_lt (quoted us)
      rw [UInt16.ofNat_toNat] at hunit
      rw [(alone hdecode).2.1, stringLoop_escape hunit] at h
      obtain ⟨body, more, us', rfl, hbody, rfl, rfl⟩ := ih h
      exact ⟨u :: body, u :: more, us', rfl, hbody.alone hu, append_assoc _ _ _, rfl⟩

/-! ### Strings of the grammar -/

theorem quoted_token (h : ∀ c ∈ cs, Token c ∧ c ≠ '\\') (us : Units) : quoted (cs.map unit ++ us) = cs ++ quoted us := by
  induction cs with
  | nil => rfl
  | cons c cs ih =>
    obtain ⟨⟨hc, hback⟩, hcs⟩ := forall_mem_cons.mp h
    have hchar := quoted_char c (cs.map unit ++ us)
    rw [encodeChar_ascii hc.1, if_neg hback, if_neg hc.2, ih hcs] at hchar
    exact hchar

theorem hexDigit_byte (h : (Numerals.hexDigit c).isSome) : isHexDigit (byte c) = true ∧ Numerals.hexDigit c = some (hexValue (byte c)) ∧
    Token c ∧ c ≠ '\\' := by
  have hc : c.toNat < 128 := by
    have hle {d : Char} (hd : c ≤ d) : c.toNat ≤ d.toNat := hd
    have hbounds : '9'.toNat < 128 ∧ 'f'.toNat < 128 ∧ 'F'.toNat < 128 := by decide
    rw [Numerals.hexDigit] at h
    split_ifs at h with h1 h2 h3
    · exact (hle h1.2).trans_lt hbounds.1
    · exact (hle h2.2).trans_lt hbounds.2.1
    · exact (hle h3.2).trans_lt hbounds.2.2
    · cases h
  have hall : ∀ n : Fin 128, (Numerals.hexDigit (Char.ofNat n)).isSome → isHexDigit (byte (Char.ofNat n)) = true := by decide
  have hhex := @ascii_induct (fun c => (Numerals.hexDigit c).isSome → isHexDigit (byte c) = true) hall c hc h
  exact ⟨hhex, hexDigit_of_byte hc hhex⟩

theorem utf8_token (h : ∀ c ∈ cs, Token c) (rest : List Char) : utf8 (cs ++ rest) = cs.map byte ++ utf8 rest := by
  induction cs with
  | nil => rfl
  | cons c cs ih =>
    obtain ⟨hc, hcs⟩ := forall_mem_cons.mp h
    rw [cons_append, utf8_ascii hc.1, ih hcs]
    rfl

theorem escape_complete {es : Units} {v : UInt16} (h : Escape es v) (us : Units) :
    escape total (utf8 (afterBackslash (es ++ us))) = .ok ([v], utf8 (quoted us)) := by
  cases h with
  | @short e c hmem =>
    have hascii : e.toNat < 128 ∧ c.toNat < 128 := by
      have hall : ∀ p ∈ [('"', '"'), ('\\', '\\'), ('/', '/'), ('b', Char.ofNat 8), ('f', Char.ofNat 12), ('n', '\n'), ('r', '\r'), ('t', '\t')],
          p.1.toNat < 128 ∧ p.2.toNat < 128 := by decide
      exact hall _ hmem
    have hchar := afterBackslash_char e us
    rw [encodeChar_ascii hascii.1] at hchar
    rw [hchar, escape_short hmem, encodeChar_ascii hascii.2]
  | @unicode digits n hlength hread =>
    have hdigits : ∀ c ∈ digits, isHexDigit (byte c) = true ∧ Numerals.hexDigit c = some (hexValue (byte c)) ∧ Token c ∧ c ≠ '\\' :=
      fun c hc => hexDigit_byte (Numerals.isSome_of_read hread c hc)
    have hchar := afterBackslash_char 'u' (digits.map unit ++ us)
    rw [encodeChar_ascii (by decide), quoted_token fun c hc => (hdigits c hc).2.2] at hchar
    have hbytes : utf8 (digits ++ quoted us) = digits.map byte ++ utf8 (quoted us) := utf8_token (fun c hc => (hdigits c hc).2.2.1) _
    have hlen : (digits.map byte).length = 4 := by rw [length_map, hlength]
    have hvalue : fromHex (digits.map byte) = UInt16.ofNat n := by
      rw [read_hexDigit fun c hc => (hdigits c hc).2.1] at hread
      cases hread
      rfl
    have hquad : hexQuad total (utf8 (digits ++ quoted us)) = .ok (UInt16.ofNat n, utf8 (quoted us)) := by
      have hall : (digits.map byte).all isHexDigit = true := by
        rw [all_map, all_eq_true]
        exact fun c hc => (hdigits c hc).1
      rw [hbytes, hexQuad, take_left' hlen, drop_left' hlen, if_neg (by rw [length_append, hlen]; omega),
        if_neg (not_not.mpr hall), hvalue]
    have hu : escape total (byte 'u' :: utf8 (digits ++ quoted us)) =
        (hexQuad total (utf8 (digits ++ quoted us))).bind fun quad => .ok ([quad.1], quad.2) := rfl
    change escape total (utf8 (afterBackslash (unit 'u' :: (digits.map unit ++ us)))) = _
    rw [singleton_append] at hchar
    rw [hchar, utf8_ascii (by decide), hu, hquad]
    rfl

theorem unit_toNat (h : c.toNat < 2 ^ 16) : (unit c).toNat = c.toNat := by
  rw [unit, UInt16.toNat_ofNat', Nat.mod_eq_of_lt h]

/-- What stands between quotation marks is read to its end. -/
theorem stringLoop_complete {body vs : Units} (h : StringChars body vs) {turns : ℕ} (hturns : body.length < turns) (us output : Units) :
    stringLoop total turns (utf8 (quoted (body ++ unit '"' :: us))) output = .ok (output ++ vs, utf8 (unquoted us)) := by
  induction hn : body.length using Nat.strongRecOn generalizing body vs turns output with
  | ind n ih =>
    obtain ⟨turns, rfl⟩ := Nat.exists_eq_add_one_of_ne_zero (Nat.ne_of_gt (Nat.zero_lt_of_lt hturns))
    cases h with
    | nil =>
      have hchar := quoted_char '"' us
      rw [encodeChar_ascii (by decide), if_neg (by decide), if_pos rfl, singleton_append] at hchar
      rw [nil_append, hchar, utf8_ascii (by decide), stringLoop, if_pos rfl, append_nil]
    | @escaped es body vs v hes hbody =>
      have hchar := quoted_char '\\' (es ++ (body ++ unit '"' :: us))
      rw [encodeChar_ascii (by decide), if_pos rfl, singleton_append] at hchar
      rw [length_cons, length_append] at hturns hn
      rw [cons_append, append_assoc, hchar, utf8_ascii (by decide), stringLoop, if_neg (by decide), if_pos rfl, escape_complete hes]
      dsimp only [Except.bind]
      rw [ih _ (by omega) hbody (by omega) _ rfl, append_assoc]
      rfl
    | @unescaped u body vs h20 hquote hback hbody =>
      rw [length_cons] at hturns hn
      rcases units_cases (u :: (body ++ unit '"' :: us)) with hnil | ⟨c, rest, hsplit⟩ | ⟨u', rest, hsplit, hu, hdecode⟩
      · cases hnil
      · have hvalid : c.toNat < 0xD800 ∨ 0xDFFF < c.toNat ∧ c.toNat < 0x110000 := c.valid
        have hquote' : c ≠ '"' := by
          rintro rfl
          exact hquote (List.cons.inj hsplit).1
        have hback' : c ≠ '\\' := by
          rintro rfl
          exact hback (List.cons.inj hsplit).1
        rw [cons_append, hsplit, quoted_char, if_neg hback', if_neg hquote']
        by_cases hc : c.toNat < 0x10000
        · have hone : encodeChar c = [unit c] := if_pos hc
          rw [hone, singleton_append] at hsplit
          obtain ⟨rfl, rfl⟩ := List.cons.inj hsplit
          rw [unit_toNat hc] at h20
          rw [stringLoop_unescaped hquote' hback' (by omega), ih _ (by omega) hbody (by omega) _ rfl, hone, append_assoc]
          rfl
        · -- a pair, of which the second unit is not the end either
          rw [stringLoop_unescaped hquote' hback' (by omega)]
          have htwo : encodeChar c = [UInt16.ofNat (0xD800 + (c.toNat - 0x10000) / 0x400), UInt16.ofNat (0xDC00 + (c.toNat - 0x10000) % 0x400)] :=
            if_neg hc
          rw [htwo, cons_append, singleton_append] at hsplit
          rw [htwo]
          obtain ⟨hu, hrest⟩ := List.cons.inj hsplit
          have hlow (d : Char) (hd : d.toNat < 128) : UInt16.ofNat (0xDC00 + (c.toNat - 0x10000) % 0x400) ≠ unit d := by
            intro heq
            have := congrArg UInt16.toNat heq
            rw [unit_toNat (by omega), UInt16.toNat_ofNat'] at this
            omega
          cases hbody with
          | nil => exact absurd (List.cons.inj hrest).1.symm (hlow _ (by decide))
          | escaped => exact absurd (List.cons.inj hrest).1.symm (hlow _ (by decide))
          | @unescaped u' body vs _ _ _ hbody =>
            rw [cons_append] at hrest
            obtain ⟨rfl, rfl⟩ := List.cons.inj hrest
            rw [length_cons] at hturns hn
            rw [ih _ (by omega) hbody (by omega) _ rfl, append_assoc, hu]
            rfl
      · cases hsplit
        have hunit := @escape_unit total u.toNat u.toNat_lt (quoted (body ++ unit '"' :: us))
        rw [UInt16.ofNat_toNat] at hunit
        rw [cons_append, (alone hdecode).2.1, stringLoop_escape hunit, ih _ (by omega) hbody (by omega) _ rfl, append_assoc]
        rfl

theorem length_le_source (quoted escaped : Bool) (us : Units) : us.length ≤ (utf8 (sourceFrom quoted escaped (decode us))).length := by
  induction hn : us.length using Nat.strongRecOn generalizing us quoted escaped with
  | ind n ih =>
    rcases units_cases us with rfl | ⟨c, us, rfl⟩ | ⟨u, us, rfl, -, hdecode⟩
    · exact hn ▸ Nat.zero_le _
    · have hsize : (encodeChar c).length ≤ (String.utf8EncodeChar c).length ∧ 0 < (encodeChar c).length := by
        rw [String.length_utf8EncodeChar, encodeChar]
        split_ifs with hc
        · exact ⟨c.utf8Size_pos, Nat.one_pos⟩
        · have h4 : c.utf8Size = 4 := by
            have hle {k : ℕ} (hk : k < 0x10000) : ¬ c.val.toNat ≤ k := by
              change ¬ c.toNat ≤ k
              omega
            rw [Char.utf8Size]
            simp only [UInt32.le_iff_toNat_le]
            rw [if_neg (hle (by decide)), if_neg (hle (by decide)), if_neg (hle (by decide))]
          exact ⟨by rw [h4]; simp, Nat.two_pos⟩
      rw [length_append] at hn
      rw [decode_encodeChar, sourceFrom, utf8_cons, length_append]
      have hrest (quoted escaped : Bool) := ih us.length (by omega) quoted escaped us rfl
      split_ifs
      · have := hrest quoted false
        omega
      · have := hrest quoted true
        omega
      · have := hrest (!quoted) false
        omega
      · have := hrest quoted false
        omega
    · rw [length_cons] at hn
      rw [hdecode, sourceFrom, utf8_append, length_append]
      have hrest := ih us.length (by omega) quoted false us rfl
      have hitem : 1 ≤ (utf8 (if quoted = true ∧ ¬ escaped = true then '\\' :: 'u' :: hex4 u.toNat else [Char.ofNat 0xfffd])).length := by
        refine le_trans ?_ (length_le_utf8 _)
        split_ifs <;> simp
      omega

theorem string_sound (h : string total (utf8 (quoted us)) = .ok (vs, rest)) :
    ∃ body us', us = body ++ unit '"' :: us' ∧ StringChars body vs ∧ rest = utf8 (unquoted us') := by
  obtain ⟨body, more, us', hus, hbody, rfl, hrest⟩ := stringLoop_sound h
  exact ⟨body, us', hus, hbody, hrest⟩

theorem string_complete {body vs : Units} (h : StringChars body vs) (us : Units) :
    string total (utf8 (quoted (body ++ unit '"' :: us))) = .ok (vs, utf8 (unquoted us)) := by
  have hlength := length_le_source true false (body ++ unit '"' :: us)
  rw [length_append, length_cons] at hlength
  rw [string]
  exact stringLoop_complete h (by rw [quoted]; omega) us []

end Scriptc.RuntimeRust.Json
