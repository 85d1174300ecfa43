import Scriptc.RuntimeRust.JsonGrammar

/-!
# Reading the tokens of a JSON text

The parser's scanners on the bytes of what the writer writes: blanks, strings with their escapes, and
numbers up to the character that follows them.
-/

namespace Scriptc.RuntimeRust.Json

open Scriptc.Utf16 List

variable {F : Type} {floats : Floats F} {total : ℕ}

/-! ### Bytes -/

@[simp] theorem utf8_nil : utf8 [] = [] := rfl

theorem utf8_append (cs ds : List Char) : utf8 (cs ++ ds) = utf8 cs ++ utf8 ds := flatMap_append

theorem utf8_cons (c : Char) (cs : List Char) : utf8 (c :: cs) = String.utf8EncodeChar c ++ utf8 cs := rfl

theorem utf8_ascii {c : Char} (h : c.toNat < 128) (cs : List Char) : utf8 (c :: cs) = byte c :: utf8 cs := by
  have hle : c.val.toNat ≤ 127 := by
    change c.toNat ≤ 127
    omega
  rw [utf8_cons, String.utf8EncodeChar, if_pos hle]
  rfl

theorem fromUtf8_utf8 (cs : List Char) : fromUtf8 (utf8 cs) = some cs := by
  have hencode : (utf8 cs).toByteArray = cs.utf8Encode := rfl
  rw [fromUtf8, hencode, List.utf8Decode?_utf8Encode, Option.map_some]

theorem length_le_utf8 (cs : List Char) : cs.length ≤ (utf8 cs).length := by
  induction cs with
  | nil => simp
  | cons c cs ih =>
    have := c.utf8Size_pos
    rw [utf8_cons, length_append, String.length_utf8EncodeChar, length_cons]
    omega

/-- What holds of the first 128 characters holds of each of them. -/
theorem ascii_induct {P : Char → Prop} (h : ∀ n : Fin 128, P (Char.ofNat n)) {c : Char} (hc : c.toNat < 128) :
    P c := by
  have := h ⟨c.toNat, hc⟩
  rwa [Char.ofNat_toNat] at this

theorem toNat_digit {c : Char} (h : c.isDigit = true) : c.toNat < 128 := by
  simp only [Char.isDigit, ge_iff_le, Bool.and_eq_true, decide_eq_true_eq, UInt32.le_iff_toNat_le] at h
  have : c.toNat ≤ 57 := h.2
  omega

theorem isDigit_byte {c : Char} (h : c.isDigit = true) : isDigit (byte c) = true := by
  have hall : ∀ n : Fin 128, (Char.ofNat n).isDigit = true → isDigit (byte (Char.ofNat n)) = true := by decide
  exact @ascii_induct (fun c => c.isDigit = true → isDigit (byte c) = true) hall c (toNat_digit h) h

/-- The first byte of a character that is not ASCII is not. -/
theorem utf8_lead {c : Char} (h : ¬c.toNat < 128) : ∃ b rest, String.utf8EncodeChar c = b :: rest ∧ 128 ≤ b.toNat := by
  have hnot : ¬c.val.toNat ≤ 127 := by
    change ¬c.toNat ≤ 127
    omega
  have hvalid : c.val.toNat < 0xD800 ∨ 0xDFFF < c.val.toNat ∧ c.val.toNat < 0x110000 := c.valid
  rw [String.utf8EncodeChar, if_neg hnot]
  split
  · exact ⟨_, _, rfl, by simp only [UInt8.toNat_ofNat']; omega⟩
  · split
    · exact ⟨_, _, rfl, by simp only [UInt8.toNat_ofNat']; omega⟩
    · exact ⟨_, _, rfl, by simp only [UInt8.toNat_ofNat']; omega⟩

/-- The first byte of a character that needs no escape is the first of no other token. -/
theorem utf8_unescaped {c : Char} (hquote : c ≠ '"') (hback : c ≠ '\\') (hcontrol : ¬c.toNat ≤ 0x1f)
    (cs : List Char) :
    ∃ b rest, utf8 (c :: cs) = b :: rest ∧ b ≠ byte '"' ∧ b ≠ byte '\\' ∧ ¬b ≤ 0x1f := by
  by_cases h : c.toNat < 128
  · have hall : ∀ n : Fin 128, Char.ofNat n ≠ '"' → Char.ofNat n ≠ '\\' →
        ¬(Char.ofNat n).toNat ≤ 0x1f →
        byte (Char.ofNat n) ≠ byte '"' ∧ byte (Char.ofNat n) ≠ byte '\\' ∧ ¬byte (Char.ofNat n) ≤ 0x1f := by
      decide
    have hbyte := @ascii_induct (fun c => c ≠ '"' → c ≠ '\\' → ¬c.toNat ≤ 0x1f →
      byte c ≠ byte '"' ∧ byte c ≠ byte '\\' ∧ ¬byte c ≤ 0x1f) hall c h hquote hback hcontrol
    exact ⟨byte c, utf8 cs, utf8_ascii h cs, hbyte⟩
  · obtain ⟨b, rest, hb, hge⟩ := utf8_lead h
    refine ⟨b, rest ++ utf8 cs, by rw [utf8_cons, hb, cons_append], ?_, ?_, ?_⟩
    · rintro rfl
      exact absurd hge (by decide)
    · rintro rfl
      exact absurd hge (by decide)
    · rw [UInt8.le_iff_toNat_le]
      have : (0x1f : UInt8).toNat = 31 := rfl
      omega

/-! ### Blanks -/

def Blank (c : Char) : Prop := c ∈ [' ', '\n', '\r', '\t']

theorem whitespace_blanks {blanks : List Char} (h : ∀ c ∈ blanks, Blank c) (cs : List Char) :
    whitespace (utf8 (blanks ++ cs)) = whitespace (utf8 cs) := by
  induction blanks with
  | nil => rfl
  | cons c blanks ih =>
    have hc : c.toNat < 128 ∧ isBlank (byte c) = true := by
      have := h c (by simp)
      simp only [Blank, mem_cons, not_mem_nil, or_false] at this
      rcases this with rfl | rfl | rfl | rfl <;> decide
    rw [cons_append, utf8_ascii hc.1, whitespace, dropWhile_cons_of_pos hc.2]
    exact ih fun d hd => h d (by simp [hd])

/-! ### Strings -/

theorem hexValue_digitChar (d : Fin 16) : hexValue (byte (Nat.digitChar d)) = d.val := by
  revert d
  decide

theorem isHexDigit_digitChar (d : Fin 16) : isHexDigit (byte (Nat.digitChar d)) = true := by
  revert d
  decide

theorem utf8_digitChar (d : Fin 16) (cs : List Char) :
    utf8 (Nat.digitChar d :: cs) = byte (Nat.digitChar d) :: utf8 cs := by
  have h : ∀ d : Fin 16, (Nat.digitChar d).toNat < 128 := by decide
  exact utf8_ascii (h d) cs

theorem hexQuad_hex4 {n : ℕ} (h : n < 0x10000) (cs : List Char) :
    hexQuad total (utf8 (hex4 n ++ cs)) = .ok (UInt16.ofNat n, utf8 cs) := by
  obtain ⟨a, ha⟩ : ∃ a : Fin 16, a.val = n / 4096 % 16 := ⟨⟨_, Nat.mod_lt _ (by decide)⟩, rfl⟩
  obtain ⟨b, hb⟩ : ∃ b : Fin 16, b.val = n / 256 % 16 := ⟨⟨_, Nat.mod_lt _ (by decide)⟩, rfl⟩
  obtain ⟨c, hc⟩ : ∃ c : Fin 16, c.val = n / 16 % 16 := ⟨⟨_, Nat.mod_lt _ (by decide)⟩, rfl⟩
  obtain ⟨d, hd⟩ : ∃ d : Fin 16, d.val = n % 16 := ⟨⟨_, Nat.mod_lt _ (by decide)⟩, rfl⟩
  have hbytes : utf8 (hex4 n ++ cs) = byte (Nat.digitChar a) :: byte (Nat.digitChar b) ::
      byte (Nat.digitChar c) :: byte (Nat.digitChar d) :: utf8 cs := by
    rw [hex4, ← ha, ← hb, ← hc, ← hd]
    simp only [cons_append, nil_append, utf8_digitChar]
  have hvalue : fromHex [byte (Nat.digitChar a), byte (Nat.digitChar b), byte (Nat.digitChar c),
      byte (Nat.digitChar d)] = UInt16.ofNat n := by
    simp only [fromHex, foldl_cons, foldl_nil, hexValue_digitChar]
    congr 1
    omega
  rw [hbytes, hexQuad]
  simp [isHexDigit_digitChar, hvalue]

theorem escape_short {c e : Char} (h : (e, c) ∈ [('"', '"'), ('\\', '\\'), ('/', '/'), ('b', Char.ofNat 8),
    ('f', Char.ofNat 12), ('n', '\n'), ('r', '\r'), ('t', '\t')]) (cs : List Char) :
    escape total (utf8 (e :: cs)) = .ok (encodeChar c, utf8 cs) := by
  simp only [mem_cons, Prod.mk.injEq, not_mem_nil, or_false] at h
  rcases h with ⟨rfl, rfl⟩ | ⟨rfl, rfl⟩ | ⟨rfl, rfl⟩ | ⟨rfl, rfl⟩ | ⟨rfl, rfl⟩ | ⟨rfl, rfl⟩ |
    ⟨rfl, rfl⟩ | ⟨rfl, rfl⟩ <;> (rw [utf8_ascii (by decide)]; rfl)

theorem escape_unit {n : ℕ} (h : n < 0x10000) (cs : List Char) :
    escape total (utf8 ('u' :: (hex4 n ++ cs))) = .ok ([UInt16.ofNat n], utf8 cs) := by
  have hu : escape total (byte 'u' :: utf8 (hex4 n ++ cs)) =
      (hexQuad total (utf8 (hex4 n ++ cs))).bind fun quad => .ok ([quad.1], quad.2) := rfl
  rw [utf8_ascii (by decide), hu, hexQuad_hex4 h]
  rfl

theorem stringLoop_escape {cs rest : List Char} {units : Units}
    (h : escape total (utf8 cs) = .ok (units, utf8 rest)) (turns : ℕ) (output : Units) :
    stringLoop total (turns + 1) (utf8 ('\\' :: cs)) output =
      stringLoop total turns (utf8 rest) (output ++ units) := by
  have hstep : stringLoop total (turns + 1) (byte '\\' :: utf8 cs) output =
      (escape total (utf8 cs)).bind fun escaped => stringLoop total turns escaped.2 (output ++ escaped.1) := rfl
  rw [utf8_ascii (by decide), hstep, h]
  rfl

theorem stringLoop_unescaped {c : Char} (hquote : c ≠ '"') (hback : c ≠ '\\') (hcontrol : ¬c.toNat ≤ 0x1f)
    (cs : List Char) (turns : ℕ) (output : Units) :
    stringLoop total (turns + 1) (utf8 (c :: cs)) output =
      stringLoop total turns (utf8 cs) (output ++ encodeChar c) := by
  obtain ⟨b, rest, hbytes, hb⟩ := utf8_unescaped hquote hback hcontrol cs
  have hdrop : (b :: rest).drop c.utf8Size = utf8 cs := by
    rw [← hbytes, utf8_cons]
    exact drop_left' (String.length_utf8EncodeChar c)
  have hdecode : fromUtf8 (b :: rest) = some (c :: cs) := by rw [← hbytes, fromUtf8_utf8]
  rw [hbytes, stringLoop, if_neg hb.1, if_neg hb.2.1, if_neg hb.2.2, hdecode]
  dsimp only
  rw [hdrop]

/-! ### Numbers -/

/-- What may stand after a value. -/
def Follows (cs : List Char) : Prop :=
  cs = [] ∨ ∃ c rest, cs = c :: rest ∧ c ∈ [' ', '\n', '\r', '\t', ',', ']', '\x7d']

/-- Neither a digit nor a point starts here. -/
def EndsWhole (source : Source) : Prop := startsDigit source = false ∧ takeByte (byte '.') source = none

theorem Follows.ends {cs : List Char} (h : Follows cs) : EndsWhole (utf8 cs) := by
  rcases h with rfl | ⟨c, rest, rfl, hc⟩
  · exact ⟨rfl, rfl⟩
  · simp only [mem_cons, not_mem_nil, or_false] at hc
    rcases hc with rfl | rfl | rfl | rfl | rfl | rfl | rfl <;>
      (rw [utf8_ascii (by decide)]; exact ⟨rfl, rfl⟩)

theorem digits_utf8 {ds : List Char} (h : Digits ds) {next : List Char} (hnext : startsDigit (utf8 next) = false) :
    digits (utf8 (ds ++ next)) = utf8 next := by
  induction ds with
  | nil =>
    rw [nil_append]
    cases hbytes : utf8 next with
    | nil => rfl
    | cons b rest =>
      rw [hbytes, startsDigit] at hnext
      rw [digits, dropWhile_cons_of_neg (by simp [hnext])]
  | cons d ds ih =>
    have hd := h d (by simp)
    rw [cons_append, utf8_ascii (toNat_digit hd), digits, dropWhile_cons_of_pos (isDigit_byte hd)]
    exact ih fun e he => h e (by simp [he])

theorem whole_utf8 {cs next : List Char} (h : Whole cs) (hnext : startsDigit (utf8 next) = false) :
    whole total (utf8 (cs ++ next)) = .ok (utf8 next) := by
  cases h with
  | zero =>
    rw [singleton_append, utf8_ascii (by decide), whole, if_pos rfl]
  | @digits c cs hc hne hcs =>
    have hbyte : byte c ≠ byte '0' := by
      have hall : ∀ n : Fin 128, Char.ofNat n ≠ '0' → byte (Char.ofNat n) ≠ byte '0' := by decide
      exact @ascii_induct (fun c => c ≠ '0' → byte c ≠ byte '0') hall c (toNat_digit hc) hne
    rw [cons_append, utf8_ascii (toNat_digit hc), whole, if_neg hbyte, if_pos (isDigit_byte hc),
      digits_utf8 hcs hnext]

theorem fraction_utf8 {cs next : List Char} (h : Fraction cs) (hnext : EndsWhole (utf8 next)) :
    fraction total (utf8 (cs ++ next)) = .ok (utf8 next) := by
  cases h with
  | none => rw [nil_append, fraction, hnext.2]
  | @digits c cs hc hcs =>
    have hdigits : Digits (c :: cs) := forall_mem_cons.mpr ⟨hc, hcs⟩
    have hstarts : startsDigit (utf8 (c :: cs ++ next)) = true := by
      rw [cons_append, utf8_ascii (toNat_digit hc)]
      exact isDigit_byte hc
    rw [cons_append, utf8_ascii (by decide), fraction, takeByte, if_pos rfl]
    dsimp only
    rw [if_pos hstarts, digits_utf8 hdigits hnext.1]

theorem exponent_utf8 {cs next : List Char} (h : NumberExponent cs) (hnext : Follows next) :
    exponent total (utf8 (cs ++ next)) = .ok (utf8 next) := by
  cases h with
  | none =>
    rw [nil_append]
    rcases hnext with rfl | ⟨c, rest, rfl, hc⟩
    · rfl
    · simp only [mem_cons, not_mem_nil, or_false] at hc
      rcases hc with rfl | rfl | rfl | rfl | rfl | rfl | rfl <;> (rw [utf8_ascii (by decide)]; rfl)
  | @digits e c sign cs he hsign hc hcs =>
    have hdigits : Digits (c :: cs) := forall_mem_cons.mpr ⟨hc, hcs⟩
    have hfirst : utf8 (c :: cs ++ next) = byte c :: utf8 (cs ++ next) := by
      rw [cons_append, utf8_ascii (toNat_digit hc)]
    have hstarts : startsDigit (utf8 (c :: cs ++ next)) = true := by
      rw [hfirst]
      exact isDigit_byte hc
    have hsigned : exponentSign (utf8 (sign ++ (c :: cs ++ next))) = utf8 (c :: cs ++ next) := by
      rcases hsign with rfl | rfl | rfl
      · have hall : ∀ n : Fin 128, (Char.ofNat n).isDigit = true →
            ¬ (byte (Char.ofNat n) = byte '+' ∨ byte (Char.ofNat n) = byte '-') := by decide
        have hbyte := @ascii_induct (fun c => c.isDigit = true → ¬ (byte c = byte '+' ∨ byte c = byte '-')) hall c (toNat_digit hc) hc
        rw [nil_append, hfirst, exponentSign, if_neg hbyte]
      all_goals
        rw [singleton_append, utf8_ascii (by decide)]
        rfl
    have hread : exponent total (byte e :: utf8 (sign ++ (c :: cs ++ next))) =
        exponentDigits total (exponentSign (utf8 (sign ++ (c :: cs ++ next)))) := by
      rcases he with rfl | rfl <;> rfl
    have he' : e.toNat < 128 := by
      rcases he with rfl | rfl <;> decide
    have hassoc : e :: (sign ++ c :: cs) ++ next = e :: (sign ++ (c :: cs ++ next)) := by simp
    rw [hassoc, utf8_ascii he', hread, hsigned, exponentDigits, if_pos hstarts, digits_utf8 hdigits hnext.ends.1]

theorem NumberExponent.ends {cs next : List Char} (h : NumberExponent cs) (hnext : Follows next) :
    EndsWhole (utf8 (cs ++ next)) := by
  cases h with
  | none => exact hnext.ends
  | digits he =>
    rcases he with rfl | rfl <;> (rw [cons_append, utf8_ascii (by decide)]; exact ⟨rfl, rfl⟩)

theorem Fraction.startsDigit {cs next : List Char} (h : Fraction cs) (hnext : EndsWhole (utf8 next)) :
    startsDigit (utf8 (cs ++ next)) = false := by
  cases h with
  | none => exact hnext.1
  | digits =>
    rw [cons_append, utf8_ascii (by decide)]
    rfl

theorem takeByte_sign {sign cs : List Char} (hsign : sign = [] ∨ sign = ['-']) {next : List Char} (h : Whole cs) :
    (takeByte (byte '-') (utf8 (sign ++ cs ++ next))).getD (utf8 (sign ++ cs ++ next)) = utf8 (cs ++ next) := by
  rcases hsign with rfl | rfl
  · have hnone : takeByte (byte '-') (utf8 (cs ++ next)) = none := by
      cases h with
      | zero =>
        rw [singleton_append, utf8_ascii (by decide)]
        rfl
      | @digits c cs hc hne hcs =>
        have hall : ∀ n : Fin 128, (Char.ofNat n).isDigit = true → byte (Char.ofNat n) ≠ byte '-' := by decide
        have hbyte := @ascii_induct (fun c => c.isDigit = true → byte c ≠ byte '-') hall c (toNat_digit hc) hc
        rw [cons_append, utf8_ascii (toNat_digit hc), takeByte, if_neg hbyte]
    rw [nil_append, hnone, Option.getD_none]
  · rw [append_assoc, singleton_append, utf8_ascii (by decide), takeByte, if_pos rfl, Option.getD_some]

theorem number_utf8 {cs next : List Char} (h : Number cs) (hnext : Follows next) {value : F}
    (hparse : floats.parse cs = some value) :
    number floats total (utf8 (cs ++ next)) = .ok (.number value, utf8 next) := by
  have hspelling : fromUtf8 ((utf8 (cs ++ next)).take ((utf8 (cs ++ next)).length - (utf8 next).length)) =
      some cs := by
    rw [utf8_append, length_append, Nat.add_sub_cancel, take_left, fromUtf8_utf8]
  obtain ⟨sign, w, f, e, hcs, hsign, hwhole, hfraction, hexponent⟩ := h
  have hsource : utf8 (cs ++ next) = utf8 (sign ++ w ++ (f ++ (e ++ next))) := by simp [hcs]
  have hends := hexponent.ends hnext
  have hafterWhole : whole total ((takeByte (byte '-') (utf8 (cs ++ next))).getD (utf8 (cs ++ next))) =
      .ok (utf8 (f ++ (e ++ next))) := by
    rw [hsource, takeByte_sign hsign hwhole, whole_utf8 hwhole (hfraction.startsDigit hends)]
  simp only [number, hafterWhole, Except.bind, fraction_utf8 hfraction hends, exponent_utf8 hexponent hnext,
    hspelling, hparse]

end Scriptc.RuntimeRust.Json
