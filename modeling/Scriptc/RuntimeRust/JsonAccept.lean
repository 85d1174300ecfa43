import Scriptc.Lib.Loop
import Scriptc.RuntimeRust.JsonSource

/-!
# What the parser accepts

The texts of the grammar and no others, with their values.
-/

namespace Scriptc.RuntimeRust.Json

open Scriptc.Utf16 List

variable {F : Type} {floats : Floats F} {total : ℕ}

/-! ### Numbers -/

theorem takeByte_inv {b : UInt8} {source rest : Source} (h : takeByte b source = some rest) : source = b :: rest := by
  cases source with
  | nil => cases h
  | cons next source =>
    rw [takeByte] at h
    split_ifs at h with heq
    cases h
    rw [heq]

theorem isDigit_inv {b : UInt8} (h : isDigit b = true) : ∃ c, c.isDigit = true ∧ b = byte c := by
  simp only [isDigit, Bool.and_eq_true, decide_eq_true_eq, UInt8.le_iff_toNat_le] at h
  have hnine : (byte '9').toNat = 57 := rfl
  obtain ⟨c, hc, rfl⟩ := exists_byte (by omega : b.toNat < 128)
  have hall : ∀ n : Fin 128, (byte '0').toNat ≤ (byte (Char.ofNat n)).toNat ∧ (byte (Char.ofNat n)).toNat ≤ (byte '9').toNat →
      (Char.ofNat n).isDigit = true := by decide
  exact ⟨c, @ascii_induct (fun c => (byte '0').toNat ≤ (byte c).toNat ∧ (byte c).toNat ≤ (byte '9').toNat → c.isDigit = true) hall c hc h, rfl⟩

theorem digits_sound (source : Source) : ∃ cs, Digits cs ∧ source = cs.map byte ++ digits source := by
  obtain ⟨cs, hcs, hdigits⟩ : ∃ cs : List Char, source.takeWhile isDigit = cs.map byte ∧ ∀ c ∈ cs, c.isDigit = true :=
    exists_map fun b hb => isDigit_inv (mem_takeWhile_imp hb)
  exact ⟨cs, hdigits, by rw [← hcs]; exact takeWhile_append_dropWhile.symm⟩

/-- One digit at least. -/
theorem startsDigit_sound {source : Source} (h : startsDigit source = true) :
    ∃ c cs, c.isDigit = true ∧ Digits cs ∧ source = (c :: cs).map byte ++ digits source := by
  cases source with
  | nil => cases h
  | cons b rest =>
    obtain ⟨c, hc, rfl⟩ := isDigit_inv h
    obtain ⟨cs, hcs, hrest⟩ := digits_sound rest
    have hdrop : digits (byte c :: rest) = digits rest := dropWhile_cons_of_pos h
    exact ⟨c, cs, hc, hcs, by rw [hdrop, map_cons, cons_append, ← hrest]⟩

theorem whole_sound {source rest : Source} (h : whole total source = .ok rest) : ∃ cs, Whole cs ∧ source = cs.map byte ++ rest := by
  cases source with
  | nil => cases h
  | cons b source =>
    rw [whole] at h
    split_ifs at h with hzero hdigit
    · cases h
      exact ⟨_, .zero, by rw [hzero]; rfl⟩
    · cases h
      obtain ⟨c, hc, rfl⟩ := isDigit_inv hdigit
      obtain ⟨cs, hcs, hrest⟩ := digits_sound source
      exact ⟨_, .digits hc (fun heq => hzero (by rw [heq])) hcs, by rw [map_cons, cons_append, ← hrest]⟩
    · cases h

theorem fraction_sound {source rest : Source} (h : fraction total source = .ok rest) : ∃ cs, Fraction cs ∧ source = cs.map byte ++ rest := by
  rw [fraction] at h
  cases hpoint : takeByte (byte '.') source with
  | none =>
    rw [hpoint] at h
    cases h
    exact ⟨[], .none, rfl⟩
  | some after =>
    rw [hpoint] at h
    dsimp only at h
    split_ifs at h with hstarts
    · cases h
      obtain ⟨c, cs, hc, hcs, hafter⟩ := startsDigit_sound hstarts
      exact ⟨_, .digits hc hcs, by rw [takeByte_inv hpoint, map_cons, cons_append, ← hafter]⟩
    · cases h

theorem exponentSign_sound (source : Source) : ∃ sign, (sign = [] ∨ sign = ['+'] ∨ sign = ['-']) ∧
    source = sign.map byte ++ exponentSign source := by
  cases source with
  | nil => exact ⟨[], .inl rfl, rfl⟩
  | cons b rest =>
    rw [exponentSign]
    split_ifs with hsign
    · rcases hsign with rfl | rfl
      · exact ⟨['+'], .inr (.inl rfl), rfl⟩
      · exact ⟨['-'], .inr (.inr rfl), rfl⟩
    · exact ⟨[], .inl rfl, rfl⟩

theorem exponent_sound {source rest : Source} (h : exponent total source = .ok rest) :
    ∃ cs, NumberExponent cs ∧ source = cs.map byte ++ rest := by
  cases source with
  | nil =>
    cases h
    exact ⟨[], .none, rfl⟩
  | cons b source =>
    rw [exponent] at h
    split_ifs at h with hmark
    · rw [exponentDigits] at h
      split_ifs at h with hstarts
      · cases h
        obtain ⟨sign, hsign, hsource⟩ := exponentSign_sound source
        obtain ⟨c, cs, hc, hcs, hdigits⟩ := startsDigit_sound hstarts
        obtain ⟨e, he, rfl⟩ : ∃ e, (e = 'e' ∨ e = 'E') ∧ b = byte e := by
          rcases hmark with rfl | rfl
          · exact ⟨'e', .inl rfl, rfl⟩
          · exact ⟨'E', .inr rfl, rfl⟩
        refine ⟨_, .digits he hsign hc hcs, ?_⟩
        rw [map_cons, map_append, cons_append, append_assoc, ← hdigits, ← hsource]
      · cases h
    · cases h
      exact ⟨[], .none, rfl⟩

theorem Digits.token {cs : List Char} (h : Digits cs) : ∀ c ∈ cs, Token c := by
  have hall : ∀ n : Fin 128, (Char.ofNat n).isDigit = true → Char.ofNat n ≠ '"' := by decide
  intro c hc
  have hdigit := h c hc
  exact ⟨toNat_digit hdigit, @ascii_induct (fun c => c.isDigit = true → c ≠ '"') hall c (toNat_digit hdigit) hdigit⟩

theorem Number.token {cs : List Char} (h : Number cs) : ∀ c ∈ cs, Token c := by
  obtain ⟨sign, whole, fraction, exponent, rfl, hsign, hwhole, hfraction, hexponent⟩ := h
  have hfirst {c : Char} {ds : List Char} (hc : c.isDigit = true) (hds : Digits ds) : ∀ d ∈ c :: ds, Token d :=
    Digits.token (forall_mem_cons.mpr ⟨hc, hds⟩)
  simp only [forall_mem_append]
  refine ⟨⟨⟨?_, ?_⟩, ?_⟩, ?_⟩
  · rcases hsign with rfl | rfl <;> decide
  · cases hwhole with
    | zero => decide
    | digits hc _ hcs => exact hfirst hc hcs
  · cases hfraction with
    | none => simp
    | digits hc hcs => exact forall_mem_cons.mpr ⟨by decide, hfirst hc hcs⟩
  · cases hexponent with
    | none => simp
    | digits he hs hc hcs =>
      refine forall_mem_cons.mpr ⟨?_, forall_mem_append.mpr ⟨?_, hfirst hc hcs⟩⟩
      · rcases he with rfl | rfl <;> decide
      · rcases hs with rfl | rfl | rfl <;> decide

theorem number_sound {source rest : Source} {node : JsonNode F} (h : number floats total source = .ok (node, rest)) :
    ∃ cs value, Number cs ∧ floats.parse cs = some value ∧ node = .number value ∧ source = cs.map byte ++ rest := by
  rw [number] at h
  obtain ⟨sign, hsign, hsource⟩ : ∃ sign, (sign = [] ∨ sign = ['-']) ∧
      source = sign.map byte ++ (takeByte (byte '-') source).getD source := by
    cases hminus : takeByte (byte '-') source with
    | none => exact ⟨[], .inl rfl, rfl⟩
    | some after => exact ⟨['-'], .inr rfl, takeByte_inv hminus⟩
  obtain ⟨afterWhole, hwhole, h⟩ := Except.bind_eq_ok.mp h
  obtain ⟨afterFraction, hfraction, h⟩ := Except.bind_eq_ok.mp h
  obtain ⟨after, hexponent, hread⟩ := Except.bind_eq_ok.mp h
  obtain ⟨w, hw, hsplit⟩ := whole_sound hwhole
  obtain ⟨f, hf, rfl⟩ := fraction_sound hfraction
  obtain ⟨e, he, rfl⟩ := exponent_sound hexponent
  have hnumber : Number (sign ++ w ++ f ++ e) := ⟨sign, w, f, e, rfl, hsign, hw, hf, he⟩
  have hcs : source = (sign ++ w ++ f ++ e).map byte ++ after := by
    rw [hsource, hsplit]
    simp only [map_append, append_assoc]
  have hspelling : fromUtf8 (source.take (source.length - after.length)) = some (sign ++ w ++ f ++ e) := by
    have hbytes := utf8_token hnumber.token []
    rw [append_nil, utf8_nil, append_nil] at hbytes
    rw [hcs, length_append, Nat.add_sub_cancel, take_left, ← hbytes, fromUtf8_utf8]
  rw [hspelling] at hread
  cases hparse : floats.parse (sign ++ w ++ f ++ e) with
  | none => simp only [hparse, reduceCtorEq] at hread
  | some value =>
    simp only [hparse, Except.ok.injEq, Prod.mk.injEq] at hread
    obtain ⟨rfl, rfl⟩ := hread
    exact ⟨_, value, hnumber, hparse, rfl, hcs⟩

/-! ### Values that are read -/

/-- The spellings that the parser reads as numbers, with what it reads. -/
def Floats.Reads (floats : Floats F) (cs : List Char) (value : F) : Prop := Number cs ∧ floats.parse cs = some value

/-- What is read of a text stands in it, as the grammar has it. -/
def Sound {α : Type} (read : Source → Except String (α × Source)) (grammar : Units → α → Prop) : Prop :=
  ∀ us read' rest, read (utf8 (unquoted us)) = .ok (read', rest) → ∃ text us', us = text ++ us' ∧ grammar text read' ∧ rest = utf8 (unquoted us')

theorem keyword_sound {word : List Char} (hword : ∀ c ∈ word, Token c) {us : Units} {rest : Source}
    (h : keyword total (utf8 word) (utf8 (unquoted us)) = .ok rest) : ∃ us', us = word.map unit ++ us' ∧ rest = utf8 (unquoted us') := by
  have hbytes := utf8_token hword []
  rw [append_nil, utf8_nil, append_nil] at hbytes
  rw [keyword] at h
  split_ifs at h with htake
  · cases h
    refine unquoted_token_inv hword ?_
    conv_lhs => rw [← take_append_drop (utf8 word).length (utf8 (unquoted us)), htake]
    rw [hbytes]
  · cases h

section

variable {number : List Char → F → Prop}

theorem Blanks.nil : Blanks [] := forall_mem_nil _

theorem Blanks.append {us vs : Units} (hus : Blanks us) (hvs : Blanks vs) : Blanks (us ++ vs) :=
  forall_mem_append.mpr ⟨hus, hvs⟩

theorem Elements.blanks {before us : Units} {values : List (JsonNode F)} (hbefore : Blanks before) (h : Elements number us values) :
    Elements number (before ++ us) values := by
  cases h with
  | last hb hvalue ha =>
    rw [← append_assoc]
    exact .last (hbefore.append hb) hvalue ha
  | cons hb hvalue ha hrest =>
    rw [← append_assoc]
    exact .cons (hbefore.append hb) hvalue ha hrest

theorem Members.blanks {before us : Units} {fields : List (Units × JsonNode F)} (hbefore : Blanks before) (h : Members number us fields) :
    Members number (before ++ us) fields := by
  cases h with
  | last hb hname hvalue ha =>
    rw [← append_assoc]
    exact .last (hbefore.append hb) hname hvalue ha
  | cons hb hname hvalue ha hrest =>
    rw [← append_assoc]
    exact .cons (hbefore.append hb) hname hvalue ha hrest

/-- A value with blanks before it, as `value` reads it. -/
def Spaced (number : List Char → F → Prop) (text : Units) (value : JsonNode F) : Prop :=
  ∃ before us, text = before ++ us ∧ Blanks before ∧ Value number us value

/-- The elements with the bracket after them. -/
def Closed (number : List Char → F → Prop) (text : Units) (values : List (JsonNode F)) : Prop :=
  ∃ us, text = us ++ [unit ']'] ∧ Elements number us values

/-- The members with the brace after them. -/
def ClosedMembers (number : List Char → F → Prop) (text : Units) (fields : List (Units × JsonNode F)) : Prop :=
  ∃ us, text = us ++ [unit '\x7d'] ∧ Members number us fields

end

theorem value_step {fuel : ℕ} (helements : Sound (elements floats total fuel) (Closed floats.Reads))
    (hproperties : Sound (properties floats total fuel) (ClosedMembers floats.Reads)) :
    Sound (value floats total (fuel + 1)) (Spaced floats.Reads) := by
  intro us node rest h
  obtain ⟨before, us, rfl, hbefore, hspace⟩ := whitespace_unquoted us
  suffices hvalue : ∃ text us', us = text ++ us' ∧ Value floats.Reads text node ∧ rest = utf8 (unquoted us') by
    obtain ⟨text, us', rfl, htext, hrest⟩ := hvalue
    exact ⟨before ++ text, us', (append_assoc _ _ _).symm, ⟨before, text, rfl, hbefore, htext⟩, hrest⟩
  rw [value, hspace] at h
  cases hsource : utf8 (unquoted us) with
  | nil =>
    rw [hsource] at h
    cases h
  | cons b source =>
    have hword {word : List Char} {v : JsonNode F} (hword : ∀ c ∈ word, Token c) (hvalue : Value floats.Reads (word.map unit) v)
        (h : ((keyword total (utf8 word) (b :: source)).bind fun rest => .ok (v, rest)) = .ok (node, rest)) :
        ∃ text us', us = text ++ us' ∧ Value floats.Reads text node ∧ rest = utf8 (unquoted us') := by
      obtain ⟨after, hkeyword, hread⟩ := Except.bind_eq_ok.mp h
      rw [← hsource] at hkeyword
      cases hread
      obtain ⟨us', hus, hrest⟩ := keyword_sound hword hkeyword
      exact ⟨_, us', hus, hvalue, hrest⟩
    rw [hsource] at h
    dsimp only at h
    split_ifs at h with hn ht hf hquote hbracket hbrace hdigit
    · exact hword (by decide) .null h
    · exact hword (by decide) (.bool true) h
    · exact hword (by decide) (.bool false) h
    · rw [hquote] at hsource
      obtain ⟨us', rfl, rfl⟩ := unquoted_byte (by decide) hsource
      obtain ⟨read, hstring, hread⟩ := Except.bind_eq_ok.mp h
      cases hread
      obtain ⟨body, us'', rfl, hbody, hrest⟩ := string_sound (show _ = Except.ok (read.1, read.2) from hstring)
      exact ⟨_, us'', by simp, .string hbody, hrest⟩
    · rw [hbracket] at hsource
      obtain ⟨us', rfl, rfl⟩ := unquoted_byte (by decide) hsource
      obtain ⟨blanks, us'', rfl, hblanks, hspace⟩ := whitespace_unquoted us'
      rw [if_neg (by decide), hspace] at h
      cases htake : takeByte (byte ']') (utf8 (unquoted us'')) with
      | some after =>
        rw [htake] at h
        cases h
        obtain ⟨us', rfl, hrest⟩ := unquoted_byte (by decide) (takeByte_inv htake)
        exact ⟨_, us', by simp, .emptyArray hblanks, hrest⟩
      | none =>
        rw [htake] at h
        obtain ⟨read, helems, hread⟩ := Except.bind_eq_ok.mp h
        cases hread
        obtain ⟨text, us', rfl, ⟨es, rfl, hes⟩, hrest⟩ := helements _ _ _ helems
        exact ⟨_, us', by simp, .array (hes.blanks hblanks), hrest⟩
    · rw [hbrace] at hsource
      obtain ⟨us', rfl, rfl⟩ := unquoted_byte (by decide) hsource
      obtain ⟨blanks, us'', rfl, hblanks, hspace⟩ := whitespace_unquoted us'
      rw [if_neg (by decide), hspace] at h
      cases htake : takeByte (byte '\x7d') (utf8 (unquoted us'')) with
      | some after =>
        rw [htake] at h
        cases h
        obtain ⟨us', rfl, hrest⟩ := unquoted_byte (by decide) (takeByte_inv htake)
        exact ⟨_, us', by simp, .emptyObject hblanks, hrest⟩
      | none =>
        rw [htake] at h
        obtain ⟨read, hmembers, hread⟩ := Except.bind_eq_ok.mp h
        cases hread
        obtain ⟨text, us', rfl, ⟨ms, rfl, hms⟩, hrest⟩ := hproperties _ _ _ hmembers
        exact ⟨_, us', by simp, .object (hms.blanks hblanks), hrest⟩
    · obtain ⟨cs, x, hcs, hparse, rfl, hsplit⟩ := number_sound h
      obtain ⟨us', rfl, hrest⟩ := unquoted_token_inv hcs.token (hsource.trans hsplit)
      exact ⟨_, us', rfl, .number ⟨hcs, hparse⟩, hrest⟩
    · cases h

theorem elements_step {fuel : ℕ} (hvalue : Sound (value floats total fuel) (Spaced floats.Reads))
    (helements : Sound (elements floats total fuel) (Closed floats.Reads)) :
    Sound (elements floats total (fuel + 1)) (Closed floats.Reads) := by
  intro us values rest h
  rw [elements] at h
  obtain ⟨read, hread, htail⟩ := Except.bind_eq_ok.mp h
  obtain ⟨text, us, rfl, ⟨before, body, rfl, hbefore, hbody⟩, hrest⟩ := hvalue _ _ _ hread
  obtain ⟨after, us, rfl, hafter, hspace⟩ := whitespace_unquoted us
  rw [hrest, hspace] at htail
  cases htake : takeByte (byte ']') (utf8 (unquoted us)) with
  | some source =>
    rw [htake] at htail
    cases htail
    obtain ⟨us', rfl, hsource⟩ := unquoted_byte (by decide) (takeByte_inv htake)
    exact ⟨_, us', by simp, ⟨_, rfl, .last hbefore hbody hafter⟩, hsource⟩
  | none =>
    rw [htake] at htail
    cases hcomma : takeByte (byte ',') (utf8 (unquoted us)) with
    | none =>
      rw [hcomma] at htail
      cases htail
    | some source =>
      rw [hcomma] at htail
      obtain ⟨us', rfl, rfl⟩ := unquoted_byte (by decide) (takeByte_inv hcomma)
      rw [if_neg (by decide)] at htail
      obtain ⟨more, hmore, hend⟩ := Except.bind_eq_ok.mp htail
      cases hend
      obtain ⟨text, us'', rfl, ⟨es, rfl, hes⟩, hsource⟩ := helements _ _ _ hmore
      exact ⟨_, us'', by simp, ⟨_, rfl, .cons hbefore hbody hafter hes⟩, hsource⟩

theorem properties_step {fuel : ℕ} (hvalue : Sound (value floats total fuel) (Spaced floats.Reads))
    (hproperties : Sound (properties floats total fuel) (ClosedMembers floats.Reads)) :
    Sound (properties floats total (fuel + 1)) (ClosedMembers floats.Reads) := by
  intro us fields rest h
  obtain ⟨before, us, rfl, hbefore, hspace⟩ := whitespace_unquoted us
  rw [properties, hspace] at h
  cases hquote : takeByte (byte '"') (utf8 (unquoted us)) with
  | none =>
    rw [hquote] at h
    cases h
  | some source =>
  rw [hquote] at h
  obtain ⟨us, rfl, rfl⟩ := unquoted_byte (by decide) (takeByte_inv hquote)
  obtain ⟨name, hname, hcont⟩ := Except.bind_eq_ok.mp h
  obtain ⟨chars, us, rfl, hchars, hrest⟩ := string_sound (show _ = Except.ok (name.1, name.2) from hname)
  obtain ⟨gap, us, rfl, hgap, hskip⟩ := whitespace_unquoted us
  rw [hrest, hskip] at hcont
  cases hcolon : takeByte (byte ':') (utf8 (unquoted us)) with
  | none =>
    rw [hcolon] at hcont
    cases hcont
  | some source =>
  rw [hcolon] at hcont
  obtain ⟨us, rfl, rfl⟩ := unquoted_byte (by decide) (takeByte_inv hcolon)
  rw [if_neg (by decide)] at hcont
  obtain ⟨read, hread, htail⟩ := Except.bind_eq_ok.mp hcont
  obtain ⟨text, us, rfl, ⟨between, body, rfl, hbetween, hbody⟩, hnext⟩ := hvalue _ _ _ hread
  obtain ⟨after, us, rfl, hafter, hclose⟩ := whitespace_unquoted us
  rw [hnext, hclose] at htail
  have hmember : Name (unit '"' :: (chars ++ unit '"' :: (gap ++ unit ':' :: between))) name.1 := .mk hchars hgap hbetween
  cases htake : takeByte (byte '\x7d') (utf8 (unquoted us)) with
  | some source =>
    rw [htake] at htail
    cases htail
    obtain ⟨us', rfl, hsource⟩ := unquoted_byte (by decide) (takeByte_inv htake)
    exact ⟨_, us', by simp, ⟨_, rfl, .last hbefore hmember hbody hafter⟩, hsource⟩
  | none =>
    rw [htake] at htail
    cases hcomma : takeByte (byte ',') (utf8 (unquoted us)) with
    | none =>
      rw [hcomma] at htail
      cases htail
    | some source =>
      rw [hcomma] at htail
      obtain ⟨us', rfl, rfl⟩ := unquoted_byte (by decide) (takeByte_inv hcomma)
      rw [if_neg (by decide)] at htail
      obtain ⟨more, hmore, hend⟩ := Except.bind_eq_ok.mp htail
      cases hend
      obtain ⟨text, us'', rfl, ⟨ms, rfl, hms⟩, hsource⟩ := hproperties _ _ _ hmore
      exact ⟨_, us'', by simp, ⟨_, rfl, .cons hbefore hmember hbody hafter hms⟩, hsource⟩

theorem value_sound (fuel : ℕ) : Sound (value floats total fuel) (Spaced floats.Reads) ∧
    Sound (elements floats total fuel) (Closed floats.Reads) ∧ Sound (properties floats total fuel) (ClosedMembers floats.Reads) := by
  induction fuel with
  | zero =>
    refine ⟨?_, ?_, ?_⟩
    all_goals
      intro us read rest h
      cases h
  | succ fuel ih =>
    obtain ⟨hvalue, helements, hproperties⟩ := ih
    exact ⟨value_step helements hproperties, elements_step hvalue helements, properties_step hvalue hproperties⟩

/-! ### Values of the grammar -/

/-- The first character of a value's text. -/
def Opening (c : Char) : Prop := c ∈ ['n', 't', 'f', '"', '[', '\x7b', '-'] ∨ c.isDigit = true

instance (c : Char) : Decidable (Opening c) := inferInstanceAs (Decidable (_ ∨ _))

theorem Opening.ascii {c : Char} (h : Opening c) : c.toNat < 128 := by
  rcases h with h | h
  · simp only [mem_cons, not_mem_nil, or_false] at h
    rcases h with rfl | rfl | rfl | rfl | rfl | rfl | rfl <;> decide
  · exact toNat_digit h

theorem Opening.byte {c : Char} (h : Opening c) :
    isBlank (byte c) = false ∧ byte c ≠ byte ']' ∧ byte c ≠ byte '\x7d' := by
  have hall : ∀ n : Fin 128, Opening (Char.ofNat n) → isBlank (Json.byte (Char.ofNat n)) = false ∧
      Json.byte (Char.ofNat n) ≠ Json.byte ']' ∧ Json.byte (Char.ofNat n) ≠ Json.byte '\x7d' := by
    decide
  exact @ascii_induct (fun c => Opening c → isBlank (Json.byte c) = false ∧ Json.byte c ≠ Json.byte ']' ∧
    Json.byte c ≠ Json.byte '\x7d') hall c h.ascii h

theorem Number.opening {cs : List Char} (h : Number cs) : ∃ c rest, cs = c :: rest ∧ (c = '-' ∨ c.isDigit = true) := by
  obtain ⟨sign, w, f, e, rfl, hsign, hwhole, -⟩ := h
  rcases hsign with rfl | rfl
  · cases hwhole with
    | zero => exact ⟨'0', f ++ e, by simp, .inr (by decide)⟩
    | @digits c cs hc => exact ⟨c, cs ++ f ++ e, by simp, .inr hc⟩
  · exact ⟨'-', w ++ f ++ e, by simp, .inl rfl⟩

theorem Value.opening {us : Units} {node : JsonNode F} (h : Value floats.Reads us node) : ∃ c rest, us = unit c :: rest ∧ Opening c := by
  cases h with
  | null => exact ⟨'n', _, rfl, by decide⟩
  | bool b =>
    cases b with
    | false => exact ⟨'f', _, rfl, by decide⟩
    | true => exact ⟨'t', _, rfl, by decide⟩
  | number h =>
    obtain ⟨c, rest, rfl, hc⟩ := h.1.opening
    refine ⟨c, _, rfl, ?_⟩
    rcases hc with rfl | hc
    · decide
    · exact .inr hc
  | string => exact ⟨'"', _, rfl, by decide⟩
  | emptyArray => exact ⟨'[', _, rfl, by decide⟩
  | array => exact ⟨'[', _, rfl, by decide⟩
  | emptyObject => exact ⟨'\x7b', _, rfl, by decide⟩
  | object => exact ⟨'\x7b', _, rfl, by decide⟩

theorem unquoted_unit {c : Char} (hc : c.toNat < 128) (us : Units) :
    utf8 (unquoted (unit c :: us)) = byte c :: utf8 (if c = '"' then quoted us else unquoted us) := by
  have hchar := unquoted_char c us
  rw [encodeChar_ascii hc, singleton_append] at hchar
  rw [hchar, utf8_ascii hc]

/-- The next byte, after blanks. -/
theorem whitespace_unit {before : Units} (hbefore : Blanks before) {c : Char} (hc : c.toNat < 128) (hblank : isBlank (byte c) = false)
    (us : Units) : whitespace (utf8 (unquoted (before ++ unit c :: us))) = byte c :: utf8 (if c = '"' then quoted us else unquoted us) := by
  rw [whitespace_append hbefore, unquoted_unit hc, whitespace, dropWhile_cons_of_neg (by rw [hblank]; decide)]

theorem value_blanks {before : Units} (h : Blanks before) (fuel : ℕ) (us : Units) :
    value floats total (fuel + 1) (utf8 (unquoted (before ++ us))) = value floats total (fuel + 1) (utf8 (unquoted us)) := by
  rw [value, value, whitespace_append h]

theorem follows_unit {c : Char} (hc : c ∈ [' ', '\n', '\r', '\t', ',', ']', '\x7d']) (us : Units) : Follows (unquoted (unit c :: us)) := by
  have hascii : c.toNat < 128 ∧ c ≠ '"' := by
    have hall : ∀ c ∈ [' ', '\n', '\r', '\t', ',', ']', '\x7d'], c.toNat < 128 ∧ c ≠ '"' := by decide
    exact hall c hc
  have hchar := unquoted_char c us
  rw [encodeChar_ascii hascii.1, singleton_append, if_neg hascii.2] at hchar
  exact .inr ⟨c, _, hchar, hc⟩

theorem follows_blanks {us : Units} (h : Blanks us) {next : Units} (hnext : Follows (unquoted next)) : Follows (unquoted (us ++ next)) := by
  cases us with
  | nil => exact hnext
  | cons u us =>
    have hu := h u mem_cons_self
    simp only [mem_cons, not_mem_nil, or_false] at hu
    rcases hu with rfl | rfl | rfl | rfl <;> exact follows_unit (by decide) _

/-- The byte that a value begins with is the one that `value` looks at. -/
theorem whitespace_value {us : Units} {node : JsonNode F} (h : Value floats.Reads us node) (next : Units) :
    whitespace (utf8 (unquoted (us ++ next))) = utf8 (unquoted (us ++ next)) ∧
      takeByte (byte ']') (utf8 (unquoted (us ++ next))) = none ∧ takeByte (byte '\x7d') (utf8 (unquoted (us ++ next))) = none := by
  obtain ⟨c, rest, rfl, hc⟩ := h.opening
  obtain ⟨hblank, hbracket, hbrace⟩ := hc.byte
  rw [cons_append, unquoted_unit hc.ascii]
  exact ⟨dropWhile_cons_of_neg (by rw [hblank]; decide), if_neg hbracket, if_neg hbrace⟩

theorem value_number (fuel : ℕ) {cs : List Char} {x : F} (h : floats.Reads cs x) {next : Units} (hnext : Follows (unquoted next)) :
    value floats total (fuel + 1) (utf8 (unquoted (cs.map unit ++ next))) = .ok (.number x, utf8 (unquoted next)) := by
  obtain ⟨c, rest, hcs, hc⟩ := h.1.opening
  have hnumber := @number_utf8 F floats total cs (unquoted next) h.1 hnext x h.2
  have hascii : c.toNat < 128 := (h.1.token c (by rw [hcs]; exact mem_cons_self)).1
  have hall : ∀ n : Fin 128, (Char.ofNat n = '-' ∨ (Char.ofNat n).isDigit = true) →
      byte (Char.ofNat n) ≠ byte 'n' ∧ byte (Char.ofNat n) ≠ byte 't' ∧ byte (Char.ofNat n) ≠ byte 'f' ∧
      byte (Char.ofNat n) ≠ byte '"' ∧ byte (Char.ofNat n) ≠ byte '[' ∧ byte (Char.ofNat n) ≠ byte '\x7b' ∧
      (byte (Char.ofNat n) = byte '-' ∨ isDigit (byte (Char.ofNat n)) = true) ∧ isBlank (byte (Char.ofNat n)) = false := by
    decide
  have hbyte := @ascii_induct (fun c => (c = '-' ∨ c.isDigit = true) → byte c ≠ byte 'n' ∧ byte c ≠ byte 't' ∧ byte c ≠ byte 'f' ∧
    byte c ≠ byte '"' ∧ byte c ≠ byte '[' ∧ byte c ≠ byte '\x7b' ∧ (byte c = byte '-' ∨ isDigit (byte c) = true) ∧
    isBlank (byte c) = false) hall c hascii hc
  rw [unquoted_token h.1.token]
  rw [hcs, cons_append, utf8_ascii hascii] at hnumber ⊢
  rw [value, whitespace, dropWhile_cons_of_neg (by simp [hbyte])]
  simp only [hbyte, if_false, if_true]
  exact hnumber

theorem value_word (fuel : ℕ) {word : List Char} {node : JsonNode F} (hword : ∀ c ∈ word, Token c)
    (hread : ∀ rest, value floats total (fuel + 1) (word.map byte ++ rest) = .ok (node, rest)) (next : Units) :
    value floats total (fuel + 1) (utf8 (unquoted (word.map unit ++ next))) = .ok (node, utf8 (unquoted next)) := by
  rw [unquoted_token hword, utf8_token hword, hread]

theorem whitespace_idem (source : Source) : whitespace (whitespace source) = whitespace source := by
  induction source with
  | nil => rfl
  | cons b source ih =>
    cases hb : isBlank b with
    | true =>
      have hskip : whitespace (b :: source) = whitespace source := dropWhile_cons_of_pos hb
      rw [hskip, ih]
    | false =>
      have hself : whitespace (b :: source) = b :: source := dropWhile_cons_of_neg (by rw [hb]; decide)
      rw [hself, hself]

theorem elements_whitespace (fuel : ℕ) (source : Source) :
    elements floats total (fuel + 2) (whitespace source) = elements floats total (fuel + 2) source := by
  rw [elements, elements, value, value, whitespace_idem]

theorem properties_whitespace (fuel : ℕ) (source : Source) :
    properties floats total (fuel + 1) (whitespace source) = properties floats total (fuel + 1) source := by
  rw [properties, properties, whitespace_idem]

theorem Elements.first {us : Units} {values : List (JsonNode F)} (h : Elements floats.Reads us values) (next : Units) :
    takeByte (byte ']') (whitespace (utf8 (unquoted (us ++ next)))) = none := by
  cases h with
  | last hbefore hvalue _ =>
    rw [append_assoc, append_assoc, whitespace_append hbefore, (whitespace_value hvalue _).1]
    exact (whitespace_value hvalue _).2.1
  | cons hbefore hvalue _ _ =>
    rw [append_assoc, append_assoc, whitespace_append hbefore, (whitespace_value hvalue _).1]
    exact (whitespace_value hvalue _).2.1

theorem whitespace_quote {before : Units} (hbefore : Blanks before) (us : Units) :
    whitespace (utf8 (unquoted (before ++ unit '"' :: us))) = byte '"' :: utf8 (quoted us) := by
  rw [whitespace_unit hbefore (by decide) (by decide), if_pos rfl]

theorem whitespace_mark {before : Units} (hbefore : Blanks before) {c : Char} (hc : c ∈ [',', ':', ']', '\x7d']) (us : Units) :
    whitespace (utf8 (unquoted (before ++ unit c :: us))) = byte c :: utf8 (unquoted us) := by
  have hall : ∀ c ∈ [',', ':', ']', '\x7d'], c.toNat < 128 ∧ isBlank (byte c) = false ∧ c ≠ '"' := by decide
  obtain ⟨hascii, hblank, hne⟩ := hall c hc
  rw [whitespace_unit hbefore hascii hblank, if_neg hne]

theorem Members.first {us : Units} {fields : List (Units × JsonNode F)} (h : Members floats.Reads us fields) (next : Units) :
    takeByte (byte '\x7d') (whitespace (utf8 (unquoted (us ++ next)))) = none := by
  cases h with
  | last hbefore hname _ _ =>
    cases hname
    rw [append_assoc, append_assoc, cons_append, whitespace_quote hbefore]
    rfl
  | cons hbefore hname _ _ _ =>
    cases hname
    rw [append_assoc, append_assoc, cons_append, whitespace_quote hbefore]
    rfl

theorem value_bracket (fuel : ℕ) (us : Units) : value floats total (fuel + 1) (utf8 (unquoted (unit '[' :: us))) =
    match takeByte (byte ']') (whitespace (utf8 (unquoted us))) with
    | some rest => .ok (.array [], rest)
    | none => (elements floats total fuel (whitespace (utf8 (unquoted us)))).bind fun read => .ok (.array read.1, read.2) := by
  rw [unquoted_unit (by decide), if_neg (by decide)]
  rfl

theorem value_brace (fuel : ℕ) (us : Units) : value floats total (fuel + 1) (utf8 (unquoted (unit '\x7b' :: us))) =
    match takeByte (byte '\x7d') (whitespace (utf8 (unquoted us))) with
    | some rest => .ok (.object [], rest)
    | none => (properties floats total fuel (whitespace (utf8 (unquoted us)))).bind fun read => .ok (.object read.1, read.2) := by
  rw [unquoted_unit (by decide), if_neg (by decide)]
  rfl

mutual

theorem value_complete {us : Units} {node : JsonNode F} (h : Value floats.Reads us node) {fuel : ℕ} (hfuel : 2 * us.length ≤ fuel)
    {before next : Units} (hbefore : Blanks before) (hnext : Follows (unquoted next)) :
    value floats total fuel (utf8 (unquoted (before ++ (us ++ next)))) = .ok (node, utf8 (unquoted next)) := by
  obtain ⟨fuel, rfl⟩ : ∃ n, fuel = n + 1 := by
    obtain ⟨c, rest, rfl, -⟩ := h.opening
    rw [length_cons] at hfuel
    exact Nat.exists_eq_add_one_of_ne_zero (by omega)
  rw [value_blanks hbefore]
  cases h with
  | null => exact value_word fuel (by decide) (fun _ => rfl) next
  | bool b =>
    cases b with
    | false => exact value_word fuel (by decide) (fun _ => rfl) next
    | true => exact value_word fuel (by decide) (fun _ => rfl) next
  | number h => exact value_number fuel h hnext
  | @string body vs h =>
    have hread (rest : Source) : value floats total (fuel + 1) (byte '"' :: rest) =
        (string total rest).bind fun read => .ok (.string read.1, read.2) := rfl
    rw [cons_append, append_assoc, singleton_append, unquoted_unit (by decide), if_pos rfl, hread, string_complete h]
    rfl
  | @emptyArray body h =>
    rw [cons_append, append_assoc, singleton_append, value_bracket, whitespace_mark h (by decide)]
    rfl
  | @array body values h =>
    rw [length_cons, length_append, length_singleton] at hfuel
    obtain ⟨fuel, rfl⟩ := Nat.exists_eq_add_of_le' (show 2 ≤ fuel by omega)
    have helements := elements_complete h (show 2 * body.length + 1 ≤ fuel + 2 by omega) next
    rw [cons_append, append_assoc, singleton_append, value_bracket, h.first, elements_whitespace]
    dsimp only
    rw [helements]
    rfl
  | @emptyObject body h =>
    rw [cons_append, append_assoc, singleton_append, value_brace, whitespace_mark h (by decide)]
    rfl
  | @object body fields h =>
    rw [length_cons, length_append, length_singleton] at hfuel
    obtain ⟨fuel, rfl⟩ := Nat.exists_eq_add_of_le' (show 1 ≤ fuel by omega)
    have hproperties := properties_complete h (show 2 * body.length + 1 ≤ fuel + 1 by omega) next
    rw [cons_append, append_assoc, singleton_append, value_brace, h.first, properties_whitespace]
    dsimp only
    rw [hproperties]
    rfl

theorem elements_complete {us : Units} {values : List (JsonNode F)} (h : Elements floats.Reads us values) {fuel : ℕ}
    (hfuel : 2 * us.length + 1 ≤ fuel) (next : Units) :
    elements floats total fuel (utf8 (unquoted (us ++ unit ']' :: next))) = .ok (values, utf8 (unquoted next)) := by
  obtain ⟨fuel, rfl⟩ := Nat.exists_eq_add_one_of_ne_zero (by omega : fuel ≠ 0)
  cases h with
  | @last before us after v hbefore hv hafter =>
    simp only [length_append] at hfuel
    have hfollows : Follows (unquoted (after ++ unit ']' :: next)) := follows_blanks hafter (follows_unit (by decide) _)
    have hvalue := value_complete hv (show 2 * us.length ≤ fuel by omega) hbefore hfollows
    rw [append_assoc, append_assoc, elements, hvalue]
    dsimp only [Except.bind]
    rw [whitespace_mark hafter (by decide), takeByte, if_pos rfl]
  | @cons before us after rest v values hbefore hv hafter hrest =>
    simp only [length_append, length_cons] at hfuel
    have hfollows : Follows (unquoted (after ++ unit ',' :: (rest ++ unit ']' :: next))) := follows_blanks hafter (follows_unit (by decide) _)
    have hvalue := value_complete hv (show 2 * us.length ≤ fuel by omega) hbefore hfollows
    have helements := elements_complete hrest (show 2 * rest.length + 1 ≤ fuel by omega) next
    rw [append_assoc, append_assoc, append_assoc, cons_append, elements, hvalue]
    dsimp only [Except.bind]
    rw [whitespace_mark hafter (by decide), takeByte, if_neg (by decide), takeByte, if_pos rfl]
    dsimp only
    rw [helements]

theorem properties_complete {us : Units} {fields : List (Units × JsonNode F)} (h : Members floats.Reads us fields) {fuel : ℕ}
    (hfuel : 2 * us.length + 1 ≤ fuel) (next : Units) :
    properties floats total fuel (utf8 (unquoted (us ++ unit '\x7d' :: next))) = .ok (fields, utf8 (unquoted next)) := by
  obtain ⟨fuel, rfl⟩ := Nat.exists_eq_add_one_of_ne_zero (by omega : fuel ≠ 0)
  cases h with
  | @last before text us after name v hbefore hname hv hafter =>
    obtain @⟨chars, _, gap, between, hchars, hgap, hbetween⟩ := hname
    simp only [length_append] at hfuel
    have hfollows : Follows (unquoted (after ++ unit '\x7d' :: next)) := follows_blanks hafter (follows_unit (by decide) _)
    have hvalue := value_complete hv (show 2 * us.length ≤ fuel by omega) hbetween hfollows
    simp only [append_assoc, cons_append]
    rw [properties, whitespace_quote hbefore, takeByte, if_pos rfl]
    dsimp only
    rw [string_complete hchars]
    dsimp only [Except.bind]
    rw [whitespace_mark hgap (by decide), takeByte, if_pos rfl]
    dsimp only
    rw [hvalue]
    dsimp only
    rw [whitespace_mark hafter (by decide), takeByte, if_pos rfl]
  | @cons before text us after rest name v fields hbefore hname hv hafter hrest =>
    obtain @⟨chars, _, gap, between, hchars, hgap, hbetween⟩ := hname
    simp only [length_append, length_cons] at hfuel
    have hfollows : Follows (unquoted (after ++ unit ',' :: (rest ++ unit '\x7d' :: next))) := follows_blanks hafter (follows_unit (by decide) _)
    have hvalue := value_complete hv (show 2 * us.length ≤ fuel by omega) hbetween hfollows
    have hproperties := properties_complete hrest (show 2 * rest.length + 1 ≤ fuel by omega) next
    simp only [append_assoc, cons_append]
    rw [properties, whitespace_quote hbefore, takeByte, if_pos rfl]
    dsimp only
    rw [string_complete hchars]
    dsimp only [Except.bind]
    rw [whitespace_mark hgap (by decide), takeByte, if_pos rfl]
    dsimp only
    rw [hvalue]
    dsimp only
    rw [whitespace_mark hafter (by decide), takeByte, if_neg (by decide), takeByte, if_pos rfl]
    dsimp only
    rw [hproperties]

end

/-- **What is parsed.** The parser accepts the texts of the grammar and no others, and gives their values. -/
theorem jsonParseNode_iff {text : Units} {node : JsonNode F} : jsonParseNode floats text = .ok node ↔ JsonText floats.Reads text node := by
  rw [jsonParseNode, jsonSourceUtf8_eq, parse]
  constructor
  · intro h
    obtain ⟨before, us, rfl, hbefore, hspace⟩ := whitespace_unquoted text
    rw [hspace] at h
    obtain ⟨read, hread, hend⟩ := Except.bind_eq_ok.mp h
    obtain ⟨body, us', rfl, ⟨between, value, rfl, hbetween, hvalue⟩, hrest⟩ := (value_sound _).1 _ _ _ hread
    obtain ⟨after, us, rfl, hafter, hskip⟩ := whitespace_unquoted us'
    rw [hrest, hskip] at hend
    split_ifs at hend with hempty
    · cases hend
      have hnil : us = [] := by
        have := length_le_source false false us
        rw [← unquoted, List.isEmpty_iff.mp hempty, length_nil] at this
        exact length_eq_zero_iff.mp (Nat.le_zero.mp this)
      have htext := JsonText.mk (hbefore.append hbetween) hvalue hafter
      rwa [append_assoc, ← append_nil after, ← hnil, ← append_assoc between] at htext
    · cases hend
  · rintro @⟨before, us, after, _, hbefore, hvalue, hafter⟩
    have hend : whitespace (utf8 (unquoted after)) = [] := by
      have := whitespace_append hafter []
      rwa [append_nil] at this
    have hfollows : Follows (unquoted after) := by
      have : Follows (unquoted (after ++ [])) := follows_blanks hafter (.inl rfl)
      rwa [append_nil] at this
    have hlength := length_le_source false false (before ++ (us ++ after))
    rw [← unquoted, length_append, length_append] at hlength
    have hread := @value_complete F floats (utf8 (unquoted (before ++ (us ++ after)))).length _ _ hvalue
      (2 * (utf8 (unquoted (before ++ (us ++ after)))).length + 2) (by omega) [] after .nil hfollows
    rw [nil_append] at hread
    rw [whitespace_append hbefore, (whitespace_value hvalue after).1, hread]
    dsimp only [Except.bind]
    rw [hend]
    rfl

end Scriptc.RuntimeRust.Json
