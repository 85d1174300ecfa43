import Scriptc.RuntimeRust.NumberParse

/-!
# The texts that are numbers

The grammars of ECMAScript for ToNumber and `parseFloat`, and that the code of `number_parse.rs` accepts
them and nothing else.
-/

namespace Scriptc.RuntimeRust.NumberParse

open List

open Decoder (Units chars chars_encode chars_encode_append)
open Runtime.BigInt (digitOf trimmed trimmed_eq trimmed_decompose IsSpace)
open scoped Scriptc.Utf16

/-! ### The grammar -/

def IsSign (text : List Char) : Prop := text = [] ∨ text = ['+'] ∨ text = ['-']

def AllDigits (text : List Char) : Prop := ∀ c ∈ text, isAsciiDigit c = true

/-- Digits, with a point before, among or after them. -/
inductive Mantissa : List Char → Prop
  | whole {ds : List Char} : ds ≠ [] → AllDigits ds → Mantissa ds
  | point {ds fs : List Char} : ¬ (ds = [] ∧ fs = []) → AllDigits ds → AllDigits fs → Mantissa (ds ++ '.' :: fs)

inductive Exponent : List Char → Prop
  | none : Exponent []
  | some {mark : Char} {sign ds : List Char} : mark = 'e' ∨ mark = 'E' → IsSign sign → ds ≠ [] → AllDigits ds →
      Exponent (mark :: (sign ++ ds))

/-- The texts that a parser of decimal numbers has to read. -/
inductive Decimal : List Char → Prop
  | mk {sign mantissa exponent : List Char} : IsSign sign → Mantissa mantissa → Exponent exponent →
      Decimal (sign ++ (mantissa ++ exponent))

inductive StrDecimalLiteral : List Char → Prop
  | decimal {text : List Char} : Decimal text → StrDecimalLiteral text
  | infinity {sign : List Char} : IsSign sign → StrDecimalLiteral (sign ++ "Infinity".toList)

inductive StringNumericLiteral : List Char → Prop
  | decimal {text : List Char} : StrDecimalLiteral text → StringNumericLiteral text
  | radix {c : Char} {bits : ℕ} {ds : List Char} : radixBits c = some bits → ds ≠ [] → (∀ d ∈ ds, (digitOf (2 ^ bits) d).isSome) →
      StringNumericLiteral ('0' :: c :: ds)

/-! ### The scan of a decimal number -/

/-- A text does not go on with a digit or a point. -/
def Stops (text : List Char) : Prop := ∀ c ∈ text.head?, isAsciiDigit c = false ∧ c ≠ '.'

theorem takeDigits_append {ds : List Char} (h : AllDigits ds) (rest : List Char) :
    takeDigits (ds ++ rest) = (ds ++ (takeDigits rest).1, (takeDigits rest).2) := by
  rw [takeDigits, takeWhile_append_of_pos h, dropWhile_append_of_pos h]
  rfl

variable {text : List Char}

theorem takeDigits_stop (h : ∀ c ∈ text.head?, isAsciiDigit c = false) : takeDigits text = ([], text) := by
  cases text with
  | nil => rfl
  | cons c text =>
    have hc := h c rfl
    simp [takeDigits, hc]

theorem takeDigits_spec (text : List Char) : AllDigits (takeDigits text).1 ∧ text = (takeDigits text).1 ++ (takeDigits text).2 :=
  ⟨fun _ hc => mem_takeWhile_imp hc, takeWhile_append_dropWhile.symm⟩

theorem takeSign_spec (text : List Char) : IsSign (takeSign text).1 ∧ text = (takeSign text).1 ++ (takeSign text).2 := by
  cases text with
  | nil => exact ⟨.inl rfl, rfl⟩
  | cons c text =>
    rw [takeSign]
    split_ifs with hc
    · rcases hc with rfl | rfl
      · exact ⟨.inr (.inl rfl), rfl⟩
      · exact ⟨.inr (.inr rfl), rfl⟩
    · exact ⟨.inl rfl, rfl⟩

theorem takeSign_append {sign rest : List Char} (h : IsSign sign) (hrest : ∀ c ∈ rest.head?, c ≠ '+' ∧ c ≠ '-') :
    takeSign (sign ++ rest) = (sign, rest) := by
  rcases h with rfl | rfl | rfl
  · cases rest with
    | nil => rfl
    | cons c rest =>
      have hc := hrest c rfl
      simp [takeSign, hc.1, hc.2]
  · rfl
  · rfl

theorem takeFraction_spec (text : List Char) : AllDigits ((takeFraction text).1.getD []) ∧
    text = pointText (takeFraction text).1 ++ (takeFraction text).2 := by
  unfold takeFraction
  split
  next rest =>
    obtain ⟨hds, hrest⟩ := takeDigits_spec rest
    exact ⟨hds, congrArg ('.' :: ·) hrest⟩
  next => exact ⟨fun _ hc => (not_mem_nil hc).elim, rfl⟩

theorem scan_spec (text : List Char) : AllDigits (scan text).integer ∧ AllDigits ((scan text).fraction.getD []) ∧
    text = (scan text).text ++ (scan text).rest := by
  obtain ⟨hds, htext⟩ := takeDigits_spec text
  obtain ⟨hfs, hrest⟩ := takeFraction_spec (takeDigits text).2
  refine ⟨hds, hfs, ?_⟩
  conv_lhs => rw [htext, hrest]
  exact (append_assoc ..).symm

theorem Scanned.mantissa {s : Scanned} (hds : AllDigits s.integer) (hfs : AllDigits (s.fraction.getD [])) (h : ¬ s.Empty) :
    Mantissa s.text := by
  obtain ⟨ds, _ | fs, rest⟩ := s
  · rw [Scanned.text, pointText, Option.elim_none, append_nil]
    exact .whole (fun hnil => h ⟨hnil, rfl⟩) hds
  · exact .point h hds hfs

/-- A number before its exponent is scanned, and whatever can go on it too. -/
theorem scan_append {m : List Char} (h : Mantissa m) (rest : List Char) :
    ¬ (scan (m ++ rest)).Empty ∧ m <+: (scan (m ++ rest)).text ∧
      (Stops rest → (scan (m ++ rest)).text = m ∧ (scan (m ++ rest)).rest = rest) := by
  cases h with
  | whole hne hds =>
    rw [scan, takeDigits_append hds]
    refine ⟨fun hempty => hne (append_eq_nil_iff.mp hempty.1).1, ⟨(takeDigits rest).1 ++ _, by rw [Scanned.text, ← append_assoc]⟩,
      fun hstop => ?_⟩
    rw [takeDigits_stop fun c hc => (hstop c hc).1]
    have hfraction : takeFraction rest = (none, rest) := by
      unfold takeFraction
      split
      next => exact absurd rfl (hstop _ rfl).2
      next => rfl
    simp [hfraction, Scanned.text, pointText]
  | @point ds fs hne hds hfs =>
    have hdigits : takeDigits (ds ++ '.' :: fs ++ rest) = (ds, '.' :: (fs ++ rest)) := by
      rw [append_assoc, takeDigits_append hds, takeDigits_stop (by simp [isAsciiDigit])]
      simp
    have hscan : scan (ds ++ '.' :: fs ++ rest) = ⟨ds, some (fs ++ (takeDigits rest).1), (takeDigits rest).2⟩ := by
      rw [scan, hdigits, takeFraction, takeDigits_append hfs]
    rw [hscan]
    refine ⟨fun hempty => hne ⟨hempty.1, (append_eq_nil_iff.mp hempty.2).1⟩, ⟨(takeDigits rest).1, by simp [Scanned.text, pointText]⟩,
      fun hstop => ?_⟩
    rw [takeDigits_stop fun c hc => (hstop c hc).1]
    simp [Scanned.text, pointText]

theorem Exponent.stops {e : List Char} (h : Exponent e) (hne : e ≠ []) (rest : List Char) : Stops (e ++ rest) := by
  cases h with
  | none => exact absurd rfl hne
  | some hmark _ _ _ =>
    rintro c hc
    cases hc
    rcases hmark with rfl | rfl <;> exact ⟨by decide, by decide⟩

/-- An exponent is taken with the digits that go on it. -/
theorem takeExponent_append {e : List Char} (h : Exponent e) (hne : e ≠ []) (rest : List Char) :
    takeExponent (e ++ rest) = some (e ++ (takeDigits rest).1, (takeDigits rest).2) := by
  cases h with
  | none => exact absurd rfl hne
  | @some mark sign ds hmark hsign hds hall =>
    have hhead : ∀ c ∈ (ds ++ rest).head?, c ≠ '+' ∧ c ≠ '-' := by
      obtain ⟨d, ds, rfl⟩ := exists_cons_of_ne_nil hds
      rintro c hc
      cases hc
      have hd := hall d mem_cons_self
      constructor <;> (rintro rfl; revert hd; decide)
    rw [cons_append, append_assoc, takeExponent, if_pos hmark, takeSign_append hsign hhead]
    simp only [takeDigits_append hall]
    rw [if_neg fun hnil => hds (append_eq_nil_iff.mp hnil).1]
    simp

theorem takeExponent_spec {text e rest : List Char} (h : takeExponent text = some (e, rest)) : Exponent e ∧ text = e ++ rest := by
  cases text with
  | nil =>
    cases h
    exact ⟨.none, rfl⟩
  | cons c text =>
    rw [takeExponent] at h
    split_ifs at h with hmark
    · obtain ⟨hsign, htext⟩ := takeSign_spec text
      obtain ⟨hds, hrest⟩ := takeDigits_spec (takeSign text).2
      simp only at h
      split_ifs at h with hnil
      cases h
      refine ⟨.some hmark hsign hnil hds, ?_⟩
      conv_lhs => rw [htext, hrest]
      simp
    · cases h
      exact ⟨.none, rfl⟩

theorem Mantissa.head {m : List Char} (h : Mantissa m) (rest : List Char) :
    ∀ c ∈ (m ++ rest).head?, (c ≠ '+' ∧ c ≠ '-') ∧ c ≠ 'I' := by
  have hdigit : ∀ c, isAsciiDigit c = true → (c ≠ '+' ∧ c ≠ '-') ∧ c ≠ 'I' := by
    rintro c hc
    refine ⟨⟨?_, ?_⟩, ?_⟩ <;> (rintro rfl; revert hc; decide)
  cases h with
  | whole hne hds =>
    obtain ⟨d, ds, rfl⟩ := exists_cons_of_ne_nil hne
    rintro c hc
    cases hc
    exact hdigit _ (hds _ mem_cons_self)
  | @point ds _ _ hds _ =>
    cases ds with
    | nil =>
      rintro c hc
      cases hc
      decide
    | cons d ds =>
      rintro c hc
      cases hc
      exact hdigit _ (hds _ mem_cons_self)

theorem takeSign_mantissa {sign m : List Char} (hs : IsSign sign) (hm : Mantissa m) (rest : List Char) :
    takeSign (sign ++ (m ++ rest)) = (sign, m ++ rest) := takeSign_append hs fun c hc => (hm.head rest c hc).1

/-- What is taken at the start of a text is a number. -/
theorem floatText_decimal {text t : List Char} (h : floatText text = some t) : Decimal t ∧ t <+: text := by
  obtain ⟨hsign, htext⟩ := takeSign_spec text
  obtain ⟨hds, hfs, hrest⟩ := scan_spec (takeSign text).2
  simp only [floatText] at h
  split_ifs at h with hempty
  cases h
  have hm := Scanned.mantissa hds hfs hempty
  conv_rhs => enter [2]; rw [htext, hrest]
  cases hexp : takeExponent (scan (takeSign text).2).rest with
  | none =>
    rw [Option.map_none, Option.getD_none, append_nil]
    exact ⟨by simpa using Decimal.mk hsign hm .none, ⟨_, by rw [append_assoc]⟩⟩
  | some result =>
    obtain ⟨hexponent, hafter⟩ := takeExponent_spec hexp
    rw [Option.map_some, Option.getD_some]
    refine ⟨.mk hsign hm hexponent, ⟨result.2, ?_⟩⟩
    conv_rhs => rw [hafter]
    simp

/-- Every number at the start of a text is part of what is taken. -/
theorem floatText_longest {p : List Char} (rest : List Char) (h : Decimal p) : ∃ t, floatText (p ++ rest) = some t ∧ p.length ≤ t.length := by
  cases h with
  | @mk sign m e hs hm he =>
    obtain ⟨hne, hprefix, hstop⟩ := scan_append hm (e ++ rest)
    have hsign : takeSign (sign ++ (m ++ e) ++ rest) = (sign, m ++ (e ++ rest)) := by
      rw [append_assoc, append_assoc]
      exact takeSign_mantissa hs hm _
    rw [floatText, hsign]
    simp only [if_neg hne]
    refine ⟨_, rfl, ?_⟩
    by_cases hnil : e = []
    · subst hnil
      have := hprefix.length_le
      simp only [length_append, append_nil, nil_append] at this ⊢
      omega
    · obtain ⟨hscanned, hafter⟩ := hstop (he.stops hnil rest)
      rw [hscanned, hafter, takeExponent_append he hnil]
      simp

theorem Scanned.mantissa_normalized {s : Scanned} (hds : AllDigits s.integer) (hfs : AllDigits (s.fraction.getD []))
    (h : ¬ s.Empty) : Mantissa s.normalized := by
  have hzero : AllDigits ['0'] := by simp [AllDigits, isAsciiDigit]
  obtain ⟨ds, _ | fs, rest⟩ := s
  · exact .whole (fun hnil => h ⟨hnil, rfl⟩) hds
  · refine .point ?_ ?_ ?_
    · rintro ⟨hnil, -⟩
      split_ifs at hnil with hds
      exact hds hnil
    · split_ifs
      · exact hzero
      · exact hds
    · split_ifs
      · exact hzero
      · exact hfs

/-- A text is parsed as a decimal number just when it is one, and so is what is parsed. -/
theorem decimalText_decimal (text : List Char) :
    ((∃ t, decimalText text = some t) ↔ Decimal text) ∧ ∀ t, decimalText text = some t → Decimal t := by
  obtain ⟨hsign, htext⟩ := takeSign_spec text
  obtain ⟨hds, hfs, hrest⟩ := scan_spec (takeSign text).2
  have hsome : ∀ t, decimalText text = some t → Decimal text ∧ Decimal t := by
    intro t h
    simp only [decimalText] at h
    split_ifs at h with hempty
    split at h
    next exponent hexp =>
      obtain ⟨hexponent, hafter⟩ := takeExponent_spec hexp
      cases h
      refine ⟨?_, .mk hsign (Scanned.mantissa_normalized hds hfs hempty) hexponent⟩
      rw [hafter, append_nil] at hrest
      rw [htext, hrest]
      exact .mk hsign (Scanned.mantissa hds hfs hempty) hexponent
    next => cases h
  refine ⟨⟨fun ⟨t, h⟩ => (hsome t h).1, fun h => ?_⟩, fun t h => (hsome t h).2⟩
  cases h with
  | @mk sign m e hs hm he =>
    obtain ⟨hne, -, hstop⟩ := scan_append hm e
    rw [decimalText, takeSign_mantissa hs hm e]
    simp only [if_neg hne]
    by_cases hnil : e = []
    · subst hnil
      obtain ⟨-, hafter⟩ := hstop fun c hc => by cases hc
      rw [hafter]
      exact ⟨_, rfl⟩
    · have hstops := he.stops hnil []
      have htake := takeExponent_append he hnil []
      rw [append_nil] at hstops htake
      rw [(hstop hstops).2, htake]
      exact ⟨_, rfl⟩

/-! ### ToNumber -/

/-- What is asked of Rust's parser. -/
def Reads (parse : List Char → Option F64) : Prop := ∀ t, Decimal t → ∃ x, parse t = some x ∧ x ≠ .nan

theorem takeSign_infinity {sign : List Char} (h : IsSign sign) (rest : List Char) :
    takeSign (sign ++ ("Infinity".toList ++ rest)) = (sign, "Infinity".toList ++ rest) :=
  takeSign_append h fun c hc => by cases hc; decide

variable {parse : List Char → Option F64}

theorem numberFromDecimal_iff (hreads : Reads parse) (text : List Char) :
    numberFromDecimal parse text ≠ .nan ↔ StrDecimalLiteral text := by
  obtain ⟨hsign, htext⟩ := takeSign_spec text
  rw [numberFromDecimal]
  dsimp only
  split_ifs with hinf
  · refine iff_of_true (by simp) ?_
    rw [htext, hinf]
    exact .infinity hsign
  · obtain ⟨hiff, hdecimal⟩ := decimalText_decimal text
    have hliteral : StrDecimalLiteral text ↔ Decimal text := by
      refine ⟨fun h => ?_, .decimal⟩
      cases h with
      | decimal h => exact h
      | infinity h =>
        have hrest := takeSign_infinity h []
        rw [append_nil] at hrest
        exact absurd (congrArg Prod.snd hrest) hinf
    rw [hliteral, ← hiff]
    cases htake : decimalText text with
    | none => simp
    | some t =>
      obtain ⟨x, hx, hne⟩ := hreads t (hdecimal t htake)
      simp [hx, hne]

theorem mapM_digitOf_eq_none {base : ℕ} (h : ¬ ∀ c ∈ text, (digitOf base c).isSome) :
    text.mapM (digitOf base) = none := by
  induction text with
  | nil => simp at h
  | cons c rest ih =>
    rw [mapM_cons]
    cases hc : digitOf base c with
    | none => rfl
    | some digit =>
      have hrest : ¬ ∀ c ∈ rest, (digitOf base c).isSome := fun hall => h (forall_mem_cons.mpr ⟨by rw [hc]; rfl, hall⟩)
      rw [ih hrest]
      rfl

theorem radixInteger_iff (bitsPerDigit : ℕ) (text : List Char) :
    radixInteger bitsPerDigit text ≠ .nan ↔ text ≠ [] ∧ ∀ d ∈ text, (digitOf (2 ^ bitsPerDigit) d).isSome := by
  by_cases hall : ∀ d ∈ text, (digitOf (2 ^ bitsPerDigit) d).isSome
  · rw [radixInteger_eq hall]
    split_ifs with hnil
    · simp [hnil]
    · exact iff_of_true (F64.round_ne_nan _) ⟨hnil, hall⟩
  · rw [radixInteger, mapM_digitOf_eq_none hall]
    exact iff_of_false (by simp) fun h => hall h.2

variable {c : Char}

theorem radixBits_letter {bits : ℕ} (h : radixBits c = some bits) :
    c = 'x' ∨ c = 'X' ∨ c = 'o' ∨ c = 'O' ∨ c = 'b' ∨ c = 'B' := by
  revert h
  unfold radixBits
  split <;> simp

/-- What starts like an integer in a radix is no decimal number. -/
theorem not_strDecimal_radix {bits : ℕ} (h : radixBits c = some bits) (ds : List Char) :
    ¬ StrDecimalLiteral ('0' :: c :: ds) := by
  have hletter := radixBits_letter h
  intro hliteral
  generalize htext : '0' :: c :: ds = text at hliteral
  cases hliteral with
  | decimal hdecimal =>
    subst htext
    obtain ⟨t, ht⟩ := (decimalText_decimal _).1.mpr hdecimal
    rcases hletter with rfl | rfl | rfl | rfl | rfl | rfl <;> cases ht
  | infinity hsign => rcases hsign with rfl | rfl | rfl <;> simp at htext

/-- The text without white space around it. -/
theorem numberFromString_iff (hreads : Reads parse) (value : Units) :
    numberFromString parse value ≠ .nan ↔ trimmed (chars value) = [] ∨ StringNumericLiteral (trimmed (chars value)) := by
  rw [numberFromString]
  generalize trimmed (chars value) = text
  split
  · simp [F64.zero]
  next c digits =>
    rw [or_iff_right (cons_ne_nil _ _)]
    split
    next bits hbits =>
      rw [radixInteger_iff]
      constructor
      · rintro ⟨hne, hall⟩
        exact .radix hbits hne hall
      · rintro (h | ⟨hbits', hne, hall⟩)
        · exact absurd h (not_strDecimal_radix hbits digits)
        · obtain rfl := Option.some.inj (hbits.symm.trans hbits')
          exact ⟨hne, hall⟩
    next hbits =>
      rw [numberFromDecimal_iff hreads]
      refine ⟨.decimal, ?_⟩
      rintro (h | ⟨hbits', -, -⟩)
      · exact h
      · rw [hbits] at hbits'
        cases hbits'
  next hnil hradix =>
    rw [numberFromDecimal_iff hreads, or_iff_right hnil]
    refine ⟨.decimal, ?_⟩
    rintro (h | ⟨-, -, -⟩)
    · exact h
    · exact absurd rfl (hradix _ _)

/-! ### The characters of a literal -/

/-- Letters, digits, signs and points are among these; white space and the replacement character are not. -/
def Plain (c : Char) : Prop := 0x2B ≤ c.toNat ∧ c.toNat ≤ 0x7A

instance (c : Char) : Decidable (Plain c) := inferInstanceAs (Decidable (_ ∧ _))

theorem Plain.not_space (h : Plain c) : ¬ IsSpace c.toNat := by
  obtain ⟨h1, h2⟩ := h
  unfold IsSpace
  omega

theorem plain_digitOf {base : ℕ} (h : (digitOf base c).isSome) : Plain c := by
  have hrange : ∀ a b : Char, 0x2B ≤ a.toNat → b.toNat ≤ 0x7A → a ≤ c ∧ c ≤ b → Plain c := fun a b ha hb hc => ⟨ha.trans hc.1, le_trans hc.2 hb⟩
  rw [digitOf, Runtime.BigInt.digitValue] at h
  split_ifs at h with h1 h2 h3
  · exact hrange _ _ (by decide) (by decide) h1
  · exact hrange _ _ (by decide) (by decide) h2
  · exact hrange _ _ (by decide) (by decide) h3
  · cases h

theorem IsSign.plain {sign : List Char} (h : IsSign sign) : ∀ c ∈ sign, Plain c := by
  rcases h with rfl | rfl | rfl <;> decide

theorem AllDigits.plain {ds : List Char} (h : AllDigits ds) : ∀ c ∈ ds, Plain c := by
  intro c hc
  have hdigit : '0' ≤ c ∧ c ≤ '9' := of_decide_eq_true (h c hc)
  exact ⟨le_trans (by decide) hdigit.1, le_trans hdigit.2 (by decide)⟩

theorem Decimal.plain (h : Decimal text) : ∀ c ∈ text, Plain c := by
  cases h with
  | mk hs hm he =>
    refine forall_mem_append.mpr ⟨hs.plain, forall_mem_append.mpr ⟨?_, ?_⟩⟩
    · cases hm with
      | whole _ hds => exact hds.plain
      | point _ hds hfs => exact forall_mem_append.mpr ⟨hds.plain, forall_mem_cons.mpr ⟨by decide, hfs.plain⟩⟩
    · cases he with
      | none => simp
      | some hmark hsign _ hds =>
        refine forall_mem_cons.mpr ⟨?_, forall_mem_append.mpr ⟨hsign.plain, hds.plain⟩⟩
        rcases hmark with rfl | rfl <;> decide

theorem StrDecimalLiteral.plain (h : StrDecimalLiteral text) : ∀ c ∈ text, Plain c := by
  cases h with
  | decimal h => exact h.plain
  | infinity h => exact forall_mem_append.mpr ⟨h.plain, by decide⟩

theorem StringNumericLiteral.plain (h : StringNumericLiteral text) : ∀ c ∈ text, Plain c := by
  cases h with
  | decimal h => exact h.plain
  | @radix c _ _ hbits _ hds =>
    refine forall_mem_cons.mpr ⟨by decide, forall_mem_cons.mpr ⟨?_, fun d hd => plain_digitOf (hds d hd)⟩⟩
    rcases radixBits_letter hbits with rfl | rfl | rfl | rfl | rfl | rfl <;> decide

/-- What is read of a value without replacing anything stands in it. -/
theorem chars_eq_append {value : Units} {text rest : List Char} (h : chars value = text ++ rest) (htext : ∀ c ∈ text, c.toNat ≠ 0xFFFD) :
    ∃ after, value = Utf16.encode text ++ after ∧ chars after = rest := by
  obtain ⟨front, back, hdecode, hfront, hback⟩ := map_eq_append_iff.mp h
  -- nothing in front is a lone surrogate
  have hinl : front = text.map .inl := by
    subst hfront
    rw [map_map]
    refine (map_id front).symm.trans (map_congr_left fun item hitem => ?_)
    rcases item with c | u
    · rfl
    · exact absurd (show (Char.ofNat 0xFFFD).toNat = 0xFFFD by decide) (htext _ (mem_map_of_mem hitem))
  have hvalue : value = Utf16.encode text ++ back.flatMap Utf16.encodeItem := by
    rw [← Utf16.flatMap_decode value, hdecode, flatMap_append, hinl, flatMap_map]
    rfl
  refine ⟨_, hvalue, ?_⟩
  rw [hvalue, Utf16.decode_encode_append, hinl, append_cancel_left_eq] at hdecode
  rw [chars, hdecode, hback]

def AllSpaces (text : List Char) : Prop := ∀ c ∈ text, IsSpace c.toNat

theorem Plain.not_replaced (h : Plain c) : c.toNat ≠ 0xFFFD := by
  obtain ⟨-, h2⟩ := h
  omega

theorem AllSpaces.not_replaced (h : AllSpaces text) : ∀ c ∈ text, c.toNat ≠ 0xFFFD := by
  intro c hc heq
  have hspace := h c hc
  rw [heq] at hspace
  revert hspace
  decide

/-- ToNumber is a number just for white space, and for a literal with white space around it. -/
theorem numberFromString_literal (hreads : Reads parse) (value : Units) :
    numberFromString parse value ≠ .nan ↔ ∃ before body after, value = Utf16.encode (before ++ body ++ after) ∧
      AllSpaces before ∧ AllSpaces after ∧ (body = [] ∨ StringNumericLiteral body) := by
  have hplain : ∀ {body}, body = [] ∨ StringNumericLiteral body → ∀ c ∈ body, Plain c := by
    rintro body (rfl | h)
    · simp
    · exact h.plain
  rw [numberFromString_iff hreads]
  constructor
  · intro h
    obtain ⟨before, after, heq, hbefore, hafter⟩ := trimmed_decompose (chars value)
    have hreplaced : ∀ c ∈ before ++ trimmed (chars value) ++ after, c.toNat ≠ 0xFFFD :=
      forall_mem_append.mpr ⟨forall_mem_append.mpr ⟨AllSpaces.not_replaced hbefore, fun c hc => (hplain h c hc).not_replaced⟩,
        AllSpaces.not_replaced hafter⟩
    rw [← heq] at hreplaced
    obtain ⟨rest, hvalue, hrest⟩ := chars_eq_append (append_nil _).symm hreplaced
    refine ⟨before, trimmed (chars value), after, ?_, hbefore, hafter, h⟩
    have hnil : rest = [] := by
      rw [← Utf16.flatMap_decode rest, map_eq_nil_iff.mp hrest]
      rfl
    rw [← heq]
    conv_lhs => rw [hvalue, hnil, append_nil]
  · rintro ⟨before, body, after, rfl, hbefore, hafter, hbody⟩
    rw [chars_encode, trimmed_eq hbefore (fun c hc => (hplain hbody c hc).not_space) hafter]
    exact hbody

/-! ### `parseFloat` -/

/-- What the conversion of a literal gives. -/
inductive Converts (parse : List Char → Option F64) : List Char → F64 → Prop
  | decimal {text : List Char} {x : F64} : Decimal text → parse text = some x → Converts parse text x
  | infinity {sign : List Char} : IsSign sign → Converts parse (sign ++ "Infinity".toList) (.inf (sign = ['-']))

theorem StrDecimalLiteral.ne_nil (h : StrDecimalLiteral text) : text ≠ [] := by
  rintro rfl
  generalize htext : [] = text at h
  cases h with
  | decimal h =>
    subst htext
    obtain ⟨t, ht⟩ := (decimalText_decimal []).1.mpr h
    cases ht
  | infinity hsign => simp at htext

theorem trimStart_literal {before text rest : List Char} (hbefore : AllSpaces before) (h : StrDecimalLiteral text) :
    trimStart (before ++ (text ++ rest)) = text ++ rest := by
  obtain ⟨c, text, rfl⟩ := exists_cons_of_ne_nil h.ne_nil
  rw [trimStart, dropWhile_append_of_pos fun c hc => decide_eq_true (hbefore c hc), cons_append,
    dropWhile_cons_of_neg (by simpa using (h.plain c mem_cons_self).not_space)]

/-- `parseFloat` is a number just when a literal begins the text. -/
theorem numberParseFloat_iff (hreads : Reads parse) (value : Units) :
    numberParseFloat parse value ≠ .nan ↔ ∃ text, text <+: trimStart (chars value) ∧ StrDecimalLiteral text := by
  rw [numberParseFloat]
  generalize trimStart (chars value) = whole
  obtain ⟨hsign, hwhole⟩ := takeSign_spec whole
  dsimp only
  split_ifs with hinf
  · refine iff_of_true (by simp) ⟨_, ?_, .infinity hsign⟩
    obtain ⟨rest, hrest⟩ := hinf
    exact ⟨rest, by rw [append_assoc, hrest, ← hwhole]⟩
  · cases hfloat : floatText whole with
    | some t =>
      obtain ⟨hdecimal, hprefix⟩ := floatText_decimal hfloat
      obtain ⟨x, hx, hne⟩ := hreads t hdecimal
      refine iff_of_true ?_ ⟨t, hprefix, .decimal hdecimal⟩
      dsimp only
      rwa [hx, Option.getD_some]
    | none =>
      refine iff_of_false (by simp) ?_
      rintro ⟨text, ⟨rest, rfl⟩, hdecimal | hinfinity⟩
      · obtain ⟨t, ht, -⟩ := floatText_longest rest hdecimal
        rw [hfloat] at ht
        cases ht
      · rw [append_assoc, takeSign_infinity hinfinity] at hinf
        exact hinf (prefix_append _ _)

/-- `parseFloat` converts the longest literal that begins the text. -/
theorem numberParseFloat_longest (hreads : Reads parse) {value : Units} {text rest : List Char}
    (hwhole : trimStart (chars value) = text ++ rest) (h : StrDecimalLiteral text)
    (hlongest : ∀ longer, longer <+: text ++ rest → StrDecimalLiteral longer → longer.length ≤ text.length) :
    Converts parse text (numberParseFloat parse value) := by
  rw [numberParseFloat, hwhole]
  dsimp only
  cases h with
  | infinity hsign =>
    rw [append_assoc, takeSign_infinity hsign, if_pos (prefix_append _ _)]
    exact .infinity hsign
  | decimal hdecimal =>
    obtain ⟨t, ht, hle⟩ := floatText_longest rest hdecimal
    obtain ⟨hread, hprefix⟩ := floatText_decimal ht
    have hsame : t = text := by
      have hlength := le_antisymm (hlongest t hprefix (.decimal hread)) hle
      exact (prefix_of_prefix_length_le hprefix (prefix_append _ _) hlength.le).eq_of_length hlength
    subst hsame
    have hinf : ¬ "Infinity".toList <+: (takeSign (t ++ rest)).2 := by
      cases hdecimal with
      | @mk sign m e hs hm he =>
        rw [append_assoc, append_assoc, takeSign_mantissa hs hm]
        rintro ⟨after, hafter⟩
        exact (hm.head (e ++ rest) 'I' (by rw [show m ++ (e ++ rest) = _ from hafter.symm]; rfl)).2 rfl
    obtain ⟨x, hx, -⟩ := hreads t hread
    rw [if_neg hinf, ht]
    dsimp only
    rw [hx, Option.getD_some]
    exact .decimal hread hx

/-! ### All texts -/

/-- Rust's parser is asked about decimal numbers only. -/
theorem parse_congr {parse parse' : List Char → Option F64} (h : ∀ t, Decimal t → parse' t = parse t) (value : Units) :
    numberFromString parse' value = numberFromString parse value ∧ numberParseFloat parse' value = numberParseFloat parse value := by
  have hdecimal : numberFromDecimal parse' = numberFromDecimal parse := by
    funext text
    simp only [numberFromDecimal]
    cases ht : decimalText text with
    | none => rfl
    | some t => simp only [h t ((decimalText_decimal text).2 t ht)]
  refine ⟨by simp only [numberFromString, hdecimal], ?_⟩
  simp only [numberParseFloat]
  cases ht : floatText (trimStart (chars value)) with
  | none => rfl
  | some t => simp only [h t (floatText_decimal ht).1]

/-- **The grammars of numeric text.** -/
theorem numeric_grammars {parse : List Char → Option F64} (hreads : Reads parse) (value : Units) :
    (numberFromString parse value ≠ .nan ↔ ∃ before body after, value = Utf16.encode (before ++ body ++ after) ∧
      AllSpaces before ∧ AllSpaces after ∧ (body = [] ∨ StringNumericLiteral body)) ∧
    (numberParseFloat parse value ≠ .nan ↔ ∃ before text after, value = Utf16.encode (before ++ text) ++ after ∧
      AllSpaces before ∧ StrDecimalLiteral text) ∧
    (∀ before text after, value = Utf16.encode (before ++ text) ++ after → AllSpaces before → StrDecimalLiteral text →
      (∀ longer after', value = Utf16.encode (before ++ longer) ++ after' → StrDecimalLiteral longer → longer.length ≤ text.length) →
      Converts parse text (numberParseFloat parse value)) ∧
    ∀ parse', (∀ t, Decimal t → parse' t = parse t) →
      numberFromString parse' value = numberFromString parse value ∧ numberParseFloat parse' value = numberParseFloat parse value := by
  refine ⟨numberFromString_literal hreads value, ?_, ?_, fun _ h => parse_congr h value⟩
  · rw [numberParseFloat_iff hreads]
    constructor
    · rintro ⟨text, ⟨rest, hrest⟩, h⟩
      have hsplit : chars value = ((chars value).takeWhile (fun c => IsSpace c.toNat) ++ text) ++ rest := by
        rw [append_assoc, hrest, trimStart, takeWhile_append_dropWhile]
      have hbefore : AllSpaces ((chars value).takeWhile fun c => IsSpace c.toNat) :=
        fun c hc => by simpa using mem_takeWhile_imp hc
      obtain ⟨after, hvalue, -⟩ := chars_eq_append hsplit
        (forall_mem_append.mpr ⟨hbefore.not_replaced, fun c hc => (h.plain c hc).not_replaced⟩)
      exact ⟨_, text, after, hvalue, hbefore, h⟩
    · rintro ⟨before, text, after, rfl, hbefore, h⟩
      rw [chars_encode_append, append_assoc, trimStart_literal hbefore h]
      exact ⟨text, prefix_append _ _, h⟩
  · rintro before text after rfl hbefore h hlongest
    have hwhole : trimStart (chars (Utf16.encode (before ++ text) ++ after)) = text ++ chars after := by
      rw [chars_encode_append, append_assoc, trimStart_literal hbefore h]
    refine numberParseFloat_longest hreads hwhole h ?_
    rintro longer ⟨rest, hrest⟩ hlonger
    have hsplit : chars (Utf16.encode (before ++ text) ++ after) = (before ++ longer) ++ rest := by
      rw [chars_encode_append, append_assoc, append_assoc, hrest]
    obtain ⟨after', hvalue, -⟩ := chars_eq_append hsplit
      (forall_mem_append.mpr ⟨hbefore.not_replaced, fun c hc => (hlonger.plain c hc).not_replaced⟩)
    exact hlongest longer after' hvalue hlonger

/-- The number that decimal digits spell. -/
def digitsValue (ds : List Char) : ℕ := ds.foldl (fun value c => value * 10 + (c.toNat - '0'.toNat)) 0

/-- A parser of decimal numbers. -/
def readDecimal (text : List Char) : Option F64 :=
  (decimalText text).map fun _ =>
    let (sign, rest) := takeSign text
    let (expSign, expDigits) := takeSign (scan rest).rest.tail
    let exponent := if expSign = ['-'] then -(digitsValue expDigits : ℤ) else digitsValue expDigits
    let fraction := (scan rest).fraction.getD []
    let value := F64.round (digitsValue ((scan rest).integer ++ fraction) * 10 ^ (exponent - fraction.length))
    if sign = ['-'] then F64.neg value else value

theorem reads_readDecimal : Reads readDecimal := by
  intro t h
  obtain ⟨t', ht'⟩ := (decimalText_decimal t).1.mpr h
  rw [readDecimal, ht', Option.map_some]
  refine ⟨_, rfl, ?_⟩
  dsimp only
  by_cases hsign : (takeSign t).1 = ['-']
  · rw [if_pos hsign]
    exact F64.neg_ne_nan (F64.round_ne_nan _)
  · rw [if_neg hsign]
    exact F64.round_ne_nan _

/-- A lone surrogate after `1.5e` ends the number before the exponent. -/
theorem numeric_grammars_lone :
    (numberFromString readDecimal (Utf16.encode "1.5e".toList ++ [0xD800]) ≠ .nan ↔
      ∃ before body after, Utf16.encode "1.5e".toList ++ [0xD800] = Utf16.encode (before ++ body ++ after) ∧
        AllSpaces before ∧ AllSpaces after ∧ (body = [] ∨ StringNumericLiteral body)) ∧
    (∃ before text after, Utf16.encode "1.5e".toList ++ [0xD800] = Utf16.encode (before ++ text) ++ after ∧
      AllSpaces before ∧ StrDecimalLiteral text) := by
  have hdigits : Mantissa "1.5".toList :=
    @Mantissa.point ['1'] ['5'] (by simp) (by unfold AllDigits; decide) (by unfold AllDigits; decide)
  obtain ⟨h1, h2, -⟩ := numeric_grammars reads_readDecimal (Utf16.encode "1.5e".toList ++ [0xD800])
  exact ⟨h1, [], "1.5".toList, Utf16.encode ['e'] ++ [0xD800], rfl, by simp [AllSpaces], .decimal (.mk (.inl rfl) hdigits .none)⟩

end Scriptc.RuntimeRust.NumberParse
