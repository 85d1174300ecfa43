import Scriptc.RuntimeRust.Json

/-!
# The text of a JSON tree

A text is a tree with a layout: what stands before an element and after a colon. The writer writes
the layout that leaves everything out, and indenting its text gives the one with the gap string.
-/

namespace Scriptc.RuntimeRust.Json

open Scriptc.Utf16 List

variable {F : Type} {floats : Floats F}

/-! ### Trees -/

@[elab_as_elim]
theorem JsonNode.induct {motive : JsonNode F → Prop} (null : motive .null)
    (bool : ∀ value, motive (.bool value)) (number : ∀ value, motive (.number value))
    (string : ∀ value, motive (.string value))
    (array : ∀ values, (∀ value ∈ values, motive value) → motive (.array values))
    (object : ∀ fields : List (Units × JsonNode F), (∀ field ∈ fields, motive field.2) →
      motive (.object fields))
    (node : JsonNode F) : motive node := by
  refine @JsonNode.rec F motive (fun values => ∀ value ∈ values, motive value)
    (fun fields => ∀ field ∈ fields, motive field.2) (fun field => motive field.2) null bool number string
    array object ?_ ?_ ?_ ?_ ?_ node
  · simp
  · intro value values hvalue hvalues
    exact forall_mem_cons.mpr ⟨hvalue, hvalues⟩
  · simp
  · intro field fields hfield hfields
    exact forall_mem_cons.mpr ⟨hfield, hfields⟩
  · exact fun _ _ h => h

/-! ### Numerals -/

def Digits (cs : List Char) : Prop := ∀ c ∈ cs, c.isDigit = true

inductive Whole : List Char → Prop
  | zero : Whole ['0']
  | digits {c : Char} {cs : List Char} : c.isDigit = true → c ≠ '0' → Digits cs → Whole (c :: cs)

inductive Fraction : List Char → Prop
  | none : Fraction []
  | digits {c : Char} {cs : List Char} : c.isDigit = true → Digits cs → Fraction ('.' :: c :: cs)

inductive Exponent : List Char → Prop
  | none : Exponent []
  | digits {sign c : Char} {cs : List Char} : sign = '+' ∨ sign = '-' → c.isDigit = true → Digits cs →
      Exponent ('e' :: sign :: c :: cs)

/-- A decimal number without an exponent. -/
structure Decimal (cs : List Char) : Prop where
  parts : ∃ sign whole fraction, cs = sign ++ whole ++ fraction ∧ (sign = [] ∨ sign = ['-']) ∧
    Whole whole ∧ Fraction fraction

/-- What the standard library says of its formats and its parser. -/
structure Floats.Lawful (floats : Floats F) : Prop where
  display : ∀ value, floats.kind value = .finite → Decimal (floats.display value)
  lowerExp : ∀ value, floats.kind value = .finite → Decimal (floats.lowerExp value).1
  parse_zero : floats.parse ['0'] = some floats.zero
  parse_format : ∀ value, floats.isFinite value = true → floats.kind value ≠ .zero true →
    floats.parse (formatNumber floats value) = some value

/-- The text of a number of JSON that is written. -/
structure Numeral (cs : List Char) : Prop where
  parts : ∃ decimal exponent, cs = decimal ++ exponent ∧ Decimal decimal ∧ Exponent exponent

theorem digits_toDigits (n : ℕ) : ∃ c cs, Nat.toDigits 10 n = c :: cs ∧ c.isDigit = true ∧ Digits cs := by
  have hdigits : Digits (Nat.toDigits 10 n) :=
    fun c hc => Nat.isDigit_of_mem_toDigits (by decide) (by decide) hc
  cases hcs : Nat.toDigits 10 n with
  | nil => exact absurd hcs Nat.toDigits_ne_nil
  | cons c cs =>
    rw [hcs] at hdigits
    exact ⟨c, cs, rfl, hdigits c (by simp), fun d hd => hdigits d (by simp [hd])⟩

theorem exponent_display (exponent : ℤ) :
    Exponent ('e' :: (if 0 ≤ exponent then ['+'] else []) ++ displayExponent exponent) := by
  obtain ⟨c, cs, hcs, hc, hdigits⟩ := digits_toDigits exponent.natAbs
  rw [displayExponent, hcs]
  by_cases h : 0 ≤ exponent
  · have hnot : ¬exponent < 0 := by omega
    simpa [h, hnot] using Exponent.digits (.inl rfl) hc hdigits
  · have hneg : exponent < 0 := by omega
    simpa [h, hneg] using Exponent.digits (.inr rfl) hc hdigits

theorem numeral_formatNumber (lawful : floats.Lawful) {value : F} (h : floats.isFinite value = true) :
    Numeral (formatNumber floats value) := by
  cases hkind : floats.kind value with
  | nan => simp [Floats.isFinite, hkind] at h
  | infinity negative => simp [Floats.isFinite, hkind] at h
  | zero negative =>
    refine ⟨['0'], [], ?_, ⟨[], ['0'], [], rfl, .inl rfl, .zero, .none⟩, .none⟩
    simp [formatNumber, hkind]
  | finite =>
    rw [formatNumber, hkind]
    dsimp only
    split
    · exact ⟨_, [], (append_nil _).symm, lawful.display value hkind, .none⟩
    · refine ⟨_, _, ?_, lawful.lowerExp value hkind, exponent_display (floats.lowerExp value).2⟩
      simp

/-- A character that the indenter only copies. -/
def Plain (c : Char) : Prop := c ∉ ['"', '\x7b', '[', '\x7d', ']', ',', ':']

instance (c : Char) : Decidable (Plain c) := inferInstanceAs (Decidable (¬_))

theorem plain_digit {c : Char} (h : c.isDigit = true) : Plain c := by
  intro hc
  simp only [mem_cons, not_mem_nil, or_false] at hc
  rcases hc with rfl | rfl | rfl | rfl | rfl | rfl | rfl <;> exact absurd h (by decide)

theorem Whole.plain {cs : List Char} (h : Whole cs) : cs ≠ [] ∧ ∀ c ∈ cs, Plain c := by
  cases h with
  | zero => exact ⟨by simp, by simp [Plain]⟩
  | digits hc hne hcs =>
    exact ⟨by simp, forall_mem_cons.mpr ⟨plain_digit hc, fun d hd => plain_digit (hcs d hd)⟩⟩

theorem Fraction.plain {cs : List Char} (h : Fraction cs) : ∀ c ∈ cs, Plain c := by
  cases h with
  | none => simp
  | digits hc hcs =>
    refine forall_mem_cons.mpr ⟨by decide, forall_mem_cons.mpr ⟨plain_digit hc, ?_⟩⟩
    exact fun d hd => plain_digit (hcs d hd)

theorem Exponent.plain {cs : List Char} (h : Exponent cs) : ∀ c ∈ cs, Plain c := by
  cases h with
  | none => simp
  | digits hsign hc hcs =>
    refine forall_mem_cons.mpr ⟨by decide, forall_mem_cons.mpr ⟨?_, forall_mem_cons.mpr ?_⟩⟩
    · rcases hsign with rfl | rfl <;> decide
    · exact ⟨plain_digit hc, fun d hd => plain_digit (hcs d hd)⟩

theorem Numeral.plain {cs : List Char} (h : Numeral cs) : cs ≠ [] ∧ ∀ c ∈ cs, Plain c := by
  obtain ⟨decimal, exponent, rfl, ⟨sign, whole, fraction, rfl, hsign, hwhole, hfraction⟩, hexponent⟩ := h
  refine ⟨by simp [hwhole.plain.1], ?_⟩
  intro c hc
  simp only [mem_append] at hc
  rcases hc with ((hc | hc) | hc) | hc
  · rcases hsign with rfl | rfl
    · simp at hc
    · obtain rfl := mem_singleton.mp hc
      decide
  · exact hwhole.plain.2 c hc
  · exact hfraction.plain c hc
  · exact hexponent.plain c hc

/-! ### Layouts -/

/-- What stands before an element or a closing bracket, by depth, and after a colon. -/
structure Layout where
  line : ℕ → List Char
  colon : List Char

def compact : Layout := { line := fun _ => [], colon := [] }

def indented (indent : List Char) : Layout := { line := newline indent, colon := [' '] }

mutual

def Layout.text (layout : Layout) (floats : Floats F) (depth : ℕ) : JsonNode F → List Char
  | .null => "null".toList
  | .bool value => if value then "true".toList else "false".toList
  | .number value => if floats.isFinite value then formatNumber floats value else "null".toList
  | .string value => writeString value
  | .array values =>
    if values.isEmpty then ['[', ']']
    else '[' :: layout.items floats (depth + 1) true values ++ layout.line depth ++ [']']
  | .object fields =>
    if fields.isEmpty then ['\x7b', '\x7d']
    else '\x7b' :: layout.fields floats (depth + 1) true fields ++ layout.line depth ++ ['\x7d']

def Layout.items (layout : Layout) (floats : Floats F) (depth : ℕ) (first : Bool) :
    List (JsonNode F) → List Char
  | [] => []
  | value :: values =>
    (if first then [] else [',']) ++ layout.line depth ++ layout.text floats depth value ++
      layout.items floats depth false values

def Layout.fields (layout : Layout) (floats : Floats F) (depth : ℕ) (first : Bool) :
    List (Units × JsonNode F) → List Char
  | [] => []
  | (name, value) :: fields =>
    (if first then [] else [',']) ++ layout.line depth ++ writeString name ++ ':' :: layout.colon ++
      layout.text floats depth value ++ layout.fields floats depth false fields

end

attribute [local simp] Layout.text Layout.items Layout.fields writeJson writeElements writeProperties indentStep indentLoop

theorem items_compact {depth : ℕ} {values : List (JsonNode F)}
    (ih : ∀ value ∈ values, ∀ depth, compact.text floats depth value = writeJson floats value) (first : Bool) :
    compact.items floats depth first values = writeElements floats first values := by
  induction values generalizing first with
  | nil => rfl
  | cons value values ihs =>
    rw [Layout.items, writeElements, ih value (by simp), ihs fun v hv => ih v (by simp [hv])]
    simp [compact]

theorem fields_compact {depth : ℕ} {fields : List (Units × JsonNode F)}
    (ih : ∀ field ∈ fields, ∀ depth, compact.text floats depth field.2 = writeJson floats field.2)
    (first : Bool) : compact.fields floats depth first fields = writeProperties floats first fields := by
  induction fields generalizing first with
  | nil => rfl
  | cons field fields ihs =>
    obtain ⟨name, value⟩ := field
    have hvalue : compact.text floats depth value = writeJson floats value := ih (name, value) (by simp) depth
    rw [Layout.fields, writeProperties, hvalue, ihs fun v hv => ih v (by simp [hv])]
    simp [compact]

/-- The writer leaves every blank out. -/
theorem text_compact (node : JsonNode F) (depth : ℕ) : compact.text floats depth node = writeJson floats node := by
  induction node using JsonNode.induct generalizing depth with
  | null => rfl
  | bool value => rfl
  | number value => rfl
  | string value => rfl
  | array values ih =>
    rw [Layout.text, writeJson, items_compact ih]
    cases values with
    | nil => rfl
    | cons value values => simp [compact]
  | object fields ih =>
    rw [Layout.text, writeJson, fields_compact ih]
    cases fields with
    | nil => rfl
    | cons field fields => simp [compact]

/-!
## Indenting a JSON text

The loop that indents the compact text never closes more than was opened, and what it gives is the
tree's layout with the gap string.
-/

variable {F : Type} {floats : Floats F} {indent : List Char}

/-! ### Inside a string -/

/-- A character that a string of the text holds as itself. -/
def Unescaped (c : Char) : Prop := c ≠ '"' ∧ c ≠ '\\'

theorem unescaped_hex4 (n : ℕ) : ∀ c ∈ hex4 n, Unescaped c := by
  have hdigit : ∀ d : Fin 16, Unescaped (Nat.digitChar d) := by
    unfold Unescaped
    decide
  intro c hc
  simp only [hex4, mem_cons, not_mem_nil, or_false] at hc
  rcases hc with rfl | rfl | rfl | rfl
  · exact hdigit ⟨n / 4096 % 16, Nat.mod_lt _ (by decide)⟩
  · exact hdigit ⟨n / 256 % 16, Nat.mod_lt _ (by decide)⟩
  · exact hdigit ⟨n / 16 % 16, Nat.mod_lt _ (by decide)⟩
  · exact hdigit ⟨n % 16, Nat.mod_lt _ (by decide)⟩

/-- An item is an escape, or one character that needs none. -/
theorem writeItem_cases (item : Char ⊕ UInt16) :
    (∃ x tail, writeItem item = '\\' :: x :: tail ∧ ∀ c ∈ tail, Unescaped c) ∨
      ∃ ch, writeItem item = [ch] ∧ Unescaped ch := by
  cases item with
  | inr unit => exact .inl ⟨'u', hex4 unit.toNat, rfl, unescaped_hex4 _⟩
  | inl ch =>
    rw [writeItem]
    split
    · exact .inl ⟨_, [], rfl, by simp⟩
    next hquote =>
      split
      · exact .inl ⟨_, [], rfl, by simp⟩
      next hback =>
        iterate 5
          split
          · exact .inl ⟨_, [], rfl, by simp⟩
        split
        · exact .inl ⟨_, _, rfl, unescaped_hex4 _⟩
        · exact .inr ⟨ch, rfl, hquote, hback⟩

def inside (depth : ℕ) (output : List Char) : Indenter :=
  { depth := depth, inString := true, escaped := false, output := output }

def outside (depth : ℕ) (output : List Char) : Indenter :=
  { depth := depth, inString := false, escaped := false, output := output }

theorem indentLoop_unescaped {cs : List Char} (h : ∀ c ∈ cs, Unescaped c) (rest : List Char) (depth : ℕ)
    (output : List Char) :
    indentLoop indent (cs ++ rest) (inside depth output) = indentLoop indent rest (inside depth (output ++ cs)) := by
  induction cs generalizing output with
  | nil => simp
  | cons c cs ih =>
    obtain ⟨hquote, hback⟩ := h c (by simp)
    have hstep : indentStep indent (inside depth output) c (cs ++ rest).head? =
        some (inside depth (output ++ [c])) := by
      simp [inside, Indenter.push, hquote, hback]
    rw [cons_append, indentLoop, hstep, Option.bind_some, ih fun d hd => h d (by simp [hd])]
    simp

theorem indentLoop_item (item : Char ⊕ UInt16) (rest : List Char) (depth : ℕ) (output : List Char) :
    indentLoop indent (writeItem item ++ rest) (inside depth output) =
      indentLoop indent rest (inside depth (output ++ writeItem item)) := by
  rcases writeItem_cases item with ⟨x, tail, hitem, htail⟩ | ⟨ch, hitem, hch⟩
  · rw [hitem]
    -- the backslash and the character after it, whatever that is
    have hback : indentLoop indent ('\\' :: x :: tail ++ rest) (inside depth output) =
        indentLoop indent (tail ++ rest) (inside depth (output ++ ['\\', x])) := by
      simp [inside, Indenter.push]
    rw [hback, indentLoop_unescaped htail]
    simp
  · rw [hitem]
    exact indentLoop_unescaped (by simpa using hch) rest depth output

theorem indentLoop_items (items : List (Char ⊕ UInt16)) (rest : List Char) (depth : ℕ) (output : List Char) :
    indentLoop indent (items.flatMap writeItem ++ rest) (inside depth output) =
      indentLoop indent rest (inside depth (output ++ items.flatMap writeItem)) := by
  induction items generalizing output with
  | nil => simp
  | cons item items ih =>
    rw [flatMap_cons, append_assoc, indentLoop_item, ih, append_assoc]

theorem indentLoop_writeString (value : Units) (rest : List Char) (depth : ℕ) (output : List Char) :
    indentLoop indent (writeString value ++ rest) (outside depth output) =
      indentLoop indent rest (outside depth (output ++ writeString value)) := by
  have hopen : indentStep indent (outside depth output) '"'
      ((decode value).flatMap writeItem ++ ['"'] ++ rest).head? = some (inside depth (output ++ ['"'])) := by
    simp [outside, inside, Indenter.push]
  have hclose : ∀ output : List Char, indentStep indent (inside depth output) '"' rest.head? =
      some (outside depth (output ++ ['"'])) := by
    simp [outside, inside, Indenter.push]
  rw [writeString, cons_append, cons_append, indentLoop, hopen, Option.bind_some, append_assoc,
    indentLoop_items, singleton_append, indentLoop, hclose, Option.bind_some]
  simp

/-! ### Outside a string -/

theorem indentLoop_plain {cs : List Char} (h : ∀ c ∈ cs, Plain c) (rest : List Char) (depth : ℕ)
    (output : List Char) :
    indentLoop indent (cs ++ rest) (outside depth output) =
      indentLoop indent rest (outside depth (output ++ cs)) := by
  induction cs generalizing output with
  | nil => simp
  | cons c cs ih =>
    have hc := h c (by simp)
    simp only [Plain, mem_cons, not_mem_nil, or_false, not_or] at hc
    have hstep : indentStep indent (outside depth output) c (cs ++ rest).head? =
        some (outside depth (output ++ [c])) := by
      simp [outside, Indenter.push, hc]
    rw [cons_append, indentLoop, hstep, Option.bind_some, ih fun d hd => h d (by simp [hd])]
    simp

theorem plain_scalar (lawful : floats.Lawful) {value : F} :
    ∀ c ∈ (if floats.isFinite value then formatNumber floats value else "null".toList), Plain c := by
  split
  · next h => exact (numeral_formatNumber lawful h).plain.2
  · simp [Plain]

/-! ### Where a text starts and ends -/

def Starts (cs : List Char) : Prop := ∃ c rest, cs = c :: rest ∧ c ≠ ']' ∧ c ≠ '\x7d'

def Ends (cs : List Char) : Prop := ∃ front c, cs = front ++ [c] ∧ c ≠ '[' ∧ c ≠ '\x7b'

theorem Starts.append {cs : List Char} (h : Starts cs) (rest : List Char) : Starts (cs ++ rest) := by
  obtain ⟨c, tail, rfl, hc⟩ := h
  exact ⟨c, tail ++ rest, rfl, hc⟩

theorem Ends.append {cs : List Char} (h : Ends cs) (front : List Char) : Ends (front ++ cs) := by
  obtain ⟨before, c, rfl, hc⟩ := h
  exact ⟨front ++ before, c, by simp, hc⟩

theorem starts_plain {cs : List Char} (hne : cs ≠ []) (h : ∀ c ∈ cs, Plain c) : Starts cs := by
  obtain ⟨c, rest, rfl⟩ := exists_cons_of_ne_nil hne
  have hc := h c (by simp)
  simp only [Plain, mem_cons, not_mem_nil, or_false, not_or] at hc
  exact ⟨c, rest, rfl, hc.2.2.2.2.1, hc.2.2.2.1⟩

theorem ends_plain {cs : List Char} (hne : cs ≠ []) (h : ∀ c ∈ cs, Plain c) : Ends cs := by
  have hlast := h (cs.getLast hne) (getLast_mem hne)
  simp only [Plain, mem_cons, not_mem_nil, or_false, not_or] at hlast
  exact ⟨cs.dropLast, cs.getLast hne, (dropLast_append_getLast hne).symm, hlast.2.2.1, hlast.2.1⟩

theorem scalar_ne_nil (lawful : floats.Lawful) {value : F} :
    (if floats.isFinite value then formatNumber floats value else "null".toList) ≠ [] := by
  split
  · next h => exact (numeral_formatNumber lawful h).plain.1
  · decide

theorem starts_writeString (value : Units) : Starts (writeString value) :=
  ⟨'"', _, rfl, by decide, by decide⟩

theorem ends_writeString (value : Units) : Ends (writeString value) :=
  ⟨'"' :: (decode value).flatMap writeItem, '"', rfl, by decide, by decide⟩

theorem starts_writeJson (lawful : floats.Lawful) (node : JsonNode F) : Starts (writeJson floats node) := by
  cases node with
  | null => exact ⟨'n', _, rfl, by decide, by decide⟩
  | bool value =>
    cases value with
    | false => exact ⟨'f', _, rfl, by decide, by decide⟩
    | true => exact ⟨'t', _, rfl, by decide, by decide⟩
  | number value =>
    rw [writeJson]
    exact starts_plain (scalar_ne_nil lawful) (plain_scalar lawful)
  | string value =>
    rw [writeJson]
    exact starts_writeString value
  | array values => exact ⟨'[', _, by rw [writeJson, cons_append], by decide, by decide⟩
  | object fields => exact ⟨'\x7b', _, by rw [writeJson, cons_append], by decide, by decide⟩

theorem ends_text (lawful : floats.Lawful) (layout : Layout) (depth : ℕ) (node : JsonNode F) :
    Ends (layout.text floats depth node) := by
  cases node with
  | null => exact ⟨['n', 'u', 'l'], 'l', rfl, by decide, by decide⟩
  | bool value =>
    cases value with
    | false => exact ⟨['f', 'a', 'l', 's'], 'e', rfl, by decide, by decide⟩
    | true => exact ⟨['t', 'r', 'u'], 'e', rfl, by decide, by decide⟩
  | number value =>
    rw [Layout.text]
    exact ends_plain (scalar_ne_nil lawful) (plain_scalar lawful)
  | string value =>
    rw [Layout.text]
    exact ends_writeString value
  | array values =>
    rw [Layout.text]
    split
    · exact ⟨['['], ']', rfl, by decide, by decide⟩
    · exact ⟨_, ']', rfl, by decide, by decide⟩
  | object fields =>
    rw [Layout.text]
    split
    · exact ⟨['\x7b'], '\x7d', rfl, by decide, by decide⟩
    · exact ⟨_, '\x7d', rfl, by decide, by decide⟩

theorem ends_items (lawful : floats.Lawful) (layout : Layout) (depth : ℕ) (values : List (JsonNode F))
    {before : List Char} (h : Ends before) : Ends (before ++ layout.items floats depth false values) := by
  induction values generalizing before with
  | nil => simpa using h
  | cons value values ih =>
    have hvalue : Ends (before ++ ([','] ++ layout.line depth ++ layout.text floats depth value)) :=
      Ends.append (Ends.append (ends_text lawful layout depth value) _) before
    simpa using ih hvalue

theorem ends_fields (lawful : floats.Lawful) (layout : Layout) (depth : ℕ)
    (fields : List (Units × JsonNode F)) {before : List Char} (h : Ends before) :
    Ends (before ++ layout.fields floats depth false fields) := by
  induction fields generalizing before with
  | nil => simpa using h
  | cons field fields ih =>
    obtain ⟨name, value⟩ := field
    have hvalue : Ends (before ++ (',' :: layout.line depth ++ writeString name ++ ':' :: layout.colon ++
        layout.text floats depth value)) :=
      Ends.append (Ends.append (ends_text lawful layout depth value) _) before
    simpa using ih hvalue

/-! ### Brackets -/

/-- The brackets of arrays and of objects. -/
def Brackets (opening closing : Char) : Prop :=
  opening = '[' ∧ closing = ']' ∨ opening = '\x7b' ∧ closing = '\x7d'

theorem indentLoop_empty {opening closing : Char} (h : Brackets opening closing) (rest : List Char) (depth : ℕ)
    (output : List Char) :
    indentLoop indent (opening :: closing :: rest) (outside depth output) =
      indentLoop indent rest (outside depth (output ++ [opening, closing])) := by
  rcases h with ⟨rfl, rfl⟩ | ⟨rfl, rfl⟩ <;>
    simp [outside, Indenter.push]

theorem indentLoop_open {opening closing : Char} (h : Brackets opening closing) {cs : List Char} (hcs : Starts cs)
    (depth : ℕ) (output : List Char) :
    indentLoop indent (opening :: cs) (outside depth output) =
      indentLoop indent cs (outside (depth + 1) (output ++ opening :: newline indent (depth + 1))) := by
  obtain ⟨c, rest, rfl, hsquare, hcurly⟩ := hcs
  rcases h with ⟨rfl, rfl⟩ | ⟨rfl, rfl⟩ <;>
    simp [outside, Indenter.push, hsquare, hcurly]

theorem indentLoop_close {opening closing : Char} (h : Brackets opening closing) (rest : List Char) (depth : ℕ)
    {output : List Char} (hends : Ends output) :
    indentLoop indent (closing :: rest) (outside (depth + 1) output) =
      indentLoop indent rest (outside depth (output ++ newline indent depth ++ [closing])) := by
  obtain ⟨front, c, rfl, hsquare, hcurly⟩ := hends
  rcases h with ⟨rfl, rfl⟩ | ⟨rfl, rfl⟩ <;>
    simp [outside, Indenter.push, hsquare, hcurly]

theorem indentLoop_comma (rest : List Char) (depth : ℕ) (output : List Char) :
    indentLoop indent (',' :: rest) (outside depth output) =
      indentLoop indent rest (outside depth (output ++ ',' :: newline indent depth)) := by
  simp [outside, Indenter.push]

theorem indentLoop_colon (rest : List Char) (depth : ℕ) (output : List Char) :
    indentLoop indent (':' :: rest) (outside depth output) =
      indentLoop indent rest (outside depth (output ++ [':', ' '])) := by
  simp [outside, Indenter.push]

/-! ### A tree -/

/-- The indenter goes over the tree's compact text and leaves its layout. -/
def Indents (floats : Floats F) (indent : List Char) (node : JsonNode F) : Prop :=
  ∀ rest depth output, indentLoop indent (writeJson floats node ++ rest) (outside depth output) =
    indentLoop indent rest (outside depth (output ++ (indented indent).text floats depth node))

theorem indentLoop_elements {values : List (JsonNode F)} (ih : ∀ value ∈ values, Indents floats indent value)
    (rest : List Char) (depth : ℕ) (output : List Char) :
    indentLoop indent (writeElements floats false values ++ rest) (outside depth output) =
      indentLoop indent rest (outside depth (output ++ (indented indent).items floats depth false values)) := by
  induction values generalizing output with
  | nil => simp
  | cons value values ihs =>
    have hvalue := ih value (by simp)
    have hvalues := ihs fun v hv => ih v (by simp [hv])
    simp only [writeElements, Bool.false_eq_true, if_false, append_assoc, cons_append,
      nil_append]
    rw [indentLoop_comma, hvalue, hvalues]
    simp [indented]

theorem indentLoop_properties {fields : List (Units × JsonNode F)}
    (ih : ∀ field ∈ fields, Indents floats indent field.2) (rest : List Char) (depth : ℕ) (output : List Char) :
    indentLoop indent (writeProperties floats false fields ++ rest) (outside depth output) =
      indentLoop indent rest (outside depth (output ++ (indented indent).fields floats depth false fields)) := by
  induction fields generalizing output with
  | nil => simp
  | cons field fields ihs =>
    obtain ⟨name, value⟩ := field
    have hvalue : Indents floats indent value := ih (name, value) (by simp)
    have hfields := ihs fun v hv => ih v (by simp [hv])
    simp only [writeProperties, Bool.false_eq_true, if_false, append_assoc, cons_append,
      nil_append]
    rw [indentLoop_comma, indentLoop_writeString, indentLoop_colon, hvalue, hfields]
    simp [indented]

theorem indents_array (lawful : floats.Lawful) {values : List (JsonNode F)}
    (ih : ∀ value ∈ values, Indents floats indent value) : Indents floats indent (.array values) := by
  intro rest depth output
  have hbrackets : Brackets '[' ']' := .inl ⟨rfl, rfl⟩
  cases values with
  | nil => simpa using indentLoop_empty hbrackets rest depth output
  | cons value values =>
    have hvalue := ih value (by simp)
    have hvalues : ∀ v ∈ values, Indents floats indent v := fun v hv => ih v (by simp [hv])
    have hstarts := (starts_writeJson lawful value).append
      (writeElements floats false values ++ (']' :: rest))
    have hends := ends_items lawful (indented indent) (depth + 1) values
      ((ends_text lawful (indented indent) (depth + 1) value).append
        (output ++ '[' :: newline indent (depth + 1)))
    simp only [writeJson, writeElements, if_true, nil_append, append_assoc, cons_append]
    rw [indentLoop_open hbrackets hstarts, hvalue, indentLoop_elements hvalues,
      indentLoop_close hbrackets rest depth hends]
    simp [indented]

theorem indents_object (lawful : floats.Lawful) {fields : List (Units × JsonNode F)}
    (ih : ∀ field ∈ fields, Indents floats indent field.2) : Indents floats indent (.object fields) := by
  intro rest depth output
  have hbrackets : Brackets '\x7b' '\x7d' := .inr ⟨rfl, rfl⟩
  cases fields with
  | nil => simpa using indentLoop_empty hbrackets rest depth output
  | cons field fields =>
    obtain ⟨name, value⟩ := field
    have hvalue : Indents floats indent value := ih (name, value) (by simp)
    have hfields : ∀ v ∈ fields, Indents floats indent v.2 := fun v hv => ih v (by simp [hv])
    have hstarts := (starts_writeString name).append
      (':' :: (writeJson floats value ++ (writeProperties floats false fields ++ ('\x7d' :: rest))))
    have hends := ends_fields lawful (indented indent) (depth + 1) fields
      ((ends_text lawful (indented indent) (depth + 1) value).append
        (output ++ '\x7b' :: newline indent (depth + 1) ++ writeString name ++ [':', ' ']))
    simp only [writeJson, writeProperties, if_true, nil_append, append_assoc, cons_append]
    rw [indentLoop_open hbrackets hstarts, indentLoop_writeString, indentLoop_colon, hvalue,
      indentLoop_properties hfields, indentLoop_close hbrackets rest depth hends]
    simp [indented]

theorem indents (lawful : floats.Lawful) (node : JsonNode F) : Indents floats indent node := by
  induction node using JsonNode.induct with
  | null => exact @indentLoop_plain _ "null".toList (by simp [Plain])
  | bool value =>
    cases value with
    | false => exact @indentLoop_plain _ "false".toList (by simp [Plain])
    | true => exact @indentLoop_plain _ "true".toList (by simp [Plain])
  | number value =>
    intro rest depth output
    rw [writeJson, Layout.text]
    exact indentLoop_plain (plain_scalar lawful) rest depth output
  | string value =>
    intro rest depth output
    rw [writeJson, Layout.text]
    exact indentLoop_writeString value rest depth output
  | array values ih => exact indents_array lawful ih
  | object fields ih => exact indents_object lawful ih

/-- Indenting the compact text never panics and gives the layout with the gap string. -/
theorem indentText_writeJson (lawful : floats.Lawful) (indent : List Char) (node : JsonNode F) :
    indentText indent (writeJson floats node) = some ((indented indent).text floats 0 node) := by
  have h : indentLoop indent (writeJson floats node) (outside 0 []) =
      some (outside 0 ((indented indent).text floats 0 node)) := by
    simpa using @indents F floats indent lawful node [] 0 []
  have hstart : indentText indent (writeJson floats node) =
      (indentLoop indent (writeJson floats node) (outside 0 [])).map Indenter.output := rfl
  rw [hstart, h]
  rfl

end Scriptc.RuntimeRust.Json
