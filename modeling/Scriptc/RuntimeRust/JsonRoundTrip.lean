import Scriptc.RuntimeRust.JsonAccept

/-!
# Parsing what was written

Every layout of a tree whose blanks are white space is a text of the grammar, of the tree itself but for the numbers
that JSON has no text for.
-/

namespace Scriptc.RuntimeRust.Json

open Scriptc.Utf16 List

variable {F : Type} {floats : Floats F} {layout : Layout}

mutual

/-- The tree that is read: `-0` is `0` and a number that is not finite is `null`. -/
def JsonNode.clean (floats : Floats F) : JsonNode F → JsonNode F
  | .null => .null
  | .bool value => .bool value
  | .number value =>
    if floats.isFinite value then .number (if floats.kind value = .zero true then floats.zero else value)
    else .null
  | .string value => .string value
  | .array values => .array (cleanElements floats values)
  | .object fields => .object (cleanProperties floats fields)

def cleanElements (floats : Floats F) : List (JsonNode F) → List (JsonNode F)
  | [] => []
  | value :: values => value.clean floats :: cleanElements floats values

def cleanProperties (floats : Floats F) : List (Units × JsonNode F) → List (Units × JsonNode F)
  | [] => []
  | (name, value) :: fields => (name, value.clean floats) :: cleanProperties floats fields

end

/-- A layout with nothing but white space. -/
structure Layout.Blank (layout : Layout) : Prop where
  line : ∀ depth, ∀ c ∈ layout.line depth, Json.Blank c
  colon : ∀ c ∈ layout.colon, Json.Blank c

/-! ### Strings -/

theorem encode_append (cs ds : List Char) : encode (cs ++ ds) = encode cs ++ encode ds := flatMap_append

theorem encode_token {cs : List Char} (h : ∀ c ∈ cs, Token c) : encode cs = cs.map unit := by
  induction cs with
  | nil => rfl
  | cons c cs ih =>
    obtain ⟨hc, hcs⟩ := forall_mem_cons.mp h
    have hcons : encode (c :: cs) = encodeChar c ++ encode cs := rfl
    rw [hcons, encodeChar_ascii hc.1, ih hcs]
    rfl

theorem encode_hex4 {n : ℕ} (h : n < 2 ^ 16) : ∃ digits : List Char, encode (hex4 n) = digits.map unit ∧ digits.length = 4 ∧
    Numerals.read Numerals.hexDigit 16 0 digits = some n := by
  have hdigit : ∀ d : Fin 16, Token (Nat.digitChar d) ∧ Numerals.hexDigit (Nat.digitChar d) = some d.val := by decide
  have hmod (k : ℕ) : k % 16 < 16 := Nat.mod_lt _ (by decide)
  have hchar (k : ℕ) := hdigit ⟨k % 16, hmod k⟩
  refine ⟨hex4 n, encode_token ?_, rfl, ?_⟩
  · rw [hex4]
    simp only [forall_mem_cons]
    exact ⟨(hchar _).1, (hchar _).1, (hchar _).1, (hchar _).1, by simp⟩
  · simp only [hex4, Numerals.read, (hchar _).2, Option.bind_some, Option.some.injEq]
    omega

/-- One item of a string, however it is written. -/
theorem StringChars.item (item : Char ⊕ UInt16) {us vs : Units} (h : StringChars us vs) :
    StringChars (encode (writeItem item) ++ us) (encodeItem item ++ vs) := by
  have hhex {n : ℕ} (hn : n < 2 ^ 16) : StringChars (encode ('\\' :: 'u' :: hex4 n) ++ us) (UInt16.ofNat n :: vs) := by
    obtain ⟨digits, hdigits, hlength, hread⟩ := encode_hex4 hn
    have hcons : encode ('\\' :: 'u' :: hex4 n) = unit '\\' :: unit 'u' :: encode (hex4 n) := rfl
    rw [hcons, hdigits]
    exact .escaped (.unicode hlength hread) h
  cases item with
  | inr u =>
    have hunit := hhex u.toNat_lt
    rwa [UInt16.ofNat_toNat] at hunit
  | inl ch =>
    have hcode (n : ℕ) (hn : ch.toNat = n) : ch = Char.ofNat n := by
      rw [← hn]
      exact (Char.ofNat_toNat ch).symm
    have hshort {e c : Char} (he : Escape [unit e] (unit c)) : StringChars (unit '\\' :: unit e :: us) (unit c :: vs) := .escaped he h
    rw [writeItem, encodeItem]
    split
    next hquote =>
      obtain rfl := hquote
      exact hshort (.short (by decide))
    next hquote =>
      split
      next hback =>
        obtain rfl := hback
        exact hshort (.short (by decide))
      next hback =>
        iterate 5
          split
          next hch =>
            obtain rfl := hcode _ hch
            exact hshort (.short (by decide))
        split
        next hcontrol =>
          have hone : encodeChar ch = [UInt16.ofNat ch.toNat] := if_pos (by omega)
          rw [hone]
          exact hhex (by omega)
        next hcontrol =>
          have hone : encode [ch] = encodeChar ch := append_nil _
          rw [hone]
          exact h.char hquote hback hcontrol

/-- A string is written between quotation marks. -/
theorem encode_writeString (value : Units) : ∃ body, encode (writeString value) = unit '"' :: (body ++ [unit '"']) ∧ StringChars body value := by
  refine ⟨encode ((decode value).flatMap writeItem), ?_, ?_⟩
  · have hcons : encode (writeString value) = unit '"' :: encode ((decode value).flatMap writeItem ++ ['"']) := rfl
    rw [hcons, encode_append]
    rfl
  · conv => arg 2; rw [← flatMap_decode value]
    induction decode value with
    | nil => exact .nil
    | cons item items ih =>
      rw [flatMap_cons, flatMap_cons, encode_append]
      exact ih.item item

/-! ### Values -/

theorem encode_blanks {cs : List Char} (h : ∀ c ∈ cs, Blank c) : Blanks (encode cs) := by
  rw [encode_token fun c hc => (h c hc).token]
  exact blanks_map h

theorem value_number_clean (lawful : floats.Lawful) (depth : ℕ) (x : F) :
    Value floats.Reads (encode (layout.text floats depth (.number x))) (JsonNode.clean floats (.number x)) := by
  rw [Layout.text, JsonNode.clean]
  split_ifs with hfinite hzero
  · have hformat : formatNumber floats x = ['0'] := by simp [formatNumber, hzero]
    rw [hformat]
    exact @Value.number F floats.Reads ['0'] _ ⟨hformat ▸ (numeral_formatNumber lawful hfinite).number, lawful.parse_zero⟩
  · have hnumber := (numeral_formatNumber lawful hfinite).number
    rw [encode_token hnumber.token]
    exact .number ⟨hnumber, lawful.parse_format x hfinite hzero⟩
  · exact .null

/-- The elements of an array from the first on, with blanks before and after them. -/
theorem elements_items (hlayout : layout.Blank) {depth : ℕ} {values : List (JsonNode F)} :
    ∀ {first : JsonNode F}, (∀ node ∈ first :: values, Value floats.Reads (encode (layout.text floats depth node)) (node.clean floats)) →
    ∀ {before after : List Char}, (∀ c ∈ before, Blank c) → (∀ c ∈ after, Blank c) →
      Elements floats.Reads (encode (before ++ (layout.text floats depth first ++ (layout.items floats depth false values ++ after))))
        (cleanElements floats (first :: values)) := by
  induction values with
  | nil =>
    intro first ih before after hbefore hafter
    rw [Layout.items, nil_append, encode_append, encode_append]
    exact .last (encode_blanks hbefore) (ih first mem_cons_self) (encode_blanks hafter)
  | cons value values ihs =>
    intro first ih before after hbefore hafter
    obtain ⟨hfirst, hvalues⟩ := forall_mem_cons.mp ih
    have hrest := ihs hvalues (hlayout.line depth) hafter
    have hsplit : layout.items floats depth false (value :: values) ++ after =
        [] ++ ',' :: (layout.line depth ++ (layout.text floats depth value ++ (layout.items floats depth false values ++ after))) := by
      simp [Layout.items]
    rw [hsplit, encode_append, encode_append]
    exact .cons (encode_blanks hbefore) hfirst Blanks.nil hrest

/-- A name, its colon and the blanks after it. -/
theorem encode_name (hlayout : layout.Blank) (name : Units) : Name (encode (writeString name ++ ':' :: layout.colon)) name := by
  obtain ⟨body, hbody, hchars⟩ := encode_writeString name
  have hmark : encode (':' :: layout.colon) = [] ++ unit ':' :: encode layout.colon := rfl
  have hname := Name.mk hchars Blanks.nil (encode_blanks hlayout.colon)
  rw [encode_append, hbody, hmark, cons_append, append_assoc]
  exact hname

/-- The fields of an object from the first on, with blanks before and after them. -/
theorem members_fields (hlayout : layout.Blank) {depth : ℕ} {fields : List (Units × JsonNode F)} :
    ∀ {name : Units} {first : JsonNode F},
    (∀ field ∈ (name, first) :: fields, Value floats.Reads (encode (layout.text floats depth field.2)) (field.2.clean floats)) →
    ∀ {before after : List Char}, (∀ c ∈ before, Blank c) → (∀ c ∈ after, Blank c) →
      Members floats.Reads (encode (before ++ (writeString name ++ ':' :: layout.colon ++ (layout.text floats depth first ++
        (layout.fields floats depth false fields ++ after))))) (cleanProperties floats ((name, first) :: fields)) := by
  induction fields with
  | nil =>
    intro name first ih before after hbefore hafter
    rw [Layout.fields, nil_append, encode_append, encode_append _ (_ ++ _), encode_append (layout.text floats depth first)]
    exact .last (encode_blanks hbefore) (encode_name hlayout name) (ih (name, first) mem_cons_self) (encode_blanks hafter)
  | cons field fields ihs =>
    intro name first ih before after hbefore hafter
    obtain ⟨name', value⟩ := field
    obtain ⟨hfirst, hfields⟩ := forall_mem_cons.mp ih
    have hrest := ihs hfields (hlayout.line depth) hafter
    have hsplit : layout.fields floats depth false ((name', value) :: fields) ++ after =
        [] ++ ',' :: (layout.line depth ++ (writeString name' ++ ':' :: layout.colon ++ (layout.text floats depth value ++
          (layout.fields floats depth false fields ++ after)))) := by
      simp [Layout.fields]
    rw [hsplit, encode_append, encode_append _ (_ ++ _), encode_append (layout.text floats depth first)]
    exact .cons (encode_blanks hbefore) (encode_name hlayout name) hfirst Blanks.nil hrest

/-- What is written is a value of the grammar. -/
theorem value_text (lawful : floats.Lawful) (hlayout : layout.Blank) (node : JsonNode F) (depth : ℕ) :
    Value floats.Reads (encode (layout.text floats depth node)) (node.clean floats) := by
  induction node using JsonNode.induct generalizing depth with
  | null => exact .null
  | bool b =>
    cases b with
    | false => exact .bool false
    | true => exact .bool true
  | number x => exact value_number_clean lawful depth x
  | string units =>
    obtain ⟨body, hbody, hchars⟩ := encode_writeString units
    rw [Layout.text, hbody]
    exact .string hchars
  | array values ih =>
    cases values with
    | nil => exact .emptyArray Blanks.nil
    | cons first values =>
      have helements := elements_items hlayout (fun node hnode => ih node hnode (depth + 1)) (hlayout.line (depth + 1)) (hlayout.line depth)
      have hsplit : layout.text floats depth (.array (first :: values)) = '[' :: (layout.line (depth + 1) ++
          (layout.text floats (depth + 1) first ++ (layout.items floats (depth + 1) false values ++ layout.line depth)) ++ [']']) := by
        simp [Layout.text, Layout.items]
      have hcons (cs : List Char) : encode ('[' :: (cs ++ [']'])) = unit '[' :: (encode cs ++ [unit ']']) :=
        congrArg (unit '[' :: ·) (encode_append cs [']'])
      rw [hsplit, hcons]
      exact .array helements
  | object fields ih =>
    cases fields with
    | nil => exact .emptyObject Blanks.nil
    | cons field fields =>
      obtain ⟨name, first⟩ := field
      have hmembers := members_fields hlayout (fun field hfield => ih field hfield (depth + 1)) (hlayout.line (depth + 1)) (hlayout.line depth)
      have hsplit : layout.text floats depth (.object ((name, first) :: fields)) = '\x7b' :: (layout.line (depth + 1) ++
          (writeString name ++ ':' :: layout.colon ++ (layout.text floats (depth + 1) first ++
            (layout.fields floats (depth + 1) false fields ++ layout.line depth))) ++ ['\x7d']) := by
        simp [Layout.text, Layout.fields]
      have hcons (cs : List Char) : encode ('\x7b' :: (cs ++ ['\x7d'])) = unit '\x7b' :: (encode cs ++ [unit '\x7d']) :=
        congrArg (unit '\x7b' :: ·) (encode_append cs ['\x7d'])
      rw [hsplit, hcons]
      exact .object hmembers

/-! ### Whole texts -/

theorem parse_text (lawful : floats.Lawful) (hlayout : layout.Blank) (node : JsonNode F) :
    jsonParseNode floats (encode (layout.text floats 0 node)) = .ok (node.clean floats) := by
  have htext := JsonText.mk Blanks.nil (value_text lawful hlayout node 0) Blanks.nil
  rw [nil_append, append_nil] at htext
  exact jsonParseNode_iff.mpr htext

theorem compact_blank : compact.Blank := ⟨by simp [compact], by simp [compact]⟩

theorem indented_blank {indent : List Char} (h : ∀ c ∈ indent, Blank c) : (indented indent).Blank := by
  refine ⟨fun depth => forall_mem_cons.mpr ⟨by simp [Blank], ?_⟩, ?_⟩
  · intro c hc
    obtain ⟨gap, hgap, hc⟩ := mem_flatten.mp hc
    exact h c (eq_of_mem_replicate hgap ▸ hc)
  · exact forall_mem_cons.mpr ⟨by simp [Blank], by simp⟩

/-- Parsing undoes writing, compact or indented with white space, up to `-0` and the numbers that are
not finite. -/
theorem parse_stringify (lawful : floats.Lawful) (node : JsonNode F) :
    jsonParseNode floats (jsonStringify floats node) = .ok (node.clean floats) ∧
      ∀ indent : List Char, (∀ c ∈ indent, Blank c) → ∃ text,
        jsonStringifyIndented floats node indent = some text ∧
          jsonParseNode floats text = .ok (node.clean floats) := by
  have hcompact : jsonParseNode floats (jsonStringify floats node) = .ok (node.clean floats) := by
    rw [jsonStringify, ← text_compact node 0]
    exact parse_text lawful compact_blank node
  refine ⟨hcompact, fun indent hindent => ?_⟩
  by_cases hempty : indent.isEmpty = true
  · exact ⟨_, by rw [jsonStringifyIndented, if_pos hempty], hcompact⟩
  · refine ⟨_, ?_, parse_text lawful (indented_blank hindent) node⟩
    rw [jsonStringifyIndented, if_neg hempty, indentText_writeJson lawful, Option.map_some]

/-- Four numbers, for an instance. -/
inductive Sample where
  | nan
  | negativeZero
  | zero
  | half

def sampleFloats : Floats Sample where
  kind
    | .nan => .nan
    | .negativeZero => .zero true
    | .zero => .zero false
    | .half => .finite
  zero := .zero
  plain _ := true
  display
    | .half => "0.5".toList
    | .nan => "NaN".toList
    | .negativeZero => "-0".toList
    | .zero => "0".toList
  lowerExp
    | .half => (['5'], -1)
    | .nan => ("NaN".toList, 0)
    | .negativeZero => ("-0".toList, 0)
    | .zero => (['0'], 0)
  parse cs := if cs = ['0'] then some .zero else if cs = "0.5".toList then some .half else none

theorem sampleFloats_lawful : sampleFloats.Lawful where
  display := by
    rintro (_ | _ | _ | _) h <;> try cases h
    exact ⟨[], ['0'], ['.', '5'], rfl, .inl rfl, .zero, .digits (by decide) (by simp [Digits])⟩
  lowerExp := by
    rintro (_ | _ | _ | _) h <;> try cases h
    exact ⟨[], ['5'], [], rfl, .inl rfl, .digits (by decide) (by decide) (by simp [Digits]), .none⟩
  parse_zero := rfl
  parse_format := by
    rintro (_ | _ | _ | _) hfinite hzero
    · cases hfinite
    · exact absurd rfl hzero
    · rfl
    · rfl

theorem parse_stringify_sample :
    jsonParseNode sampleFloats (jsonStringify sampleFloats
      (.object [([0x6b, 0xd800, 0x0a], .array [.number .negativeZero, .number .half, .number .nan])])) =
      .ok (.object [([0x6b, 0xd800, 0x0a], .array [.number .zero, .number .half, .null])]) :=
  (parse_stringify sampleFloats_lawful _).1

end Scriptc.RuntimeRust.Json
