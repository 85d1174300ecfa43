import Scriptc.RuntimeRust.JsMap
import Scriptc.RuntimeRust.JsonAccept
import Scriptc.RuntimeRust.NumericGrammar

/-!
# `JSON.parse`

The tree that the parser makes keeps every member of an object. The value that a program gets has a map in its
place: a name stands where it came first and has the value that came last.
-/

namespace Scriptc.RuntimeRust.Json

open Scriptc.Utf16
open JsMap (MapData Fault mapNew mapSetBy)

variable {F : Type}

/-! ### What the program gets -/

/-- The dynamic values that JSON has a text for. An object is the entries of its map. -/
inductive Dyn (F : Type) where
  | null
  | boolean (value : Bool)
  | number (value : F)
  | string (value : Units)
  | array (values : List (Dyn F))
  | object (entries : List (Option (Units × Dyn F)))

mutual

/-- `decode_json` of a dynamic value, which takes any tree: it has no use for the path that errors are reported with. -/
def decodeJson : JsonNode F → Except Fault (Dyn F)
  | .null => .ok .null
  | .bool value => .ok (.boolean value)
  | .number value => .ok (.number value)
  | .string value => .ok (.string value)
  | .array elements => (decodeElements elements).bind fun values => .ok (.array values)
  | .object fields => (decodeFields mapNew fields).bind fun object => .ok (.object object.entries)

def decodeElements : List (JsonNode F) → Except Fault (List (Dyn F))
  | [] => .ok []
  | element :: elements => (decodeJson element).bind fun value => (decodeElements elements).bind fun values => .ok (value :: values)

def decodeFields (object : MapData Units (Dyn F)) : List (Units × JsonNode F) → Except Fault (MapData Units (Dyn F))
  | [] => .ok object
  | (key, field) :: fields =>
    (decodeJson field).bind fun value => (mapSetBy object key value fun left right => decide (left = right)).bind fun object => decodeFields object fields

end

/-- What is thrown instead. -/
inductive Thrown where
  | syntaxError (message : String)
  | fault (fault : Fault)

def jsonParseTyped (floats : Floats F) (text : Units) : Except Thrown (Dyn F) :=
  match jsonParseNode floats text with
  | .error message => .error (.syntaxError message)
  | .ok node => (decodeJson node).mapError .fault

/-! ### What the text denotes -/

mutual

/-- The value of a tree. -/
def denote : JsonNode F → Dyn F
  | .null => .null
  | .bool value => .boolean value
  | .number value => .number value
  | .string value => .string value
  | .array elements => .array (denoteElements elements)
  | .object fields => .object ((LiveMap.merged (denoteFields fields)).map some)

def denoteElements : List (JsonNode F) → List (Dyn F)
  | [] => []
  | element :: elements => denote element :: denoteElements elements

def denoteFields : List (Units × JsonNode F) → List (Units × Dyn F)
  | [] => []
  | (key, field) :: fields => (key, denote field) :: denoteFields fields

end

/-- A map with these entries. -/
def mapFrom {V : Type} (entries : LiveMap.Slots Units V) : MapData Units V :=
  { (mapNew : MapData Units V) with entries := entries, live := (LiveMap.live entries).length }

theorem mapSetBy_mapFrom {V : Type} (entries : LiveMap.Slots Units V) (key : Units) (value : V) :
    mapSetBy (mapFrom entries) key value (fun left right => decide (left = right)) =
      .ok (mapFrom (LiveMap.set (fun k => decide (k = key)) key value entries)) := by
  have hfree : ¬ (mapFrom entries).moduleNamespace = true := Bool.false_ne_true
  rw [mapSetBy, if_neg hfree, mapFrom, mapFrom, LiveMap.set]
  dsimp only
  split_ifs with hhas
  · rw [LiveMap.length_live_put]
  · rw [LiveMap.live_append, List.length_append]
    rfl

theorem mapFrom_nil {V : Type} : mapFrom ([] : LiveMap.Slots Units V) = mapNew := rfl

mutual

theorem decodeJson_eq (node : JsonNode F) : decodeJson node = .ok (denote node) := by
  cases node with
  | null => rfl
  | bool value => rfl
  | number value => rfl
  | string value => rfl
  | array elements =>
    rw [decodeJson, decodeElements_eq elements, denote]
    rfl
  | object fields =>
    have hfields := decodeFields_eq [] fields
    rw [LiveMap.foldl_set] at hfields
    rw [decodeJson, denote, ← mapFrom_nil, hfields]
    rfl

theorem decodeElements_eq (elements : List (JsonNode F)) : decodeElements elements = .ok (denoteElements elements) := by
  cases elements with
  | nil => rfl
  | cons element elements =>
    rw [decodeElements, decodeJson_eq element, decodeElements_eq elements, denoteElements]
    rfl

theorem decodeFields_eq (entries : LiveMap.Slots Units (Dyn F)) (fields : List (Units × JsonNode F)) : decodeFields (mapFrom entries) fields =
    .ok (mapFrom ((denoteFields fields).foldl (fun l e => LiveMap.set (fun k => decide (k = e.1)) e.1 e.2 l) entries)) := by
  match fields with
  | [] => rfl
  | (key, field) :: fields =>
    have hfields := decodeFields_eq (LiveMap.set (fun k => decide (k = key)) key (denote field) entries) fields
    rw [decodeFields, decodeJson_eq field]
    dsimp only [Except.bind]
    rw [mapSetBy_mapFrom]
    exact hfields

end

/-! ### Numbers that are read -/

theorem isAsciiDigit_iff (c : Char) : NumberParse.isAsciiDigit c = c.isDigit := by
  rw [NumberParse.isAsciiDigit, Char.isDigit, Bool.decide_and]
  rfl

theorem Digits.all {cs : List Char} (h : Digits cs) : NumberParse.AllDigits cs := fun c hc => (isAsciiDigit_iff c).trans (h c hc)

theorem Number.decimal {cs : List Char} (h : Number cs) : NumberParse.Decimal cs := by
  obtain ⟨sign, whole, fraction, exponent, rfl, hsign, hwhole, hfraction, hexponent⟩ := h
  have hfirst {c : Char} {ds : List Char} (hc : c.isDigit = true) (hds : Digits ds) : NumberParse.AllDigits (c :: ds) :=
    Digits.all (List.forall_mem_cons.mpr ⟨hc, hds⟩)
  have hdigits : whole ≠ [] ∧ NumberParse.AllDigits whole := by
    cases hwhole with
    | zero => exact ⟨by simp, hfirst (by decide) (by simp [Digits])⟩
    | digits hc _ hds => exact ⟨by simp, hfirst hc hds⟩
  have hmantissa : NumberParse.Mantissa (whole ++ fraction) := by
    cases hfraction with
    | none => exact (List.append_nil whole).symm ▸ .whole hdigits.1 hdigits.2
    | digits hc hds => exact .point (fun h => hdigits.1 h.1) hdigits.2 (hfirst hc hds)
  have hpower : NumberParse.Exponent exponent := by
    cases hexponent with
    | none => exact .none
    | digits he hs hc hds => exact .some he hs (by simp) (hfirst hc hds)
  have hmark : NumberParse.IsSign sign := hsign.imp_right .inr
  rw [List.append_assoc sign, List.append_assoc]
  exact .mk hmark hmantissa hpower

/-- The double that a number denotes. -/
def Denoted (cs : List Char) (x : F64) : Prop := Number cs ∧ NumberParse.readDecimal cs = some x

/-- **JSON is accepted and nothing else.** `str::parse` gives the nearest double. -/
theorem jsonParseTyped_iff {floats : Floats F64} (hparse : ∀ cs, Number cs → floats.parse cs = NumberParse.readDecimal cs) (text : Units) :
    (∀ cs, Number cs → ∃ x, Denoted cs x) ∧
      (∀ value, jsonParseTyped floats text = .ok value ↔ ∃ node, JsonText Denoted text node ∧ value = denote node) ∧
      ((¬ ∃ node, JsonText Denoted text node) → ∃ message, jsonParseTyped floats text = .error (.syntaxError message)) := by
  have hreads : floats.Reads = Denoted := by
    funext cs x
    exact propext ⟨fun h => ⟨h.1, (hparse cs h.1).symm.trans h.2⟩, fun h => ⟨h.1, (hparse cs h.1).trans h.2⟩⟩
  have hnode (node : JsonNode F64) : jsonParseNode floats text = .ok node ↔ JsonText Denoted text node := by
    rw [← hreads]
    exact jsonParseNode_iff
  refine ⟨fun cs hcs => ?_, fun value => ?_, fun hnone => ?_⟩
  · obtain ⟨x, hx, -⟩ := NumberParse.reads_readDecimal cs hcs.decimal
    exact ⟨x, hcs, hx⟩
  · rw [jsonParseTyped]
    constructor
    · intro h
      cases hread : jsonParseNode floats text with
      | error message => simp only [hread, reduceCtorEq] at h
      | ok node =>
        simp only [hread, decodeJson_eq] at h
        cases h
        exact ⟨node, (hnode node).mp hread, rfl⟩
    · rintro ⟨node, hnode', rfl⟩
      rw [(hnode node).mpr hnode']
      dsimp only
      rw [decodeJson_eq]
      rfl
  · rw [jsonParseTyped]
    cases hread : jsonParseNode floats text with
    | error message => exact ⟨message, rfl⟩
    | ok node => exact absurd ⟨node, (hnode node).mp hread⟩ hnone

/-- The parser of doubles, without the formats, which no text needs to be read. -/
def parseFloats : Floats F64 where
  kind x := if x = .nan then .nan else .finite
  zero := F64.zero
  plain _ := false
  display _ := []
  lowerExp _ := ([], 0)
  parse := NumberParse.readDecimal

/-- A surrogate that stands alone is kept, and the last value of a name is the one that counts. -/
theorem jsonParseTyped_member : jsonParseTyped parseFloats
    ("\x7b\"a\":null,\"a\":\"".toList.map unit ++ 0xD800 :: "\"\x7d".toList.map unit) =
      .ok (.object [some (['a'].map unit, .string [0xD800])]) := by
  have hname : Name ("\"a\":".toList.map unit) (['a'].map unit) :=
    .mk (.unescaped (by decide) (by decide) (by decide) .nil) Blanks.nil Blanks.nil
  have hstring : Value Denoted (unit '"' :: ([0xD800] ++ [unit '"'])) (.string [0xD800]) :=
    .string (.unescaped (by decide) (by decide) (by decide) .nil)
  have hmembers := Members.cons Blanks.nil hname (@Value.null F64 Denoted) Blanks.nil (.last Blanks.nil hname hstring Blanks.nil)
  exact ((@jsonParseTyped_iff parseFloats (fun _ _ => rfl) _).2.1 _).mpr ⟨_, .mk Blanks.nil (.object hmembers) Blanks.nil, rfl⟩

end Scriptc.RuntimeRust.Json
