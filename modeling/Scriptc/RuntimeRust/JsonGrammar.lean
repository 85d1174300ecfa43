import Scriptc.Lib.Numerals
import Scriptc.RuntimeRust.JsonText

/-!
# The grammar of JSON

RFC 8259 over 16-bit units, in which a surrogate in a string may stand alone. What a number denotes is given.
-/

namespace Scriptc.RuntimeRust.Json

open Scriptc.Utf16

variable {F : Type}

/-! ### Numbers -/

inductive NumberExponent : List Char → Prop
  | none : NumberExponent []
  | digits {e c : Char} {sign cs : List Char} : e = 'e' ∨ e = 'E' → sign = [] ∨ sign = ['+'] ∨ sign = ['-'] → c.isDigit = true → Digits cs →
      NumberExponent (e :: (sign ++ c :: cs))

structure Number (cs : List Char) : Prop where
  parts : ∃ sign whole fraction exponent, cs = sign ++ whole ++ fraction ++ exponent ∧ (sign = [] ∨ sign = ['-']) ∧ Whole whole ∧
    Fraction fraction ∧ NumberExponent exponent

theorem Exponent.number {cs : List Char} (h : Exponent cs) : NumberExponent cs := by
  cases h with
  | none => exact .none
  | digits hsign hc hcs => exact .digits (.inl rfl) (.inr (hsign.imp (congrArg fun c => [c]) (congrArg fun c => [c]))) hc hcs

theorem Numeral.number {cs : List Char} (h : Numeral cs) : Number cs := by
  obtain ⟨_, exponent, rfl, ⟨sign, whole, fraction, rfl, hsign, hwhole, hfraction⟩, hexponent⟩ := h
  exact ⟨sign, whole, fraction, exponent, rfl, hsign, hwhole, hfraction, hexponent.number⟩

/-! ### Strings -/

def unit (c : Char) : UInt16 := UInt16.ofNat c.toNat

/-- What stands after a backslash, and the unit that it is. -/
inductive Escape : Units → UInt16 → Prop
  | short {e c : Char} : (e, c) ∈ [('"', '"'), ('\\', '\\'), ('/', '/'), ('b', Char.ofNat 8), ('f', Char.ofNat 12), ('n', '\n'),
      ('r', '\r'), ('t', '\t')] → Escape [unit e] (unit c)
  | unicode {digits : List Char} {n : ℕ} : digits.length = 4 → Numerals.read Numerals.hexDigit 16 0 digits = some n →
      Escape (unit 'u' :: digits.map unit) (UInt16.ofNat n)

/-- What stands between quotation marks, and the units that it is: each unit itself, but for controls and escapes. -/
inductive StringChars : Units → Units → Prop
  | nil : StringChars [] []
  | unescaped {u : UInt16} {us vs : Units} : 0x20 ≤ u.toNat → u ≠ unit '"' → u ≠ unit '\\' → StringChars us vs → StringChars (u :: us) (u :: vs)
  | escaped {es us vs : Units} {v : UInt16} : Escape es v → StringChars us vs → StringChars (unit '\\' :: (es ++ us)) (v :: vs)

/-! ### Values -/

def Blanks (us : Units) : Prop := ∀ u ∈ us, u ∈ [unit ' ', unit '\n', unit '\r', unit '\t']

/-- The name of a member with its colon. -/
inductive Name : Units → Units → Prop
  | mk {us vs before after : Units} : StringChars us vs → Blanks before → Blanks after →
      Name (unit '"' :: (us ++ unit '"' :: (before ++ unit ':' :: after))) vs

section

variable (number : List Char → F → Prop)

mutual

inductive Value : Units → JsonNode F → Prop
  | null : Value ("null".toList.map unit) .null
  | bool (b : Bool) : Value ((if b then "true".toList else "false".toList).map unit) (.bool b)
  | number {cs : List Char} {value : F} : number cs value → Value (cs.map unit) (.number value)
  | string {us vs : Units} : StringChars us vs → Value (unit '"' :: (us ++ [unit '"'])) (.string vs)
  | emptyArray {us : Units} : Blanks us → Value (unit '[' :: (us ++ [unit ']'])) (.array [])
  | array {us : Units} {values : List (JsonNode F)} : Elements us values → Value (unit '[' :: (us ++ [unit ']'])) (.array values)
  | emptyObject {us : Units} : Blanks us → Value (unit '\x7b' :: (us ++ [unit '\x7d'])) (.object [])
  | object {us : Units} {fields : List (Units × JsonNode F)} : Members us fields →
      Value (unit '\x7b' :: (us ++ [unit '\x7d'])) (.object fields)

inductive Elements : Units → List (JsonNode F) → Prop
  | last {before us after : Units} {value : JsonNode F} : Blanks before → Value us value → Blanks after →
      Elements (before ++ (us ++ after)) [value]
  | cons {before us after rest : Units} {value : JsonNode F} {values : List (JsonNode F)} : Blanks before → Value us value → Blanks after →
      Elements rest values → Elements (before ++ (us ++ (after ++ unit ',' :: rest))) (value :: values)

inductive Members : Units → List (Units × JsonNode F) → Prop
  | last {before text us after name : Units} {value : JsonNode F} : Blanks before → Name text name → Value us value → Blanks after →
      Members (before ++ (text ++ (us ++ after))) [(name, value)]
  | cons {before text us after rest name : Units} {value : JsonNode F} {fields : List (Units × JsonNode F)} : Blanks before →
      Name text name → Value us value → Blanks after → Members rest fields →
      Members (before ++ (text ++ (us ++ (after ++ unit ',' :: rest)))) ((name, value) :: fields)

end

/-- A JSON text and the value that it denotes. -/
inductive JsonText : Units → JsonNode F → Prop
  | mk {before us after : Units} {value : JsonNode F} : Blanks before → Value number us value → Blanks after →
      JsonText (before ++ (us ++ after)) value

end

end Scriptc.RuntimeRust.Json
