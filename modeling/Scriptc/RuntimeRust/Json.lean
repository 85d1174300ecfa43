import Mathlib.Data.Nat.Notation
import Mathlib.Data.Int.Notation
import Scriptc.Lib.Utf16

/-!
# JSON

`JSON.stringify` and `JSON.parse` of the Rust runtime, over a tree of values. The writer works on
characters and the parser on the bytes of their UTF-8; strings are 16-bit units, in which a surrogate
may stand alone.
-/

namespace Scriptc.RuntimeRust.Json

open Scriptc.Utf16

/-! ### Numbers -/

/-- What a number is, as far as JSON asks. -/
inductive Kind where
  | nan
  | infinity (negative : Bool)
  | zero (negative : Bool)
  | finite
deriving DecidableEq

/-- What the code uses of `f64`: its tests, its two formats and its parser. -/
structure Floats (F : Type) where
  kind : F → Kind
  zero : F
  /-- Whether the magnitude is in `1e-6..1e21`. -/
  plain : F → Bool
  display : F → List Char
  /-- The mantissa and the exponent of the format `{:e}`. -/
  lowerExp : F → List Char × ℤ
  parse : List Char → Option F

variable {F : Type} (floats : Floats F)

def Floats.isFinite (value : F) : Bool :=
  match floats.kind value with
  | .nan => false
  | .infinity _ => false
  | .zero _ => true
  | .finite => true

def displayExponent (exponent : ℤ) : List Char :=
  (if exponent < 0 then ['-'] else []) ++ Nat.toDigits 10 exponent.natAbs

def formatNumber (value : F) : List Char :=
  match floats.kind value with
  | .nan => "NaN".toList
  | .infinity negative => if negative then "-Infinity".toList else "Infinity".toList
  | .zero _ => ['0']
  | .finite =>
    if floats.plain value then floats.display value
    else
      (floats.lowerExp value).1 ++ 'e' :: (if 0 ≤ (floats.lowerExp value).2 then ['+'] else []) ++
        displayExponent (floats.lowerExp value).2

/-! ### Writing -/

/-- A JSON value, over the floats of the program. -/
inductive JsonNode (F : Type) where
  | null
  | bool (value : Bool)
  | number (value : F)
  | string (value : Units)
  | array (values : List (JsonNode F))
  | object (fields : List (Units × JsonNode F))

/-- The format `{:04x}`, for a number of 16 bits. -/
def hex4 (n : ℕ) : List Char :=
  [Nat.digitChar (n / 4096 % 16), Nat.digitChar (n / 256 % 16), Nat.digitChar (n / 16 % 16),
    Nat.digitChar (n % 16)]

def writeItem : Char ⊕ UInt16 → List Char
  | .inr unit => '\\' :: 'u' :: hex4 unit.toNat
  | .inl ch =>
    if ch = '"' then ['\\', '"']
    else if ch = '\\' then ['\\', '\\']
    else if ch.toNat = 0x08 then ['\\', 'b']
    else if ch.toNat = 0x0c then ['\\', 'f']
    else if ch.toNat = 0x0a then ['\\', 'n']
    else if ch.toNat = 0x0d then ['\\', 'r']
    else if ch.toNat = 0x09 then ['\\', 't']
    else if ch.toNat ≤ 0x1f then '\\' :: 'u' :: hex4 ch.toNat
    else [ch]

def writeString (value : Units) : List Char := '"' :: (decode value).flatMap writeItem ++ ['"']

mutual

def writeJson : JsonNode F → List Char
  | .null => "null".toList
  | .bool value => if value then "true".toList else "false".toList
  | .number value => if floats.isFinite value then formatNumber floats value else "null".toList
  | .string value => writeString value
  | .array values => '[' :: writeElements true values ++ [']']
  | .object fields => '\x7b' :: writeProperties true fields ++ ['\x7d']

/-- `element` for each value; `first` says that no comma is due. -/
def writeElements (first : Bool) : List (JsonNode F) → List Char
  | [] => []
  | value :: values => (if first then [] else [',']) ++ writeJson value ++ writeElements false values

def writeProperties (first : Bool) : List (Units × JsonNode F) → List Char
  | [] => []
  | (name, value) :: fields =>
    (if first then [] else [',']) ++ writeString name ++ ':' :: writeJson value ++
      writeProperties false fields

end

def jsonStringify (node : JsonNode F) : Units := encode (writeJson floats node)

/-! ### Indenting -/

/-- The state of the loop that indents. -/
structure Indenter where
  depth : ℕ
  inString : Bool
  escaped : Bool
  output : List Char

def Indenter.push (s : Indenter) (text : List Char) : Indenter := { s with output := s.output ++ text }

def newline (indent : List Char) (depth : ℕ) : List Char := '\n' :: (List.replicate depth indent).flatten

/-- One character of the compact text, with the one after it. Closing more than was opened panics. -/
def indentStep (indent : List Char) (s : Indenter) (ch : Char) (peek : Option Char) : Option Indenter :=
  if s.inString then
    if s.escaped then some { s.push [ch] with escaped := false }
    else if ch = '\\' then some { s.push [ch] with escaped := true }
    else if ch = '"' then some { s.push [ch] with inString := false }
    else some (s.push [ch])
  else if ch = '"' then some { s.push [ch] with inString := true }
  else if ch = '\x7b' ∨ ch = '[' then
    if peek ≠ some (if ch = '\x7b' then '\x7d' else ']') then
      some { s.push (ch :: newline indent (s.depth + 1)) with depth := s.depth + 1 }
    else some { s.push [ch] with depth := s.depth + 1 }
  else if ch = '\x7d' ∨ ch = ']' then
    if s.depth = 0 then none
    else if s.output.getLast? ≠ some (if ch = '\x7d' then '\x7b' else '[') then
      some { s.push (newline indent (s.depth - 1) ++ [ch]) with depth := s.depth - 1 }
    else some { s.push [ch] with depth := s.depth - 1 }
  else if ch = ',' then some (s.push (',' :: newline indent s.depth))
  else if ch = ':' then some (s.push [':', ' '])
  else some (s.push [ch])

def indentLoop (indent : List Char) : List Char → Indenter → Option Indenter
  | [], s => some s
  | ch :: rest, s => (indentStep indent s ch rest.head?).bind (indentLoop indent rest)

def indentText (indent text : List Char) : Option (List Char) :=
  (indentLoop indent text { depth := 0, inString := false, escaped := false, output := [] }).map
    Indenter.output

/-- `none` is a panic. -/
def jsonStringifyIndented (node : JsonNode F) (indent : List Char) : Option Units :=
  if indent.isEmpty then some (jsonStringify floats node)
  else (indentText indent (writeJson floats node)).map encode

/-! ### The source of the parser -/

structure Quoting where
  output : List Char
  quoted : Bool
  escaped : Bool

/-- A surrogate alone in a string is escaped; elsewhere it becomes the replacement character. -/
def sourceStep (s : Quoting) : Char ⊕ UInt16 → Quoting
  | .inl ch =>
    if s.escaped then { s with output := s.output ++ [ch], escaped := false }
    else if s.quoted ∧ ch = '\\' then { s with output := s.output ++ [ch], escaped := true }
    else if ch = '"' then { s with output := s.output ++ [ch], quoted := !s.quoted }
    else { s with output := s.output ++ [ch] }
  | .inr unit =>
    if s.quoted ∧ ¬s.escaped then
      { s with output := s.output ++ '\\' :: 'u' :: hex4 unit.toNat, escaped := false }
    else { s with output := s.output ++ [Char.ofNat 0xfffd], escaped := false }

def isChar : Char ⊕ UInt16 → Bool
  | .inl _ => true
  | .inr _ => false

def charOf : Char ⊕ UInt16 → Option Char
  | .inl ch => some ch
  | .inr _ => none

def jsonSourceUtf8 (text : Units) : List Char :=
  if (decode text).all isChar then (decode text).filterMap charOf
  else ((decode text).foldl sourceStep { output := [], quoted := false, escaped := false }).output

/-! ### Parsing -/

/-- The bytes that are not read yet. -/
abbrev Source := List UInt8

def utf8 (text : List Char) : Source := text.flatMap String.utf8EncodeChar

def fromUtf8 (bytes : Source) : Option (List Char) := bytes.toByteArray.utf8Decode?.map Array.toList

def byte (ch : Char) : UInt8 := UInt8.ofNat ch.toNat

/-- The end of every message: the position of what is left of `total` bytes. -/
def atByte (total : ℕ) (source : Source) : String := s!" at byte {total - source.length}"

variable (total : ℕ)

def syntaxError {α : Type} (source : Source) (message : String) : Except String α :=
  .error (message ++ atByte total source)

def isBlank (b : UInt8) : Bool := b = byte ' ' || b = byte '\n' || b = byte '\r' || b = byte '\t'

def whitespace (source : Source) : Source := source.dropWhile isBlank

/-- `take`: the rest, if the next byte is this one. -/
def takeByte (b : UInt8) : Source → Option Source
  | [] => none
  | next :: rest => if next = b then some rest else none

def keyword (word : Source) (source : Source) : Except String Source :=
  if source.take word.length = word then .ok (source.drop word.length)
  else syntaxError total source "unexpected token"

def isDigit (b : UInt8) : Bool := byte '0' ≤ b && b ≤ byte '9'

def startsDigit : Source → Bool
  | [] => false
  | b :: _ => isDigit b

def digits (source : Source) : Source := source.dropWhile isDigit

def whole : Source → Except String Source
  | [] => syntaxError total [] "invalid number"
  | b :: rest =>
    if b = byte '0' then .ok rest
    else if isDigit b then .ok (digits rest)
    else syntaxError total (b :: rest) "invalid number"

def fraction (source : Source) : Except String Source :=
  match takeByte (byte '.') source with
  | none => .ok source
  | some rest => if startsDigit rest then .ok (digits rest) else syntaxError total rest "invalid number fraction"

def exponentDigits (source : Source) : Except String Source :=
  if startsDigit source then .ok (digits source) else syntaxError total source "invalid number exponent"

def exponentSign : Source → Source
  | [] => []
  | b :: rest => if b = byte '+' ∨ b = byte '-' then rest else b :: rest

def exponent : Source → Except String Source
  | [] => .ok []
  | b :: rest =>
    if b = byte 'e' ∨ b = byte 'E' then exponentDigits total (exponentSign rest) else .ok (b :: rest)

def number (source : Source) : Except String (JsonNode F × Source) :=
  (whole total ((takeByte (byte '-') source).getD source)).bind fun afterWhole =>
  (fraction total afterWhole).bind fun afterFraction =>
  (exponent total afterFraction).bind fun rest =>
  match fromUtf8 (source.take (source.length - rest.length)) with
  | none => .error "invalid UTF-8 in JSON number"
  | some spelling =>
    match floats.parse spelling with
    | none => .error ("invalid JSON number" ++ atByte total source)
    | some value => .ok (.number value, rest)

def isHexDigit (b : UInt8) : Bool :=
  isDigit b || byte 'a' ≤ b && b ≤ byte 'f' || byte 'A' ≤ b && b ≤ byte 'F'

def hexValue (b : UInt8) : ℕ :=
  if isDigit b then b.toNat - (byte '0').toNat
  else if byte 'a' ≤ b then b.toNat - (byte 'a').toNat + 10
  else b.toNat - (byte 'A').toNat + 10

/-- `u16::from_str_radix` with radix 16. -/
def fromHex (bytes : Source) : UInt16 := UInt16.ofNat (bytes.foldl (fun n b => 16 * n + hexValue b) 0)

def hexQuad (source : Source) : Except String (UInt16 × Source) :=
  if source.length < 4 then syntaxError total source "incomplete unicode escape"
  else if ¬(source.take 4).all isHexDigit then .error ("invalid unicode escape" ++ atByte total source)
  else .ok (fromHex (source.take 4), source.drop 4)

/-- What an escape adds to the string. -/
def escape : Source → Except String (Units × Source)
  | [] => .error ("unterminated escape" ++ atByte total [])
  | b :: rest =>
    if b = byte '"' then .ok (encodeChar '"', rest)
    else if b = byte '\\' then .ok (encodeChar '\\', rest)
    else if b = byte '/' then .ok (encodeChar '/', rest)
    else if b = byte 'b' then .ok (encodeChar (Char.ofNat 0x08), rest)
    else if b = byte 'f' then .ok (encodeChar (Char.ofNat 0x0c), rest)
    else if b = byte 'n' then .ok (encodeChar '\n', rest)
    else if b = byte 'r' then .ok (encodeChar '\r', rest)
    else if b = byte 't' then .ok (encodeChar '\t', rest)
    else if b = byte 'u' then (hexQuad total rest).bind fun quad => .ok ([quad.1], quad.2)
    else syntaxError total rest "invalid string escape"

/-- The loop of `string`. A turn reads at least one byte, so that a turn for each byte is enough. -/
def stringLoop : ℕ → Source → Units → Except String (Units × Source)
  | 0, source, _ => syntaxError total source "unterminated string"
  | _ + 1, [], _ => syntaxError total [] "unterminated string"
  | turns + 1, b :: rest, output =>
    if b = byte '"' then .ok (output, rest)
    else if b = byte '\\' then
      (escape total rest).bind fun escaped => stringLoop turns escaped.2 (output ++ escaped.1)
    else if b ≤ 0x1f then syntaxError total (b :: rest) "unescaped control character in string"
    else
      match fromUtf8 (b :: rest) with
      | none => .error ("invalid UTF-8" ++ atByte total (b :: rest))
      | some [] => .error "non-empty JSON input tail"
      | some (ch :: _) =>
        stringLoop turns ((b :: rest).drop ch.utf8Size) (output ++ encodeChar ch)

/-- `string`, after the quotation mark. -/
def string (source : Source) : Except String (Units × Source) :=
  stringLoop total (source.length + 1) source []

mutual

/-- The number bounds how deep and how long the text is: two for each byte are enough. -/
def value : ℕ → Source → Except String (JsonNode F × Source)
  | 0, source => syntaxError total source "unexpected token"
  | fuel + 1, source =>
    match whitespace source with
    | [] => syntaxError total [] "unexpected token"
    | b :: rest =>
      if b = byte 'n' then (keyword total (utf8 "null".toList) (b :: rest)).bind fun rest => .ok (.null, rest)
      else if b = byte 't' then
        (keyword total (utf8 "true".toList) (b :: rest)).bind fun rest => .ok (.bool true, rest)
      else if b = byte 'f' then
        (keyword total (utf8 "false".toList) (b :: rest)).bind fun rest => .ok (.bool false, rest)
      else if b = byte '"' then (string total rest).bind fun read => .ok (.string read.1, read.2)
      else if b = byte '[' then
        match takeByte (byte ']') (whitespace rest) with
        | some rest => .ok (.array [], rest)
        | none => (elements fuel (whitespace rest)).bind fun read => .ok (.array read.1, read.2)
      else if b = byte '\x7b' then
        match takeByte (byte '\x7d') (whitespace rest) with
        | some rest => .ok (.object [], rest)
        | none => (properties fuel (whitespace rest)).bind fun read => .ok (.object read.1, read.2)
      else if b = byte '-' ∨ isDigit b then number floats total (b :: rest)
      else syntaxError total (b :: rest) "unexpected token"

/-- The loop of `array`. -/
def elements : ℕ → Source → Except String (List (JsonNode F) × Source)
  | 0, source => syntaxError total source "unexpected token"
  | fuel + 1, source =>
    (value fuel source).bind fun read =>
    match takeByte (byte ']') (whitespace read.2) with
    | some rest => .ok ([read.1], rest)
    | none =>
      match takeByte (byte ',') (whitespace read.2) with
      | none => syntaxError total (whitespace read.2) "expected ',' or ']'"
      | some rest => (elements fuel rest).bind fun more => .ok (read.1 :: more.1, more.2)

/-- The loop of `object`. -/
def properties : ℕ → Source → Except String (List (Units × JsonNode F) × Source)
  | 0, source => syntaxError total source "unexpected token"
  | fuel + 1, source =>
    match takeByte (byte '"') (whitespace source) with
    | none => syntaxError total (whitespace source) "expected a string property name"
    | some rest =>
      (string total rest).bind fun name =>
      match takeByte (byte ':') (whitespace name.2) with
      | none => syntaxError total (whitespace name.2) "expected ':'"
      | some rest =>
        (value fuel rest).bind fun read =>
        match takeByte (byte '\x7d') (whitespace read.2) with
        | some rest => .ok ([(name.1, read.1)], rest)
        | none =>
          match takeByte (byte ',') (whitespace read.2) with
          | none => syntaxError total (whitespace read.2) "expected ',' or '\x7d'"
          | some rest =>
            (properties fuel rest).bind fun more => .ok ((name.1, read.1) :: more.1, more.2)

end

def parse (bytes : Source) : Except String (JsonNode F) :=
  (value floats bytes.length (2 * bytes.length + 2) (whitespace bytes)).bind fun read =>
  if (whitespace read.2).isEmpty then .ok read.1
  else syntaxError bytes.length (whitespace read.2) "unexpected trailing input"

def jsonParseNode (text : Units) : Except String (JsonNode F) := parse floats (utf8 (jsonSourceUtf8 text))

end Scriptc.RuntimeRust.Json
