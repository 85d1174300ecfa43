import Scriptc.Lib.Coding
import Scriptc.Lib.Segments

/-!
# posix paths in the Rust runtime

`path.posix` of `child_process_and_paths.rs`, on the UTF-8 bytes of its strings. Each function works on
the segments a path splits into.
-/

namespace Scriptc.PosixPath

abbrev Text := List UInt8

abbrev slash : UInt8 := 0x2F

abbrev backslash : UInt8 := 0x5C

abbrev dot : UInt8 := 0x2E

/-- `js_string::Repr`: characters, held in UTF-8, or units that are no well-formed UTF-16. -/
inductive JsString where
  | utf8 (text : List Char)
  | utf16 (units : Utf16.Units)
  deriving DecidableEq

namespace JsString

/-- `to_utf8_lossy`, with U+FFFD for a surrogate that stands alone. -/
def toUtf8Lossy : JsString → Text
  | .utf8 text => Scriptc.utf8.text text
  | .utf16 units => Scriptc.utf8.text ((Utf16.decode units).map (Sum.elim id fun _ => Char.ofNat 0xFFFD))

/-- `trimmed == suffix`: the units are compared, and those of a `str` are well-formed. -/
def eqStr (s : JsString) (text : Text) : Bool :=
  match s with
  | .utf8 own => Scriptc.utf8.text own = text
  | .utf16 _ => false

end JsString

def pushPart (absolute : Bool) (parts : List Text) (part : Text) : List Text :=
  if part = [] ∨ part = [dot] then parts
  else if part = [dot, dot] then
    if parts.getLast?.any (· ≠ [dot, dot]) then parts.dropLast
    else if !absolute then parts ++ [part] else parts
  else parts ++ [part]

def normalizePosix (path : Text) : Text :=
  if path = [] then [dot]
  else
    let absolute : Bool := path.head? = some slash
    let trailing : Bool := path.getLast? = some slash
    let parts := (path.splitOn slash).foldl (pushPart absolute) []
    let result := [slash].intercalate parts
    let result := if result = [] ∧ !absolute then result ++ [dot] else result
    let result := if trailing ∧ result ≠ [] ∧ result ≠ [slash] then result ++ [slash] else result
    if absolute then slash :: result else result

def pathNormalize (path : JsString) : Text := normalizePosix path.toUtf8Lossy

def pathJoin (parts : List JsString) : Text :=
  normalizePosix ([slash].intercalate ((parts.filter fun part => part.toUtf8Lossy ≠ []).map JsString.toUtf8Lossy))

/-- The loop over the inputs from the last one on. -/
def combine : List Text → Text → Text
  | [], combined => combined
  | part :: inputs, combined =>
    if part = [] then combine inputs combined
    else
      let combined := if combined = [] then part else part ++ slash :: combined
      if part.head? = some slash then combined else combine inputs combined

def pathResolve (processCwd : Text) (parts : List JsString) : Text :=
  let inputs := processCwd :: parts.map JsString.toUtf8Lossy
  let normalized := normalizePosix (combine inputs.reverse [])
  let normalized := if 1 < normalized.length then normalized.rdropWhile (· = slash) else normalized
  if normalized.head? = some slash then normalized else slash :: normalized

/-- The loop of `path_dirname` from an index down to 1. -/
def dirnameLoop (bytes : Text) : ℕ → Bool → Option ℕ
  | 0, _ => none
  | index + 1, matchedSlash =>
    if bytes[index + 1]? = some slash then
      if !matchedSlash then some (index + 1) else dirnameLoop bytes index matchedSlash
    else dirnameLoop bytes index false

def pathDirname (path : JsString) : Text :=
  let bytes := path.toUtf8Lossy
  if bytes = [] then [dot]
  else
    let root : Bool := bytes.head? = some slash
    match dirnameLoop bytes (bytes.length - 1) true with
    | none => if root then [slash] else [dot]
    | some stop => if stop = 1 ∧ root then [slash, slash] else bytes.take stop

/-- `trim_end_matches('/')`. -/
def trimEnd (path : Text) : Text := path.rdropWhile (· = slash)

/-- `rsplit('/').next()`. -/
def lastPart (path : Text) : Text := path.rtakeWhile (· ≠ slash)

def pathBasename (path suffix : JsString) : Text :=
  let trimmed := trimEnd path.toUtf8Lossy
  let ending := suffix.toUtf8Lossy
  if ending ≠ [] ∧ suffix.eqStr trimmed then []
  else
    let basename := lastPart trimmed
    if ending ≠ [] ∧ ending.length < basename.length ∧ ending <:+ basename then
      basename.take (basename.length - ending.length)
    else basename

/-- `rfind('.')`. -/
def rfindDot (basename : Text) : Option ℕ :=
  if dot ∈ basename then some (basename.length - 1 - basename.reverse.idxOf dot) else none

def pathExtname (path : JsString) : Text :=
  let basename := lastPart (trimEnd path.toUtf8Lossy)
  match rfindDot basename with
  | none => []
  | some index => if index = 0 ∨ basename = [dot, dot] then [] else basename.drop index

/-- The number of parts two paths begin with alike. -/
def commonParts : List Text → List Text → ℕ
  | left :: lefts, right :: rights => if left = right then commonParts lefts rights + 1 else 0
  | _, _ => 0

def resolvedParts (resolved : Text) : List Text := (resolved.splitOn slash).filter (· ≠ [])

def pathRelative (processCwd : Text) (source target : JsString) : Text :=
  let fromParts := resolvedParts (pathResolve processCwd [source])
  let toParts := resolvedParts (pathResolve processCwd [target])
  let common := commonParts fromParts toParts
  [slash].intercalate (List.replicate (fromParts.length - common) [dot, dot] ++ toParts.drop common)

end Scriptc.PosixPath
