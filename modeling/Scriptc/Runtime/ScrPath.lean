import Scriptc.RuntimeRust.PosixPath

/-!
# posix paths in the C runtime

The posix half of `scr_path.c`, on the bytes of its strings. Each function is a scanner over the
characters, with indexes in the place of segments; -1 stands for an index not yet found.
-/

namespace Scriptc.PosixPath

/-- The bytes from one index up to another. -/
def slice (text : Text) (start stop : ℕ) : Text := (text.take stop).drop start

/-- `scr_path_w32_is_sep`: both slashes. -/
def w32IsSep (c : UInt8) : Bool := c = slash ∨ c = backslash

def isSep (win32 : Bool) (c : UInt8) : Bool := if win32 then w32IsSep c else c = slash

/-- The separator of the output. -/
def sepOf (win32 : Bool) : UInt8 := if win32 then backslash else slash

/-! ### `scr_path_normalize_string` -/

structure NormState where
  res : Text
  lastSegmentLength : ℕ
  lastSlash : ℤ
  dots : ℤ
  deriving DecidableEq

def NormState.init : NormState := ⟨[], 0, -1, 0⟩

/-- The last separator before an index. -/
def lastSepIndex (sep : UInt8) (data : Text) : ℕ → ℤ
  | 0 => -1
  | j + 1 => if data[j]? = some sep then j else lastSepIndex sep data j

/-- Pop the last segment. -/
def popSegment (sep : UInt8) (s : NormState) : NormState :=
  let index := lastSepIndex sep s.res s.res.length
  if index = -1 then { s with res := [], lastSegmentLength := 0 }
  else
    let res := s.res.take index.toNat
    { s with res, lastSegmentLength := (res.length - 1 - lastSepIndex sep res res.length).toNat }

def aboveRoot (sep : UInt8) (allowAboveRoot : Bool) (s : NormState) : NormState :=
  if allowAboveRoot then
    { s with
      res := if 0 < s.res.length then s.res ++ sep :: [dot, dot] else s.res ++ [dot, dot]
      lastSegmentLength := 2 }
  else s

def appendSegment (sep : UInt8) (segment : Text) (s : NormState) : NormState :=
  { s with
    res := if 0 < s.res.length then s.res ++ sep :: segment else s.res ++ segment
    lastSegmentLength := segment.length }

/-- What a separator at an index does before the scan goes on behind it. -/
def endSegment (sep : UInt8) (path : Text) (allowAboveRoot : Bool) (i : ℕ) (s : NormState) : NormState :=
  if s.lastSlash = i - 1 ∨ s.dots = 1 then s
  else if s.dots = 2 then
    if s.res.length < 2 ∨ s.lastSegmentLength ≠ 2 ∨ s.res[s.res.length - 1]? ≠ some dot ∨
        s.res[s.res.length - 2]? ≠ some dot then
      if 2 < s.res.length then popSegment sep s
      else if s.res.length ≠ 0 then { s with res := [], lastSegmentLength := 0 }
      else aboveRoot sep allowAboveRoot s
    else aboveRoot sep allowAboveRoot s
  else appendSegment sep (slice path (s.lastSlash + 1).toNat i) s

def stepSep (sep : UInt8) (path : Text) (allowAboveRoot : Bool) (i : ℕ) (s : NormState) : NormState :=
  { endSegment sep path allowAboveRoot i s with lastSlash := i, dots := 0 }

def stepChar (win32 : Bool) (path : Text) (allowAboveRoot : Bool) (i : ℕ) (code : UInt8) (s : NormState) :
    NormState :=
  if isSep win32 code then stepSep (sepOf win32) path allowAboveRoot i s
  else if code = dot ∧ s.dots ≠ -1 then { s with dots := s.dots + 1 }
  else { s with dots := -1 }

/-- The loop from an index on, with the character before it and those that are left. -/
def normalizeLoop (win32 : Bool) (path : Text) (allowAboveRoot : Bool) : Text → ℕ → UInt8 → NormState → NormState
  | [], i, code, s => if isSep win32 code then s else stepChar win32 path allowAboveRoot i slash s
  | code :: rest, i, _, s =>
    normalizeLoop win32 path allowAboveRoot rest (i + 1) code (stepChar win32 path allowAboveRoot i code s)

def scrPathNormalizeString (path : Text) (allowAboveRoot win32 : Bool) : Text :=
  (normalizeLoop win32 path allowAboveRoot path 0 0 .init).res

def scrPathNormalizeRaw (path : Text) : Text :=
  if path = [] then [dot]
  else
    let isAbsolute : Bool := path.head? = some slash
    let trailingSeparator : Bool := path.getLast? = some slash
    let norm := scrPathNormalizeString path (!isAbsolute) false
    if norm = [] then
      if isAbsolute then [slash] else if trailingSeparator then [dot, slash] else [dot]
    else
      (if isAbsolute then [slash] else []) ++ norm ++ if trailingSeparator then [slash] else []

def scrPathNormalize (path : Text) : Text := scrPathNormalizeRaw path

/-! ### join and resolve -/

def joinLoop : List Text → Text → Bool → Text × Bool
  | [], joined, any => (joined, any)
  | arg :: parts, joined, any =>
    if 0 < arg.length then joinLoop parts ((if any then joined ++ [slash] else joined) ++ arg) true
    else joinLoop parts joined any

def scrPathJoin (parts : List Text) : Text :=
  let joined := joinLoop parts [] false
  if !joined.2 then [dot] else scrPathNormalizeRaw joined.1

/-- `scr_path_cwd`, which traps where the directory does not fit into its buffer of 4096 bytes. -/
def scrPathCwd (cwd : Text) : Option Text := if cwd.length < 4096 then some cwd else none

/-- The loop of `scr_path_resolve` over the arguments from the last one on, with the working directory
as one more. -/
def resolveLoop (cwd : Text) : List Text → Text → Option (Text × Bool)
  | [], resolved =>
    (scrPathCwd cwd).map fun seg =>
      if seg.length = 0 then (resolved, false)
      else (seg ++ slash :: resolved, decide ((seg ++ slash :: resolved).head? = some slash))
  | seg :: parts, resolved =>
    if seg.length = 0 then resolveLoop cwd parts resolved
    else if (seg ++ slash :: resolved).head? = some slash then some (seg ++ slash :: resolved, true)
    else resolveLoop cwd parts (seg ++ slash :: resolved)

def scrPathResolve (cwd : Text) (parts : List Text) : Option Text :=
  (resolveLoop cwd parts.reverse []).map fun (resolved, resolvedAbsolute) =>
    let norm := scrPathNormalizeString resolved (!resolvedAbsolute) false
    if resolvedAbsolute then slash :: norm else if 0 < norm.length then norm else [dot]

/-! ### dirname, basename and extname -/

/-- The loop of `scr_path_dirname` from an index down to 1. -/
def scrDirnameLoop (p : Text) : ℕ → Bool → ℤ
  | 0, _ => -1
  | i + 1, matchedSlash =>
    if p[i + 1]? = some slash then
      if !matchedSlash then i + 1 else scrDirnameLoop p i matchedSlash
    else scrDirnameLoop p i false

def scrPathDirname (path : Text) : Text :=
  if path.length = 0 then [dot]
  else
    let hasRoot : Bool := path.head? = some slash
    let stop := scrDirnameLoop path (path.length - 1) true
    if stop = -1 then if hasRoot then [slash] else [dot]
    else if hasRoot ∧ stop = 1 then [slash, slash]
    else path.take stop.toNat

/-- The variables of the scan of `scr_path_basename` for a suffix. `ext` is what of the suffix is still to
be matched, its last byte first. -/
structure SuffixScan where
  start : ℕ
  stop : ℤ
  matchedSlash : Bool
  ext : Text
  firstNonSlashEnd : ℤ
  deriving DecidableEq

def SuffixScan.matchExt (code : UInt8) (i : ℕ) (s : SuffixScan) : SuffixScan :=
  match s.ext with
  | [] => s
  | x :: ext =>
    if code = x then { s with ext, stop := if ext = [] then i else s.stop }
    else { s with ext := [], stop := s.firstNonSlashEnd }

def SuffixScan.name (i : ℕ) (s : SuffixScan) : SuffixScan :=
  if s.firstNonSlashEnd = -1 then { s with matchedSlash := false, firstNonSlashEnd := i + 1 } else s

/-- The scan over the bytes that are left, the last one first; their number is the index behind the byte. -/
def suffixLoop : Text → SuffixScan → SuffixScan
  | [], s => s
  | code :: rest, s =>
    if code = slash then
      if !s.matchedSlash then { s with start := rest.length + 1 } else suffixLoop rest s
    else suffixLoop rest ((s.name rest.length).matchExt code rest.length)

/-- The scan without a suffix: `start`, `end` and `matched_slash`. -/
def nameLoop : Text → ℤ → Bool → ℕ × ℤ
  | [], stop, _ => (0, stop)
  | code :: rest, stop, matchedSlash =>
    if code = slash then
      if !matchedSlash then (rest.length + 1, stop) else nameLoop rest stop matchedSlash
    else if stop = -1 then nameLoop rest (rest.length + 1) false
    else nameLoop rest stop matchedSlash

def scrPathBasename (path suffix : Text) : Text :=
  if 0 < suffix.length ∧ suffix.length ≤ path.length then
    if suffix.length = path.length ∧ suffix = path then []
    else
      let s := suffixLoop path.reverse ⟨0, -1, true, suffix.reverse, -1⟩
      let stop := if (s.start : ℤ) = s.stop then s.firstNonSlashEnd else if s.stop = -1 then path.length else s.stop
      slice path s.start stop.toNat
  else
    let (start, stop) := nameLoop path.reverse (-1) true
    if stop = -1 then [] else slice path start stop.toNat

structure ExtScan where
  startDot : ℤ
  startPart : ℕ
  stop : ℤ
  matchedSlash : Bool
  preDotState : ℤ
  deriving DecidableEq

def ExtScan.name (i : ℕ) (s : ExtScan) : ExtScan :=
  if s.stop = -1 then { s with matchedSlash := false, stop := i + 1 } else s

def ExtScan.char (code : UInt8) (i : ℕ) (s : ExtScan) : ExtScan :=
  if code = dot then
    if s.startDot = -1 then { s with startDot := i }
    else if s.preDotState ≠ 1 then { s with preDotState := 1 }
    else s
  else if s.startDot ≠ -1 then { s with preDotState := -1 }
  else s

def extLoop : Text → ExtScan → ExtScan
  | [], s => s
  | code :: rest, s =>
    if code = slash then
      if !s.matchedSlash then { s with startPart := rest.length + 1 } else extLoop rest s
    else extLoop rest ((s.name rest.length).char code rest.length)

def scrPathExtname (path : Text) : Text :=
  let s := extLoop path.reverse ⟨-1, 0, -1, true, 0⟩
  if s.startDot = -1 ∨ s.stop = -1 ∨ s.preDotState = 0 ∨
      s.preDotState = 1 ∧ s.startDot = s.stop - 1 ∧ s.startDot = s.startPart + 1 then []
  else slice path s.startDot.toNat s.stop.toNat

/-! ### relative -/

/-- The loop over the characters both paths begin with, for the index and the last common separator. -/
def commonLoop : Text → Text → ℕ → ℤ → ℕ × ℤ
  | f :: fs, t :: ts, i, lastCommonSep =>
    if f ≠ t then (i, lastCommonSep) else commonLoop fs ts (i + 1) (if f = slash then i else lastCommonSep)
  | _, _, i, lastCommonSep => (i, lastCommonSep)

def climb (out : Text) : Text := if out = [] then [dot, dot] else out ++ [slash, dot, dot]

/-- A step up for every separator that is left and one at the end. -/
def climbLoop : Text → Text → Text
  | [], out => climb out
  | c :: rest, out => climbLoop rest (if c = slash then climb out else out)

/-- `scr_path_relative` behind the two calls of resolve. -/
def relativeTail (rfrom rto : Text) : Text :=
  let source := rfrom.drop 1
  let target := rto.drop 1
  let length := min source.length target.length
  let (i, lastCommonSep) := commonLoop source target 0 (-1)
  if i = length ∧ length < target.length ∧ target[i]? = some slash then target.drop (i + 1)
  else if i = length ∧ length < target.length ∧ i = 0 then target
  else
    let lastCommonSep : ℤ :=
      if i = length ∧ ¬length < target.length ∧ length < source.length then
        if source[i]? = some slash then i else if i = 0 then 0 else lastCommonSep
      else lastCommonSep
    climbLoop (rfrom.drop (1 + lastCommonSep + 1).toNat) [] ++ rto.drop (1 + lastCommonSep).toNat

def scrPathRelative (cwd source target : Text) : Option Text :=
  if source = target then some []
  else
    (scrPathResolve cwd [source]).bind fun rfrom =>
      (scrPathResolve cwd [target]).map fun rto =>
        if rfrom = rto then [] else relativeTail rfrom rto

end Scriptc.PosixPath
