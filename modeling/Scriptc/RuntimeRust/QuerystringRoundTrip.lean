import Scriptc.Num.SafeInteger
import Scriptc.RuntimeRust.QuerystringAgree
import Scriptc.RuntimeRust.UriCoding

/-!
# Query strings, written and parsed

`querystring_stringify`, and what `querystring_parse` makes of the pairs that its scan finds. What
the one has written the other reads back, as long as the counter of hexadecimal digits does not
overflow where the build checks it.
-/

namespace Scriptc.Querystring

open List

open RuntimeRust.UriCoding (encodeUri encodeByte uriUnescaped uriHexNibble decodeUriTry isWellFormed escape)
open RuntimeRust.Decoder (Units chars toUtf8Lossy forall_uint8)
open scoped Scriptc.Utf16

/-! ### Writing -/

/-- `QuerystringParsedValue`. -/
inductive QuerystringValue where
  | string (value : Units)
  | strings (values : List Units)
deriving DecidableEq

def QuerystringValue.values : QuerystringValue → List Units
  | .string value => [value]
  | .strings values => values

def querystringEscape (value : Units) : Option Units := encodeUri value false

/-- `querystring_stringify`: the entries of an object, if it is one. A text that cannot be escaped throws. -/
def querystringStringify (object : Option (List (Units × QuerystringValue))) (separator equals : List Char) : Option Units :=
  match object with
  | none => some []
  | some entries =>
    entries.foldlM (fun output entry => do
      let key ← querystringEscape entry.1
      entry.2.values.foldlM (fun output value => do
        let output := if output.isEmpty then output else output ++ utf16.text (orDefault separator ['&'])
        let value ← querystringEscape value
        some (output ++ key ++ utf16.text (orDefault equals ['=']) ++ value)) output) []

/-! ### Unescaping -/

def unitNibble (u : UInt16) : Option UInt8 := if u.toNat < 256 then uriHexNibble u.toUInt8 else none

/-- The bytes of the fallback. -/
def unescapeBytes : Units → Bytes
  | [] => []
  | current :: high :: low :: rest =>
    match if current = 0x25 then (unitNibble high).bind fun h => (unitNibble low).map fun l => h <<< 4 ||| l else none with
    | some byte => byte :: unescapeBytes rest
    | none => current.toUInt8 :: unescapeBytes (high :: low :: rest)
  | current :: rest => current.toUInt8 :: unescapeBytes rest

def querystringUnescape (value : Units) : Units :=
  (decodeUriTry value false).getD (RuntimeRust.Decoder.decodeBytes (unescapeBytes value) .utf8)

def querystringPiece (value : Units) (encoded : Bool) : Units :=
  if encoded && !value.isEmpty then querystringUnescape value else value

/-! ### Parsing -/

/-- What `querystring_add_pair` does to the map, whose entries are in the order of their insertion. -/
def addValue (output : List (Units × QuerystringValue)) (key value : Units) : List (Units × QuerystringValue) :=
  match output.lookup key with
  | none => output ++ [(key, .string value)]
  | some (.string previous) => output.map fun e => if e.1 = key then (e.1, .strings [previous, value]) else e
  | some (.strings values) => output.map fun e => if e.1 = key then (e.1, .strings (values ++ [value])) else e

def querystringAddPair (output : List (Units × QuerystringValue)) (p : Pair UInt16) : List (Units × QuerystringValue) :=
  addValue output (querystringPiece p.key p.keyEncoded) (querystringPiece p.value p.valueEncoded)

/-- Whether an addition that overflows panics or wraps around. -/
inductive Build where
  | dev
  | release

/-- The value of a `u8` after an addition. -/
def Build.byte : Build → ℕ → Option ℕ
  | .dev, n => if 255 < n then none else some n
  | .release, n => some (n % 256)

section

variable {α K : Type} [DecidableEq α]

/-- The loop in Rust. -/
def Query.scanBuild (counter : Counter K) (q : Query α) (build : Build) : ℕ → List α → Scan α K → Option (Scan α K)
  | _, [], s => some s
  | index, code :: rest, s =>
    if s.returned then some s
    else
      (build.byte (q.step counter index code s).encodeCheck).bind fun check =>
        Query.scanBuild counter q build (index + 1) rest { q.step counter index code s with encodeCheck := check }

variable {C : Counter K} {q : Query α} {build : Build} {i : ℕ} {s : Scan α K}

theorem scanBuild_append (v w : List α) :
    q.scanBuild C build i (v ++ w) s = (q.scanBuild C build i v s).bind (q.scanBuild C build (i + v.length) w) := by
  induction v generalizing i s with
  | nil => rfl
  | cons code v ih =>
    rw [cons_append, Query.scanBuild, Query.scanBuild]
    split
    · rename_i h
      rw [Option.bind_some]
      cases w with
      | nil => rfl
      | cons code' w => rw [Query.scanBuild, if_pos h]
    · rw [Option.bind_assoc]
      refine congrArg _ (funext fun check => ?_)
      rw [ih, length_cons, Nat.add_right_comm, Nat.add_assoc]

end

/-- `pairs`, which counts down in doubles. -/
def doubles : Counter F64 := ⟨fun x => x.sub (.ofInt 1), F64.isZero⟩

def keyLimit (maxKeys : F64) : F64 := if F64.lt .zero maxKeys then maxKeys else .ofInt (-1)

/-- `querystring_parse`, with the map that it fills. -/
def querystringMap (build : Build) (input : Units) (separator equals : List Char) (maxKeys : F64) :
    Option (List (Units × QuerystringValue)) :=
  if input.isEmpty then some []
  else
    ((byteQuery (chars input) separator equals).scanBuild doubles build 0 (toUtf8Lossy input) (Scan.start (keyLimit maxKeys))).bind
      fun s => (((byteQuery (chars input) separator equals).finish s).mapM pieces).map fun pairs => pairs.foldl querystringAddPair []

/-! ### The marks of a pair -/

/-- What the scan keeps about escapes. -/
structure Marks where
  key : Bool
  value : Bool
  check : ℕ

def Marks.start : Marks := ⟨false, false, 0⟩

/-- What a code of the value that stands for itself or belongs to an escape does to the marks. -/
def markValue (kind : CodeKind) (m : Marks) : Marks :=
  if m.value then m
  else
    match kind with
    | .percent => { m with check := 1 }
    | .hex => if 0 < m.check then { m with check := m.check + 1, value := m.check + 1 = 3 } else m
    | .other => { m with check := 0 }
    | .plus => m

def markKey (kind : CodeKind) (m : Marks) : Marks :=
  if m.key then markValue kind m
  else
    match kind with
    | .percent => { m with check := 1 }
    | .hex => if 0 < m.check then { m with check := m.check + 1, key := m.check + 1 = 3 } else markValue .hex m
    | .other => markValue .other { m with check := 0 }
    | .plus => m

def runMarks (build : Build) (mark : CodeKind → Marks → Marks) : Bytes → Marks → Option Marks
  | [], m => some m
  | b :: bytes, m => (build.byte (mark (kindOf b.toNat) m).check).bind fun check =>
    runMarks build mark bytes { mark (kindOf b.toNat) m with check := check }

/-- The codes of a text, escaped. -/
def escaped (bytes : Bytes) : Bytes := bytes.flatMap (encodeByte false)

/-- A code of an escaped text. -/
def Ordinary (b : UInt8) : Prop := b ≠ 0x26 ∧ b ≠ 0x3d ∧ kindOf b.toNat ≠ .plus

instance (b : UInt8) : Decidable (Ordinary b) := inferInstanceAs (Decidable (_ ∧ _))

variable {build : Build} {m : Marks} {b : UInt8} {bytes : Bytes}

/-- Either a byte stands for itself, or it is a percent sign and two digits. -/
theorem encodeByte_cases (b : UInt8) :
    uriUnescaped b false = true ∧ encodeByte false b = [b] ∧ Ordinary b ∧ (kindOf b.toNat = .hex ∨ kindOf b.toNat = .other) ∨
    uriUnescaped b false = false ∧ kindOf b.toNat ≠ .hex ∧ ∃ high low, encodeByte false b = [0x25, high, low] ∧
      Ordinary high ∧ Ordinary low ∧ kindOf high.toNat = .hex ∧ kindOf low.toNat = .hex := by
  have hall : ∀ n : Fin 256,
      uriUnescaped (UInt8.ofNat n) false = true ∧ encodeByte false (UInt8.ofNat n) = [UInt8.ofNat n] ∧ Ordinary (UInt8.ofNat n) ∧
        (kindOf (UInt8.ofNat n).toNat = .hex ∨ kindOf (UInt8.ofNat n).toNat = .other) ∨
      uriUnescaped (UInt8.ofNat n) false = false ∧ kindOf (UInt8.ofNat n).toNat ≠ .hex ∧
        ((encodeByte false (UInt8.ofNat n)).length = 3 ∧ (encodeByte false (UInt8.ofNat n))[0]? = some 0x25 ∧
          ∀ x ∈ (encodeByte false (UInt8.ofNat n)).drop 1, Ordinary x ∧ kindOf x.toNat = .hex) := by decide +kernel
  rcases forall_uint8 (p := fun b =>
      uriUnescaped b false = true ∧ encodeByte false b = [b] ∧ Ordinary b ∧ (kindOf b.toNat = .hex ∨ kindOf b.toNat = .other) ∨
      uriUnescaped b false = false ∧ kindOf b.toNat ≠ .hex ∧
        ((encodeByte false b).length = 3 ∧ (encodeByte false b)[0]? = some 0x25 ∧
          ∀ x ∈ (encodeByte false b).drop 1, Ordinary x ∧ kindOf x.toNat = .hex)) hall b with h | ⟨hu, hk, hlength, hpercent, hdigits⟩
  · exact .inl h
  · obtain ⟨percent, high, low, heq⟩ := length_eq_three.mp hlength
    rw [heq] at hpercent hdigits ⊢
    cases hpercent
    obtain ⟨hhigh, hhighHex⟩ := hdigits high (by simp)
    obtain ⟨hlow, hlowHex⟩ := hdigits low (by simp)
    exact .inr ⟨hu, hk, high, low, rfl, hhigh, hlow, hhighHex, hlowHex⟩

theorem ordinary_escaped : ∀ x ∈ escaped bytes, Ordinary x := by
  intro x hx
  obtain ⟨b, -, hx⟩ := mem_flatMap.mp hx
  rcases encodeByte_cases b with ⟨-, heq, hord, -⟩ | ⟨-, -, high, low, heq, hhigh, hlow, -⟩
  · rw [heq, mem_singleton] at hx
    rwa [hx]
  · rw [heq] at hx
    rcases mem_cons.mp hx with rfl | hx
    · decide
    · rcases mem_cons.mp hx with rfl | hx
      · exact hhigh
      · rwa [mem_singleton.mp hx]

theorem byte_eq {n : ℕ} (h : n ≤ 255) : build.byte n = some n := by
  cases build with
  | dev => exact if_neg (by omega)
  | release => exact congrArg some (Nat.mod_eq_of_lt (by omega))

variable {mark : CodeKind → Marks → Marks}

/-- One byte, where the counter stays small. -/
theorem runMarks_cons (h : (mark (kindOf b.toNat) m).check ≤ 255) :
    runMarks build mark (b :: bytes) m = runMarks build mark bytes (mark (kindOf b.toNat) m) := by
  rw [runMarks, byte_eq h]
  rfl

/-- Once both texts are known to be encoded nothing changes. -/
theorem runMarks_done (hmark : ∀ kind, mark kind m = m) (hm : m.check ≤ 255) (w : Bytes) :
    runMarks build mark w m = some m := by
  induction w with
  | nil => rfl
  | cons b w ih => rw [runMarks_cons (by rw [hmark]; exact hm), hmark, ih]

/-- The three bytes of an escape. -/
theorem runMarks_escape {key value key' value' : Bool} {n : ℕ} {high low : UInt8}
    (hhigh : kindOf high.toNat = .hex) (hlow : kindOf low.toNat = .hex) (h1 : mark .percent ⟨key, value, n⟩ = ⟨key, value, 1⟩)
    (h2 : mark .hex ⟨key, value, 1⟩ = ⟨key, value, 2⟩) (h3 : mark .hex ⟨key, value, 2⟩ = ⟨key', value', 3⟩) (w : Bytes) :
    runMarks build mark ([0x25, high, low] ++ w) ⟨key, value, n⟩ = runMarks build mark w ⟨key', value', 3⟩ := by
  have hpercent : kindOf (0x25 : UInt8).toNat = .percent := by decide
  have hbound : 1 ≤ 255 ∧ 2 ≤ 255 ∧ 3 ≤ 255 := by decide
  rw [cons_append, runMarks_cons (by rw [hpercent, h1]; exact hbound.1), hpercent, h1, cons_append,
    runMarks_cons (by rw [hhigh, h2]; exact hbound.2.1), hhigh, h2, cons_append,
    runMarks_cons (by rw [hlow, h3]; exact hbound.2.2), hlow, h3]
  rfl

/-- The value: it is marked when something in it is escaped. -/
theorem runMarks_value (build : Build) (hm : m.value = false → m.check = 0) (hcheck : m.check ≤ 255) (bytes : Bytes) :
    ∃ m', runMarks build markValue (escaped bytes) m = some m' ∧ m'.key = m.key ∧
      (m'.value = true ∨ ∀ b ∈ bytes, uriUnescaped b false = true) := by
  by_cases hv : m.value = true
  · have hmark : ∀ kind, markValue kind m = m := fun kind => if_pos hv
    exact ⟨m, runMarks_done hmark hcheck _, rfl, .inl hv⟩
  obtain ⟨key, _, _⟩ := m
  obtain rfl : _ = false := Bool.eq_false_iff.mpr hv
  obtain rfl : _ = 0 := hm rfl
  induction bytes with
  | nil => exact ⟨_, rfl, rfl, .inr (by simp)⟩
  | cons b bytes ih =>
    rw [escaped, flatMap_cons]
    rcases encodeByte_cases b with ⟨hu, heq, -, hkind⟩ | ⟨-, -, high, low, heq, -, -, hhigh, hlow⟩
    · have hmark : markValue (kindOf b.toNat) ⟨key, false, 0⟩ = ⟨key, false, 0⟩ := by
        rcases hkind with hk | hk <;> rw [hk] <;> rfl
      rw [heq, singleton_append, runMarks_cons (by rw [hmark]; exact Nat.zero_le _), hmark]
      obtain ⟨m', hrun, hkey, h⟩ := ih
      exact ⟨m', hrun, hkey, h.imp_right fun h => forall_mem_cons.mpr ⟨hu, h⟩⟩
    · rw [heq, runMarks_escape hhigh hlow rfl rfl rfl]
      exact ⟨⟨key, true, 3⟩, runMarks_done (fun _ => rfl) (Nat.le_add_right 3 252) _, rfl, .inl rfl⟩

/-- How many hexadecimal digits follow at once. -/
def digitRun (bytes : Bytes) : ℕ := (bytes.takeWhile fun b => kindOf b.toNat = .hex).length

/-- After the first escape of a key every digit counts, up to what is no digit or is escaped. -/
theorem runMarks_counting (build : Build) {n : ℕ} (hn : n = 0 ∨ 3 ≤ n ∧ n ≤ 255) (bytes : Bytes) :
    (build = .dev ∧ n ≠ 0 ∧ 255 < n + digitRun bytes → runMarks build markKey (escaped bytes) ⟨true, false, n⟩ = none) ∧
    (¬ (build = .dev ∧ n ≠ 0 ∧ 255 < n + digitRun bytes) →
      ∃ m, runMarks build markKey (escaped bytes) ⟨true, false, n⟩ = some m ∧ m.key = true) := by
  induction bytes generalizing n with
  | nil =>
    refine ⟨fun h => ?_, fun _ => ⟨_, rfl, rfl⟩⟩
    have hrun : digitRun [] = 0 := rfl
    omega
  | cons b bytes ih =>
    rw [escaped, flatMap_cons]
    rcases encodeByte_cases b with ⟨-, heq, -, hk | hk⟩ | ⟨-, hk, high, low, heq, -, -, hhigh, hlow⟩
    · have hrun : digitRun (b :: bytes) = digitRun bytes + 1 := by
        rw [digitRun, takeWhile_cons_of_pos (by simp [hk])]
        rfl
      rw [heq, hrun, singleton_append]
      rcases hn with rfl | ⟨hlow, hhigh⟩
      · rw [runMarks_cons (by rw [hk]; exact Nat.zero_le _), hk]
        obtain ⟨-, hsome⟩ := ih (.inl rfl)
        exact ⟨fun h => absurd rfl h.2.1, fun _ => hsome fun h => h.2.1 rfl⟩
      · have hmark : markKey .hex ⟨true, false, n⟩ = ⟨true, false, n + 1⟩ := by
          have hthree : decide (n + 1 = 3) = false := by
            rw [decide_eq_false_iff_not]
            omega
          show (if 0 < n then (⟨true, decide (n + 1 = 3), n + 1⟩ : Marks) else _) = _
          rw [if_pos (by omega), hthree]
        by_cases hn : n = 255
        · -- the addition overflows
          subst hn
          rw [runMarks, hk, hmark]
          cases build with
          | dev => exact ⟨fun _ => rfl, fun h => (h ⟨rfl, by decide, by omega⟩).elim⟩
          | release =>
            obtain ⟨-, hsome⟩ := ih (.inl rfl)
            exact ⟨fun h => (nomatch h.1), fun _ => hsome fun h => h.2.1 rfl⟩
        · rw [runMarks_cons (by rw [hk, hmark]; show n + 1 ≤ 255; omega), hk, hmark]
          have hbounds : n + 1 = 0 ∨ 3 ≤ n + 1 ∧ n + 1 ≤ 255 := by omega
          obtain ⟨hnone, hsome⟩ := ih hbounds
          exact ⟨fun h => hnone ⟨h.1, by omega, by omega⟩, fun h => hsome fun h' => h ⟨h'.1, by omega, by omega⟩⟩
    · have hrun : digitRun (b :: bytes) = 0 := by
        rw [digitRun, takeWhile_cons_of_neg (by simp [hk])]
        rfl
      rw [heq, hrun, singleton_append, runMarks_cons (by rw [hk]; exact Nat.zero_le _), hk]
      obtain ⟨-, hsome⟩ := ih (.inl rfl)
      exact ⟨fun h => by omega, fun _ => hsome fun h => h.2.1 rfl⟩
    · -- the second escape marks the value, and the counting is over
      have hrun : digitRun (b :: bytes) = 0 := by
        rw [digitRun, takeWhile_cons_of_neg (by simp [hk])]
        rfl
      rw [heq, hrun, runMarks_escape hhigh hlow rfl rfl rfl]
      exact ⟨fun h => by omega, fun _ => ⟨⟨true, true, 3⟩, runMarks_done (fun _ => rfl) (Nat.le_add_right 3 252) _, rfl⟩⟩

/-- The digits that follow the first escape of a text. -/
def hexRun (bytes : Bytes) : ℕ := digitRun ((bytes.dropWhile (uriUnescaped · false)).drop 1)

/-- Whether the build can read a key. -/
def Build.reads (build : Build) (key : Bytes) : Prop := build = .release ∨ hexRun key < 253

/-- The key: it is marked when something in it is escaped, unless the counter overflows. -/
theorem runMarks_key (build : Build) (bytes : Bytes) :
    (¬ build.reads bytes → runMarks build markKey (escaped bytes) .start = none) ∧
    (build.reads bytes → ∃ m, runMarks build markKey (escaped bytes) .start = some m ∧
      (m.key = true ∨ ∀ b ∈ bytes, uriUnescaped b false = true)) := by
  induction bytes with
  | nil => exact ⟨fun h => absurd (.inr (by decide)) h, fun _ => ⟨_, rfl, .inr (by simp)⟩⟩
  | cons b bytes ih =>
    rw [escaped, flatMap_cons]
    rcases encodeByte_cases b with ⟨hu, heq, -, hkind⟩ | ⟨hu, -, high, low, heq, -, -, hhigh, hlow⟩
    · have hmark : markKey (kindOf b.toNat) .start = .start := by
        rcases hkind with hk | hk <;> rw [hk] <;> rfl
      have hreads : build.reads (b :: bytes) ↔ build.reads bytes := by
        have hdrop : (b :: bytes).dropWhile (uriUnescaped · false) = bytes.dropWhile (uriUnescaped · false) :=
          dropWhile_cons_of_pos hu
        rw [Build.reads, Build.reads, hexRun, hexRun, hdrop]
      rw [heq, hreads, singleton_append, runMarks_cons (by rw [hmark]; exact Nat.zero_le _), hmark]
      refine ⟨ih.1, fun h => ?_⟩
      obtain ⟨m, hrun, h⟩ := ih.2 h
      exact ⟨m, hrun, h.imp_right fun h => forall_mem_cons.mpr ⟨hu, h⟩⟩
    · have hreads : build.reads (b :: bytes) ↔ ¬ (build = .dev ∧ 3 ≠ 0 ∧ 255 < 3 + digitRun bytes) := by
        have hdrop : (b :: bytes).dropWhile (uriUnescaped · false) = b :: bytes :=
          dropWhile_cons_of_neg (Bool.eq_false_iff.mp hu)
        rw [Build.reads, hexRun, hdrop, drop_one, tail_cons]
        cases build with
        | dev => simp; omega
        | release => simp
      rw [heq, hreads, not_not, runMarks_escape hhigh hlow rfl rfl rfl]
      obtain ⟨hnone, hsome⟩ := runMarks_counting build (n := 3) (.inr (by decide)) bytes
      refine ⟨hnone, fun h => ?_⟩
      obtain ⟨m, hrun, hkey⟩ := hsome h
      exact ⟨m, hrun, .inl hkey⟩

/-! ### The scan of a pair -/

section Pairs

variable {K : Type} {C : Counter K} {q : Query UInt8} {output : List (Pair UInt8)} {pairs : K} {position i : ℕ} {key : Bytes}

/-- In the middle of a key. -/
def inKey (output : List (Pair UInt8)) (pairs : K) (position : ℕ) (m : Marks) : Scan UInt8 K :=
  { Scan.start pairs with
    output := output, lastPosition := position, keyEncoded := m.key, valueEncoded := m.value, encodeCheck := m.check }

/-- In the middle of a value. -/
def inValue (output : List (Pair UInt8)) (pairs : K) (position : ℕ) (key : Bytes) (m : Marks) : Scan UInt8 K :=
  { inKey output pairs position m with key := key, equalsIndex := 1 }

/-- Some ordinary codes in a row change the marks only. -/
theorem scan_marks {place : Marks → Scan UInt8 K}
    (hstep : ∀ i x m, Ordinary x → q.step C i x (place m) = place (mark (kindOf x.toNat) m))
    (hreturned : ∀ m, (place m).returned = false) (hcheck : ∀ m, (place m).encodeCheck = m.check)
    (hset : ∀ m c, { place m with encodeCheck := c } = place { m with check := c }) {w : Bytes} (hw : ∀ x ∈ w, Ordinary x)
    (i : ℕ) (m : Marks) : q.scanBuild C build i w (place m) = (runMarks build mark w m).map place := by
  induction w generalizing i m with
  | nil => rfl
  | cons x w ih =>
    obtain ⟨hx, hw⟩ := forall_mem_cons.mp hw
    rw [Query.scanBuild, runMarks, if_neg (by rw [hreturned]; exact Bool.false_ne_true), hstep i x m hx, hcheck]
    cases build.byte (mark (kindOf x.toNat) m).check with
    | none => rfl
    | some c =>
      rw [Option.bind_some, Option.bind_some, hset]
      exact ih hw _ _

variable (hseparator : q.separator = [0x26]) (hequals : q.equals = [0x3d]) (hkind : q.kind = fun x => kindOf x.toNat)
include hseparator hequals

section

include hkind

theorem scan_key {w : Bytes} (hw : ∀ x ∈ w, Ordinary x) (m : Marks) :
    q.scanBuild C build i w (inKey output pairs position m) = (runMarks build markKey w m).map (inKey output pairs position) := by
  refine scan_marks ?_ (fun _ => rfl) (fun _ => rfl) (fun _ _ => rfl) hw i m
  rintro i x ⟨k, v, n⟩ ⟨hx, hx', hplus⟩
  rw [Query.step, hseparator, hequals, hkind]
  simp only [inKey, Scan.start, List.getElem?_cons_zero, Option.some.injEq, Ne.symm hx, Ne.symm hx', if_false, length_singleton,
    Nat.zero_lt_one, if_true]
  cases hk : kindOf x.toNat with
  | plus => exact absurd hk hplus
  | percent => cases k <;> cases v <;> rfl
  | hex => by_cases hn : 0 < n <;> cases k <;> cases v <;> simp [Query.keyCode, Query.valueCode, markKey, markValue, hn]
  | other => cases k <;> cases v <;> rfl

theorem scan_value {w : Bytes} (hw : ∀ x ∈ w, Ordinary x) (m : Marks) :
    q.scanBuild C build i w (inValue output pairs position key m) =
      (runMarks build markValue w m).map (inValue output pairs position key) := by
  refine scan_marks ?_ (fun _ => rfl) (fun _ => rfl) (fun _ _ => rfl) hw i m
  rintro i x ⟨k, v, n⟩ ⟨hx, hx', hplus⟩
  rw [Query.step, hseparator, hequals, hkind]
  simp only [inValue, inKey, Scan.start, List.getElem?_cons_zero, Option.some.injEq, Ne.symm hx, if_false, length_singleton,
    Nat.lt_irrefl]
  cases hk : kindOf x.toNat with
  | plus => exact absurd hk hplus
  | percent => cases v <;> rfl
  | hex => by_cases hn : 0 < n <;> cases v <;> simp [Query.valueCode, markValue, hn]
  | other => cases v <;> rfl

end

theorem step_equals (m : Marks) : q.step C i 0x3d (inKey output pairs position m) =
    inValue output pairs (i + 1) (if position < i then (q.input.take i).drop position else []) ⟨m.key, m.value, 0⟩ := by
  have hne : ¬ (0x26 : UInt8) = 0x3d := by decide
  rw [Query.step, hseparator, hequals]
  simp only [inValue, inKey, Scan.start, List.getElem?_cons_zero, Option.some.injEq, hne, if_false, if_true, length_singleton,
    Nat.zero_lt_one, Nat.zero_add, Query.equalsMatched, Nat.add_sub_cancel, Query.takeKey, hequals]
  split <;> rfl

theorem step_separator (m : Marks) (h : C.isZero (C.decrement pairs) = false) :
    q.step C i 0x26 (inValue output pairs position key m) =
      inKey (output ++ [⟨key, if position < i then (q.input.take i).drop position else [], m.key, m.value⟩]) (C.decrement pairs) (i + 1)
        .start := by
  rw [Query.step, hseparator, hequals]
  simp only [inValue, inKey, Scan.start, List.getElem?_cons_zero, if_true, length_singleton, Nat.zero_add, Query.separatorMatched,
    hequals, hseparator, Nat.lt_irrefl, if_false, Nat.add_sub_cancel, Query.takeValue, Scan.nextPair, Scan.countDown, Scan.addPair]
  split <;> simp only [nil_append, h, Marks.start]

theorem finish_value (m : Marks) : q.finish (inValue output pairs position key m) =
    output ++ [⟨key, q.input.drop position, m.key, m.value⟩] := by
  have hequalsIndex : ¬ (inValue output pairs position key m).equalsIndex < q.equals.length := by
    rw [hequals]
    exact Nat.lt_irrefl 1
  have hseparatorIndex : (inValue output pairs position key m).separatorIndex < q.separator.length := by
    rw [hseparator]
    exact Nat.zero_lt_one
  rw [Query.finish, if_neg (by exact Bool.false_ne_true)]
  by_cases h : position < q.input.length
  · rw [if_pos (by exact h), if_neg hequalsIndex, if_pos hseparatorIndex, Query.takeValue, if_pos (by exact h), take_length]
    rfl
  · rw [if_neg (by exact h), if_neg (by rintro ⟨heq, -⟩; cases heq), drop_eq_nil_of_le (by omega)]
    rfl

omit hseparator hequals in
/-- What stands between two places of the input. -/
theorem slice_eq (pre w post : Bytes) : (if pre.length < pre.length + w.length then
    ((pre ++ (w ++ post)).take (pre.length + w.length)).drop pre.length else []) = w := by
  split
  · rw [← append_assoc, ← length_append, take_left, drop_left]
  · have hw : w.length = 0 := by omega
    rw [length_eq_zero_iff.mp hw]

/-- Whether the marks say where there is something to unescape. -/
def Marked (p : Bytes × Bytes) (key value : Bool) : Prop :=
  (key = true ∨ ∀ b ∈ p.1, uriUnescaped b false = true) ∧ (value = true ∨ ∀ b ∈ p.2, uriUnescaped b false = true)

include hkind

/-- **One pair.** -/
theorem scan_pair (build : Build) (output : List (Pair UInt8)) (pairs : K) (p : Bytes × Bytes) {pre rest : Bytes} (hinput : q.input = pre ++ (escaped p.1 ++ 0x3d :: (escaped p.2 ++ rest))) :
    (¬ build.reads p.1 →
      q.scanBuild C build pre.length (escaped p.1 ++ 0x3d :: (escaped p.2 ++ rest)) (inKey output pairs pre.length .start) = none) ∧
    (build.reads p.1 → ∃ m, Marked p m.key m.value ∧
      q.scanBuild C build pre.length (escaped p.1 ++ 0x3d :: (escaped p.2 ++ rest)) (inKey output pairs pre.length .start) =
        q.scanBuild C build (pre.length + (escaped p.1).length + 1 + (escaped p.2).length) rest
          (inValue output pairs (pre.length + (escaped p.1).length + 1) (escaped p.1) m)) := by
  rw [scanBuild_append, scan_key hseparator hequals hkind ordinary_escaped]
  obtain ⟨hnone, hsome⟩ := runMarks_key build p.1
  refine ⟨fun h => by rw [hnone h]; rfl, fun h => ?_⟩
  obtain ⟨m, hm, hkey⟩ := hsome h
  obtain ⟨m', hm', hkey', hvalue⟩ := runMarks_value build (m := ⟨m.key, m.value, 0⟩) (fun _ => rfl) (Nat.zero_le _) p.2
  refine ⟨m', ⟨by rwa [hkey'], hvalue⟩, ?_⟩
  rw [hm, Option.map_some, Option.bind_some, Query.scanBuild, if_neg (by exact Bool.false_ne_true), step_equals hseparator hequals,
    hinput, slice_eq, byte_eq (by exact Nat.zero_le _), Option.bind_some]
  exact (scanBuild_append _ _).trans (by
    rw [scan_value hseparator hequals hkind ordinary_escaped ⟨m.key, m.value, 0⟩, hm']
    rfl)

/-- A pair that the scan found for one that was written. -/
def Found (p : Bytes × Bytes) (found : Pair UInt8) : Prop :=
  found.key = escaped p.1 ∧ found.value = escaped p.2 ∧ Marked p found.keyEncoded found.valueEncoded

/-- The pairs after the first one. -/
def written (ps : List (Bytes × Bytes)) : Bytes := ps.flatMap fun p => 0x26 :: (escaped p.1 ++ 0x3d :: escaped p.2)

/-- **The pairs that are left**, from the end of a value on. -/
theorem scan_written (build : Build) (output : List (Pair UInt8)) (key : Bytes) {unlimited : K → Prop} (hpairs : ∀ n, unlimited n → unlimited (C.decrement n) ∧ C.isZero (C.decrement n) = false)
    (h : unlimited pairs) (ps : List (Bytes × Bytes)) {pre ev : Bytes} (hinput : q.input = pre ++ (ev ++ written ps)) (m : Marks) :
    ((∃ p ∈ ps, ¬ build.reads p.1) →
      q.scanBuild C build (pre.length + ev.length) (written ps) (inValue output pairs pre.length key m) = none) ∧
    ((∀ p ∈ ps, build.reads p.1) → ∃ found, List.Forall₂ Found ps found ∧
      (q.scanBuild C build (pre.length + ev.length) (written ps) (inValue output pairs pre.length key m)).map q.finish =
        some (output ++ ⟨key, ev, m.key, m.value⟩ :: found)) := by
  induction ps generalizing pre ev output pairs key m with
  | nil =>
    refine ⟨by simp, fun _ => ⟨[], .nil, ?_⟩⟩
    have hdrop : q.input.drop pre.length = ev := by
      rw [hinput, drop_left]
      exact append_nil ev
    rw [← hdrop]
    exact congrArg some (finish_value hseparator hequals m)
  | cons p ps ih =>
    obtain ⟨h, hzero⟩ := hpairs pairs h
    have hwritten : written (p :: ps) = 0x26 :: (escaped p.1 ++ 0x3d :: (escaped p.2 ++ written ps)) := by
      rw [written, flatMap_cons]
      simp only [cons_append, append_assoc, written]
    have hsplit : q.input = (pre ++ ev ++ [0x26]) ++ (escaped p.1 ++ 0x3d :: (escaped p.2 ++ written ps)) := by
      rw [hinput, hwritten]
      simp
    have hlength : (pre ++ ev ++ [0x26]).length = pre.length + ev.length + 1 := by
      simp
      omega
    obtain ⟨hnone, hsome⟩ := scan_pair (C := C) hseparator hequals hkind build (output ++ [⟨key, ev, m.key, m.value⟩])
      (C.decrement pairs) p hsplit
    rw [hlength] at hnone hsome
    have hstart : q.scanBuild C build (pre.length + ev.length) (written (p :: ps)) (inValue output pairs pre.length key m) =
        q.scanBuild C build (pre.length + ev.length + 1) (escaped p.1 ++ 0x3d :: (escaped p.2 ++ written ps))
          (inKey (output ++ [⟨key, ev, m.key, m.value⟩]) (C.decrement pairs) (pre.length + ev.length + 1) .start) := by
      rw [hwritten, Query.scanBuild, if_neg (by exact Bool.false_ne_true), step_separator hseparator hequals m hzero, hinput, slice_eq,
        byte_eq (by exact Nat.zero_le _)]
      rfl
    rw [hstart]
    by_cases hp : build.reads p.1
    · obtain ⟨m', hmarked, hscan⟩ := hsome hp
      rw [hscan]
      have hsplit' : q.input = (pre ++ ev ++ [0x26] ++ escaped p.1 ++ [0x3d]) ++ (escaped p.2 ++ written ps) := by
        rw [hsplit]
        simp
      have hlength' : (pre ++ ev ++ [0x26] ++ escaped p.1 ++ [0x3d]).length = pre.length + ev.length + 1 + (escaped p.1).length + 1 := by
        rw [length_append, length_append, hlength]
        rfl
      obtain ⟨hnone', hsome'⟩ := ih (output ++ [⟨key, ev, m.key, m.value⟩]) (escaped p.1) h hsplit' m'
      rw [hlength'] at hnone' hsome'
      refine ⟨fun hex => hnone' ?_, fun hall => ?_⟩
      · obtain ⟨x, hx, hnot⟩ := hex
        rcases mem_cons.mp hx with rfl | hx
        · exact absurd hp hnot
        · exact ⟨x, hx, hnot⟩
      · obtain ⟨found, hfound, hend⟩ := hsome' (forall_mem_cons.mp hall).2
        refine ⟨⟨escaped p.1, escaped p.2, m'.key, m'.value⟩ :: found, .cons ⟨rfl, rfl, hmarked⟩ hfound, ?_⟩
        rw [hend, append_assoc, singleton_append]
    · exact ⟨fun _ => hnone hp, fun hall => absurd (forall_mem_cons.mp hall).1 hp⟩

/-- **The whole scan.** -/
theorem scan_all (build : Build) {unlimited : K → Prop} (hpairs : ∀ n, unlimited n → unlimited (C.decrement n) ∧ C.isZero (C.decrement n) = false)
    (h : unlimited pairs) (p : Bytes × Bytes) (ps : List (Bytes × Bytes)) (hinput : q.input = (written (p :: ps)).drop 1) :
    ((∃ x ∈ p :: ps, ¬ build.reads x.1) → q.scanBuild C build 0 q.input (Scan.start pairs) = none) ∧
    ((∀ x ∈ p :: ps, build.reads x.1) → ∃ found, List.Forall₂ Found (p :: ps) found ∧
      (q.scanBuild C build 0 q.input (Scan.start pairs)).map q.finish = some found) := by
  have hsplit : q.input = [] ++ (escaped p.1 ++ 0x3d :: (escaped p.2 ++ written ps)) := by
    rw [hinput, written, flatMap_cons]
    simp only [cons_append, append_assoc, written, drop_one, tail_cons, nil_append]
  obtain ⟨hnone, hsome⟩ := scan_pair (C := C) hseparator hequals hkind build [] pairs p hsplit
  have hstart : (Scan.start pairs : Scan UInt8 K) = inKey [] pairs ([] : Bytes).length .start := rfl
  have hcodes : q.input = escaped p.1 ++ 0x3d :: (escaped p.2 ++ written ps) := hsplit
  rw [hstart]
  by_cases hp : build.reads p.1
  · obtain ⟨m, hmarked, hscan⟩ := hsome hp
    have hsplit' : q.input = (escaped p.1 ++ [0x3d]) ++ (escaped p.2 ++ written ps) := by
      rw [hcodes]
      simp
    have hlength : (escaped p.1 ++ [0x3d]).length = ([] : Bytes).length + (escaped p.1).length + 1 := by
      simp
    obtain ⟨hnone', hsome'⟩ := scan_written hseparator hequals hkind build [] (escaped p.1) hpairs h ps hsplit' m
    rw [hlength, ← hscan, ← hcodes] at hnone' hsome'
    refine ⟨fun hex => hnone' ?_, fun hall => ?_⟩
    · obtain ⟨x, hx, hnot⟩ := hex
      rcases mem_cons.mp hx with rfl | hx
      · exact absurd hp hnot
      · exact ⟨x, hx, hnot⟩
    · obtain ⟨found, hfound, hend⟩ := hsome' (forall_mem_cons.mp hall).2
      exact ⟨⟨escaped p.1, escaped p.2, m.key, m.value⟩ :: found, .cons ⟨rfl, rfl, hmarked⟩ hfound, hend⟩
  · have hn := hnone hp
    rw [← hcodes] at hn
    exact ⟨fun _ => hn, fun hall => absurd (forall_mem_cons.mp hall).1 hp⟩

end Pairs

/-- The doubles that count down from -1. -/
theorem doubles_unlimited (x : F64) (h : F64.le x (.ofInt (-1)) = true) :
    F64.le (doubles.decrement x) (.ofInt (-1)) = true ∧ doubles.isZero (doubles.decrement x) = false := by
  have hone : (F64.neg (.ofInt 1)).isFinite = true := by
    rw [F64.isFinite_neg]
    exact F64.isFinite_ofInt (by decide)
  have hnan : F64.add x (F64.neg (.ofInt 1)) ≠ .nan := by
    rw [Ne, F64.add_eq_nan (F64.le_iff.mp h).1 (F64.ne_nan_of_isFinite hone)]
    rintro (⟨-, heq⟩ | ⟨-, heq⟩) <;> (rw [heq] at hone; cases hone)
  have hminus : F64.add (.ofInt (-1)) (F64.neg (.ofInt 1)) = .ofInt (-2) := F64.sub_ofInt (by decide) (by decide)
  have htwo : F64.ofInt (-2) ≠ .nan := F64.ne_nan_of_isFinite (F64.isFinite_ofInt (by decide))
  have hle := F64.add_le_add h (F64.le_refl' (F64.ne_nan_of_isFinite hone)) hnan (by rw [hminus]; exact htwo)
  rw [hminus] at hle
  have hlt : F64.le (F64.ofInt (-2)) (.ofInt (-1)) = true := by
    rw [F64.le_ofInt (by decide) (by decide)]
    decide
  have hend := F64.le_trans' hle hlt
  refine ⟨hend, Bool.eq_false_iff.mpr fun hzero => ?_⟩
  have hnum := (F64.le_iff.mp hend).2.2
  have hzero' : (F64.add x (F64.neg (.ofInt 1))).num = ExtRat.fin 0 := (F64.isZero_iff hnan).mp hzero
  have hminusOne : (F64.ofInt (-1)).num = ExtRat.fin (-1) := by
    rw [F64.num_of_isFinite (F64.isFinite_ofInt (by decide)), F64.rat_ofInt (by decide)]
    norm_num
  rw [hzero', hminusOne, ExtRat.fin_le_fin] at hnum
  norm_num at hnum

/-! ### What is written -/

/-- The characters of an escaped text. -/
def escapedChars (value : Units) : List Char := (chars value).flatMap (escape false)

def writtenChars (ps : List (Units × Units)) : List Char := ps.flatMap fun p => '&' :: (escapedChars p.1 ++ '=' :: escapedChars p.2)

/-- The pairs that are written: a value at a time. -/
def pairsOf (entries : List (Units × QuerystringValue)) : List (Units × Units) :=
  entries.flatMap fun e => e.2.values.map fun value => (e.1, value)

def raw (p : Units × Units) : Bytes × Bytes := (toUtf8Lossy p.1, toUtf8Lossy p.2)

theorem escaped_eq (value : Units) : escaped (toUtf8Lossy value) = utf8.text (escapedChars value) := by
  rw [escaped, toUtf8Lossy, escapedChars, Coding.text, Coding.text, flatMap_assoc, flatMap_assoc]
  exact flatMap_congr fun c _ => RuntimeRust.UriCoding.encode_code false c

theorem chars_text (cs : List Char) : chars (utf16.text cs) = cs := by
  have hdecode : Utf16.decode (utf16.text cs) = cs.map .inl := Utf16.decode_encode cs
  rw [chars, hdecode, map_map]
  exact map_id cs

theorem written_eq (ps : List (Units × Units)) : utf8.text ((writtenChars ps).drop 1) = (written (ps.map raw)).drop 1 := by
  have hamp : utf8.code '&' = [0x26] := by decide
  have hequals : utf8.code '=' = [0x3d] := by decide
  have hall : utf8.text (writtenChars ps) = written (ps.map raw) := by
    rw [writtenChars, written, Coding.text, flatMap_assoc, flatMap_map]
    refine flatMap_congr fun p _ => ?_
    rw [raw, escaped_eq, escaped_eq]
    show utf8.text ('&' :: (escapedChars p.1 ++ '=' :: escapedChars p.2)) = _
    rw [Coding.text_cons, Coding.text_append, Coding.text_cons, hamp, hequals]
    rfl
  cases ps with
  | nil => rfl
  | cons p ps =>
    have hcons : writtenChars (p :: ps) = '&' :: (writtenChars (p :: ps)).drop 1 := rfl
    rw [← hall]
    conv_rhs => rw [hcons, Coding.text_cons, hamp]
    rfl

/-- A turn of the inner loop. -/
theorem text_written (ps : List (Units × Units)) (p : Units × Units) :
    (if (utf16.text ((writtenChars ps).drop 1)).isEmpty then utf16.text ((writtenChars ps).drop 1)
      else utf16.text ((writtenChars ps).drop 1) ++ utf16.text ['&']) ++
        utf16.text (escapedChars p.1) ++ utf16.text ['='] ++ utf16.text (escapedChars p.2) =
      utf16.text ((writtenChars (ps ++ [p])).drop 1) := by
  have hitem : utf16.text (escapedChars p.1) ++ utf16.text ['='] ++ utf16.text (escapedChars p.2) =
      utf16.text (escapedChars p.1 ++ '=' :: escapedChars p.2) := by
    rw [← Coding.text_append, ← Coding.text_append, append_assoc, singleton_append]
  rw [text_isEmpty utf16_lawful, append_assoc, append_assoc, ← append_assoc (utf16.text _), hitem]
  cases ps with
  | nil =>
    rw [if_pos (by rfl)]
    simp [writtenChars]
  | cons x ps =>
    rw [if_neg, ← Coding.text_append, ← Coding.text_append]
    · simp [writtenChars]
    · simp [writtenChars]

theorem stringify_eq {entries : List (Units × QuerystringValue)}
    (h : ∀ e ∈ entries, isWellFormed e.1 = true ∧ ∀ value ∈ e.2.values, isWellFormed value = true) :
    querystringStringify (some entries) ['&'] ['='] = some (utf16.text ((writtenChars (pairsOf entries)).drop 1)) := by
  have hvalues : ∀ key, ∀ values : List Units, (∀ value ∈ values, isWellFormed value = true) → ∀ ps : List (Units × Units),
      values.foldlM (fun output value => do
        let output := if output.isEmpty then output else output ++ utf16.text (orDefault ['&'] ['&'])
        let value ← querystringEscape value
        some (output ++ utf16.text (escapedChars key) ++ utf16.text (orDefault ['='] ['=']) ++ value)) (utf16.text ((writtenChars ps).drop 1)) =
      some (utf16.text ((writtenChars (ps ++ values.map fun value => (key, value))).drop 1)) := by
    intro key values
    induction values with
    | nil => exact fun _ ps => by rw [map_nil, append_nil]; rfl
    | cons value values ih =>
      intro hvalues ps
      obtain ⟨hvalue, hvalues⟩ := forall_mem_cons.mp hvalues
      have hescape : querystringEscape value = some (utf16.text (escapedChars value)) :=
        RuntimeRust.UriCoding.encodeUri_eq hvalue false
      have hturn := text_written ps (key, value)
      rw [foldlM_cons, hescape]
      refine Eq.trans ?_ ((ih hvalues (ps ++ [(key, value)])).trans ?_)
      · rw [← hturn]
        rfl
      · rw [map_cons, append_assoc, singleton_append]
  have hentries : ∀ ps : List (Units × Units),
      entries.foldlM (fun output entry => do
        let key ← querystringEscape entry.1
        entry.2.values.foldlM (fun output value => do
          let output := if output.isEmpty then output else output ++ utf16.text (orDefault ['&'] ['&'])
          let value ← querystringEscape value
          some (output ++ key ++ utf16.text (orDefault ['='] ['=']) ++ value)) output) (utf16.text ((writtenChars ps).drop 1)) =
      some (utf16.text ((writtenChars (ps ++ pairsOf entries)).drop 1)) := by
    induction entries with
    | nil => exact fun ps => by rw [pairsOf, flatMap_nil, append_nil]; rfl
    | cons e entries ih =>
      intro ps
      obtain ⟨⟨hkey, hall⟩, hrest⟩ := forall_mem_cons.mp h
      have hescape : querystringEscape e.1 = some (utf16.text (escapedChars e.1)) := RuntimeRust.UriCoding.encodeUri_eq hkey false
      rw [foldlM_cons, hescape]
      refine Eq.trans (congrArg (· >>= _) (hvalues e.1 e.2.values hall ps)) ?_
      refine (ih hrest _).trans ?_
      rw [pairsOf, pairsOf, flatMap_cons, append_assoc]
  exact hentries []

/-! ### What is read -/

theorem unescape_escaped {value : Units} (h : isWellFormed value = true) : querystringUnescape (utf16.text (escapedChars value)) = value := by
  obtain ⟨encoded, hencoded, hdecoded⟩ := RuntimeRust.UriCoding.encodeUri_decodes h false
  have heq : encoded = utf16.text (escapedChars value) := Option.some.inj (hencoded.symm.trans (RuntimeRust.UriCoding.encodeUri_eq h false))
  rw [heq] at hdecoded
  rw [querystringUnescape, hdecoded]
  rfl

/-- A text comes back, whether it is unescaped or there was nothing to unescape. -/
theorem piece_escaped {value : Units} (h : isWellFormed value = true) {encoded : Bool}
    (hencoded : encoded = true ∨ ∀ b ∈ toUtf8Lossy value, uriUnescaped b false = true) :
    querystringPiece (utf16.text (escapedChars value)) encoded = value := by
  rw [querystringPiece]
  split
  · exact unescape_escaped h
  · rename_i hif
    rcases hencoded with rfl | hall
    · have hempty : utf16.text (escapedChars value) = [] := by simpa using hif
      have hback := unescape_escaped h
      have hnil : decodeUriTry [] false = some [] := by
        have hbytes : toUtf8Lossy [] = [] := rfl
        rw [decodeUriTry, hbytes, RuntimeRust.UriCoding.decodeLoop]
        rfl
      rw [hempty, querystringUnescape, hnil] at hback
      rw [hempty]
      exact hback
    · -- a text of bytes that stand for themselves is not changed
      have hsame : escaped (toUtf8Lossy value) = toUtf8Lossy value := by
        rw [escaped]
        conv_rhs => rw [← flatMap_singleton' (toUtf8Lossy value)]
        exact flatMap_congr fun b hb => if_pos (hall b hb)
      rw [escaped_eq] at hsame
      have hchars : escapedChars value = chars value := by
        have htext := congrArg fromUtf8 hsame
        rw [toUtf8Lossy, fromUtf8_text, fromUtf8_text] at htext
        exact Option.some.inj htext
      rw [hchars]
      exact (RuntimeRust.UriCoding.lossy_eq_iff.mpr h).symm

theorem pieces_found {p : Units × Units} (hkey : isWellFormed p.1 = true) (hvalue : isWellFormed p.2 = true) {found : Pair UInt8}
    (h : Found (raw p) found) : ∃ piece, pieces found = some piece ∧ ∀ output, querystringAddPair output piece = addValue output p.1 p.2 := by
  obtain ⟨key, value, k, v⟩ := found
  obtain ⟨rfl, rfl, hmarked⟩ := h
  refine ⟨⟨utf16.text (escapedChars p.1), utf16.text (escapedChars p.2), k, v⟩, ?_, fun output => ?_⟩
  · show (fromUtf8 (escaped (toUtf8Lossy p.1))).bind _ = _
    rw [escaped_eq, fromUtf8_text, Option.bind_some]
    show (fromUtf8 (escaped (toUtf8Lossy p.2))).map _ = _
    rw [escaped_eq, fromUtf8_text, Option.map_some]
  · rw [querystringAddPair, piece_escaped hkey hmarked.1, piece_escaped hvalue hmarked.2]

/-- All the pairs. -/
theorem fold_found {ps : List (Units × Units)} (hps : ∀ p ∈ ps, isWellFormed p.1 = true ∧ isWellFormed p.2 = true)
    {found : List (Pair UInt8)} (h : List.Forall₂ Found (ps.map raw) found) (output : List (Units × QuerystringValue)) :
    (found.mapM pieces).map (fun pairs => pairs.foldl querystringAddPair output) =
      some (ps.foldl (fun output p => addValue output p.1 p.2) output) := by
  induction ps generalizing found output with
  | nil =>
    cases h
    rfl
  | cons p ps ih =>
    obtain ⟨⟨hkey, hvalue⟩, hps⟩ := forall_mem_cons.mp hps
    cases h with
    | cons hfirst hrest =>
      obtain ⟨piece, hpiece, hadd⟩ := pieces_found hkey hvalue hfirst
      rw [mapM_cons, hpiece, foldl_cons, ← ih hps hrest, ← hadd output]
      show (do let more ← _; some (piece :: more) : Option (List (Pair UInt16))).map _ = _
      cases List.mapM pieces _ <;> rfl

/-! ### The map -/

/-- One value, or a list of several. -/
def QuerystringValue.ofValues : List Units → QuerystringValue
  | [value] => .string value
  | values => .strings values

variable {output : List (Units × QuerystringValue)}

theorem addValue_fresh {key : Units} (h : key ∉ output.map Prod.fst) (value : Units) :
    addValue output key value = output ++ [(key, .string value)] := by
  have hlookup : output.lookup key = none := by
    rw [lookup_eq_none_iff]
    intro p hp
    rw [bne_iff_ne]
    rintro rfl
    exact h (mem_map_of_mem hp)
  rw [addValue, hlookup]

/-- A value more for the last key. -/
theorem addValue_last {key : Units} (h : key ∉ output.map Prod.fst) {values : List Units}
    (hne : values ≠ []) (value : Units) :
    addValue (output ++ [(key, .ofValues values)]) key value = output ++ [(key, .ofValues (values ++ [value]))] := by
  have hlookup : (output ++ [(key, QuerystringValue.ofValues values)]).lookup key = some (.ofValues values) := by
    rw [lookup_append, lookup_eq_none_iff.mpr]
    · simp
    · intro p hp
      rw [bne_iff_ne]
      rintro rfl
      exact h (mem_map_of_mem hp)
  have hmap : ∀ v : QuerystringValue, (output ++ [(key, QuerystringValue.ofValues values)]).map
      (fun e => if e.1 = key then (e.1, v) else e) = output ++ [(key, v)] := by
    intro v
    rw [map_append, map_singleton, if_pos rfl, append_left_inj]
    refine (map_congr_left fun e he => if_neg ?_).trans (map_id output)
    rintro rfl
    exact h (mem_map_of_mem he)
  rw [addValue, hlookup]
  obtain ⟨first, rest, rfl⟩ := exists_cons_of_ne_nil hne
  cases rest with
  | nil => exact hmap _
  | cons second rest => exact hmap _

theorem fold_values {key : Units} (h : key ∉ output.map Prod.fst) (values : List Units)
    {before : List Units} (hne : before ≠ []) :
    values.foldl (fun output value => addValue output key value) (output ++ [(key, .ofValues before)]) =
      output ++ [(key, .ofValues (before ++ values))] := by
  induction values generalizing before with
  | nil => rw [append_nil]; rfl
  | cons value values ih =>
    rw [foldl_cons, addValue_last h hne, ih (by simp), append_assoc, singleton_append]

/-- Every key keeps its place and collects its values. -/
theorem fold_pairs (entries : List (Units × QuerystringValue)) (hne : ∀ e ∈ entries, e.2.values ≠ []) (output : List (Units × QuerystringValue))
    (hnodup : (output.map Prod.fst ++ entries.map Prod.fst).Nodup) :
    (pairsOf entries).foldl (fun output p => addValue output p.1 p.2) output =
      output ++ entries.map fun e => (e.1, .ofValues e.2.values) := by
  induction entries generalizing output with
  | nil => exact (append_nil output).symm
  | cons e entries ih =>
    obtain ⟨hfirst, hne⟩ := forall_mem_cons.mp hne
    have hfresh : e.1 ∉ output.map Prod.fst := by
      intro hin
      exact (nodup_append.mp hnodup).2.2 e.1 hin e.1 (by simp) rfl
    obtain ⟨value, values, hvalues⟩ := exists_cons_of_ne_nil hfirst
    have hone : addValue output e.1 value = output ++ [(e.1, .ofValues [value])] := addValue_fresh hfresh value
    rw [pairsOf, flatMap_cons, foldl_append, foldl_map, hvalues, foldl_cons, hone, fold_values hfresh values (by simp)]
    refine (ih hne _ ?_).trans ?_
    · simpa using hnodup
    · rw [map_cons, hvalues, append_assoc]
      rfl

/-! ### Written and parsed -/

/-- Distinct keys, each with some values, and no surrogate that stands alone. -/
structure Writable (entries : List (Units × QuerystringValue)) : Prop where
  nodup : (entries.map Prod.fst).Nodup
  nonempty : ∀ e ∈ entries, e.2.values ≠ []
  wellFormed : ∀ e ∈ entries, isWellFormed e.1 = true ∧ ∀ value ∈ e.2.values, isWellFormed value = true

/-- Parsing gives back what was written. -/
def RoundTrips (build : Build) (maxKeys : F64) (entries : List (Units × QuerystringValue)) : Prop :=
  ∃ text, querystringStringify (some entries) ['&'] ['='] = some text ∧
    querystringMap build text ['&'] ['='] maxKeys = some (entries.map fun e => (e.1, .ofValues e.2.values))

theorem keyLimit_unlimited {maxKeys : F64} (h : F64.lt .zero maxKeys = false) : F64.le (keyLimit maxKeys) (.ofInt (-1)) = true := by
  rw [keyLimit, if_neg (by rw [h]; exact Bool.false_ne_true)]
  exact F64.le_refl' (F64.ne_nan_of_isFinite (F64.isFinite_ofInt (by decide)))

/-- What is parsed of a written text: nothing where a key overflows the counter. -/
theorem map_written (build : Build) {maxKeys : F64} (hmax : F64.lt .zero maxKeys = false) {entries : List (Units × QuerystringValue)}
    (h : Writable entries) :
    ((∃ e ∈ entries, ¬ build.reads (toUtf8Lossy e.1)) →
      querystringMap build (utf16.text ((writtenChars (pairsOf entries)).drop 1)) ['&'] ['='] maxKeys = none) ∧
    ((∀ e ∈ entries, build.reads (toUtf8Lossy e.1)) →
      querystringMap build (utf16.text ((writtenChars (pairsOf entries)).drop 1)) ['&'] ['='] maxKeys =
        some (entries.map fun e => (e.1, .ofValues e.2.values))) := by
  have hmem : ∀ p, p ∈ pairsOf entries ↔ ∃ e ∈ entries, p.1 = e.1 ∧ p.2 ∈ e.2.values := by
    intro p
    simp only [pairsOf, mem_flatMap, mem_map]
    constructor
    · rintro ⟨e, he, value, hvalue, rfl⟩
      exact ⟨e, he, rfl, hvalue⟩
    · rintro ⟨e, he, hkey, hvalue⟩
      exact ⟨e, he, p.2, hvalue, by rw [← hkey]⟩
  have hreads : (∀ x ∈ (pairsOf entries).map raw, build.reads x.1) ↔ ∀ e ∈ entries, build.reads (toUtf8Lossy e.1) := by
    rw [forall_mem_map]
    constructor
    · intro hall e he
      obtain ⟨value, values, hvalues⟩ := exists_cons_of_ne_nil (h.nonempty e he)
      exact hall (e.1, value) ((hmem _).mpr ⟨e, he, rfl, by rw [hvalues]; exact mem_cons_self⟩)
    · rintro hall p hp
      obtain ⟨e, he, hkey, -⟩ := (hmem p).mp hp
      rw [raw, hkey]
      exact hall e he
  have hwell : ∀ p ∈ pairsOf entries, isWellFormed p.1 = true ∧ isWellFormed p.2 = true := by
    intro p hp
    obtain ⟨e, he, hkey, hvalue⟩ := (hmem p).mp hp
    rw [hkey]
    exact ⟨(h.wellFormed e he).1, (h.wellFormed e he).2 _ hvalue⟩
  have hfold := fold_pairs entries h.nonempty [] h.nodup
  have hnot : (∃ e ∈ entries, ¬ build.reads (toUtf8Lossy e.1)) ↔ ∃ x ∈ (pairsOf entries).map raw, ¬ build.reads x.1 := by
    have := not_congr hreads
    push Not at this
    exact this.symm
  rw [← hreads, hnot]
  cases hps : pairsOf entries with
  | nil =>
    rw [hps] at hfold
    refine ⟨by simp, fun _ => ?_⟩
    exact congrArg some hfold
  | cons p ps =>
    have hinput : utf8.text (chars (utf16.text ((writtenChars (p :: ps)).drop 1))) = (written ((p :: ps).map raw)).drop 1 := by
      rw [chars_text, written_eq]
    have hnonempty : (utf16.text ((writtenChars (p :: ps)).drop 1)).isEmpty = false := by
      rw [text_isEmpty utf16_lawful]
      simp [writtenChars]
    have hseparator : utf8.text (orDefault ['&'] ['&']) = [0x26] := by decide
    have hequals : utf8.text (orDefault ['='] ['=']) = [0x3d] := by decide
    obtain ⟨hnone, hsome⟩ := scan_all (q := byteQuery (chars (utf16.text ((writtenChars (p :: ps)).drop 1))) ['&'] ['='])
      hseparator hequals rfl build doubles_unlimited (keyLimit_unlimited hmax) (raw p) (ps.map raw) hinput
    rw [querystringMap, if_neg (by rw [hnonempty]; exact Bool.false_ne_true)]
    refine ⟨fun hex => ?_, fun hall => ?_⟩
    · have hscan := hnone hex
      exact congrArg (fun s => Option.bind s _) hscan
    · obtain ⟨found, hfound, hend⟩ := hsome hall
      obtain ⟨s, hs, hfinish⟩ := Option.map_eq_some_iff.mp hend
      have hpieces := fold_found hwell (by rw [hps]; exact hfound) []
      rw [hfold, ← hfinish] at hpieces
      exact (congrArg (fun s => Option.bind s _) hs).trans hpieces

/-- **Parsing undoes writing**, in a build without overflow checks always, and in one with them as
long as no key goes on with 253 hexadecimal digits after the first character that is escaped. -/
theorem roundTrips_iff (build : Build) {maxKeys : F64} (hmax : F64.lt .zero maxKeys = false) {entries : List (Units × QuerystringValue)}
    (h : Writable entries) :
    RoundTrips build maxKeys entries ↔ build = .release ∨ ∀ e ∈ entries, hexRun (toUtf8Lossy e.1) < 253 := by
  have hreads : (∀ e ∈ entries, build.reads (toUtf8Lossy e.1)) ↔ build = .release ∨ ∀ e ∈ entries, hexRun (toUtf8Lossy e.1) < 253 := by
    cases build with
    | dev => simp [Build.reads]
    | release => simp [Build.reads]
  obtain ⟨hnone, hsome⟩ := map_written build hmax h
  rw [← hreads]
  constructor
  · rintro ⟨text, htext, hmap⟩
    rw [stringify_eq h.wellFormed] at htext
    cases htext
    by_contra hnot
    push Not at hnot
    rw [hnone hnot] at hmap
    cases hmap
  · exact fun hall => ⟨_, stringify_eq h.wellFormed, hsome hall⟩

/-- A key that is a space and 253 times an `a`. -/
def spacedKey : Units := 0x20 :: replicate 253 0x61

theorem writable_spacedKey : Writable [(spacedKey, .string [])] where
  nodup := nodup_singleton _
  nonempty := by simp [QuerystringValue.values]
  wellFormed := by
    have hkey : isWellFormed spacedKey = true := by decide +kernel
    have hvalue : isWellFormed [] = true := by decide
    simp [QuerystringValue.values, hkey, hvalue]

theorem roundTrips_words : RoundTrips .dev .nan [([0x61, 0x20, 0x62], .strings [[], [0x26]])] := by
  have hkey : isWellFormed [0x61, 0x20, 0x62] = true := by decide
  have hvalue : isWellFormed [] = true ∧ isWellFormed [0x26] = true := by decide
  have hwritable : Writable [([0x61, 0x20, 0x62], .strings [[], [0x26]])] := by
    refine ⟨nodup_singleton _, ?_, ?_⟩ <;> simp [QuerystringValue.values, hkey, hvalue]
  exact (roundTrips_iff .dev rfl hwritable).mpr (.inr (by decide +kernel))

/-- Such a key is not read back where the addition is checked. -/
theorem roundTrips_overflow :
    ¬ ∀ build maxKeys entries, F64.lt .zero maxKeys = false → Writable entries → RoundTrips build maxKeys entries := by
  intro hall
  obtain ⟨text, htext, hmap⟩ := hall .dev .nan _ rfl writable_spacedKey
  rw [stringify_eq writable_spacedKey.wellFormed] at htext
  cases htext
  have hrun : ¬ Build.dev.reads (toUtf8Lossy spacedKey) := by
    rintro (h | h)
    · cases h
    · revert h
      decide +kernel
  rw [(map_written .dev (by rfl) writable_spacedKey).1 ⟨_, mem_cons_self, hrun⟩] at hmap
  cases hmap

end Scriptc.Querystring
