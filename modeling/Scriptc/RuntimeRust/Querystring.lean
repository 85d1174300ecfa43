import Scriptc.Lib.Coding

/-!
# Parsing a query string

The scan of `querystring.parse`. The C runtime and the Rust runtime run the same loop over the bytes of
the UTF-8 text; Node runs it over UTF-16 code units. The loop is written here once, over codes of any
kind, and each of the three is the loop at its codes.

What a pair's texts are decoded to is left out: both runtimes decode a text that is marked as encoded
after the scan, by itself.
-/

namespace Scriptc.Querystring

open List

/-- What the scan asks of a code. -/
inductive CodeKind where
  | percent
  | plus
  | hex
  | other
deriving DecidableEq

def kindOf (n : ℕ) : CodeKind :=
  if n = 0x25 then .percent
  else if n = 0x2b then .plus
  else if 0x30 ≤ n ∧ n ≤ 0x39 ∨ 0x41 ≤ n ∧ n ≤ 0x46 ∨ 0x61 ≤ n ∧ n ≤ 0x66 then .hex
  else .other

structure Pair (α : Type) where
  key : List α
  value : List α
  keyEncoded : Bool
  valueEncoded : Bool
deriving DecidableEq

/-- The arithmetic of `pairs`, a double that counts down. -/
structure Counter (K : Type) where
  decrement : K → K
  isZero : K → Bool

/-- What a scan reads. -/
structure Query (α : Type) where
  kind : α → CodeKind
  space : α
  input : List α
  separator : List α
  equals : List α

structure Scan (α K : Type) where
  output : List (Pair α)
  pairs : K
  key : List α
  value : List α
  lastPosition : ℕ
  separatorIndex : ℕ
  equalsIndex : ℕ
  keyEncoded : Bool
  valueEncoded : Bool
  encodeCheck : ℕ
  /-- The scan has returned early. -/
  returned : Bool
deriving DecidableEq

variable {α K : Type} (counter : Counter K) (q : Query α)

/-! ### Pairs -/

/-- The key takes the input up to a position. -/
def Query.takeKey (stop : ℕ) (s : Scan α K) : Scan α K :=
  if s.lastPosition < stop then { s with key := s.key ++ (q.input.take stop).drop s.lastPosition } else s

def Query.takeValue (stop : ℕ) (s : Scan α K) : Scan α K :=
  if s.lastPosition < stop then { s with value := s.value ++ (q.input.take stop).drop s.lastPosition } else s

def Scan.countDown (s : Scan α K) : Scan α K :=
  { s with pairs := counter.decrement s.pairs, returned := counter.isZero (counter.decrement s.pairs) }

def Scan.addPair (s : Scan α K) : Scan α K :=
  { s with output := s.output ++ [⟨s.key, s.value, s.keyEncoded, s.valueEncoded⟩] }

/-- A pair is added and the next one begins after the code. -/
def Scan.nextPair (index : ℕ) (s : Scan α K) : Scan α K :=
  { (s.addPair).countDown counter with
    key := [], value := [], keyEncoded := false, valueEncoded := false, encodeCheck := 0,
    lastPosition := index + 1, separatorIndex := 0, equalsIndex := 0 }

/-- Nothing stood between two separators. -/
def Scan.skipEmpty (index : ℕ) (s : Scan α K) : Scan α K :=
  { s.countDown counter with lastPosition := index + 1, separatorIndex := 0, equalsIndex := 0 }

/-- The whole separator has been seen. -/
def Query.separatorMatched (index : ℕ) (s : Scan α K) : Scan α K :=
  if s.equalsIndex < q.equals.length then
    if s.lastPosition < index + 1 - q.separator.length then
      (q.takeKey (index + 1 - q.separator.length) s).nextPair counter index
    else if s.key.isEmpty then s.skipEmpty counter index
    else s.nextPair counter index
  else (q.takeValue (index + 1 - q.separator.length) s).nextPair counter index

/-- The whole equals string has been seen, and its text ends before `stop`. -/
def Query.equalsMatched (stop index : ℕ) (s : Scan α K) : Scan α K :=
  { q.takeKey stop s with equalsIndex := q.equals.length, encodeCheck := 0, lastPosition := index + 1 }

/-! ### Codes -/

def Query.valueCode (index : ℕ) (kind : CodeKind) (s : Scan α K) : Scan α K :=
  match kind with
  | .plus => { q.takeValue index s with value := (q.takeValue index s).value ++ [q.space], lastPosition := index + 1 }
  | .percent => if s.valueEncoded then s else { s with encodeCheck := 1 }
  | .hex =>
    if s.valueEncoded then s
    else if 0 < s.encodeCheck then
      { s with encodeCheck := s.encodeCheck + 1, valueEncoded := s.encodeCheck + 1 = 3 }
    else s
  | .other => if s.valueEncoded then s else { s with encodeCheck := 0 }

/-- A code of the key that the equals string does not go on with. What the key has no use for is taken
like a code of the value. -/
def Query.keyCode (index : ℕ) (kind : CodeKind) (s : Scan α K) : Scan α K :=
  match kind with
  | .plus =>
    { q.takeKey index s with
      key := (q.takeKey index s).key ++ [q.space], lastPosition := index + 1,
      encodeCheck := if s.keyEncoded then s.encodeCheck else 0 }
  | .percent => if s.keyEncoded then q.valueCode index .percent s else { s with encodeCheck := 1 }
  | .hex =>
    if s.keyEncoded then q.valueCode index .hex s
    else if 0 < s.encodeCheck then
      { s with encodeCheck := s.encodeCheck + 1, keyEncoded := s.encodeCheck + 1 = 3 }
    else q.valueCode index .hex s
  | .other => q.valueCode index .other (if s.keyEncoded then s else { s with encodeCheck := 0 })

variable [DecidableEq α]

/-- One turn of the loop. -/
def Query.step (index : ℕ) (code : α) (s : Scan α K) : Scan α K :=
  if q.separator[s.separatorIndex]? = some code then
    if s.separatorIndex + 1 = q.separator.length then
      q.separatorMatched counter index { s with separatorIndex := s.separatorIndex + 1 }
    else { s with separatorIndex := s.separatorIndex + 1 }
  else if s.equalsIndex < q.equals.length then
    if q.equals[s.equalsIndex]? = some code then
      if s.equalsIndex + 1 = q.equals.length then
        q.equalsMatched (index + 1 - q.equals.length) index { s with separatorIndex := 0 }
      else { s with separatorIndex := 0, equalsIndex := s.equalsIndex + 1 }
    else q.keyCode index (q.kind code) { s with separatorIndex := 0, equalsIndex := 0 }
  else q.valueCode index (q.kind code) { s with separatorIndex := 0 }

def Query.scan : ℕ → List α → Scan α K → Scan α K
  | _, [], s => s
  | index, code :: rest, s => if s.returned then s else Query.scan (index + 1) rest (q.step counter index code s)

def Scan.start (pairs : K) : Scan α K where
  output := []
  pairs := pairs
  key := []
  value := []
  lastPosition := 0
  separatorIndex := 0
  equalsIndex := 0
  keyEncoded := false
  valueEncoded := false
  encodeCheck := 0
  returned := false

/-- What is left over after the loop. -/
def Query.finish (s : Scan α K) : List (Pair α) :=
  if s.returned then s.output
  else if s.lastPosition < q.input.length then
    if s.equalsIndex < q.equals.length then (q.takeKey q.input.length s).addPair.output
    else if s.separatorIndex < q.separator.length then (q.takeValue q.input.length s).addPair.output
    else s.addPair.output
  else if s.equalsIndex = 0 ∧ s.key.isEmpty then s.output
  else s.addPair.output

def Query.parse (pairs : K) : List (Pair α) :=
  if q.input.isEmpty then [] else q.finish (q.scan counter 0 q.input (Scan.start pairs))

/-! ### The three parsers -/

def orDefault (given default : List Char) : List Char := if given.isEmpty then default else given

def Query.of (E : Coding α) (kind : α → CodeKind) (space : α) (input separator equals : List Char) : Query α where
  kind := kind
  space := space
  input := E.text input
  separator := E.text (orDefault separator ['&'])
  equals := E.text (orDefault equals ['='])

def byteQuery (input separator equals : List Char) : Query UInt8 :=
  .of utf8 (fun b => kindOf b.toNat) 0x20 input separator equals

def unitQuery (input separator equals : List Char) : Query UInt16 :=
  .of utf16 (fun u => kindOf u.toNat) 0x20 input separator equals

/-- `scr_qs_parse_into`, with the bytes of the pairs. -/
def scrQsParse (pairs : K) (input separator equals : List Char) : List (Pair UInt8) :=
  (byteQuery input separator equals).parse counter pairs

/-- The loop in Rust: `encode_check` is a `u8`, and an addition that overflows panics in a build that
checks it. -/
def Query.scanChecked : ℕ → List α → Scan α K → Option (Scan α K)
  | _, [], s => some s
  | index, code :: rest, s =>
    if s.returned then some s
    else if 255 < (q.step counter index code s).encodeCheck then none
    else Query.scanChecked (index + 1) rest (q.step counter index code s)

/-- `querystring_piece` for both texts: a piece that is not UTF-8 panics. -/
def pieces (p : Pair UInt8) : Option (Pair UInt16) :=
  (fromUtf8 p.key).bind fun key =>
    (fromUtf8 p.value).map fun value => ⟨utf16.text key, utf16.text value, p.keyEncoded, p.valueEncoded⟩

/-- `querystring_parse`. -/
def querystringParse (pairs : K) (input separator equals : List Char) : Option (List (Pair UInt16)) :=
  if (utf8.text input).isEmpty then some []
  else
    ((byteQuery input separator equals).scanChecked counter 0 (utf8.text input) (Scan.start pairs)).bind fun s =>
      ((byteQuery input separator equals).finish s).mapM pieces

/-- The algorithm run on UTF-16 code units. -/
def unitParse (pairs : K) (input separator equals : List Char) : List (Pair UInt16) :=
  (unitQuery input separator equals).parse counter pairs

/-!
## The scan of a query string, by characters

What the codes of one character do to the scan, in any encoding. The scan looks at the separator first:
when the first code of a character goes on the separator and a later one does not, the character is
never compared with the equals string. Whether that happens depends on the encoding.
-/

variable {α K : Type} {C : Counter K} {q : Query α} {i : ℕ} {s : Scan α K}

theorem get_of_drop {l : List α} {n : ℕ} {x : α} {t : List α} (h : l.drop n = x :: t) :
    l[n]? = some x ∧ l.drop (n + 1) = t ∧ l.length = n + 1 + t.length := by
  have hget : l[n]? = (l.drop n)[0]? := by rw [getElem?_drop, Nat.add_zero]
  have hdrop : l.drop (n + 1) = (l.drop n).drop 1 := by rw [drop_drop]
  have hlength := congrArg List.length h
  rw [length_drop, length_cons] at hlength
  exact ⟨by rw [hget, h]; rfl, by rw [hdrop, h]; rfl, by omega⟩

/-! ### Codes that mean nothing -/

/-- What a code does that stands for nothing. -/
def Query.pass (q : Query α) (s : Scan α K) : Scan α K :=
  if s.equalsIndex < q.equals.length then q.keyCode 0 .other { s with separatorIndex := 0, equalsIndex := 0 }
  else q.valueCode 0 .other { s with separatorIndex := 0 }

theorem keyCode_other (i : ℕ) (s : Scan α K) :
    q.keyCode i .other s =
      { s with encodeCheck := if s.keyEncoded = true ∧ s.valueEncoded = true then s.encodeCheck else 0 } := by
  obtain ⟨_, _, _, _, _, _, _, keyEncoded, valueEncoded, _, _⟩ := s
  cases keyEncoded <;> cases valueEncoded <;> rfl

theorem valueCode_other (i : ℕ) (s : Scan α K) :
    q.valueCode i .other s = { s with encodeCheck := if s.valueEncoded = true then s.encodeCheck else 0 } := by
  obtain ⟨_, _, _, _, _, _, _, _, valueEncoded, _, _⟩ := s
  cases valueEncoded <;> rfl

theorem pass_pass (h : 0 < q.equals.length) (s : Scan α K) : q.pass (q.pass s) = q.pass s := by
  by_cases hlt : s.equalsIndex < q.equals.length
  · have hpass : q.pass s = q.keyCode 0 .other { s with separatorIndex := 0, equalsIndex := 0 } := if_pos hlt
    rw [hpass, keyCode_other, Query.pass, if_pos h, keyCode_other]
    dsimp only
    split <;> simp_all
  · have hpass : q.pass s = q.valueCode 0 .other { s with separatorIndex := 0 } := if_neg hlt
    rw [hpass, valueCode_other, Query.pass, if_neg hlt, valueCode_other]
    dsimp only
    split <;> simp_all

theorem pass_fields (s : Scan α K) :
    (q.pass s).separatorIndex = 0 ∧ ((q.pass s).equalsIndex = 0 ∨ (q.pass s).equalsIndex = s.equalsIndex ∧
      ¬s.equalsIndex < q.equals.length) ∧ (q.pass s).returned = s.returned := by
  rw [Query.pass]
  split
  · rw [keyCode_other]
    exact ⟨rfl, .inl rfl, rfl⟩
  · next h =>
    rw [valueCode_other]
    exact ⟨rfl, .inr ⟨rfl, h⟩, rfl⟩

/-! ### Some codes in a row -/

variable [DecidableEq α]

theorem scan_returned (h : s.returned = true) (codes : List α) : q.scan C i codes s = s := by
  cases codes with
  | nil => rfl
  | cons code rest => rw [Query.scan, if_pos h]

theorem scan_append (a b : List α) :
    q.scan C i (a ++ b) s = q.scan C (i + a.length) b (q.scan C i a s) := by
  induction a generalizing i s with
  | nil => rfl
  | cons x a ih =>
    rw [cons_append, Query.scan, Query.scan]
    split
    · next h => rw [scan_returned h]
    · rw [ih, length_cons]
      congr 1
      omega

theorem scan_cons (hs : s.returned = false) (x : α) (w : List α) :
    q.scan C i (x :: w) s = q.scan C (i + 1) w (q.step C i x s) := by
  rw [Query.scan, hs, if_neg Bool.false_ne_true]

/-- The separator goes on, and more of it is due. -/
theorem scan_separator {w rest : List α} (hw : q.separator.drop s.separatorIndex = w ++ rest) (hrest : rest ≠ [])
    (hs : s.returned = false) :
    q.scan C i w s = { s with separatorIndex := s.separatorIndex + w.length } := by
  induction w generalizing i s with
  | nil => rfl
  | cons x w ih =>
    rw [cons_append] at hw
    obtain ⟨hget, hdrop, hlength⟩ := get_of_drop hw
    have hpos : 0 < rest.length := length_pos_iff.mpr hrest
    rw [length_append] at hlength
    have hstep : q.step C i x s = { s with separatorIndex := s.separatorIndex + 1 } := by
      rw [Query.step, if_pos hget, if_neg (by omega)]
    have hrun := @ih (i + 1) { s with separatorIndex := s.separatorIndex + 1 } hdrop hs
    rw [scan_cons hs, hstep, hrun, length_cons]
    congr 1
    dsimp only
    omega

theorem scan_separator_full {w : List α} (hw : q.separator.drop s.separatorIndex = w) (hne : w ≠ [])
    (hs : s.returned = false) :
    q.scan C i w s =
      q.separatorMatched C (i + w.length - 1) { s with separatorIndex := q.separator.length } := by
  obtain ⟨init, x, rfl⟩ : ∃ init x, w = init ++ [x] :=
    ⟨w.dropLast, w.getLast hne, (dropLast_append_getLast hne).symm⟩
  have hinit : q.scan C i init s = { s with separatorIndex := s.separatorIndex + init.length } :=
    scan_separator hw (by simp) hs
  have hlast : q.separator.drop (s.separatorIndex + init.length) = [x] := by
    rw [← drop_drop, hw, drop_left]
  obtain ⟨hget, -, hlength⟩ := get_of_drop hlast
  simp only [length_nil, Nat.add_zero] at hlength
  have hstep : q.step C (i + init.length) x { s with separatorIndex := s.separatorIndex + init.length } =
      q.separatorMatched C (i + init.length) { s with separatorIndex := q.separator.length } := by
    rw [Query.step, if_pos hget, if_pos hlength.symm, hlength]
  rw [scan_append, hinit, scan_cons, hstep, Query.scan, length_append]
  · rfl
  · exact hs

/-- The equals string goes on, and more of it is due. The separator does not start inside. -/
theorem scan_equals {x : α} {w rest : List α} (hw : q.equals.drop s.equalsIndex = x :: w ++ rest)
    (hrest : rest ≠ []) (hx : q.separator[s.separatorIndex]? ≠ some x)
    (htail : ∀ y ∈ w, q.separator[0]? ≠ some y) (hs : s.returned = false) :
    q.scan C i (x :: w) s =
      { s with separatorIndex := 0, equalsIndex := s.equalsIndex + (w.length + 1) } := by
  induction w generalizing i s x with
  | nil =>
    rw [singleton_append] at hw
    obtain ⟨hget, -, hlength⟩ := get_of_drop hw
    have hpos : 0 < rest.length := length_pos_iff.mpr hrest
    rw [scan_cons hs, Query.scan, Query.step, if_neg hx, if_pos (by omega), if_pos hget, if_neg (by omega)]
    rfl
  | cons y w ih =>
    rw [cons_append] at hw
    obtain ⟨hget, hdrop, hlength⟩ := get_of_drop hw
    have hpos : 0 < rest.length := length_pos_iff.mpr hrest
    rw [length_append] at hlength
    have hstep : q.step C i x s =
        { s with separatorIndex := 0, equalsIndex := s.equalsIndex + 1 } := by
      rw [Query.step, if_neg hx, if_pos (by omega), if_pos hget, if_neg (by omega)]
    have hrun := @ih (i + 1) { s with separatorIndex := 0, equalsIndex := s.equalsIndex + 1 } y hdrop
      (htail y (by simp)) (fun z hz => htail z (by simp [hz])) hs
    rw [scan_cons hs, hstep, hrun, length_cons]
    congr 1
    dsimp only
    omega

theorem scan_equals_full {x : α} {w : List α} (hw : q.equals.drop s.equalsIndex = x :: w)
    (hx : q.separator[s.separatorIndex]? ≠ some x) (htail : ∀ y ∈ w, q.separator[0]? ≠ some y)
    (hs : s.returned = false) :
    q.scan C i (x :: w) s =
      q.equalsMatched (i + w.length + 1 - q.equals.length) (i + w.length)
        { s with separatorIndex := 0, equalsIndex := q.equals.length - 1 } := by
  rcases eq_nil_or_concat w with rfl | ⟨init, y, rfl⟩
  · obtain ⟨hget, -, hlength⟩ := get_of_drop hw
    simp only [length_nil, Nat.add_zero] at hlength
    rw [scan_cons hs, Query.scan, Query.step, if_neg hx, if_pos (by omega), if_pos hget, if_pos hlength.symm]
    simp only [hlength, Nat.add_sub_cancel, length_nil, Nat.add_zero]
  · have hinit : q.scan C i (x :: init) s =
        { s with separatorIndex := 0, equalsIndex := s.equalsIndex + (init.length + 1) } :=
      scan_equals (by simpa using hw) (cons_ne_nil y []) hx (fun z hz => htail z (by simp [hz])) hs
    have hlast : q.equals.drop (s.equalsIndex + (init.length + 1)) = [y] := by
      rw [← drop_drop, hw]
      simp
    obtain ⟨hget, -, hlength⟩ := get_of_drop hlast
    simp only [length_nil, Nat.add_zero] at hlength
    have hy : q.separator[0]? ≠ some y := htail y (by simp)
    have hlt : s.equalsIndex + (init.length + 1) < q.equals.length := by omega
    have hcodes : x :: init.concat y = (x :: init) ++ [y] := by simp
    rw [hcodes, scan_append, hinit, scan_cons, Query.scan, Query.step, if_neg hy, if_pos hlt, if_pos hget,
      if_pos hlength.symm]
    · simp only [hlength, length_cons, length_concat, Nat.add_sub_cancel]
    · exact hs

theorem step_pass {x : α} (hx : q.separator[s.separatorIndex]? ≠ some x) (he : q.equals[s.equalsIndex]? ≠ some x)
    (hkind : q.kind x = .other) : q.step C i x s = q.pass s := by
  rw [Query.step, if_neg hx, Query.pass, hkind, if_neg he]
  split
  · rw [keyCode_other, keyCode_other]
  · rw [valueCode_other, valueCode_other]

/-- Codes that go on a character and start no match. -/
theorem scan_pass {w : List α} (hsep : ∀ y ∈ w, q.separator[0]? ≠ some y) (heq : ∀ y ∈ w, q.equals[0]? ≠ some y)
    (hkind : ∀ y ∈ w, q.kind y = .other) (hpos : 0 < q.equals.length) (hs : s.returned = false) :
    q.scan C i w (q.pass s) = q.pass s := by
  induction w generalizing i with
  | nil => rfl
  | cons y w ih =>
    obtain ⟨hzero, hindex, hret⟩ := @pass_fields α K q s
    have hequals : q.equals[(q.pass s).equalsIndex]? ≠ some y := by
      rcases hindex with hi | ⟨hi, hge⟩
      · rw [hi]
        exact heq y (by simp)
      · rw [hi, getElem?_eq_none (Nat.le_of_not_lt hge)]
        simp
    have hstep : q.step C i y (q.pass s) = q.pass s := by
      rw [step_pass (by rw [hzero]; exact hsep y (by simp)) hequals (hkind y (by simp)), pass_pass hpos]
    rw [scan_cons (hret.trans hs), hstep]
    exact ih (fun z hz => hsep z (by simp [hz])) (fun z hz => heq z (by simp [hz])) fun z hz => hkind z (by simp [hz])

end Scriptc.Querystring
