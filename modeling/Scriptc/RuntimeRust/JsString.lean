import Scriptc.RuntimeRust.PosixPath
import Scriptc.Num.JsNumber

/-!
# Strings of JavaScript

A string is a sequence of UTF-16 units. One that is well-formed is kept in UTF-8, any other as its
units, and every way to build a string decides anew: what two ill-formed pieces make together can be
well-formed. So there is one representation for each sequence, and comparing, ordering and hashing
the representations is comparing, ordering and hashing the units.
-/

namespace Scriptc.RuntimeRust.JsStrings

open List Option

open PosixPath (JsString)

abbrev Units := Utf16.Units

/-! ### The representation -/

/-- `String::from_utf16`: no surrogate may stand alone. -/
def stringFromUtf16 (units : Units) : Option (List Char) := (Utf16.decode units).mapM Sum.getLeft?

/-- `JsString::from_utf16`. -/
def fromUtf16 (units : Units) : JsString :=
  match stringFromUtf16 units with
  | some text => .utf8 text
  | none => .utf16 units

def encodeUtf16 : JsString → Units
  | .utf8 text => Utf16.encode text
  | .utf16 units => units

def isWellFormed : JsString → Bool
  | .utf8 _ => true
  | .utf16 _ => false

/-- `PartialEq`. -/
def eq : JsString → JsString → Bool
  | .utf8 a, .utf8 b => a = b
  | s, t => encodeUtf16 s = encodeUtf16 t

/-- `Ord`. -/
def cmp (s t : JsString) : Ordering := List.compareLex compare (encodeUtf16 s) (encodeUtf16 t)

/-- What a hasher is fed. -/
structure Hasher (σ : Type) where
  writeU16 : σ → UInt16 → σ
  writeU32 : σ → UInt32 → σ

/-- `Hash`. -/
def hash {σ : Type} (hasher : Hasher σ) (state : σ) (s : JsString) : σ :=
  hasher.writeU32 ((encodeUtf16 s).foldl hasher.writeU16 state) 0x10000

/-! ### The builder -/

/-- `JsStringBuilder`: characters as long as that works, units from then on. -/
structure Builder where
  utf8 : List Char
  units : Option Units

namespace Builder

def new : Builder := ⟨[], none⟩

/-- `push_str`; a `str` is pushed as a string in UTF-8 is. -/
def pushStr (b : Builder) (value : JsString) : Builder :=
  match b.units, value with
  | none, .utf8 text => { b with utf8 := b.utf8 ++ text }
  | none, .utf16 units => ⟨[], some (Utf16.encode b.utf8 ++ units)⟩
  | some units, value => { b with units := some (units ++ encodeUtf16 value) }

def push (b : Builder) (value : Char) : Builder :=
  match b.units with
  | some units => { b with units := some (units ++ Utf16.encodeChar value) }
  | none => { b with utf8 := b.utf8 ++ [value] }

/-- `push_unit`: `char::from_u32` refuses the surrogates. -/
def pushUnit (b : Builder) (unit : UInt16) : Builder :=
  if ¬ (Utf16.IsHigh unit ∨ Utf16.IsLow unit) then b.push (Char.ofNat unit.toNat)
  else
    match b.units with
    | none => ⟨[], some (Utf16.encode b.utf8 ++ [unit])⟩
    | some units => { b with units := some (units ++ [unit]) }

def finish (b : Builder) : JsString :=
  match b.units with
  | some units => fromUtf16 units
  | none => .utf8 b.utf8

end Builder

/-- What is pushed. -/
inductive Piece where
  | str (value : JsString)
  | char (value : Char)
  | unit (value : UInt16)

namespace Piece

def push (b : Builder) : Piece → Builder
  | .str value => b.pushStr value
  | .char value => b.push value
  | .unit value => b.pushUnit value

def units : Piece → Units
  | .str value => encodeUtf16 value
  | .char value => Utf16.encodeChar value
  | .unit value => [value]

end Piece

/-- The pieces one after the other. -/
def build (pieces : List Piece) : JsString := (pieces.foldl Piece.push .new).finish

def stringConcat (left right : JsString) : JsString := build [.str left, .str right]

/-! ### Slices -/

/-- `f64::clamp`. -/
def clamp (x low high : F64) : F64 := if x.lt low then low else if high.lt x then high else x

/-- `x as usize`. -/
def asUsize (x : F64) : ℕ := (F64.truncRat x.rat).toNat

def relativeStringIndex (index : F64) (len : ℕ) : ℕ :=
  let index := if index.isNaN then .zero else index.trunc
  if index = .negInf then 0
  else if index = .posInf then len
  else if index.lt .zero then asUsize (clamp (F64.add (.ofInt len) index) .zero (.ofInt len))
  else asUsize (clamp index .zero (.ofInt len))

/-- `&units[start..end]`, which panics past the end. -/
def slice (units : Units) (start stop : ℕ) : Option Units :=
  if start ≤ stop ∧ stop ≤ units.length then some ((units.take stop).drop start) else none

def stringSlice (value : JsString) (start stop : F64) : Option JsString :=
  let units := encodeUtf16 value
  let start := relativeStringIndex start units.length
  let stop := relativeStringIndex stop units.length
  if stop ≤ start then some (.utf8 []) else (slice units start stop).map fromUtf16

def stringSubstring (value : JsString) (start stop : F64) : Option JsString :=
  let units := encodeUtf16 value
  let clamp (index : F64) : ℕ :=
    if index.isNaN || index.le .zero then 0
    else if index = .posInf then units.length
    else asUsize (F64.min index.trunc (.ofInt units.length))
  let start := clamp start
  let stop := clamp stop
  (slice units (Min.min start stop) (Max.max start stop)).map fromUtf16

/-! ### Well-formed sequences -/

/-- The units of some text. -/
def WellFormed (units : Units) : Prop := ∃ text, Utf16.encode text = units

theorem stringFromUtf16_encode (text : List Char) : stringFromUtf16 (Utf16.encode text) = some text := by
  rw [stringFromUtf16, Utf16.decode_encode]
  induction text with
  | nil => rfl
  | cons c text ih => rw [map_cons, mapM_cons, ih]; rfl

theorem stringFromUtf16_eq_some {units : Units} {text : List Char} :
    stringFromUtf16 units = some text ↔ Utf16.encode text = units := by
  constructor
  · intro h
    have hmap : ∀ (items : List (Char ⊕ UInt16)) (text : List Char), items.mapM Sum.getLeft? = some text →
        items = text.map .inl := by
      intro items
      induction items with
      | nil =>
        intro text h
        cases h
        rfl
      | cons item items ih =>
        intro text h
        rw [mapM_cons, bind_eq_bind, bind_eq_some_iff] at h
        obtain ⟨c, hc, h⟩ := h
        obtain ⟨cs, hcs, h⟩ := bind_eq_some_iff.mp h
        cases h
        rw [Sum.getLeft?_eq_some_iff.mp hc, ih cs hcs, map_cons]
    have hd := hmap _ _ h
    have hall := Utf16.flatMap_decode units
    rw [hd, flatMap_map] at hall
    exact hall
  · rintro rfl
    exact stringFromUtf16_encode text

theorem encode_injective {a b : List Char} (h : Utf16.encode a = Utf16.encode b) : a = b := by
  have ha := stringFromUtf16_encode a
  rw [h, stringFromUtf16_encode] at ha
  exact (some.inj ha).symm

/-- One representation for each sequence. -/
def Canonical : JsString → Prop
  | .utf8 _ => True
  | .utf16 units => ¬ WellFormed units

theorem canonical_iff {s : JsString} : Canonical s ↔ (isWellFormed s = false ↔ ¬ WellFormed (encodeUtf16 s)) := by
  cases s with
  | utf8 text => simpa [Canonical, isWellFormed, encodeUtf16] using ⟨text, rfl⟩
  | utf16 units => simp [Canonical, isWellFormed, encodeUtf16]

@[simp] theorem encodeUtf16_fromUtf16 (units : Units) : encodeUtf16 (fromUtf16 units) = units := by
  unfold fromUtf16
  cases h : stringFromUtf16 units with
  | some text => exact stringFromUtf16_eq_some.mp h
  | none => rfl

theorem canonical_fromUtf16 (units : Units) : Canonical (fromUtf16 units) := by
  unfold fromUtf16
  cases h : stringFromUtf16 units with
  | some text => trivial
  | none =>
    rintro ⟨text, rfl⟩
    rw [stringFromUtf16_encode] at h
    cases h

/-- What decides about a canonical string: its units. -/
theorem Canonical.ext {s t : JsString} (hs : Canonical s) (ht : Canonical t) : s = t ↔ encodeUtf16 s = encodeUtf16 t := by
  refine ⟨congrArg encodeUtf16, fun h => ?_⟩
  cases s with
  | utf8 a =>
    cases t with
    | utf8 b => rw [encode_injective h]
    | utf16 b => exact absurd ⟨a, h⟩ ht
  | utf16 a =>
    cases t with
    | utf8 b => exact absurd ⟨b, h.symm⟩ hs
    | utf16 b => exact congrArg JsString.utf16 h

/-! ### What the builder holds -/

namespace Builder

def content (b : Builder) : Units :=
  match b.units with
  | some units => units
  | none => Utf16.encode b.utf8

theorem encode_append (a b : List Char) : Utf16.encode (a ++ b) = Utf16.encode a ++ Utf16.encode b := flatMap_append

theorem encode_singleton (c : Char) : Utf16.encode [c] = Utf16.encodeChar c := append_nil _

/-- A push appends the units of the piece. -/
theorem content_push (b : Builder) (piece : Piece) : (piece.push b).content = b.content ++ piece.units := by
  obtain ⟨text, units⟩ := b
  cases piece with
  | str value =>
    cases units with
    | none =>
      cases value with
      | utf8 more => exact encode_append text more
      | utf16 more => rfl
    | some units => rfl
  | char c =>
    cases units with
    | none => exact (encode_append text [c]).trans (by rw [encode_singleton]; rfl)
    | some units => rfl
  | unit u =>
    show (pushUnit ⟨text, units⟩ u).content = _ ++ [u]
    unfold pushUnit
    split_ifs with h
    · cases units with
      | none => rfl
      | some units => rfl
    · have hchar := Utf16.encodeChar_ofNat h
      cases units with
      | none => exact (encode_append text [Char.ofNat u.toNat]).trans (by rw [encode_singleton, hchar]; rfl)
      | some units => exact congrArg (units ++ ·) hchar

theorem content_foldl (b : Builder) (pieces : List Piece) :
    (pieces.foldl Piece.push b).content = b.content ++ pieces.flatMap Piece.units := by
  induction pieces generalizing b with
  | nil => exact (append_nil _).symm
  | cons piece pieces ih => rw [foldl_cons, ih, content_push, append_assoc, flatMap_cons]

theorem encodeUtf16_finish (b : Builder) : encodeUtf16 b.finish = b.content := by
  obtain ⟨text, units⟩ := b
  cases units with
  | none => rfl
  | some units => exact encodeUtf16_fromUtf16 units

theorem canonical_finish (b : Builder) : Canonical b.finish := by
  obtain ⟨text, units⟩ := b
  cases units with
  | none => trivial
  | some units => exact canonical_fromUtf16 units

end Builder

/-- `finish` is the pieces one after the other. -/
@[simp] theorem encodeUtf16_build (pieces : List Piece) : encodeUtf16 (build pieces) = pieces.flatMap Piece.units := by
  rw [build, Builder.encodeUtf16_finish, Builder.content_foldl]
  rfl

/-! ### Every string -/

/-- The ways to build a string. -/
inductive Built : JsString → Prop
  | ofStr (text : List Char) : Built (.utf8 text)
  | ofUtf16 (units : Units) : Built (fromUtf16 units)
  | concat {left right : JsString} : Built left → Built right → Built (stringConcat left right)
  | slice {value part : JsString} {start stop : F64} : Built value → stringSlice value start stop = some part → Built part
  | substring {value part : JsString} {start stop : F64} : Built value → stringSubstring value start stop = some part →
      Built part
  | build {pieces : List Piece} : (∀ value, .str value ∈ pieces → Built value) → Built (build pieces)

theorem Built.canonical {s : JsString} (h : Built s) : Canonical s := by
  cases h with
  | ofStr text => trivial
  | ofUtf16 units => exact canonical_fromUtf16 units
  | concat => exact Builder.canonical_finish _
  | slice _ h =>
    simp only [stringSlice] at h
    split_ifs at h with hempty
    · cases h
      trivial
    · obtain ⟨units, -, rfl⟩ := map_eq_some_iff.mp h
      exact canonical_fromUtf16 units
  | substring _ h =>
    obtain ⟨units, -, rfl⟩ := map_eq_some_iff.mp h
    exact canonical_fromUtf16 units
  | build => exact Builder.canonical_finish _

theorem eq_iff (s t : JsString) : eq s t = true ↔ encodeUtf16 s = encodeUtf16 t := by
  cases s with
  | utf8 a =>
    cases t with
    | utf8 b => exact decide_eq_true_iff.trans ⟨congrArg Utf16.encode, encode_injective⟩
    | utf16 b => exact decide_eq_true_iff
  | utf16 a => exact decide_eq_true_iff

theorem compareLex_spec (a b : Units) : (List.compareLex compare a b = .lt ↔ a < b) ∧
    (List.compareLex compare a b = .eq ↔ a = b) ∧ (List.compareLex compare a b = .gt ↔ b < a) := by
  induction a generalizing b with
  | nil =>
    cases b with
    | nil => simp [List.compareLex_nil_nil]
    | cons v b => simp [List.compareLex_nil_cons]
  | cons u a ih =>
    cases b with
    | nil => simp [List.compareLex_cons_nil]
    | cons v b =>
      have hcmp : compare u v = if u < v then .lt else if u = v then .eq else .gt := rfl
      rw [List.compareLex_cons_cons, hcmp]
      by_cases heq : u = v
      · subst heq
        simpa [cons_lt_cons_iff] using ih b
      · rw [if_neg heq]
        split_ifs with h
        · simp [cons_lt_cons_iff, h, heq, Ne.symm heq, UInt16.not_lt.mpr (UInt16.le_of_lt h)]
        · have hgt : v < u := UInt16.lt_of_le_of_ne (UInt16.not_lt.mp h) (Ne.symm heq)
          simp [cons_lt_cons_iff, h, heq, Ne.symm heq, hgt]

/-- A hasher that keeps what it is fed. -/
def transcript : Hasher (List (UInt16 ⊕ UInt32)) := ⟨fun state u => state ++ [.inl u], fun state w => state ++ [.inr w]⟩

theorem hash_transcript (state : List (UInt16 ⊕ UInt32)) (s : JsString) :
    hash transcript state s = state ++ (encodeUtf16 s).map .inl ++ [.inr 0x10000] := by
  have hfold : ∀ (units : Units) (state : List (UInt16 ⊕ UInt32)),
      units.foldl transcript.writeU16 state = state ++ units.map .inl := by
    intro units
    induction units with
    | nil => exact fun state => (append_nil state).symm
    | cons u units ih => exact fun state => (ih _).trans (append_assoc state [.inl u] _)
  exact congrArg (· ++ [Sum.inr 0x10000]) (hfold _ _)

/-- **Strings are canonical.** However two strings were built, their representation is UTF-16 exactly
where the units are ill-formed; equality of the representations, `==` and the order are those of the
units; equal strings hash alike under every hasher, and different ones are told apart by what a
hasher is fed; and the builder puts the units of its pieces together. -/
theorem strings_canonical {s t : JsString} (hs : Built s) (ht : Built t) :
    (isWellFormed s = false ↔ ¬ WellFormed (encodeUtf16 s)) ∧
    (s = t ↔ encodeUtf16 s = encodeUtf16 t) ∧ (eq s t = true ↔ encodeUtf16 s = encodeUtf16 t) ∧
    (cmp s t = .lt ↔ encodeUtf16 s < encodeUtf16 t) ∧ (cmp s t = .eq ↔ encodeUtf16 s = encodeUtf16 t) ∧
    (cmp s t = .gt ↔ encodeUtf16 t < encodeUtf16 s) ∧
    (eq s t = true → ∀ (σ : Type) (hasher : Hasher σ) (state : σ), hash hasher state s = hash hasher state t) ∧
    (∀ state, hash transcript state s = hash transcript state t → encodeUtf16 s = encodeUtf16 t) ∧
    ∀ pieces, encodeUtf16 (build pieces) = pieces.flatMap Piece.units ∧
      (isWellFormed (build pieces) = false ↔ ¬ WellFormed (pieces.flatMap Piece.units)) := by
  obtain ⟨hlt, heq, hgt⟩ := compareLex_spec (encodeUtf16 s) (encodeUtf16 t)
  refine ⟨canonical_iff.mp hs.canonical, hs.canonical.ext ht.canonical, eq_iff s t, hlt, heq, hgt, ?_, ?_, fun pieces => ?_⟩
  · intro h σ hasher state
    rw [hash, hash, (eq_iff s t).mp h]
  · intro state h
    rw [hash_transcript, hash_transcript, append_left_inj, append_right_inj] at h
    exact map_injective_iff.mpr Sum.inl_injective h
  · have hbuild := encodeUtf16_build pieces
    refine ⟨hbuild, ?_⟩
    have h := canonical_iff.mp (Builder.canonical_finish (pieces.foldl Piece.push .new))
    rwa [← hbuild]

/-- Two halves of a pair, pushed one by one, are a character again. -/
theorem strings_canonical_pair : build [.unit 0xD83D, .unit 0xDE00] = .utf8 [Char.ofNat 0x1F600] ∧
    isWellFormed (fromUtf16 [0xD83D]) = false ∧ ¬ WellFormed [0xD83D] := by
  obtain ⟨hform, -⟩ := strings_canonical (.ofUtf16 [0xD83D]) (.ofUtf16 [0xDE00])
  exact ⟨by decide, by decide, by simpa using hform.mp (by decide)⟩

end Scriptc.RuntimeRust.JsStrings
