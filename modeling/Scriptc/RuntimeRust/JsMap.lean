import Scriptc.Lib.LiveMap
import Scriptc.Num.JsNumber
import Scriptc.Num.Order

/-!
# Maps and sets of the Rust runtime

`JsMap` of `collections.rs`: a vector of entries in which a deletion leaves a hole, and a count of
the iterations that are open. Holes are dropped when there is none. `JsSet` is a map to `bool`, and
its operations are those of the map. A map looks keys up with the comparison that the compiler
passes, which depends on the static type of the keys (`mapKeyEquality` of `values.ts`).

An iteration is the compiled loop over the positions: it asks for the count again in every turn,
skips holes, and leaves when it comes to the end or is abandoned.

Maps that are views of another map are left out, as are the properties that only object maps have.
-/

namespace Scriptc.RuntimeRust.JsMap

open List

open LiveMap (Slots Op Res)

/-! ### Keys -/

/-- The static type of the keys. -/
inductive KeyType where
  | f64
  | bigint
  | string
  | symbol
  | record
  | func
  | handle
  | dyn
  deriving DecidableEq

/-- A checked-dynamic value. Symbols, objects and functions are what they are by identity. -/
inductive Dyn where
  | undefined
  | null
  | boolean (b : Bool)
  | number (x : F64)
  | bigint (n : ℤ)
  | string (s : String)
  | identity (id : ℕ)
  deriving DecidableEq

def Key : KeyType → Type
  | .f64 => F64
  | .bigint => ℤ
  | .string => String
  | .symbol | .record | .func | .handle => ℕ
  | .dyn => Dyn

def scDynStrictEqual : Dyn → Dyn → Bool
  | .number left, .number right => F64.eq left right
  | left, right => left = right

def mapKeyEquality : (type : KeyType) → Key type → Key type → Bool
  | .f64, (left : F64), (right : F64) => F64.eq left right || (left.isNaN && right.isNaN)
  | .bigint, (left : ℤ), (right : ℤ) => left = right
  | .string, (left : String), (right : String) => left = right
  | .symbol, (left : ℕ), (right : ℕ) => left = right
  | .record, (left : ℕ), (right : ℕ) => left = right
  | .func, (left : ℕ), (right : ℕ) => left = right
  | .handle, (left : ℕ), (right : ℕ) => left = right
  | .dyn, left, right => scDynStrictEqual left right

def mapStoredKey : (type : KeyType) → Key type → Key type
  | .f64, (key : F64) => if F64.eq key F64.zero then F64.zero else key
  | _, key => key

/-! ### Operations -/

inductive Fault where
  | typeError (message : String)
  | panic (message : String)

/-- A map: its entries, dead ones among them, and its counters. -/
structure MapData (K V : Type) where
  entries : Slots K V
  live : ℕ
  iterationDepth : ℕ
  moduleNamespace : Bool

variable {K V : Type}

def mapNew : MapData K V where
  entries := []
  live := 0
  iterationDepth := 0
  moduleNamespace := false

def mapSetBy (data : MapData K V) (key : K) (value : V) (equal : K → K → Bool) : Except Fault (MapData K V) :=
  if data.moduleNamespace then .error (.typeError "Cannot modify module namespace")
  else if LiveMap.has (equal · key) data.entries then
    .ok { data with entries := LiveMap.put (equal · key) value data.entries }
  else .ok { data with entries := data.entries ++ [some (key, value)], live := data.live + 1 }

def mapGetBy (data : MapData K V) (key : K) (equal : K → K → Bool) : Option V :=
  (LiveMap.find (equal · key) data.entries).map Prod.snd

def mapHasBy (data : MapData K V) (key : K) (equal : K → K → Bool) : Bool := LiveMap.has (equal · key) data.entries

/-- Where a key is found. -/
def position (entries : Slots K V) (key : K) (equal : K → K → Bool) : Option ℕ :=
  entries.findIdx? fun entry => entry.any fun e => equal e.1 key

def mapDeleteBy (data : MapData K V) (key : K) (equal : K → K → Bool) : MapData K V × Bool :=
  if data.moduleNamespace then (data, false)
  else
    match position data.entries key equal with
    | none => (data, false)
    | some index =>
      let entries := data.entries.set index none
      ({ data with
        entries := if data.iterationDepth = 0 then LiveMap.compact entries else entries
        live := data.live - 1 }, true)

def mapClear (data : MapData K V) : Except Fault (MapData K V) :=
  if data.moduleNamespace then .error (.typeError "Cannot modify module namespace")
  else .ok { data with
    entries := if data.iterationDepth = 0 then [] else data.entries.map fun _ => none
    live := 0 }

/-! ### Iteration -/

def mapIterCount (data : MapData K V) : ℕ := data.entries.length

def mapIterLive (data : MapData K V) (index : ℕ) : Except Fault Bool :=
  match data.entries[index]? with
  | none => .error (.panic "scriptc: array index out of bounds")
  | some entry => .ok entry.isSome

def mapIterEntry (data : MapData K V) (index : ℕ) : Except Fault (K × V) :=
  match data.entries[index]? with
  | none => .error (.panic "scriptc: array index out of bounds")
  | some none => .error (.panic "scriptc: map key read from a tombstone")
  | some (some entry) => .ok entry

def mapIterEnter (data : MapData K V) : MapData K V := { data with iterationDepth := data.iterationDepth + 1 }

def mapIterExit (data : MapData K V) : Except Fault (MapData K V) :=
  if data.iterationDepth = 0 then .error (.panic "scriptc: unbalanced map iteration exit")
  else .ok { data with
    iterationDepth := data.iterationDepth - 1
    entries := if data.iterationDepth - 1 = 0 then LiveMap.compact data.entries else data.entries }

/-- The turns of an iteration until it has an entry to show. -/
def nextLoop (data : MapData K V) : ℕ → ℕ → Except Fault (Option ((K × V) × ℕ))
  | 0, _ => .ok none
  | k + 1, index =>
    if index < mapIterCount data then do
      if ← mapIterLive data index then
        let entry ← mapIterEntry data index
        .ok (some (entry, index + 1))
      else nextLoop data k (index + 1)
    else .ok none

/-! ### Histories -/

/-- A map and the iterations over it. -/
structure Session (K V : Type) where
  data : MapData K V
  cursors : List (Option ℕ)

variable (type : KeyType)

def iterNext (s : Session K V) (c : ℕ) : Except Fault (Session K V × Res K V) :=
  match s.cursors[c]? with
  | some (some index) => do
    match ← nextLoop s.data (mapIterCount s.data) index with
    | some (entry, index) => .ok ({ s with cursors := s.cursors.set c (some index) }, .entry (some entry))
    | none => .ok ({ data := ← mapIterExit s.data, cursors := s.cursors.set c none }, .entry none)
  | _ => .ok (s, .entry none)

/-- An iteration is left. -/
def iterClose (s : Session K V) (c : ℕ) : Except Fault (Session K V × Res K V) :=
  match s.cursors[c]? with
  | some (some _) => do .ok ({ data := ← mapIterExit s.data, cursors := s.cursors.set c none }, .done)
  | _ => .ok (s, .done)

def step (s : Session (Key type) V) : Op (Key type) V → Except Fault (Session (Key type) V × Res (Key type) V)
  | .set k v => do
    .ok ({ s with data := ← mapSetBy s.data (mapStoredKey type k) v (mapKeyEquality type) }, .done)
  | .get k => .ok (s, .value (mapGetBy s.data k (mapKeyEquality type)))
  | .has k => .ok (s, .flag (mapHasBy s.data k (mapKeyEquality type)))
  | .delete k =>
    let r := mapDeleteBy s.data k (mapKeyEquality type)
    .ok ({ s with data := r.1 }, .flag r.2)
  | .clear => do .ok ({ s with data := ← mapClear s.data }, .done)
  | .size => .ok (s, .count s.data.live)
  | .enter => .ok ({ data := mapIterEnter s.data, cursors := s.cursors ++ [some 0] }, .done)
  | .next c => iterNext s c
  | .leave c => iterClose s c

/-- The state after a history, and its results. -/
def run : Session (Key type) V → List (Op (Key type) V) → Except Fault (Session (Key type) V × List (Res (Key type) V))
  | s, [] => .ok (s, [])
  | s, op :: ops => do
    let r ← step type s op
    let rs ← run r.1 ops
    .ok (rs.1, r.2 :: rs.2)

/-!
## `JsMap` is the ordered map of ECMAScript

Every history of a `JsMap`, with any number of iterations open, has the results of the machine of
`LiveMap`, and no call of it panics. The machine is that of ECMAScript, with keys compared by
SameValueZero, for every static type of the keys but one: checked-dynamic keys are compared with `===`,
so that there a NaN is never found, and are not normalized. Where no checked-dynamic key that is set is
NaN or −0, the results are those of ECMAScript for them as well (`run_ecma`).
-/

open LiveMap (Slots Op Res Sim live)

/-! ### Keys -/

/-- SameValueZero of numbers. -/
def sameValueZero (x y : F64) : Bool := x = y || (x.isZero && y.isZero)

/-- `===` of numbers. -/
def strictlyEqual (x y : F64) : Bool := !x.isNaN && sameValueZero x y

/-- The number that a map keeps. -/
def normalize (x : F64) : F64 := if x = .negZero then .zero else x

def Dyn.normalize : Dyn → Dyn
  | .number x => .number (JsMap.normalize x)
  | key => key

def Dyn.sameValueZero : Dyn → Dyn → Bool
  | .number x, .number y => JsMap.sameValueZero x y
  | key, key' => key = key'

def Dyn.strictlyEqual : Dyn → Dyn → Bool
  | .number x, .number y => JsMap.strictlyEqual x y
  | key, key' => key = key'

/-- The keys of an ECMAScript map. -/
def ecmaKeys : (type : KeyType) → LiveMap.Keys (Key type)
  | .f64 => ⟨normalize, sameValueZero⟩
  | .bigint => ⟨id, fun (x y : ℤ) => x = y⟩
  | .string => ⟨id, fun (x y : String) => x = y⟩
  | .symbol => ⟨id, fun (x y : ℕ) => x = y⟩
  | .record => ⟨id, fun (x y : ℕ) => x = y⟩
  | .func => ⟨id, fun (x y : ℕ) => x = y⟩
  | .handle => ⟨id, fun (x y : ℕ) => x = y⟩
  | .dyn => ⟨Dyn.normalize, Dyn.sameValueZero⟩

/-- The same, but for checked-dynamic keys, which are kept as they are and compared with `===`. -/
def keysOf (type : KeyType) : LiveMap.Keys (Key type) :=
  match type with
  | .dyn => ⟨id, Dyn.strictlyEqual⟩
  | type => ecmaKeys type

theorem isZero_iff_normalize {x : F64} : x.isZero = true ↔ normalize x = .zero := by
  rcases x with _ | _ | _ | ⟨p, hp, hp'⟩
  · exact iff_of_false (by decide) (by rintro ⟨⟩)
  · exact iff_of_false (by simp [F64.isZero]) (by rintro ⟨⟩)
  · exact iff_of_true rfl rfl
  · simp [F64.isZero, normalize, F64.zero]

theorem sameValueZero_iff {x y : F64} : sameValueZero x y = true ↔ normalize x = normalize y := by
  rw [sameValueZero, Bool.or_eq_true, Bool.and_eq_true, decide_eq_true_eq, isZero_iff_normalize, isZero_iff_normalize]
  constructor
  · rintro (rfl | ⟨h1, h2⟩)
    · rfl
    · rw [h1, h2]
  · intro h
    by_cases hx : x = .negZero
    · have : normalize x = .zero := if_pos hx
      exact .inr ⟨this, h ▸ this⟩
    · by_cases hy : y = .negZero
      · have : normalize y = .zero := if_pos hy
        exact .inr ⟨h ▸ this, this⟩
      · rw [normalize, normalize, if_neg hx, if_neg hy] at h
        exact .inl h

theorem normalize_idem (x : F64) : normalize (normalize x) = normalize x := by
  by_cases hx : x = .negZero
  · rw [hx]
    rfl
  · have : normalize x = x := if_neg hx
    rw [this, this]

theorem normalize_eq_nan {x : F64} : normalize x = .nan ↔ x = .nan := by
  rw [normalize]
  split_ifs with hx
  · rw [hx]
    exact iff_of_false (by rintro ⟨⟩) (by rintro ⟨⟩)
  · rfl

theorem strictlyEqual_iff {x y : F64} : strictlyEqual x y = true ↔ x ≠ .nan ∧ normalize x = normalize y := by
  rw [strictlyEqual, Bool.and_eq_true, Bool.not_eq_true', F64.isNaN_eq_false, sameValueZero_iff]

theorem eq_eq_strictlyEqual (x y : F64) : F64.eq x y = strictlyEqual x y := by
  rw [Bool.eq_iff_iff, F64.eq_iff, strictlyEqual_iff]
  constructor
  · rintro ⟨hx, hy, h⟩
    rcases F64.eq_of_num_eq hx hy h with rfl | ⟨h1, h2⟩
    · exact ⟨hx, rfl⟩
    · rw [isZero_iff_normalize] at h1 h2
      exact ⟨hx, h1.trans h2.symm⟩
  · rintro ⟨hx, h⟩
    have hy : y ≠ .nan := by
      rw [ne_eq, ← normalize_eq_nan, ← h, normalize_eq_nan]
      exact hx
    rw [← sameValueZero_iff, sameValueZero, Bool.or_eq_true, Bool.and_eq_true, decide_eq_true_eq] at h
    rcases h with rfl | ⟨h1, h2⟩
    · exact ⟨hx, hy, rfl⟩
    · rw [F64.isZero_iff hx] at h1
      rw [F64.isZero_iff hy] at h2
      exact ⟨hx, hy, h1.trans h2.symm⟩

/-- The compiler compares numbers with SameValueZero. -/
theorem numberEquality (x y : F64) : (F64.eq x y || (x.isNaN && y.isNaN)) = sameValueZero x y := by
  rw [Bool.eq_iff_iff, eq_eq_strictlyEqual, Bool.or_eq_true, strictlyEqual_iff, sameValueZero_iff, Bool.and_eq_true,
    F64.isNaN_eq_true, F64.isNaN_eq_true]
  constructor
  · rintro (⟨-, h⟩ | ⟨rfl, rfl⟩)
    · exact h
    · rfl
  · intro h
    by_cases hx : x = .nan
    · exact .inr ⟨hx, normalize_eq_nan.mp (h ▸ normalize_eq_nan.mpr hx)⟩
    · exact .inl ⟨hx, h⟩

theorem storedNumber (x : F64) : (if F64.eq x .zero then F64.zero else x) = normalize x := by
  by_cases hx : F64.eq x .zero = true
  · rw [if_pos hx]
    rw [eq_eq_strictlyEqual, strictlyEqual_iff] at hx
    exact hx.2.symm
  · rw [if_neg hx, normalize, if_neg]
    rintro rfl
    exact hx (by rw [eq_eq_strictlyEqual]; rfl)

theorem mapKeyEquality_eq (type : KeyType) : mapKeyEquality type = (keysOf type).same := by
  cases type with
  | f64 =>
    funext x y
    exact numberEquality x y
  | dyn =>
    funext x y
    cases x <;> cases y <;> first | rfl | exact eq_eq_strictlyEqual _ _
  | _ => rfl

theorem mapStoredKey_eq (type : KeyType) : mapStoredKey type = (keysOf type).stored := by
  cases type with
  | f64 =>
    funext x
    exact storedNumber x
  | _ => rfl

theorem lawful_of_eq {K : Type} [DecidableEq K] : LiveMap.Keys.Lawful ⟨id, fun x y : K => decide (x = y)⟩ where
  symm h := by
    rw [decide_eq_true_eq] at h ⊢
    exact h.symm
  trans h h' := by
    rw [decide_eq_true_eq] at h h' ⊢
    exact h.trans h'
  stored _ _ := rfl

theorem lawful_sameValueZero : LiveMap.Keys.Lawful ⟨normalize, sameValueZero⟩ where
  symm h := sameValueZero_iff.mpr (sameValueZero_iff.mp h).symm
  trans h h' := sameValueZero_iff.mpr ((sameValueZero_iff.mp h).trans (sameValueZero_iff.mp h'))
  stored x y := by rw [Bool.eq_iff_iff, sameValueZero_iff, sameValueZero_iff, normalize_idem]

theorem Dyn.strictlyEqual_iff {x y : Dyn} : x.strictlyEqual y = true ↔ x ≠ .number .nan ∧ x.normalize = y.normalize := by
  cases x with
  | number x =>
    cases y with
    | number y => simp [Dyn.strictlyEqual, Dyn.normalize, JsMap.strictlyEqual_iff]
    | _ => simp [Dyn.strictlyEqual, Dyn.normalize]
  | _ => cases y <;> simp [Dyn.strictlyEqual, Dyn.normalize]

theorem Dyn.normalize_eq_nan {x : Dyn} : x.normalize = .number .nan ↔ x = .number .nan := by
  cases x <;> simp [Dyn.normalize, JsMap.normalize_eq_nan]

theorem lawful_strictlyEqual : LiveMap.Keys.Lawful ⟨id, Dyn.strictlyEqual⟩ where
  symm {x y} h := by
    rw [Dyn.strictlyEqual_iff] at h ⊢
    refine ⟨fun hy => h.1 ?_, h.2.symm⟩
    rw [← Dyn.normalize_eq_nan, h.2, hy]
    rfl
  trans h h' := by
    rw [Dyn.strictlyEqual_iff] at h h' ⊢
    exact ⟨h.1, h.2.trans h'.2⟩
  stored _ _ := rfl

theorem keysOf_lawful (type : KeyType) : (keysOf type).Lawful := by
  cases type with
  | f64 => exact lawful_sameValueZero
  | dyn => exact lawful_strictlyEqual
  | bigint => exact lawful_of_eq (K := ℤ)
  | string => exact lawful_of_eq (K := String)
  | symbol => exact lawful_of_eq (K := ℕ)
  | record => exact lawful_of_eq (K := ℕ)
  | func => exact lawful_of_eq (K := ℕ)
  | handle => exact lawful_of_eq (K := ℕ)

/-! ### The operations -/

variable {K V : Type} {data : MapData K V}

theorem position_none (entries : Slots K V) (key : K) (equal : K → K → Bool) :
    position (none :: entries) key equal = (position entries key equal).map (· + 1) := by
  rw [position, List.findIdx?_cons, Option.any_none, if_neg Bool.false_ne_true]
  rfl

theorem position_some (e : K × V) (entries : Slots K V) (key : K) (equal : K → K → Bool) :
    position (some e :: entries) key equal =
      if equal e.1 key then some 0 else (position entries key equal).map (· + 1) := by
  rw [position, List.findIdx?_cons, Option.any_some]
  rfl

/-- The position that a deletion empties. -/
theorem set_position {entries : Slots K V} {key : K} {equal : K → K → Bool} {index : ℕ}
    (h : position entries key equal = some index) : entries.set index none = LiveMap.erase (equal · key) entries := by
  induction entries generalizing index with
  | nil => cases h
  | cons e entries ih =>
    cases e with
    | none =>
      rw [position_none, Option.map_eq_some_iff] at h
      obtain ⟨i, hi, rfl⟩ := h
      rw [set_cons_succ, ih hi]
      rfl
    | some e =>
      rw [position_some] at h
      rw [LiveMap.erase, LiveMap.alter]
      split_ifs at h ⊢ with he
      · obtain rfl := Option.some.inj h
        rfl
      · rw [Option.map_eq_some_iff] at h
        obtain ⟨i, hi, rfl⟩ := h
        rw [set_cons_succ, ih hi]
        rfl

theorem position_isSome (entries : Slots K V) (key : K) (equal : K → K → Bool) :
    (position entries key equal).isSome = LiveMap.has (equal · key) entries := by
  induction entries with
  | nil => rfl
  | cons e entries ih =>
    cases e with
    | none =>
      rw [position_none, Option.isSome_map]
      exact ih
    | some e =>
      have hcons : LiveMap.has (equal · key) (some e :: entries) = (equal e.1 key || LiveMap.has (equal · key) entries) := rfl
      rw [position_some, hcons, ← ih]
      split_ifs with he
      · rw [he]
        rfl
      · rw [Bool.eq_false_iff.mpr he, Bool.false_or, Option.isSome_map]

/-- The turns of an iteration come to the next entry. -/
theorem nextLoop_eq {k i : ℕ} (hk : data.entries.length ≤ i + k) :
    nextLoop data k i = .ok (LiveMap.advance (data.entries.drop i) i) := by
  induction k generalizing i with
  | zero =>
    rw [drop_of_length_le (by omega)]
    rfl
  | succ k ih =>
    rw [nextLoop]
    by_cases hi : i < data.entries.length
    · rw [mapIterCount, if_pos hi, mapIterLive, mapIterEntry, getElem?_eq_getElem hi, drop_eq_getElem_cons hi]
      cases data.entries[i] with
      | none => exact ih (by omega)
      | some e => rfl
    · rw [mapIterCount, if_neg hi, drop_of_length_le (not_lt.mp hi)]
      rfl

/-! ### The invariant -/

/-- A session and the machine. -/
structure Inv (keys : LiveMap.Keys K) (s : Session K V) (m : LiveMap.State K V) : Prop where
  sim : Sim s.data.entries s.cursors m
  count : s.data.live = (live s.data.entries).length
  depth : s.data.iterationDepth = s.cursors.countP Option.isSome
  plain : s.data.moduleNamespace = false
  distinct : LiveMap.Distinct keys s.data.entries

variable {keys : LiveMap.Keys K} {s : Session K V} {m : LiveMap.State K V}

theorem Inv.not_namespace (h : Inv keys s m) : ¬s.data.moduleNamespace = true := by
  rw [h.plain]
  exact Bool.false_ne_true

theorem Inv.closed (h : Inv keys s m) (hd : s.data.iterationDepth = 0) : ∀ c ∈ s.cursors, c = none := by
  rw [h.depth, countP_eq_zero] at hd
  intro c hc
  exact Option.not_isSome_iff_eq_none.mp (hd c hc)

theorem Inv.set (h : Inv keys s m) (lawful : keys.Lawful) (k : K) (v : V) :
    ∃ data, mapSetBy s.data (keys.stored k) v keys.same = .ok data ∧
      Inv keys { s with data } { m with slots := LiveMap.set (keys.same · k) (keys.stored k) v m.slots } := by
  have hp : (fun x => keys.same x (keys.stored k)) = fun x => keys.same x k := funext fun x => lawful.stored x k
  have hsim := h.sim.set (p := (keys.same · k)) (keys.stored k) v
  have hdistinct := h.distinct.set lawful k v
  rw [mapSetBy, if_neg h.not_namespace, hp]
  rw [LiveMap.set] at hsim hdistinct
  split_ifs at hsim hdistinct ⊢ with hk
  · exact ⟨_, rfl, hsim, h.count.trans (LiveMap.length_live_put v _).symm, h.depth, h.plain, hdistinct⟩
  · refine ⟨_, rfl, hsim, ?_, h.depth, h.plain, hdistinct⟩
    rw [LiveMap.live_append, length_append, ← h.count]
    rfl

/-- Holes are dropped when no iteration is open. -/
theorem Inv.compact (h : Inv keys s m) :
    Inv keys { s with data := { s.data with
      entries := if s.data.iterationDepth = 0 then LiveMap.compact s.data.entries else s.data.entries } } m := by
  split_ifs with h0
  · have hlive := LiveMap.live_compact s.data.entries
    exact ⟨h.sim.replace (h.closed h0) hlive, by rw [hlive]; exact h.count, h.depth, h.plain, h.distinct.of_live hlive⟩
  · exact h

theorem Inv.delete (h : Inv keys s m) (k : K) :
    (mapDeleteBy s.data k keys.same).2 = LiveMap.has (keys.same · k) m.slots ∧
      Inv keys { s with data := (mapDeleteBy s.data k keys.same).1 }
        { m with slots := LiveMap.erase (keys.same · k) m.slots } := by
  have hhas : LiveMap.has (keys.same · k) s.data.entries = LiveMap.has (keys.same · k) m.slots := LiveMap.has_eq h.sim.live
  have hsome := position_isSome s.data.entries k keys.same
  have hsim : Sim (LiveMap.erase (keys.same · k) s.data.entries) s.cursors
    { m with slots := LiveMap.erase (keys.same · k) m.slots } := h.sim.alter
  rw [mapDeleteBy, if_neg h.not_namespace, ← hhas, ← hsome]
  split
  · next hp =>
    rw [hp] at hsome ⊢
    refine ⟨rfl, ?_⟩
    have hsame : LiveMap.erase (keys.same · k) s.data.entries = s.data.entries :=
      LiveMap.alter_eq_self hsome.symm
    rw [hsame] at hsim
    exact ⟨hsim, h.count, h.depth, h.plain, h.distinct⟩
  · next index hp =>
    rw [hp] at hsome ⊢
    rw [set_position hp]
    refine ⟨rfl, ?_⟩
    have hlen := LiveMap.length_live_erase hsome.symm
    have herased : Inv keys
        { s with data := { s.data with entries := LiveMap.erase (keys.same · k) s.data.entries, live := s.data.live - 1 } }
        { m with slots := LiveMap.erase (keys.same · k) m.slots } :=
      ⟨hsim, by have := h.count; simp only; omega, h.depth, h.plain, h.distinct.erase⟩
    exact herased.compact

theorem Inv.clear (h : Inv keys s m) :
    ∃ data, mapClear s.data = .ok data ∧ Inv keys { s with data } { m with slots := LiveMap.clear m.slots } := by
  rw [mapClear, if_neg h.not_namespace]
  refine ⟨_, rfl, ?_⟩
  have hcleared : Inv keys { s with data := { s.data with entries := LiveMap.clear s.data.entries, live := 0 } }
      { m with slots := LiveMap.clear m.slots } :=
    ⟨h.sim.clear, by rw [LiveMap.live_clear]; rfl, h.depth, h.plain, by rw [LiveMap.Distinct, LiveMap.live_clear]; exact .nil⟩
  split_ifs with h0
  · have hlive : live ([] : Slots K V) = live (LiveMap.clear s.data.entries) := (LiveMap.live_clear _).symm
    exact ⟨hcleared.sim.replace (h.closed h0) hlive, rfl, h.depth, h.plain, .nil⟩
  · exact hcleared

theorem Inv.opened (h : Inv keys s m) :
    Inv keys { data := mapIterEnter s.data, cursors := s.cursors ++ [some 0] } { m with cursors := m.cursors ++ [some 0] } := by
  refine ⟨h.sim.opened, h.count, ?_, h.plain, h.distinct⟩
  rw [mapIterEnter, countP_append, ← h.depth]
  rfl

/-- An iteration that is open is left. -/
theorem Inv.exit (h : Inv keys s m) {c i : ℕ} (hc : s.cursors[c]? = some (some i)) :
    ∃ data, mapIterExit s.data = .ok data ∧
      Inv keys { data, cursors := s.cursors.set c none } { m with cursors := m.cursors.set c none } := by
  have hcount : (s.cursors.set c none).countP Option.isSome = s.data.iterationDepth - 1 :=
    h.depth ▸ LiveMap.countP_moved hc none
  have hpos : s.data.iterationDepth ≠ 0 := h.depth ▸ (LiveMap.countP_open hc).ne'
  rw [mapIterExit, if_neg hpos]
  have hleft : Inv keys
      { data := { s.data with iterationDepth := s.data.iterationDepth - 1 }, cursors := s.cursors.set c none }
      { m with cursors := m.cursors.set c none } :=
    ⟨h.sim.closed c, h.count, hcount.symm, h.plain, h.distinct⟩
  exact ⟨_, rfl, hleft.compact⟩

theorem iterNext_of_closed {c : ℕ} (h : ∀ i, s.cursors[c]? ≠ some (some i)) : iterNext s c = .ok (s, .entry none) := by
  rw [iterNext]
  split
  · next i hi => exact absurd hi (h i)
  · rfl

theorem iterClose_of_closed {c : ℕ} (h : ∀ i, s.cursors[c]? ≠ some (some i)) : iterClose s c = .ok (s, .done) := by
  rw [iterClose]
  split
  · next i hi => exact absurd hi (h i)
  · rfl

theorem Inv.iterNext (h : Inv keys s m) (c : ℕ) :
    ∃ s', iterNext s c = .ok (s', (LiveMap.next m c).2) ∧ Inv keys s' (LiveMap.next m c).1 := by
  rcases h.sim.cursor c with ⟨i, j, hi, hj, hat⟩ | ⟨hi, hj⟩
  · have hloop : nextLoop s.data (mapIterCount s.data) i = .ok (LiveMap.advance (s.data.entries.drop i) i) :=
      nextLoop_eq (Nat.le_add_left _ _)
    rw [JsMap.iterNext, LiveMap.next, hi, hj]
    dsimp only
    rw [hloop]
    rcases hat.next with ⟨h1, h2⟩ | ⟨e, i', j', h1, h2, hat'⟩
    · rw [h1, h2]
      obtain ⟨data, hdata, hinv⟩ := h.exit hi
      refine ⟨{ data, cursors := s.cursors.set c none }, ?_, hinv⟩
      dsimp only [bind, Except.bind]
      rw [hdata]
    · rw [h1, h2]
      refine ⟨{ s with cursors := s.cursors.set c (some i') }, rfl, h.sim.moved c hat', h.count, ?_, h.plain, h.distinct⟩
      rw [LiveMap.countP_moved hi, h.depth]
      exact (Nat.sub_add_cancel (LiveMap.countP_open hi)).symm
  · rw [iterNext_of_closed hi, LiveMap.next_of_closed hj]
    exact ⟨s, rfl, h⟩

theorem Inv.iterClose (h : Inv keys s m) (c : ℕ) :
    ∃ s', iterClose s c = .ok (s', .done) ∧ Inv keys s' { m with cursors := m.cursors.set c none } := by
  rcases h.sim.cursor c with ⟨i, j, hi, hj, hat⟩ | ⟨hi, hj⟩
  · obtain ⟨data, hdata, hinv⟩ := h.exit hi
    refine ⟨{ data, cursors := s.cursors.set c none }, ?_, hinv⟩
    rw [JsMap.iterClose, hi]
    dsimp only [bind, Except.bind]
    rw [hdata]
  · rw [iterClose_of_closed hi, LiveMap.set_none_of_closed hj]
    exact ⟨s, rfl, h⟩

/-! ### Histories -/

section

variable {type : KeyType} {s : Session (Key type) V} {m : LiveMap.State (Key type) V}

/-- One operation. -/
theorem Inv.step (h : Inv (keysOf type) s m) (op : Op (Key type) V) :
    ∃ s', step type s op = .ok (s', (LiveMap.step (keysOf type) m op).2) ∧
      Inv (keysOf type) s' (LiveMap.step (keysOf type) m op).1 := by
  cases op with
  | set k v =>
    obtain ⟨data, hdata, hinv⟩ := h.set (keysOf_lawful type) k v
    refine ⟨{ s with data }, ?_, hinv⟩
    rw [JsMap.step, mapStoredKey_eq, mapKeyEquality_eq, hdata]
    rfl
  | get k =>
    refine ⟨s, ?_, h⟩
    rw [JsMap.step, mapGetBy, mapKeyEquality_eq, LiveMap.find_eq h.sim.live]
    rfl
  | has k =>
    refine ⟨s, ?_, h⟩
    rw [JsMap.step, mapHasBy, mapKeyEquality_eq, LiveMap.has_eq h.sim.live]
    rfl
  | delete k =>
    obtain ⟨hflag, hinv⟩ := h.delete k
    refine ⟨_, ?_, hinv⟩
    rw [JsMap.step, mapKeyEquality_eq, hflag]
    rfl
  | clear =>
    obtain ⟨data, hdata, hinv⟩ := h.clear
    refine ⟨{ s with data }, ?_, hinv⟩
    rw [JsMap.step, hdata]
    rfl
  | size =>
    refine ⟨s, ?_, h⟩
    rw [JsMap.step, h.count, h.sim.live]
    rfl
  | enter => exact ⟨_, rfl, h.opened⟩
  | next c => exact h.iterNext c
  | leave c => exact h.iterClose c

/-- A history. -/
theorem Inv.run (h : Inv (keysOf type) s m) (ops : List (Op (Key type) V)) :
    ∃ s', run type s ops = .ok (s', LiveMap.run (keysOf type) m ops) ∧ Inv (keysOf type) s' (LiveMap.after (keysOf type) m ops) := by
  induction ops generalizing s m with
  | nil => exact ⟨s, rfl, h⟩
  | cons op ops ih =>
    obtain ⟨s₁, hstep, h₁⟩ := h.step op
    obtain ⟨s', hrun, h'⟩ := ih h₁
    refine ⟨s', ?_, h'⟩
    rw [JsMap.run, hstep]
    dsimp only [bind, Except.bind]
    rw [hrun]
    rfl

end

theorem inv_new (keys : LiveMap.Keys K) : Inv keys ⟨(mapNew : MapData K V), []⟩ ⟨[], []⟩ :=
  ⟨⟨rfl, .nil⟩, rfl, rfl, rfl, .nil⟩

/-- A key is found where its entry is, and nowhere else. -/
theorem position_eq_some_iff {entries : Slots K V} (hd : LiveMap.Distinct keys entries) (lawful : keys.Lawful) {key : K} {index : ℕ} :
    position entries key keys.same = some index ↔ ∃ e, entries[index]? = some (some e) ∧ keys.same e.1 key = true := by
  constructor
  · intro h
    obtain ⟨hlt, hp, -⟩ := List.findIdx?_eq_some_iff_getElem.mp h
    cases hx : entries[index] with
    | none => simp [hx] at hp
    | some e => exact ⟨e, by rw [getElem?_eq_getElem hlt, hx], by simpa [hx] using hp⟩
  · rintro ⟨e, he, hsame⟩
    have hsome : (position entries key keys.same).isSome = true := by
      rw [position_isSome, LiveMap.has, any_eq_true]
      exact ⟨e, mem_filterMap.mpr ⟨some e, mem_of_getElem? he, rfl⟩, hsame⟩
    obtain ⟨i, hi⟩ := Option.isSome_iff_exists.mp hsome
    obtain ⟨hlt, hp, -⟩ := List.findIdx?_eq_some_iff_getElem.mp hi
    cases hx : entries[i] with
    | none => simp [hx] at hp
    | some e' =>
      have hi' : entries[i]? = some (some e') := by rw [getElem?_eq_getElem hlt, hx]
      rw [hi, hd.unique lawful hi' he (by simpa [hx] using hp) hsame]

/-- Every history of a `JsMap` or `JsSet` is one of the ordered map. No call panics, the results are
those of the machine, and at the end a key is found at its entry and nowhere else. -/
theorem run_refines (type : KeyType) (V : Type) (ops : List (Op (Key type) V)) :
    ∃ s, run type ⟨mapNew, []⟩ ops = .ok (s, LiveMap.run (keysOf type) ⟨[], []⟩ ops) ∧
      live s.data.entries = live (LiveMap.after (keysOf type) ⟨[], []⟩ ops).slots ∧
      ∀ key index, position s.data.entries key (mapKeyEquality type) = some index ↔
        ∃ e, s.data.entries[index]? = some (some e) ∧ mapKeyEquality type e.1 key = true := by
  obtain ⟨s, hrun, h⟩ := (inv_new (keysOf type)).run ops
  refine ⟨s, hrun, h.sim.live, fun key index => ?_⟩
  rw [mapKeyEquality_eq]
  exact position_eq_some_iff h.distinct (keysOf_lawful type)

/-! ### Checked-dynamic keys -/

/-- Not a checked-dynamic NaN or −0. -/
def Plain : (type : KeyType) → Key type → Prop
  | .dyn, (key : Dyn) => key ≠ .number .nan ∧ key ≠ .number .negZero
  | _, _ => True

theorem Dyn.same_of_ne_nan {x : Dyn} (hx : x ≠ .number .nan) (y : Dyn) : x.strictlyEqual y = x.sameValueZero y := by
  cases x with
  | number x =>
    have hnan : x.isNaN = false := F64.isNaN_eq_false.mpr fun h => hx (congrArg Dyn.number h)
    cases y with
    | number y => rw [Dyn.strictlyEqual, Dyn.sameValueZero, JsMap.strictlyEqual, hnan, Bool.not_false, Bool.true_and]
    | _ => rfl
  | _ => rfl

theorem Dyn.normalize_of_ne_negZero {x : Dyn} (hx : x ≠ .number .negZero) : x.normalize = x := by
  cases x with
  | number x => rw [Dyn.normalize, JsMap.normalize, if_neg fun h => hx (congrArg Dyn.number h)]
  | _ => rfl

/-- While plain keys are set, `===` is SameValueZero. -/
theorem agree_ecmaKeys (type : KeyType) : LiveMap.Agree (keysOf type) (ecmaKeys type) (Plain type) (Plain type) := by
  cases type with
  | dyn => exact ⟨fun _ hk => (Dyn.normalize_of_ne_negZero hk.2).symm, fun _ hk => hk, fun _ k ha => Dyn.same_of_ne_nan ha.1 k⟩
  | _ => exact ⟨fun _ _ => rfl, fun _ _ => trivial, fun _ _ _ => rfl⟩

/-- **Every history of a `JsMap` or `JsSet` that sets plain keys is one of ECMAScript's.** -/
theorem run_ecma (type : KeyType) (V : Type) (ops : List (Op (Key type) V)) (h : ∀ op ∈ ops, op.Sets (Plain type)) :
    ∃ s, run type ⟨mapNew, []⟩ ops = .ok (s, LiveMap.run (ecmaKeys type) ⟨[], []⟩ ops) ∧
      ∀ key index, position s.data.entries key (mapKeyEquality type) = some index ↔
        ∃ e, s.data.entries[index]? = some (some e) ∧ (ecmaKeys type).same e.1 key = true := by
  obtain ⟨s, hrun, hlive, hposition⟩ := run_refines type V ops
  have hnil : ∀ e ∈ live (⟨[], []⟩ : LiveMap.State (Key type) V).slots, Plain type e.1 := forall_mem_nil _
  have hplain := LiveMap.mem_live_after (agree_ecmaKeys type) hnil h
  rw [(LiveMap.run_congr (agree_ecmaKeys type) hnil h).1] at hrun
  refine ⟨s, hrun, fun key index => (hposition key index).trans (exists_congr fun e => and_congr_right fun he => ?_)⟩
  have hmem : e ∈ live s.data.entries := mem_filterMap.mpr ⟨some e, mem_of_getElem? he, rfl⟩
  rw [mapKeyEquality_eq, (agree_ecmaKeys type).same e.1 key (hplain e (hlive ▸ hmem))]

/-- A checked-dynamic key is set, an iteration is opened, the key is deleted and set again. -/
theorem run_ecma_readded :
    ∃ s, run (V := Bool) .dyn ⟨mapNew, []⟩ [.set (.number .zero) true, .enter, .delete (.number .negZero),
        .set (.number .zero) false, .next 0, .has (.number .nan)] =
      .ok (s, [.done, .done, .flag true, .done, .entry (some (.number .zero, false)), .flag false]) := by
  have hplain : Plain .dyn (.number .zero : Dyn) := ⟨by decide, by decide⟩
  obtain ⟨s, hrun, -⟩ := run_ecma .dyn Bool [.set (.number .zero) true, .enter, .delete (.number .negZero),
    .set (.number .zero) false, .next 0, .has (.number .nan)] (by simpa [Op.Sets] using hplain)
  exact ⟨s, hrun⟩

/-- Under checked-dynamic keys a NaN is not found again, where an ECMAScript map finds it. -/
theorem run_ne_ecma_of_dyn : ¬∃ s, run (V := Bool) .dyn ⟨mapNew, []⟩ [.set (.number .nan) true, .has (.number .nan)] =
    .ok (s, LiveMap.run (ecmaKeys .dyn) ⟨[], []⟩ [.set (.number .nan) true, .has (.number .nan)]) := by
  rintro ⟨s, h⟩
  have hres : some [Res.done, .flag false] = some [Res.done, .flag true] := congrArg (fun r => r.toOption.map Prod.snd) h
  simp at hres

end Scriptc.RuntimeRust.JsMap
