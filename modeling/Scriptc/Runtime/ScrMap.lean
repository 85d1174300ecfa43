import Scriptc.Lib.Bytes
import Scriptc.Lib.LiveMap
import Scriptc.Lib.Probe
import Mathlib.Data.List.Sort

/-!
# Maps of the C runtime

`ScrMap` of `scr_map.c`: the entries in the order of insertion, and an open-addressing table of their
indices. A deletion marks its entry dead and leaves its bucket; dead entries are dropped when the
entries have to grow, and at the end of an iteration, but never while an iteration is open.

A loop that does not end and a trap of the runtime are `none`. Memory is unbounded. Reference counts
are left out.
-/

namespace Scriptc.Runtime.ScrMap

open LiveMap (Op Res)
open Probe (Buckets)

/-! ### Keys -/

/-- How keys are compared. -/
inductive KeyKind where
  | f64
  | str
  | ref
  deriving DecidableEq

/-- A key as it is stored: the bits of a number, the bytes of a string, the bits of a pointer. -/
def Key : KeyKind → Type
  | .f64 => UInt64
  | .str => Bytes
  | .ref => UInt64

instance : (kind : KeyKind) → DecidableEq (Key kind)
  | .f64 => inferInstanceAs (DecidableEq UInt64)
  | .str => inferInstanceAs (DecidableEq Bytes)
  | .ref => inferInstanceAs (DecidableEq UInt64)

/-- `k != k`, for the number with these bits. -/
def isNaN (bits : UInt64) : Bool := 0x7ff0000000000000 < bits &&& 0x7fffffffffffffff

/-- `k == 0`. -/
def isZero (bits : UInt64) : Bool := bits &&& 0x7fffffffffffffff = 0

def f64Bits (k : UInt64) : UInt64 :=
  if isNaN k then 0x7ff8000000000000
  else if isZero k then 0
  else k

def fnv1a (bytes : Bytes) : UInt64 := bytes.foldl (fun h b => (h ^^^ b.toUInt64) * 0x100000001b3) 0xcbf29ce484222325

/-- The bytes of a slot in memory. -/
def slotBytes (bits : UInt64) : Bytes := Bytes.leBytes 8 bits.toNat

def hashKey : (kind : KeyKind) → Key kind → ℕ
  | .f64, (k : UInt64) => (fnv1a (slotBytes k)).toNat
  | .str, (k : Bytes) => (fnv1a k).toNat
  | .ref, (k : UInt64) => (fnv1a (slotBytes k)).toNat

/-- What is looked up and stored for a key. -/
def probeKey : (kind : KeyKind) → Key kind → Key kind
  | .f64, (k : UInt64) => f64Bits k
  | _, k => k

/-! ### The table -/

/-- An entry, dead or alive. -/
structure Entry (K V : Type) where
  key : K
  val : V
  live : Bool

def Entry.setVal {K V : Type} (val : V) (e : Entry K V) : Entry K V := { e with val }

def Entry.kill {K V : Type} (e : Entry K V) : Entry K V := { e with live := false }

/-- The number of entries and of buckets is the length of the lists. -/
structure Table (K V : Type) where
  entries : List (Entry K V)
  nlive : ℕ
  ecap : ℕ
  buckets : Buckets
  iterDepth : ℕ

variable {K V : Type}

def new : Table K V where
  entries := []
  nlive := 0
  ecap := 0
  buckets := []
  iterDepth := 0

section

variable [DecidableEq K] (hash : K → ℕ)

/-- The live entry that holds the key. -/
def find (m : Table K V) (key : K) : Option (Option ℕ) :=
  if m.buckets.length = 0 then some none
  else Probe.find m.buckets (fun b => m.entries[b]?.any fun e => e.live && e.key = key) (hash key)

end

section

variable (hash : K → ℕ)

/-- Put the live entries in, from an index on. -/
def fill : List (Entry K V) → ℕ → Buckets → Option Buckets
  | [], _, buckets => some buckets
  | e :: es, i, buckets =>
    if e.live then (Probe.insert buckets (hash e.key) i).bind (fill es (i + 1)) else fill es (i + 1) buckets

def rebuildBuckets (m : Table K V) (nbuckets : ℕ) : Option (Table K V) := do
  let buckets ← fill hash m.entries 0 (List.replicate nbuckets none)
  some { m with buckets }

/-- Drop the dead entries. -/
def compact (m : Table K V) : Option (Table K V) :=
  let m := { m with entries := m.entries.filter Entry.live }
  if 0 < m.buckets.length then rebuildBuckets hash m m.buckets.length else some m

/-- Double until it is enough. -/
def double : ℕ → ℕ → ℕ → ℕ
  | 0, cap, _ => cap
  | k + 1, cap, need => if cap < need then double k (cap * 2) need else cap

/-- Drop the dead entries if they are half of all, and no iteration is open. -/
def reclaim (m : Table K V) : Option (Table K V) :=
  if m.iterDepth = 0 ∧ m.nlive ≤ m.entries.length / 2 ∧ 0 < m.entries.length then compact hash m else some m

def growEntries (m : Table K V) : Table K V :=
  let need := m.entries.length + 1
  if m.entries.length = m.ecap then { m with ecap := double need (if m.ecap ≠ 0 then m.ecap else 8) need } else m

def growBuckets (m : Table K V) : Option (Table K V) :=
  let need := 2 * (m.entries.length + 1)
  if m.buckets.length < need then
    rebuildBuckets hash m (double need (if m.buckets.length ≠ 0 then m.buckets.length else 16) need)
  else some m

/-- Make room for one more entry. -/
def reserveAppend (m : Table K V) : Option (Table K V) :=
  if m.entries.length < m.ecap ∧ 2 * (m.entries.length + 1) ≤ m.buckets.length then some m
  else (reclaim hash m).bind fun m => growBuckets hash (growEntries m)

end

/-! ### Operations -/

section

variable [DecidableEq K] (hash : K → ℕ)

def set (m : Table K V) (key : K) (val : V) : Option (Table K V) := do
  match ← find hash m key with
  | some e => some { m with entries := m.entries.modify e (Entry.setVal val) }
  | none =>
    let m ← reserveAppend hash m
    let buckets ← Probe.insert m.buckets (hash key) m.entries.length
    some { m with entries := m.entries ++ [{ key, val, live := true }], nlive := m.nlive + 1, buckets }

def get (m : Table K V) (key : K) : Option (Option V) := do
  match ← find hash m key with
  | some e => some (m.entries[e]?.map Entry.val)
  | none => some none

def has (m : Table K V) (key : K) : Option Bool := (find hash m key).map Option.isSome

def delete (m : Table K V) (key : K) : Option (Table K V × Bool) := do
  match ← find hash m key with
  | some e => some ({ m with entries := m.entries.modify e Entry.kill, nlive := m.nlive - 1 }, true)
  | none => some (m, false)

end

def clear (m : Table K V) : Table K V :=
  { m with
    entries := if m.iterDepth = 0 then [] else m.entries.map Entry.kill
    nlive := 0
    buckets := List.replicate m.buckets.length none }

/-! ### Iteration -/

def iterCount (m : Table K V) : ℕ := m.entries.length

def iterLive (m : Table K V) (i : ℕ) : Bool := m.entries[i]?.any Entry.live

def iterAt (m : Table K V) (i : ℕ) : Option (K × V) :=
  match m.entries[i]? with
  | some e => if e.live then some (e.key, e.val) else none
  | none => none

def iterEnter (m : Table K V) : Table K V := { m with iterDepth := m.iterDepth + 1 }

def iterExit (hash : K → ℕ) (m : Table K V) : Option (Table K V) :=
  let m := { m with iterDepth := m.iterDepth - 1 }
  if m.iterDepth = 0 ∧ m.nlive ≤ m.entries.length / 2 ∧ 16 ≤ m.entries.length then compact hash m else some m

/-- The turns of an iteration until it has an entry to show. -/
def nextLoop (m : Table K V) : ℕ → ℕ → Option (Option ((K × V) × ℕ))
  | 0, _ => some none
  | k + 1, i =>
    if i < iterCount m then
      if iterLive m i then (iterAt m i).map fun e => some (e, i + 1) else nextLoop m k (i + 1)
    else some none

/-! ### Own keys -/

/-- The canonical array index that a key spells. -/
def keyArrayIndex (k : Bytes) : Option ℕ :=
  if k.length = 0 ∨ 10 < k.length then none
  else if k.head? = some 48 ∧ 1 < k.length then none
  else if k.all fun b => 48 ≤ b && b ≤ 57 then
    let v := k.foldl (fun v b => v * 10 + (b.toNat - 48)) 0
    if 4294967294 < v then none else some v
  else none

/-- Insert an index key, coming from the greater end. -/
def insertIndex (sorted : List (ℕ × Bytes)) (e : ℕ × Bytes) : List (ℕ × Bytes) :=
  sorted.orderedInsert (fun a b => b.1 ≤ a.1) e

def keysJsOrder (m : Table Bytes V) : List Bytes :=
  let keys := (m.entries.filter Entry.live).map Entry.key
  let idx := (keys.filterMap fun k => (keyArrayIndex k).map fun v => (v, k)).foldl insertIndex []
  idx.reverse.map Prod.snd ++ keys.filter fun k => (keyArrayIndex k).isNone

/-! ### Histories -/

/-- A map and the iterations over it. -/
structure Session (K V : Type) where
  map : Table K V
  cursors : List (Option ℕ)

def iterNext (hash : K → ℕ) (s : Session K V) (c : ℕ) : Option (Session K V × Res K V) :=
  match s.cursors[c]? with
  | some (some i) => do
    match ← nextLoop s.map (iterCount s.map) i with
    | some (e, i) => some ({ s with cursors := s.cursors.set c (some i) }, .entry (some e))
    | none => some ({ map := ← iterExit hash s.map, cursors := s.cursors.set c none }, .entry none)
  | _ => some (s, .entry none)

/-- An iteration is left. -/
def iterClose (hash : K → ℕ) (s : Session K V) (c : ℕ) : Option (Session K V × Res K V) :=
  match s.cursors[c]? with
  | some (some _) => do some ({ map := ← iterExit hash s.map, cursors := s.cursors.set c none }, .done)
  | _ => some (s, .done)

variable (kind : KeyKind)

def step (s : Session (Key kind) V) : Op (Key kind) V → Option (Session (Key kind) V × Res (Key kind) V)
  | .set k v => do some ({ s with map := ← set (hashKey kind) s.map (probeKey kind k) v }, .done)
  | .get k => do some (s, .value (← get (hashKey kind) s.map (probeKey kind k)))
  | .has k => do some (s, .flag (← has (hashKey kind) s.map (probeKey kind k)))
  | .delete k => do
    let r ← delete (hashKey kind) s.map (probeKey kind k)
    some ({ s with map := r.1 }, .flag r.2)
  | .clear => some ({ s with map := clear s.map }, .done)
  | .size => some (s, .count s.map.nlive)
  | .enter => some ({ map := iterEnter s.map, cursors := s.cursors ++ [some 0] }, .done)
  | .next c => iterNext (hashKey kind) s c
  | .leave c => iterClose (hashKey kind) s c

/-- The state after a history, and its results. -/
def run : Session (Key kind) V → List (Op (Key kind) V) → Option (Session (Key kind) V × List (Res (Key kind) V))
  | s, [] => some (s, [])
  | s, op :: ops => do
    let r ← step kind s op
    let rs ← run r.1 ops
    some (rs.1, r.2 :: rs.2)

end Scriptc.Runtime.ScrMap
