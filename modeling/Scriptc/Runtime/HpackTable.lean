import Scriptc.Runtime.Hpack
import Mathlib.Data.List.Basic

/-!
# What the dynamic table is for

The table as its specification has it: the entries that were inserted, newest first, cut to what
fits. A header block is a list of fields, and each field says what becomes of the table and which
header it stands for.

The ring of buffers represents such a table (`Rep`), and every operation on the ring keeps it so.
-/

namespace Scriptc.Runtime.Hpack

open List Function

abbrev Header := Bytes × Bytes

/-! ### The specification -/

def entrySize (e : Header) : ℕ := e.1.length + e.2.length + 32

def sizeOf (es : List Header) : ℕ := (es.map entrySize).sum

/-- The longest part of the newest entries that fits. -/
def fit : ℕ → List Header → List Header
  | _, [] => []
  | m, e :: es => if entrySize e ≤ m then e :: fit (m - entrySize e) es else []

/-- The entries that are left when room is made for so many octets. -/
def cut (need max : ℕ) (es : List Header) : List Header := if need ≤ max then fit (max - need) es else []

/-- The dynamic table of the specification. -/
structure SpecTable where
  /-- Every entry so far. -/
  inserted : List Header
  /-- Those that are left. -/
  entries : List Header
  max : ℕ
  ceiling : ℕ

namespace SpecTable

def init : SpecTable := { inserted := [], entries := [], max := 4096, ceiling := 4096 }

variable (T : SpecTable)

def insert (e : Header) : SpecTable := { T with inserted := e :: T.inserted, entries := fit T.max (e :: T.entries) }

def resize (m : ℕ) : SpecTable := { T with entries := fit m T.entries, max := m }

/-- Static entries first, then the dynamic ones. -/
def lookup (i : ℕ) : Option Header := if 1 ≤ i ∧ i ≤ 61 then staticTable[i - 1]? else if i = 0 then none else T.entries[i - 62]?

end SpecTable

/-- A field of a header block. -/
inductive Field where
  | indexed (i : ℕ)
  | resize (m : ℕ)
  /-- The name is an index or spelled out. -/
  | literal (incremental : Bool) (name : ℕ ⊕ Bytes) (value : Bytes)

def parseName (idx : ℕ) (p : Bytes) : Option ((ℕ ⊕ Bytes) × Bytes) :=
  if idx = 0 then (strDecode p).map fun s => (.inr s.1, s.2) else some (.inl idx, p)

/-- The field that starts with an octet, and what follows it. -/
def parseField (b : UInt8) (p : Bytes) : Option (Field × Bytes) :=
  if b.toNat &&& 0x80 ≠ 0 then (intDecode 7 (b :: p)).map fun x => (.indexed x.1, x.2)
  else if b.toNat &&& 0xe0 = 0x20 then (intDecode 5 (b :: p)).map fun x => (.resize x.1, x.2)
  else do
    let (idx, p) ← intDecode (if b.toNat &&& 0xc0 = 0x40 then 6 else 4) (b :: p)
    let (name, p) ← parseName idx p
    let (value, p) ← strDecode p
    some (.literal (b.toNat &&& 0xc0 = 0x40) name value, p)

namespace SpecTable

variable (T : SpecTable)

def nameOf : ℕ ⊕ Bytes → Option Bytes
  | .inl i => (T.lookup i).map Prod.fst
  | .inr s => some s

/-- What a field does, and the headers it stands for. -/
def apply : Field → Option (SpecTable × List Header)
  | .indexed i => (T.lookup i).map fun e => (T, [e])
  | .resize m => if T.ceiling < m then none else some (T.resize m, [])
  | .literal incremental name value => do
    let name ← T.nameOf name
    some (if incremental then T.insert (name, value) else T, [(name, value)])

/-- A field that inserts an entry and takes its name from the table does not drop that name. -/
def keepsName : Field → Bool
  | .literal true (.inl i) value =>
    i ≤ 61 || (T.entries[i - 62]?).all fun e => i - 62 < (cut (entrySize (e.1, value)) T.max T.entries).length
  | _ => true

end SpecTable

def specField (T : SpecTable) (b : UInt8) (p : Bytes) : Option (SpecTable × List Header × Bytes) := do
  let (f, q) ← parseField b p
  let (T', hs) ← T.apply f
  some (T', hs, q)

/-- A block: the table it leaves, its headers, and whether it was good. -/
def specBlock : ℕ → SpecTable → Bytes → SpecTable × List Header × Bool
  | _, T, [] => (T, [], true)
  | 0, T, _ :: _ => (T, [], false)
  | k + 1, T, b :: p =>
    match specField T b p with
    | none => (T, [], false)
    | some (T', hs, q) =>
      let r := specBlock k T' q
      (r.1, hs ++ r.2.1, r.2.2)

/-! ### What fits -/

theorem sizeOf_cons (e : Header) (es : List Header) : sizeOf (e :: es) = entrySize e + sizeOf es := by
  rw [sizeOf, map_cons, sum_cons]
  rfl

theorem fit_cons (m : ℕ) (e : Header) (es : List Header) :
    fit m (e :: es) = if entrySize e ≤ m then e :: fit (m - entrySize e) es else [] := rfl

/-- What fits is a first part of the entries, it fits, and no longer one does. -/
theorem fit_longest (m : ℕ) (es : List Header) : fit m es <+: es ∧ sizeOf (fit m es) ≤ m ∧
    ∀ l, l <+: es → sizeOf l ≤ m → l <+: fit m es := by
  induction es generalizing m with
  | nil => exact ⟨prefix_rfl, Nat.zero_le _, fun l hl _ => hl⟩
  | cons e es ih =>
    rw [fit_cons]
    obtain ⟨h1, h2, h3⟩ := ih (m - entrySize e)
    by_cases he : entrySize e ≤ m
    · rw [if_pos he]
      refine ⟨(prefix_cons_inj e).mpr h1, ?_, fun l hl hs => ?_⟩
      · rw [sizeOf_cons]
        omega
      · cases l with
        | nil => exact nil_prefix
        | cons x l =>
          obtain ⟨rfl, hl'⟩ := cons_prefix_cons.mp hl
          rw [sizeOf_cons] at hs
          exact (prefix_cons_inj x).mpr (h3 l hl' (by omega))
    · rw [if_neg he]
      refine ⟨ nil_prefix, Nat.zero_le _, fun l hl hs => ?_⟩
      cases l with
      | nil => exact nil_prefix
      | cons x l =>
        obtain ⟨rfl, -⟩ := cons_prefix_cons.mp hl
        rw [sizeOf_cons] at hs
        omega

variable {es : List Header}

theorem fit_of_le {m : ℕ} (h : sizeOf es ≤ m) : fit m es = es := by
  obtain ⟨h1, -, h3⟩ := fit_longest m es
  exact h1.eq_of_length (Nat.le_antisymm h1.length_le (h3 es prefix_rfl h).length_le)

/-- As long as the entries do not fit, the oldest one goes. -/
theorem fit_dropLast {m : ℕ} (h : m < sizeOf es) : fit m es = fit m es.dropLast := by
  induction es generalizing m with
  | nil => rfl
  | cons e es ih =>
    rw [sizeOf_cons] at h
    cases es with
    | nil =>
      have : sizeOf [] = 0 := rfl
      rw [fit_cons, if_neg (by omega)]
      rfl
    | cons e' es =>
      rw [dropLast_cons_of_ne_nil (by simp), fit_cons, fit_cons m e (e' :: es).dropLast]
      by_cases he : entrySize e ≤ m
      · rw [if_pos he, if_pos he, ih (by omega)]
      · rw [if_neg he, if_neg he]

/-! ### The ring -/

/-- The slot of the entry with so many newer ones, in a ring with this head. -/
def ringPos (head cap k : ℕ) : ℕ := (head + cap - 1 - k) % cap

variable {head cap k : ℕ}

theorem ringPos_eq (hh : head < cap) (hk : k < cap) :
    ringPos head cap k = if k < head then head - 1 - k else head + cap - 1 - k := by
  rw [ringPos]
  split_ifs with h
  · rw [show head + cap - 1 - k = head - 1 - k + cap by omega, Nat.add_mod_right, Nat.mod_eq_of_lt (by omega)]
  · exact Nat.mod_eq_of_lt (by omega)

theorem next_head {head cap : ℕ} (hh : head < cap) : (head + 1) % cap = if head + 1 = cap then 0 else head + 1 := by
  split_ifs with hw
  · rw [hw, Nat.mod_self]
  · exact Nat.mod_eq_of_lt (by omega)

/-- A new entry goes where the head was, -/
theorem ringPos_zero {head cap : ℕ} (hh : head < cap) : ringPos ((head + 1) % cap) cap 0 = head := by
  rw [ringPos_eq (Nat.mod_lt _ (by omega)) (by omega), next_head hh]
  split_ifs <;> omega

/-- and the others stay where they are. -/
theorem ringPos_succ (hh : head < cap) (hk : k + 1 < cap) :
    ringPos ((head + 1) % cap) cap (k + 1) = ringPos head cap k := by
  rw [ringPos_eq (Nat.mod_lt _ (by omega)) hk, ringPos_eq hh (by omega), next_head hh]
  split_ifs <;> omega

theorem ringPos_ne_head (hh : head < cap) (hk : k + 1 < cap) : ringPos head cap k ≠ head := by
  rw [ringPos_eq hh (by omega)]
  split_ifs <;> omega

def Dyntab.pos (t : Dyntab) (k : ℕ) : ℕ := ringPos t.head t.cap k

/-- A buffer of the table holds an entry. -/
structure TableEntry.Holds (h : Heap) (te : TableEntry) (e : Header) : Prop where
  name : h.block te.name = some e.1
  nameLen : te.nameLen = e.1.length
  value : h.block te.value = some e.2
  valueLen : te.valueLen = e.2.length

/-- The buffers of an entry. -/
def TableEntry.buffers (te : TableEntry) : List ℕ := [te.name, te.value]

/-- A ring holds these entries, newest first, in these buffers. -/
structure Rep (h : Heap) (t : Dyntab) (es : List Header) (tes : List TableEntry) : Prop where
  count : t.n = tes.length
  count_le : t.n ≤ t.cap
  head_lt : 0 < t.cap → t.head < t.cap
  size : t.size = sizeOf es
  slots : ∀ k te, tes[k]? = some te → t.slot (t.pos k) = some te
  length : tes.length = es.length
  holds : ∀ (k : ℕ) (te : TableEntry) (e : Header), tes[k]? = some te → es[k]? = some e → te.Holds h e
  /-- No buffer is shared. -/
  nodup : (tes.flatMap TableEntry.buffers).Nodup
  given : ∀ p, (h.block p).isSome → p < h.next

variable {h : Heap}

theorem Heap.free_eq {p : ℕ} {b : Bytes} (hb : h.block p = some b) :
    h.free p = some { h with block := update h.block p none } := by
  rw [Heap.free, hb]
  rfl

/-- The size without the oldest entry. -/
theorem sizeOf_concat (es : List Header) (e : Header) : sizeOf (es ++ [e]) = sizeOf es + entrySize e := by
  rw [sizeOf, sizeOf, map_append, sum_append]
  rfl

variable {e : Header} {te : TableEntry}

theorem TableEntry.Holds.congr {h h' : Heap} (w : te.Holds h e)
    (hn : h'.block te.name = h.block te.name) (hv : h'.block te.value = h.block te.value) : te.Holds h' e :=
  ⟨hn.trans w.name, w.nameLen, hv.trans w.value, w.valueLen⟩

namespace Rep

variable {h : Heap} {t : Dyntab} {es : List Header} {tes : List TableEntry}

theorem init : Rep .empty .init [] [] where
  count := rfl
  count_le := le_refl _
  head_lt hc := absurd hc (lt_irrefl _)
  size := rfl
  slots k te hk := by simp at hk
  length := rfl
  holds k te e hk _ := by simp at hk
  nodup := nodup_nil
  given p hp := by cases hp

variable (r : Rep h t es tes)

include r

theorem congr_max (m : ℕ) : Rep h { t with max := m } es tes :=
  ⟨r.count, r.count_le, r.head_lt, r.size, r.slots, r.length, r.holds, r.nodup, r.given⟩

theorem holds_at {k : ℕ} (he : es[k]? = some e) : ∃ te, tes[k]? = some te ∧ te.Holds h e := by
  obtain ⟨hk, -⟩ := List.getElem?_eq_some_iff.mp he
  have hte := List.getElem?_eq_getElem (r.length.trans_gt hk)
  exact ⟨_, hte, r.holds k _ e hte he⟩

/-- Eviction of the oldest entry. -/
theorem evictOne (hpos : 0 < t.n) : ∃ h' t', evictOne h t = some (h', t') ∧ Rep h' t' es.dropLast tes.dropLast ∧
    t'.n + 1 = t.n ∧ t'.max = t.max ∧ t'.settingsMax = t.settingsMax ∧ t'.cap = t.cap := by
  have hn := r.count
  have hl := r.length
  have hle := r.count_le
  obtain rfl | ⟨tes, te, rfl⟩ := tes.eq_nil_or_concat'
  · rw [hn] at hpos
    exact absurd hpos (lt_irrefl _)
  obtain rfl | ⟨es, e, rfl⟩ := es.eq_nil_or_concat'
  · simp at hl
  simp only [length_append, length_singleton] at hn hl
  have hte : (tes ++ [te])[tes.length]? = some te := by simp
  have he : (es ++ [e])[tes.length]? = some e := by
    rw [show tes.length = es.length by omega]
    simp
  have w := r.holds _ te e hte he
  have hslot := r.slots _ te hte
  have hp : t.pos tes.length = (t.head + t.cap - t.n) % t.cap := by
    rw [Dyntab.pos, ringPos, hn]
    congr 1
    omega
  rw [hp] at hslot
  -- the two buffers of the oldest entry are no other entry's, and not the same
  have hnd := r.nodup
  rw [flatMap_append, nodup_append] at hnd
  obtain ⟨hnd, hself, hdis⟩ := hnd
  have hne : te.value ≠ te.name := by
    intro heq
    simp [TableEntry.buffers, heq] at hself
  have hother : ∀ te' ∈ tes, ∀ p ∈ te'.buffers, p ≠ te.name ∧ p ≠ te.value := by
    intro te' hte' p hp
    have hmem : p ∈ tes.flatMap TableEntry.buffers := mem_flatMap.mpr ⟨te', hte', hp⟩
    exact ⟨hdis p hmem _ (by simp [TableEntry.buffers]), hdis p hmem _ (by simp [TableEntry.buffers])⟩
  have hfree : (⟨h.next, update h.block te.name none⟩ : Heap).free te.value =
      some ⟨h.next, update (update h.block te.name none) te.value none⟩ :=
    Heap.free_eq (b := e.2) ((update_of_ne hne _ _).trans w.value)
  have hblock : ∀ te' ∈ tes, ∀ p ∈ te'.buffers,
      update (update h.block te.name none) te.value none p = h.block p := by
    intro te' hte' p hp
    obtain ⟨h1, h2⟩ := hother te' hte' p hp
    rw [update_of_ne h2, update_of_ne h1]
  refine ⟨⟨h.next, update (update h.block te.name none) te.value none⟩,
    { t with size := t.size - (te.nameLen + te.valueLen + 32), n := t.n - 1 }, ?_, ?_, ?_, rfl, rfl, rfl⟩
  · rw [Hpack.evictOne, hslot]
    simp only [Option.bind_eq_bind, Option.bind_some, Heap.free_eq w.name, hfree]
  · rw [dropLast_concat, dropLast_concat]
    constructor
    · simp only
      omega
    · simp only [Dyntab.cap] at hle ⊢
      omega
    · exact r.head_lt
    · simp only
      rw [r.size, sizeOf_concat, entrySize, w.nameLen, w.valueLen]
      omega
    · intro k te' hk
      have hlt := (List.getElem?_eq_some_iff.mp hk).1
      exact r.slots k te' (by rw [getElem?_append_left hlt]; exact hk)
    · omega
    · intro k te' e' hk hk'
      have hlt := (List.getElem?_eq_some_iff.mp hk).1
      have hlt' := (List.getElem?_eq_some_iff.mp hk').1
      have hmem := mem_of_getElem? hk
      have w' := r.holds k te' e' (by rw [getElem?_append_left hlt]; exact hk)
        (by rw [getElem?_append_left hlt']; exact hk')
      exact w'.congr (hblock te' hmem _ (by simp [TableEntry.buffers])) (hblock te' hmem _ (by simp [TableEntry.buffers]))
    · exact hnd
    · intro p hp
      simp only [update_apply] at hp
      split_ifs at hp
      · cases hp
      · cases hp
      · exact r.given p hp
  · simp only
    omega

end Rep

/-! ### Eviction -/

theorem cut_first (need max : ℕ) (es : List Header) : cut need max es <+: es := by
  rw [cut]
  split_ifs
  · exact (fit_longest _ es).1
  · exact nil_prefix

theorem cut_of_le {need max : ℕ} (h : sizeOf es + need ≤ max) : cut need max es = es := by
  rw [cut, if_pos (by omega), fit_of_le (by omega)]

theorem cut_dropLast {need max : ℕ} (h : max < sizeOf es + need) :
    cut need max es = cut need max es.dropLast := by
  rw [cut, cut]
  by_cases hn : need ≤ max
  · rw [if_pos hn, if_pos hn, fit_dropLast (by omega)]
  · rw [if_neg hn, if_neg hn]

theorem take_dropLast {α : Type} {l : List α} {k : ℕ} (h : k < l.length) : l.dropLast.take k = l.take k := by
  rw [dropLast_eq_take, take_take, min_eq_left (by omega)]

theorem Rep.evictLoop {t : Dyntab} {tes : List TableEntry} (r : Rep h t es tes) (need : ℕ)
    {k : ℕ} (hk : t.n ≤ k) : ∃ h' t', evictLoop need k h t = some (h', t') ∧
      Rep h' t' (cut need t.max es) (tes.take (cut need t.max es).length) ∧
      t'.max = t.max ∧ t'.settingsMax = t.settingsMax ∧ t'.cap = t.cap := by
  induction k generalizing h t es tes with
  | zero =>
    have h0 : tes = [] := length_eq_zero_iff.mp (r.count.symm.trans (Nat.le_zero.mp hk))
    have h0' : es = [] := length_eq_zero_iff.mp (r.length.symm.trans (by rw [h0]; rfl))
    subst h0 h0'
    have hc : cut need t.max [] = [] := prefix_nil.mp (cut_first _ _ _)
    rw [hc]
    exact ⟨h, t, rfl, r, rfl, rfl, rfl⟩
  | succ k ih =>
    rw [Hpack.evictLoop]
    by_cases hfull : 0 < t.n ∧ t.max < t.size + need
    · rw [if_pos hfull]
      obtain ⟨h₁, t₁, h1, r₁, hn, hm, hs, hcap⟩ := r.evictOne hfull.1
      obtain ⟨h', t', h2, r', hm', hs', hcap'⟩ := ih r₁ (by omega)
      have hsize := r.size
      rw [hm, ← cut_dropLast (by omega)] at r'
      have hlt : (cut need t.max es).length < tes.length := by
        have hle := (cut_first need t.max es.dropLast).length_le
        rw [← cut_dropLast (by omega), length_dropLast, ← r.length, ← r.count] at hle
        rw [← r.count]
        omega
      rw [take_dropLast hlt] at r'
      refine ⟨h', t', ?_, r', hm'.trans hm, hs'.trans hs, hcap'.trans hcap⟩
      rw [h1]
      exact h2
    · rw [if_neg hfull]
      have hfit : cut need t.max es = es ∨ es = [] := by
        rcases Nat.eq_zero_or_pos t.n with h0 | hpos
        · right
          exact length_eq_zero_iff.mp (r.length.symm.trans (r.count.symm.trans h0))
        · left
          have hsize := r.size
          exact cut_of_le (by omega)
      have hc : cut need t.max es = es := by
        rcases hfit with hc | rfl
        · exact hc
        · exact prefix_nil.mp (cut_first _ _ _)
      rw [hc, ← r.length, take_length]
      exact ⟨h, t, rfl, r, rfl, rfl, rfl⟩

namespace Rep

variable {h : Heap} {t : Dyntab} {es : List Header} {tes : List TableEntry} (r : Rep h t es tes)

include r

theorem dyntabEvict (need : ℕ) : ∃ h' t', dyntabEvict h t need = some (h', t') ∧
    Rep h' t' (cut need t.max es) (tes.take (cut need t.max es).length) ∧
    t'.max = t.max ∧ t'.settingsMax = t.settingsMax ∧ t'.cap = t.cap := r.evictLoop need (le_refl _)

/-! ### Insertion -/

/-- A larger ring holds the same entries in the same order. -/
theorem growRing : Rep h (growRing t) es tes ∧ (growRing t).n < (growRing t).cap := by
  have hcount := r.count
  have hle := r.count_le
  have hcap : (Hpack.growRing t).cap = if t.cap = 0 then 16 else t.cap * 2 := by
    rw [Dyntab.cap, Hpack.growRing]
    dsimp only
    rw [length_append, length_map, length_range, length_replicate]
    split_ifs <;> omega
  have hroom : t.n < (Hpack.growRing t).cap := by
    rw [hcap]
    split_ifs <;> omega
  refine ⟨⟨hcount, hroom.le, fun _ => hroom, r.size, fun k te hk => ?_, r.length, r.holds, r.nodup, r.given⟩, hroom⟩
  have hlt := (List.getElem?_eq_some_iff.mp hk).1
  have hpos : (Hpack.growRing t).pos k = t.n - 1 - k := by
    show ringPos t.n (Hpack.growRing t).cap k = t.n - 1 - k
    rw [ringPos_eq hroom (by omega), if_pos (by omega)]
  have hold : t.head + t.cap - t.n + (t.n - 1 - k) = t.head + t.cap - 1 - k := by omega
  rw [hpos, Dyntab.slot, Hpack.growRing]
  dsimp only
  rw [getElem?_append_left (by simp; omega), getElem?_map, List.getElem?_range (by omega)]
  simp only [Option.map_some, Option.join_some]
  rw [hold]
  exact r.slots k te hk

/-- A new entry before the others. -/
theorem push {name value : Bytes} {t' : Dyntab} (hroom : t.n < t.cap)
    (he : t'.e = t.e.set t.head (some ⟨h.next, name.length, h.next + 1, value.length⟩))
    (hh : t'.head = (t.head + 1) % t.cap) (hn : t'.n = t.n + 1) (hs : t'.size = t.size + entrySize (name, value)) :
    Rep ((h.malloc name).1.malloc value).1 t' ((name, value) :: es)
      (⟨h.next, name.length, h.next + 1, value.length⟩ :: tes) := by
  have hcount := r.count
  have hhead := r.head_lt (by omega)
  have hcap : t'.cap = t.cap := by rw [Dyntab.cap, he, length_set]; rfl
  have hold : ∀ p, p < h.next → ((h.malloc name).1.malloc value).1.block p = h.block p := by
    intro p hp
    simp only [Heap.malloc]
    rw [update_of_ne (by omega), update_of_ne (by omega)]
  have hlive : ∀ te ∈ tes, ∀ p ∈ te.buffers, p < h.next := by
    intro te hte p hp
    obtain ⟨k, hk⟩ := mem_iff_getElem?.mp hte
    have hlt := (List.getElem?_eq_some_iff.mp hk).1
    have w := r.holds k te _ hk (List.getElem?_eq_getElem (r.length.symm.trans_gt hlt))
    simp only [TableEntry.buffers, mem_cons, not_mem_nil, or_false] at hp
    rcases hp with rfl | rfl
    · exact r.given _ (by rw [w.name]; rfl)
    · exact r.given _ (by rw [w.value]; rfl)
  constructor
  · rw [hn, hcount, length_cons]
  · omega
  · intro _
    rw [hh, hcap]
    exact Nat.mod_lt _ (by omega)
  · rw [hs, r.size, sizeOf_cons, Nat.add_comm]
  · intro k te hk
    rw [Dyntab.slot, Dyntab.pos, he, hh, hcap]
    cases k with
    | zero =>
      rw [ringPos_zero hhead, List.getElem?_set_self hhead]
      exact hk
    | succ k =>
      rw [List.getElem?_cons_succ] at hk
      have hlt := (List.getElem?_eq_some_iff.mp hk).1
      rw [ringPos_succ hhead (by omega), List.getElem?_set_ne (ringPos_ne_head hhead (by omega)).symm]
      exact r.slots k te hk
  · rw [length_cons, length_cons, r.length]
  · intro k te e hk hk'
    cases k with
    | zero =>
      cases hk
      cases hk'
      refine ⟨?_, rfl, ?_, rfl⟩
      · simp only [Heap.malloc]
        rw [update_of_ne (by omega), update_self]
      · simp only [Heap.malloc]
        rw [update_self]
    | succ k =>
      rw [List.getElem?_cons_succ] at hk hk'
      have hmem := mem_of_getElem? hk
      exact (r.holds k te e hk hk').congr (hold _ (hlive te hmem _ (by simp [TableEntry.buffers])))
        (hold _ (hlive te hmem _ (by simp [TableEntry.buffers])))
  · have hfresh : ∀ p ∈ tes.flatMap TableEntry.buffers, p < h.next := by
      intro p hp
      obtain ⟨te, hte, hp⟩ := mem_flatMap.mp hp
      exact hlive te hte p hp
    rw [flatMap_cons, nodup_append]
    refine ⟨by simp [TableEntry.buffers], r.nodup, fun p hp q hq => ?_⟩
    have hq := hfresh q hq
    simp only [TableEntry.buffers, mem_cons, not_mem_nil, or_false] at hp
    omega
  · intro p hp
    simp only [Heap.malloc, update_apply] at hp ⊢
    split_ifs at hp with h1 h2
    · omega
    · omega
    · have := r.given p hp
      omega

end Rep

/-! ### Reading -/

theorem TableEntry.Holds.read_name (w : te.Holds h e) :
    (Str.buffer te.name te.nameLen).read h = some e.1 := by
  simp [Str.read, w.name, w.nameLen]

theorem TableEntry.Holds.read_value (w : te.Holds h e) :
    (Str.buffer te.value te.valueLen).read h = some e.2 := by
  simp [Str.read, w.value, w.valueLen]

/-- A string is these bytes: its own, or the name of an entry with so many newer ones. -/
inductive NameOf (es : List Header) (tes : List TableEntry) : Str → Option ℕ → Bytes → Prop where
  | own (b : Bytes) : NameOf es tes (.bytes b) none b
  | entry {k : ℕ} {te : TableEntry} {e : Header} (hte : tes[k]? = some te) (he : es[k]? = some e) :
    NameOf es tes (.buffer te.name te.nameLen) (some k) e.1

namespace Rep

variable {h : Heap} {t : Dyntab} {es : List Header} {tes : List TableEntry} {name : Str} {b : Bytes} {o : Option ℕ}

theorem read_name (r : Rep h t es tes) (hn : NameOf es tes name o b) : name.read h = some b ∧ name.len = b.length := by
  cases hn with
  | own => exact ⟨rfl, rfl⟩
  | entry hte he =>
    have w := r.holds _ _ _ hte he
    exact ⟨w.read_name, w.nameLen⟩

end Rep

end Scriptc.Runtime.Hpack
