import Scriptc.Runtime.HpackSession

/-!
# The name of a new entry

A literal that is put into the table may take its name from an entry of the table. The decoder hands
the name on by its address, and the insertion makes room before it copies it. Here is when the
entry is still there: when it, the newer ones and the new one fit into the table.
-/

namespace Scriptc.Runtime.Hpack

open List Option

/-! ### What eviction frees -/

theorem evictOne_freed {h h' : Heap} {t t' : Dyntab} (hev : evictOne h t = some (h', t')) :
    ∃ e, t.slot ((t.head + t.cap - t.n) % t.cap) = some e ∧ h'.block e.name = none ∧
      ∀ p, h.block p = none → h'.block p = none := by
  obtain ⟨e, he, hev⟩ := bind_eq_some_iff.mp hev
  obtain ⟨h₁, h1, hev⟩ := bind_eq_some_iff.mp hev
  obtain ⟨h₂, h2, hev⟩ := bind_eq_some_iff.mp hev
  obtain ⟨-, -, h1⟩ := bind_eq_some_iff.mp h1
  obtain ⟨-, -, h2⟩ := bind_eq_some_iff.mp h2
  cases h1
  cases h2
  cases hev
  refine ⟨e, he, ?_, fun p hp => ?_⟩
  · simp only [Function.update_apply]
    split_ifs <;> rfl
  · simp only [Function.update_apply, hp]
    split_ifs <;> rfl

theorem evictLoop_keeps_none {need k : ℕ} {h h' : Heap} {t t' : Dyntab} (hev : evictLoop need k h t = some (h', t')) {p : ℕ}
    (hp : h.block p = none) : h'.block p = none := by
  induction k generalizing h t with
  | zero =>
    cases hev
    exact hp
  | succ k ih =>
    rw [evictLoop] at hev
    split_ifs at hev
    · obtain ⟨⟨h₁, t₁⟩, h1, hev⟩ := bind_eq_some_iff.mp hev
      obtain ⟨-, -, -, hkeep⟩ := evictOne_freed h1
      exact ih hev (hkeep p hp)
    · cases hev
      exact hp

namespace Rep

variable {h h' : Heap} {t t' : Dyntab} {es : List Header} {tes : List TableEntry}

/-- The name of an entry that is not left is freed. -/
theorem evictLoop_freed (r : Rep h t es tes) {need k : ℕ} (hk : t.n ≤ k) (hev : Hpack.evictLoop need k h t = some (h', t')) {j : ℕ}
    {te : TableEntry} (hte : tes[j]? = some te) (hj : (cut need t.max es).length ≤ j) : h'.block te.name = none := by
  have hlt := (List.getElem?_eq_some_iff.mp hte).1
  have hcount := r.count
  have hl := r.length
  induction k generalizing h t es tes with
  | zero => omega
  | succ k ih =>
    rw [Hpack.evictLoop] at hev
    by_cases hfull : 0 < t.n ∧ t.max < t.size + need
    · rw [if_pos hfull] at hev
      obtain ⟨⟨h₁, t₁⟩, h1, hev⟩ := bind_eq_some_iff.mp hev
      obtain ⟨h₂, t₂, h2, r₁, hn, hm, -, -⟩ := r.evictOne hfull.1
      obtain ⟨rfl, rfl⟩ := Prod.mk.inj (some.inj (h1.symm.trans h2))
      have hsize := r.size
      rcases Nat.lt_or_ge (j + 1) tes.length with hlast | hlast
      · refine ih r₁ (by omega) hev ?_ ?_ ?_ r₁.count r₁.length
        · rw [List.getElem?_dropLast, if_pos (by omega)]
          exact hte
        · rw [hm, ← cut_dropLast (by omega)]
          exact hj
        · rw [length_dropLast]
          omega
      · -- the entry is the oldest one
        obtain ⟨e, he, hfree, -⟩ := evictOne_freed h1
        have hslot := r.slots j te hte
        have hpos : t.pos j = (t.head + t.cap - t.n) % t.cap := by
          rw [Dyntab.pos, ringPos]
          congr 1
          omega
        rw [hpos, he] at hslot
        cases hslot
        exact evictLoop_keeps_none hev hfree
    · rw [not_and_or, not_lt, not_lt] at hfull
      have hsize := r.size
      rw [cut_of_le (by omega)] at hj
      omega

end Rep

/-! ### What fits with a new entry -/

variable {es : List Header}

/-- An entry is left when it fits with the newer ones. -/
theorem lt_length_fit {m k : ℕ} (hk : k < es.length) :
    k < (fit m es).length ↔ sizeOf (es.take (k + 1)) ≤ m := by
  obtain ⟨h1, h2, h3⟩ := fit_longest m es
  constructor
  · intro hlt
    have hpre : es.take (k + 1) <+: fit m es := by
      refine prefix_of_prefix_length_le (List.take_prefix _ _) h1 ?_
      rw [length_take]
      omega
    obtain ⟨rest, hrest⟩ := hpre
    have hsum : sizeOf (fit m es) = sizeOf (es.take (k + 1)) + sizeOf rest := by
      rw [← hrest, sizeOf, map_append, sum_append]
      rfl
    omega
  · intro hle
    have hlen := (h3 _ (List.take_prefix _ _) hle).length_le
    rw [length_take] at hlen
    omega

theorem lt_length_cut {need max k : ℕ} (hk : k < es.length) :
    k < (cut need max es).length ↔ sizeOf (es.take (k + 1)) + need ≤ max := by
  rw [cut]
  by_cases hn : need ≤ max
  · rw [if_pos hn, lt_length_fit hk]
    omega
  · rw [if_neg hn]
    constructor
    · intro hlt
      exact absurd hlt (Nat.not_lt_zero k)
    · omega

/-- The octets of the newest entries of a ring. -/
def newest (t : Dyntab) (k : ℕ) : ℕ :=
  ((List.range k).map fun j => ((t.slot ((t.head + t.cap - 1 - j) % t.cap)).map fun e => e.nameLen + e.valueLen + 32).getD 0).sum

variable {tes : List TableEntry}

theorem Rep.newest_eq {h : Heap} {t : Dyntab} (r : Rep h t es tes) {k : ℕ}
    (hk : k ≤ es.length) : newest t k = sizeOf (es.take k) := by
  have hl := r.length
  rw [newest, sizeOf]
  congr 1
  refine ext_getElem? fun j => ?_
  rw [getElem?_map, getElem?_map, getElem?_take]
  by_cases hj : j < k
  · obtain ⟨te, hte, w⟩ := r.holds_at (List.getElem?_eq_getElem (show j < es.length by omega))
    have hslot : t.slot ((t.head + t.cap - 1 - j) % t.cap) = some te := r.slots j te hte
    rw [List.getElem?_range hj, if_pos hj, List.getElem?_eq_getElem (show j < es.length by omega)]
    simp only [map_some, hslot, getD_some, w.nameLen, w.valueLen, entrySize]
  · rw [if_neg hj, List.getElem?_eq_none (by rw [length_range]; omega)]
    rfl

/-! ### Reachable decoders -/

/-- The decoders of a session: after any field of any of its blocks. -/
inductive Reached : Decoder → Prop where
  | init : Reached ⟨.empty, .init, []⟩
  | field {d d' : Decoder} {b : UInt8} {p q : Bytes} : Reached d → decodeField d b p = some (.more d' q) → Reached d'
  /-- A block has ended, well or not. -/
  | block {d : Decoder} : Reached d → Reached { d with out := [] }

/-- A literal that is put into the table and has its name from the table: the index of the name, the
name, the value, and what follows. -/
structure IncrementalLiteral (d : Decoder) (b : UInt8) (p : Bytes) (idx : ℕ) (name : Str) (value q : Bytes) : Prop where
  incremental : b.toNat &&& 0xc0 = 0x40
  dynamic : 62 ≤ idx
  index : ∃ old rest, intDecode 6 (b :: p) = some (idx, rest) ∧ tableLookup d.table idx = some (some (name, old)) ∧
    strDecode rest = some (value, q)

/-- Every read of the name is of a live entry: the insertion copies what the index denoted before,
and so does the header list after it. -/
def ReadsLive (d : Decoder) (name : Str) (value : Bytes) : Prop :=
  ∃ bytes h t, name.read d.heap = some bytes ∧ dyntabAdd d.heap d.table name value = some (h, t) ∧ name.read h = some bytes ∧
    (name.len + value.length + 32 ≤ d.table.max → ∃ copy kept, tableLookup t 62 = some (some (copy, kept)) ∧
      copy.read h = some bytes ∧ kept.read h = some value)

/-- The entry of an index fits into the table with the newer ones and the new one. -/
def StaysWith (t : Dyntab) (idx : ℕ) (name : Str) (value : Bytes) : Prop :=
  newest t (idx - 61) + (name.len + value.length + 32) ≤ t.max

instance (t : Dyntab) (idx : ℕ) (name : Str) (value : Bytes) : Decidable (StaysWith t idx name value) :=
  inferInstanceAs (Decidable (_ ≤ _))

section Literals

variable {d : Decoder} {T : SpecTable} {b : UInt8} {p q value : Bytes} {idx : ℕ} {name : Str}

/-- Its name is that of an entry. -/
theorem IncrementalLiteral.entry (l : IncrementalLiteral d b p idx name value q)
    (r : Rep d.heap d.table T.entries tes) :
    ∃ te e, tes[idx - 62]? = some te ∧ T.entries[idx - 62]? = some e ∧ te.Holds d.heap e ∧ name = .buffer te.name te.nameLen := by
  obtain ⟨old, rest, -, hlookup, -⟩ := l.index
  have hdyn := l.dynamic
  rcases r.tableLookup idx with ⟨-, hc⟩ | ⟨e, name', value', -, hc, hn, -⟩
  · rw [hlookup] at hc
    cases hc
  · rw [hlookup] at hc
    cases hc
    rw [if_neg (by omega)] at hn
    generalize ho : some (idx - 62) = o at hn
    generalize e.1 = bytes at hn
    cases hn with
    | own => cases ho
    | entry hte he =>
      cases ho
      exact ⟨_, _, hte, he, r.holds _ _ _ hte he, rfl⟩

theorem staysWith_iff (r : Rep d.heap d.table T.entries tes) (hmax : d.table.max = T.max)
    (hdyn : 62 ≤ idx) {e : Header} (he : T.entries[idx - 62]? = some e) (hlen : name.len = e.1.length) (value : Bytes) :
    StaysWith d.table idx name value ↔ idx - 62 < (cut (entrySize (e.1, value)) T.max T.entries).length := by
  have hlt := (List.getElem?_eq_some_iff.mp he).1
  rw [lt_length_cut hlt, StaysWith, r.newest_eq (by omega), hlen, hmax, entrySize, show idx - 62 + 1 = idx - 61 by omega]

/-- Where the entry has to go, its name is freed. -/
theorem not_read_of_gone (r : Rep d.heap d.table T.entries tes) (hmax : d.table.max = T.max) {k : ℕ}
    {te : TableEntry} {e : Header} (hte : tes[k]? = some te) (w : te.Holds d.heap e)
    (hgone : (cut (entrySize (e.1, value)) T.max T.entries).length ≤ k) {h : Heap} {t : Dyntab} :
    dyntabAdd d.heap d.table (.buffer te.name te.nameLen) value = some (h, t) → (Str.buffer te.name te.nameLen).read h = none := by
  intro hadd
  have hneed : (Str.buffer te.name te.nameLen).len + value.length + 32 = entrySize (e.1, value) := by
    rw [Str.len, w.nameLen, entrySize]
  obtain ⟨⟨h₁, t₁⟩, hev, hadd⟩ := bind_eq_some_iff.mp hadd
  rw [hneed] at hev hadd
  have hfree : h₁.block te.name = none := r.evictLoop_freed (le_refl _) hev hte (hmax ▸ hgone)
  have hread : (Str.buffer te.name te.nameLen).read h₁ = none := by
    rw [Str.read, hfree]
    rfl
  dsimp only at hadd
  split_ifs at hadd
  · cases hadd
    exact hread
  · rw [hread] at hadd
    cases hadd
  · rw [hread] at hadd
    cases hadd

theorem readsLive_iff (w : Tracks d.heap d.table T) (l : IncrementalLiteral d b p idx name value q) :
    ReadsLive d name value ↔ StaysWith d.table idx name value := by
  obtain ⟨tes, r, hmax, hset⟩ := w
  obtain ⟨te, e, hte, he, hold, rfl⟩ := l.entry r
  have hlen : (Str.buffer te.name te.nameLen).len = e.1.length := hold.nameLen
  rw [staysWith_iff r hmax l.dynamic he hlen value]
  constructor
  · rintro ⟨bytes, h, t, -, hadd, hread, -⟩
    by_contra hgone
    rw [not_read_of_gone r hmax hte hold (not_lt.mp hgone) hadd] at hread
    cases hread
  · intro hkeep
    have hfits : ∀ k, some (idx - 62) = some k → k < (cut (entrySize (e.1, value)) d.table.max T.entries).length := by
      rintro k ⟨⟩
      rw [hmax]
      exact hkeep
    obtain ⟨h, t, tes', hadd, r', hread, -, -⟩ := r.dyntabAdd (.entry hte he) hfits
    refine ⟨e.1, h, t, hold.read_name, hadd, hread, fun hfits => ?_⟩
    have hentries : fit d.table.max ((e.1, value) :: T.entries) =
        (e.1, value) :: fit (d.table.max - entrySize (e.1, value)) T.entries := by
      rw [fit_cons, if_pos]
      rw [entrySize, ← hold.nameLen]
      exact hfits
    rw [hentries] at r'
    rcases r'.tableLookup (T := { T with entries := _ }) 62 with ⟨hs, -⟩ | ⟨e', copy, kept, hs, hc, hn, hv⟩
    · cases hs
    · cases hs
      exact ⟨copy, kept, hc, (r'.read_name hn).1, hv⟩

theorem incremental_bits {n : ℕ} (hn : n < 256) (h : n &&& 0xc0 = 0x40) : n &&& 0x80 = 0 ∧ n &&& 0xe0 ≠ 0x20 := by
  decide +kernel +revert

/-- What the decoder does with such a literal. -/
theorem IncrementalLiteral.decodeField (l : IncrementalLiteral d b p idx name value q) :
    decodeField d b p = (dyntabAdd d.heap d.table name value).bind fun x =>
      (name.read x.1).bind fun bytes => some (.more ⟨x.1, x.2, d.out ++ [(bytes, value)]⟩ q) := by
  obtain ⟨old, rest, hint, hlookup, hstr⟩ := l.index
  obtain ⟨h80, he0⟩ := incremental_bits b.toNat_lt l.incremental
  have hname : literalName d.table idx rest = some (some (name, rest)) := by
    have hdyn := l.dynamic
    rw [literalName, if_neg (by omega), hlookup]
    rfl
  rw [Hpack.decodeField, if_neg (by omega), if_neg he0]
  simp only [l.incremental, if_true, hint, hname, hstr, bind_eq_bind, bind_some]

/-- A field that does not keep its name is such a literal. -/
theorem incrementalLiteral_of_parse (w : Tracks d.heap d.table T) {f : Field} (hf : parseField b p = some (f, q))
    (hk : T.keepsName f = false) : ∃ idx e name value, T.entries[idx - 62]? = some e ∧
      (cut (entrySize (e.1, value)) T.max T.entries).length ≤ idx - 62 ∧ IncrementalLiteral d b p idx name value q := by
  obtain ⟨tes, r, -, -⟩ := w
  obtain ⟨inc, i, value, rfl⟩ : ∃ inc i value, f = .literal inc (.inl i) value := by
    rcases f with i | m | ⟨inc, i | s, value⟩
    · cases hk
    · cases hk
    · exact ⟨inc, i, value, rfl⟩
    · cases inc <;> cases hk
  cases inc with
  | false => cases hk
  | true =>
    rw [SpecTable.keepsName, Bool.or_eq_false_iff, decide_eq_false_iff_not] at hk
    obtain ⟨hdyn, hall⟩ := hk
    cases he : T.entries[i - 62]? with
    | none =>
      rw [he] at hall
      cases hall
    | some e =>
      rw [he] at hall
      have hgone : ¬i - 62 < (cut (entrySize (e.1, value)) T.max T.entries).length := by simpa using hall
      rw [parseField] at hf
      by_cases h80 : b.toNat &&& 0x80 ≠ 0
      · rw [if_pos h80] at hf
        obtain ⟨x, -, hx⟩ := map_eq_some_iff.mp hf
        cases hx
      by_cases he0 : b.toNat &&& 0xe0 = 0x20
      · rw [if_neg h80, if_pos he0] at hf
        obtain ⟨x, -, hx⟩ := map_eq_some_iff.mp hf
        cases hx
      rw [if_neg h80, if_neg he0] at hf
      obtain ⟨⟨idx, rest⟩, hint, hf⟩ := bind_eq_some_iff.mp hf
      obtain ⟨⟨nm, rest'⟩, hname, hf⟩ := bind_eq_some_iff.mp hf
      obtain ⟨⟨value', q'⟩, hstr, hf⟩ := bind_eq_some_iff.mp hf
      simp only [some.injEq, Prod.mk.injEq, Field.literal.injEq, decide_eq_true_eq] at hf
      obtain ⟨⟨hinc, rfl, rfl⟩, rfl⟩ := hf
      rw [if_pos hinc] at hint
      have hname : idx = i ∧ rest = rest' := by
        rw [parseName] at hname
        by_cases h0 : idx = 0
        · rw [if_pos h0] at hname
          obtain ⟨s, -, hs⟩ := map_eq_some_iff.mp hname
          cases hs
        · rw [if_neg h0] at hname
          cases hname
          exact ⟨rfl, rfl⟩
      obtain ⟨rfl, rfl⟩ := hname
      rcases r.tableLookup idx with ⟨hs, -⟩ | ⟨e', name, old, -, hc, -⟩
      · rw [SpecTable.lookup, if_neg (by omega), if_neg (by omega), he] at hs
        cases hs
      · exact ⟨idx, e, name, value', he, not_lt.mp hgone, hinc, by omega, old, rest, hint, hc, hstr⟩

/-- A field that is decoded kept its name. -/
theorem keepsName_of_decoded (w : Tracks d.heap d.table T) {f : Field} (hf : parseField b p = some (f, q))
    {x : FieldResult} (hx : decodeField d b p = some x) : T.keepsName f = true := by
  by_contra hk
  obtain ⟨idx, e, name, value, he, hgone, l⟩ := incrementalLiteral_of_parse w hf (Bool.eq_false_iff.mpr hk)
  obtain ⟨tes, r, hmax, -⟩ := w
  obtain ⟨te, e', hte, he', hold, rfl⟩ := l.entry r
  rw [he] at he'
  cases he'
  rw [l.decodeField] at hx
  obtain ⟨⟨h, t⟩, hadd, hx⟩ := bind_eq_some_iff.mp hx
  rw [not_read_of_gone r hmax hte hold hgone hadd] at hx
  cases hx

theorem tracks_field (w : Tracks d.heap d.table T) {d' : Decoder} (hx : decodeField d b p = some (.more d' q)) :
    ∃ T', Tracks d'.heap d'.table T' := by
  rcases agrees_field w fun f q hf => keepsName_of_decoded w hf hx with ⟨-, hc⟩ | ⟨T', hs, q', h', t', -, hc, w'⟩
  · rw [hc] at hx
    cases hx
  · rw [hc] at hx
    cases hx
    exact ⟨T', w'⟩

end Literals

theorem Reached.tracks {d : Decoder} (hd : Reached d) : ∃ T, Tracks d.heap d.table T := by
  induction hd with
  | init => exact ⟨.init, [], Rep.init, rfl, rfl⟩
  | field _ hx ih =>
    obtain ⟨T, w⟩ := ih
    exact tracks_field w hx
  | block _ ih => exact ih

/-- **The insertion of a literal reads a live entry** in every reachable decoder exactly when the entry
whose name it takes fits into the table with the newer ones and the new one. -/
theorem insertion_readsLive_iff {d : Decoder} (hd : Reached d) {b : UInt8} {p : Bytes} {idx : ℕ} {name : Str} {value q : Bytes}
    (l : IncrementalLiteral d b p idx name value q) : ReadsLive d name value ↔ StaysWith d.table idx name value := by
  obtain ⟨T, w⟩ := hd.tracks
  exact readsLive_iff w l

/-- A session of one field that puts `a: ` into the table. -/
def oneEntry : Decoder :=
  ⟨((Heap.empty.malloc [0x61]).1.malloc []).1,
    { Dyntab.init with e := some ⟨0, 1, 1, 0⟩ :: replicate 15 none, head := 1, n := 1, size := 33 }, [([0x61], [])]⟩

theorem reached_oneEntry : Reached oneEntry :=
  Reached.field (b := 0x40) (p := [0x01, 0x61, 0x00]) (q := []) .init rfl

/-- The name is taken from that entry, and both fit. -/
theorem insertion_readsLive_kept : ReadsLive oneEntry (.buffer 0 1) [] :=
  have l : IncrementalLiteral oneEntry 0x7e [0x00] 62 (.buffer 0 1) [] [] := ⟨by decide, by decide, _, _, rfl, rfl, rfl⟩
  (insertion_readsLive_iff reached_oneEntry l).mpr (by decide)

/-- The same in a table of 64 octets. -/
def smallTable : Decoder := { oneEntry with table := { oneEntry.table with max := 64 } }

theorem reached_smallTable : Reached smallTable :=
  Reached.field (b := 0x3f) (p := [0x21]) (q := []) reached_oneEntry rfl

/-- There the entry goes to make room, and its name is copied from a freed buffer. -/
theorem insertion_reads_freed : Reached smallTable ∧
    IncrementalLiteral smallTable 0x7e [0x00] 62 (.buffer 0 1) [] [] ∧ ¬ReadsLive smallTable (.buffer 0 1) [] := by
  refine ⟨reached_smallTable, ⟨by decide, by decide, _, _, rfl, rfl, rfl⟩, ?_⟩
  rintro ⟨bytes, h, t, -, hadd, -⟩
  cases hadd

end Scriptc.Runtime.Hpack
