import Scriptc.Runtime.HpackTable

/-!
# The dynamic table over a session

Every header block that is decoded, whether it is good or not, leaves a ring that represents the
table of the specification, and gives the headers of the specification. There is one exception.
A field that inserts an entry may take its name from an entry that has to go to make room. The
decoder holds on to that name by its address, frees it, and then copies it.
-/

namespace Scriptc.Runtime.Hpack

open List Option

namespace Rep

variable {h : Heap} {t : Dyntab} {es : List Header} {tes : List TableEntry} {name : Str} {b value : Bytes} {o : Option ℕ}

/-- An insertion whose name stays. -/
theorem dyntabAdd (r : Rep h t es tes) (hn : NameOf es tes name o b)
    (hkeep : ∀ k, o = some k → k < (cut (entrySize (b, value)) t.max es).length) :
    ∃ h' t' tes', dyntabAdd h t name value = some (h', t') ∧ Rep h' t' (fit t.max ((b, value) :: es)) tes' ∧
      name.read h' = some b ∧ t'.max = t.max ∧ t'.settingsMax = t.settingsMax := by
  have hneed : name.len + value.length + 32 = entrySize (b, value) := by rw [(r.read_name hn).2, entrySize]
  obtain ⟨h₁, t₁, hev, r₁, hmax, hset, -⟩ := r.dyntabEvict (entrySize (b, value))
  -- the name is still there
  have hn₁ : NameOf (cut (entrySize (b, value)) t.max es) (tes.take (cut (entrySize (b, value)) t.max es).length) name o b := by
    cases hn with
    | own => exact .own b
    | @entry k te e hte he =>
      have hk := hkeep k rfl
      have hce : (cut (entrySize (e.1, value)) t.max es)[k]? = some e := by
        obtain ⟨rest, hrest⟩ := cut_first (entrySize (e.1, value)) t.max es
        rw [← he, ← hrest, getElem?_append_left hk]
        exact congrArg (·[k]?) (congrArg (cut _ _) hrest)
      exact .entry (by rw [getElem?_take, if_pos hk]; exact hte) hce
  have hread := r₁.read_name hn₁
  rw [Hpack.dyntabAdd]
  dsimp only
  rw [hneed, hev]
  simp only [bind_eq_bind, bind_some]
  rw [hmax]
  by_cases hbig : t.max < entrySize (b, value)
  · rw [if_pos hbig]
    have hcut : cut (entrySize (b, value)) t.max es = [] := if_neg (by omega)
    rw [fit_cons, if_neg (by omega)]
    rw [hcut] at r₁
    exact ⟨h₁, t₁, _, rfl, r₁, hread.1, hmax, hset⟩
  · rw [if_neg hbig]
    have hcut : cut (entrySize (b, value)) t.max es = fit (t.max - entrySize (b, value)) es := if_pos (by omega)
    have hfit : fit t.max ((b, value) :: es) = (b, value) :: cut (entrySize (b, value)) t.max es := by
      rw [fit_cons, if_pos (by omega), hcut]
    rw [hfit]
    -- with room in the ring, the new entry goes to its head
    obtain ⟨t₂, ht₂, r₂, hroom, hmax₂, hset₂⟩ : ∃ t₂, (if t₁.n = t₁.cap then Hpack.growRing t₁ else t₁) = t₂ ∧
        Rep h₁ t₂ (cut (entrySize (b, value)) t.max es) (tes.take (cut (entrySize (b, value)) t.max es).length) ∧
        t₂.n < t₂.cap ∧ t₂.max = t₁.max ∧ t₂.settingsMax = t₁.settingsMax := by
      by_cases hfull : t₁.n = t₁.cap
      · rw [if_pos hfull]
        exact ⟨_, rfl, r₁.growRing.1, r₁.growRing.2, rfl, rfl⟩
      · rw [if_neg hfull]
        exact ⟨_, rfl, r₁, Nat.lt_of_le_of_ne r₁.count_le hfull, rfl, rfl⟩
    rw [ht₂, hread.1, bind_some, hread.2]
    have r₃ : Rep ((h₁.malloc b).1.malloc value).1
        { t₂ with
          e := t₂.e.set t₂.head (some ⟨h₁.next, b.length, h₁.next + 1, value.length⟩)
          head := (t₂.head + 1) % t₂.cap
          n := t₂.n + 1
          size := t₂.size + entrySize (b, value) } _ _ := r₂.push hroom rfl rfl rfl rfl
    refine ⟨_, _, _, rfl, r₃, ?_, hmax₂.trans hmax, hset₂.trans hset⟩
    have hn₃ : NameOf ((b, value) :: cut (entrySize (b, value)) t.max es)
        (⟨h₁.next, b.length, h₁.next + 1, value.length⟩ :: tes.take (cut (entrySize (b, value)) t.max es).length)
        name (o.map (· + 1)) b := by
      cases hn₁ with
      | own => exact .own b
      | entry hte he => exact .entry hte he
    exact (r₃.read_name hn₃).1

/-- An index of the table names what the specification says. -/
theorem tableLookup {T : SpecTable} (r : Rep h t T.entries tes) (i : ℕ) :
    (T.lookup i = none ∧ tableLookup t i = some none) ∨
    ∃ e name value, T.lookup i = some e ∧ tableLookup t i = some (some (name, value)) ∧
      NameOf T.entries tes name (if i ≤ 61 then none else some (i - 62)) e.1 ∧ value.read h = some e.2 := by
  rw [SpecTable.lookup, Hpack.tableLookup]
  by_cases hs : 1 ≤ i ∧ i ≤ 61
  · rw [if_pos hs, if_pos hs]
    cases he : staticTable[i - 1]? with
    | none => exact .inl ⟨rfl, rfl⟩
    | some e =>
      refine .inr ⟨e, .bytes e.1, .bytes e.2, rfl, rfl, ?_, rfl⟩
      rw [if_pos hs.2]
      exact .own e.1
  · rw [if_neg hs, if_neg hs]
    have hcount := r.count
    have hl := r.length
    cases he : T.entries[i - 62]? with
    | none =>
      left
      have hle := List.getElem?_eq_none_iff.mp he
      rw [if_neg (show ¬(62 ≤ i ∧ i - 62 < t.n) by omega)]
      exact ⟨by split_ifs <;> rfl, rfl⟩
    | some e =>
      have hlt := (List.getElem?_eq_some_iff.mp he).1
      by_cases h0 : i = 0
      · left
        rw [if_pos h0, if_neg (show ¬(62 ≤ i ∧ i - 62 < t.n) by omega)]
        exact ⟨rfl, rfl⟩
      · right
        obtain ⟨te, hte, w⟩ := r.holds_at he
        have hslot : t.slot ((t.head + t.cap - 1 - (i - 62)) % t.cap) = some te := r.slots _ te hte
        rw [if_neg h0, if_pos (show 62 ≤ i ∧ i - 62 < t.n by omega), hslot]
        refine ⟨e, _, _, rfl, rfl, ?_, w.read_value⟩
        rw [if_neg (by omega)]
        exact .entry hte he

end Rep

/-! ### Fields -/

/-- The ring represents the table. -/
def Tracks (h : Heap) (t : Dyntab) (T : SpecTable) : Prop :=
  ∃ tes, Rep h t T.entries tes ∧ t.max = T.max ∧ t.settingsMax = T.ceiling

/-- What a field leads to is what it should lead to. -/
def Agrees (d : Decoder) (spec : Option (SpecTable × List Header × Bytes)) (code : Option FieldResult) : Prop :=
  (spec = none ∧ code = some (.bad d)) ∨
    ∃ T' hs q h' t', spec = some (T', hs, q) ∧ code = some (.more ⟨h', t', d.out ++ hs⟩ q) ∧ Tracks h' t' T'

section Fields

variable {d : Decoder} {T : SpecTable} {b : UInt8} {p : Bytes}

theorem agrees_indexed (w : Tracks d.heap d.table T) (hb : b.toNat &&& 0x80 ≠ 0) :
    Agrees d (specField T b p) (decodeField d b p) := by
  rw [specField, parseField, decodeField, if_pos hb, if_pos hb]
  cases hint : intDecode 7 (b :: p) with
  | none => exact .inl ⟨rfl, rfl⟩
  | some x =>
    obtain ⟨tes, r, hmax, hset⟩ := w
    simp only [map_some, bind_eq_bind, bind_some, SpecTable.apply]
    rcases r.tableLookup x.1 with ⟨hs, hc⟩ | ⟨e, name, value, hs, hc, hn, hv⟩
    · rw [hs, hc]
      exact .inl ⟨rfl, rfl⟩
    · rw [hs, hc]
      simp only [map_some, bind_some, (r.read_name hn).1, hv]
      exact .inr ⟨T, [e], x.2, d.heap, d.table, rfl, rfl, tes, r, hmax, hset⟩

theorem agrees_resize (w : Tracks d.heap d.table T) (hb : ¬b.toNat &&& 0x80 ≠ 0) (hb' : b.toNat &&& 0xe0 = 0x20) :
    Agrees d (specField T b p) (decodeField d b p) := by
  rw [specField, parseField, decodeField, if_neg hb, if_neg hb, if_pos hb', if_pos hb']
  cases hint : intDecode 5 (b :: p) with
  | none => exact .inl ⟨rfl, rfl⟩
  | some x =>
    obtain ⟨tes, r, hmax, hset⟩ := w
    simp only [map_some, bind_eq_bind, bind_some, SpecTable.apply]
    by_cases hbig : T.ceiling < x.1
    · rw [if_pos hbig, if_pos (hset ▸ hbig)]
      exact .inl ⟨rfl, rfl⟩
    · rw [if_neg hbig, if_neg (hset ▸ hbig)]
      obtain ⟨h', t', hev, r', hm', hs', -⟩ := (r.congr_max x.1).dyntabEvict 0
      have hcut : cut 0 x.1 T.entries = (T.resize x.1).entries := if_pos (Nat.zero_le _)
      rw [hev]
      refine .inr ⟨T.resize x.1, [], x.2, h', t', rfl, ?_, _, hcut ▸ r', hm', hs'.trans hset⟩
      simp only [bind_some, append_nil]

/-- The name of a literal: there is none, it is a bad index, or code and specification agree on it. -/
theorem literalName_spec {tes : List TableEntry} (r : Rep d.heap d.table T.entries tes) (idx : ℕ) :
    (parseName idx p = none ∧ literalName d.table idx p = some none) ∨
    ∃ nm q, parseName idx p = some (nm, q) ∧
      ((T.nameOf nm = none ∧ literalName d.table idx p = some none) ∨
        ∃ name bytes o, T.nameOf nm = some bytes ∧ literalName d.table idx p = some (some (name, q)) ∧
          NameOf T.entries tes name o bytes ∧ ∀ k, o = some k → nm = .inl (k + 62)) := by
  rw [parseName, literalName]
  by_cases h0 : idx = 0
  · rw [if_pos h0, if_pos h0]
    cases strDecode p with
    | none => exact .inl ⟨rfl, rfl⟩
    | some s => exact .inr ⟨_, _, rfl, .inr ⟨.bytes s.1, s.1, none, rfl, rfl, .own _, fun k hk => by cases hk⟩⟩
  · rw [if_neg h0, if_neg h0]
    refine .inr ⟨_, _, rfl, ?_⟩
    rw [SpecTable.nameOf]
    rcases r.tableLookup idx with ⟨hs, hc⟩ | ⟨e, name, value, hs, hc, hn, -⟩
    · rw [hs, hc]
      exact .inl ⟨rfl, rfl⟩
    · rw [hs, hc]
      refine .inr ⟨name, e.1, _, rfl, rfl, hn, fun k hk => ?_⟩
      split_ifs at hk with hi
      cases hk
      rw [Nat.sub_add_cancel (by omega)]

/-- A field that keeps its name keeps it. -/
theorem keepsName_lt {k : ℕ} {bytes value : Bytes} (hn : T.nameOf (.inl (k + 62)) = some bytes)
    (hk : T.keepsName (.literal true (.inl (k + 62)) value) = true) :
    k < (cut (entrySize (bytes, value)) T.max T.entries).length := by
  obtain ⟨e, he, rfl⟩ := map_eq_some_iff.mp hn
  rw [SpecTable.lookup, if_neg (by omega), if_neg (by omega), Nat.add_sub_cancel] at he
  rw [SpecTable.keepsName, Nat.add_sub_cancel, he] at hk
  simpa using hk

theorem agrees_literal (w : Tracks d.heap d.table T) (hb : ¬b.toNat &&& 0x80 ≠ 0) (hb' : ¬b.toNat &&& 0xe0 = 0x20)
    (hsafe : ∀ f q, parseField b p = some (f, q) → T.keepsName f = true) :
    Agrees d (specField T b p) (decodeField d b p) := by
  obtain ⟨tes, r, hmax, hset⟩ := w
  rw [specField, decodeField, if_neg hb, if_neg hb']
  dsimp only
  rw [parseField, if_neg hb, if_neg hb'] at hsafe ⊢
  cases hint : intDecode (if b.toNat &&& 0xc0 = 0x40 then 6 else 4) (b :: p) with
  | none => exact .inl ⟨rfl, rfl⟩
  | some x =>
    obtain ⟨idx, p⟩ := x
    rw [hint] at hsafe
    simp only [bind_eq_bind, bind_some] at hsafe ⊢
    rcases literalName_spec (p := p) r idx with ⟨hs, hc⟩ | ⟨nm, q, hs, ⟨hnm, hc⟩ | ⟨name, bytes, o, hnm, hc, hn, ho⟩⟩
    · rw [hs, hc]
      exact .inl ⟨rfl, rfl⟩
    · rw [hs, hc]
      refine .inl ⟨?_, rfl⟩
      simp only [bind_some]
      cases strDecode q with
      | none => rfl
      | some y => simp only [bind_some, SpecTable.apply, hnm, bind_eq_bind, bind_none]
    · rw [hs] at hsafe
      rw [hs, hc]
      simp only [bind_some] at hsafe ⊢
      cases hv : strDecode q with
      | none => exact .inl ⟨rfl, rfl⟩
      | some y =>
        obtain ⟨value, p⟩ := y
        rw [hv] at hsafe
        simp only [bind_some, SpecTable.apply, hnm, bind_eq_bind] at hsafe ⊢
        right
        by_cases hinc : b.toNat &&& 0xc0 = 0x40
        · have hkeep : ∀ k, o = some k → k < (cut (entrySize (bytes, value)) d.table.max T.entries).length := by
            intro k hk
            have hsafe := hsafe _ _ rfl
            rw [ho k hk] at hnm hsafe
            rw [hmax]
            exact keepsName_lt hnm (by rwa [decide_eq_true hinc] at hsafe)
          obtain ⟨h', t', tes', hadd, r', hread, hm', hs'⟩ := r.dyntabAdd hn hkeep
          simp only [hinc, decide_true, if_true, hadd, bind_some, hread]
          rw [hmax] at r'
          exact ⟨T.insert (bytes, value), [(bytes, value)], p, h', t', rfl, rfl, tes', r', hm'.trans hmax, hs'.trans hset⟩
        · simp only [hinc, decide_false, if_false, Bool.false_eq_true, bind_some, (r.read_name hn).1]
          exact ⟨T, [(bytes, value)], p, d.heap, d.table, rfl, rfl, tes, r, hmax, hset⟩

/-- **One field.** -/
theorem agrees_field (w : Tracks d.heap d.table T) (hsafe : ∀ f q, parseField b p = some (f, q) → T.keepsName f = true) :
    Agrees d (specField T b p) (decodeField d b p) := by
  by_cases hb : b.toNat &&& 0x80 ≠ 0
  · exact agrees_indexed w hb
  by_cases hb' : b.toNat &&& 0xe0 = 0x20
  · exact agrees_resize w hb hb'
  · exact agrees_literal w hb hb' hsafe

end Fields

/-! ### Blocks and sessions -/

/-- No field of a block takes the name of the entry it inserts from one that it drops. -/
def keepsNames : ℕ → SpecTable → Bytes → Bool
  | k + 1, T, b :: p =>
    ((parseField b p).all fun x => T.keepsName x.1) && (specField T b p).all fun x => keepsNames k x.1 x.2.2
  | _, _, _ => true

variable {T : SpecTable}

theorem decodeLoop_spec {k : ℕ} {d : Decoder} {p : Bytes} (w : Tracks d.heap d.table T)
    (hsafe : keepsNames k T p = true) : ∃ h' t', Tracks h' t' (specBlock k T p).1 ∧
      decodeLoop k d p = some (⟨h', t', d.out ++ (specBlock k T p).2.1⟩, (specBlock k T p).2.2) := by
  induction k generalizing d T p with
  | zero =>
    cases p with
    | nil => exact ⟨d.heap, d.table, w, by rw [specBlock, append_nil]; rfl⟩
    | cons b p => exact ⟨d.heap, d.table, w, by rw [specBlock, append_nil]; rfl⟩
  | succ k ih =>
    cases p with
    | nil => exact ⟨d.heap, d.table, w, by rw [specBlock, append_nil]; rfl⟩
    | cons b p =>
      rw [keepsNames, Bool.and_eq_true] at hsafe
      obtain ⟨hname, hrest⟩ := hsafe
      have hfield := agrees_field (p := p) w fun f q hf => by
        rw [hf] at hname
        exact hname
      rw [specBlock, decodeLoop]
      rcases hfield with ⟨hs, hc⟩ | ⟨T', hs, q, h', t', hspec, hc, w'⟩
      · rw [hs, hc]
        exact ⟨d.heap, d.table, w, by simp⟩
      · rw [hspec] at hrest
        rw [hspec, hc]
        obtain ⟨h'', t'', w'', hloop⟩ := ih (d := ⟨h', t', d.out ++ hs⟩) w' hrest
        refine ⟨h'', t'', w'', ?_⟩
        simp only [bind_eq_bind, bind_some, hloop, append_assoc]

/-- The blocks of a session, one after the other: the table, and what each block gave. -/
def decodeBlocks : List Bytes → Heap → Dyntab → Option (Heap × Dyntab × List (List Header × Bool))
  | [], h, t => some (h, t, [])
  | p :: ps, h, t => do
    let (d, ok) ← hpackDecode h t p
    let (h, t, rs) ← decodeBlocks ps d.heap d.table
    some (h, t, (d.out, ok) :: rs)

def specBlocks : List Bytes → SpecTable → SpecTable × List (List Header × Bool)
  | [], T => (T, [])
  | p :: ps, T =>
    let r := specBlock p.length T p
    ((specBlocks ps r.1).1, r.2 :: (specBlocks ps r.1).2)

/-- Nor does any field of a session. -/
def keepsAllNames : List Bytes → SpecTable → Bool
  | [], _ => true
  | p :: ps, T => keepsNames p.length T p && keepsAllNames ps (specBlock p.length T p).1

theorem decodeBlocks_spec {ps : List Bytes} {h : Heap} {t : Dyntab} (w : Tracks h t T)
    (hsafe : keepsAllNames ps T = true) : ∃ h' t', Tracks h' t' (specBlocks ps T).1 ∧
      decodeBlocks ps h t = some (h', t', (specBlocks ps T).2) := by
  induction ps generalizing h t T with
  | nil => exact ⟨h, t, w, rfl⟩
  | cons p ps ih =>
    rw [keepsAllNames, Bool.and_eq_true] at hsafe
    obtain ⟨h₁, t₁, w₁, hblock⟩ := decodeLoop_spec (d := ⟨h, t, []⟩) w hsafe.1
    obtain ⟨h', t', w', hrest⟩ := ih w₁ hsafe.2
    refine ⟨h', t', w', ?_⟩
    rw [decodeBlocks, hpackDecode, hblock]
    simp only [bind_eq_bind, bind_some, hrest, nil_append]
    rfl

/-! ### The table of the specification -/

/-- The entries fit, and they are the newest of those that were inserted. -/
structure SpecTable.Ok (T : SpecTable) : Prop where
  size : sizeOf T.entries ≤ T.max
  max : T.max ≤ T.ceiling
  newest : T.entries <+: T.inserted

namespace SpecTable

variable {T : SpecTable}

theorem ok_init : init.Ok := ⟨Nat.zero_le _, le_refl _, prefix_rfl⟩

theorem Ok.insert (ok : T.Ok) (e : Header) : (T.insert e).Ok := by
  obtain ⟨h1, h2, -⟩ := fit_longest T.max (e :: T.entries)
  exact ⟨h2, ok.max, h1.trans ((prefix_cons_inj e).mpr ok.newest)⟩

theorem Ok.resize (ok : T.Ok) {m : ℕ} (hm : m ≤ T.ceiling) : (T.resize m).Ok := by
  obtain ⟨h1, h2, -⟩ := fit_longest m T.entries
  exact ⟨h2, hm, h1.trans ok.newest⟩

theorem Ok.apply (ok : T.Ok) {f : Field} {T' : SpecTable} {hs : List Header} (h : T.apply f = some (T', hs)) : T'.Ok := by
  cases f with
  | indexed i =>
    obtain ⟨e, -, he⟩ := map_eq_some_iff.mp h
    cases he
    exact ok
  | resize m =>
    rw [SpecTable.apply] at h
    split_ifs at h with hm
    cases h
    exact ok.resize (not_lt.mp hm)
  | literal inc nm value =>
    obtain ⟨name, -, h⟩ := bind_eq_some_iff.mp h
    cases h
    split_ifs
    · exact ok.insert _
    · exact ok

theorem Ok.block (ok : T.Ok) (k : ℕ) (p : Bytes) : (specBlock k T p).1.Ok := by
  induction k generalizing T p with
  | zero => cases p <;> exact ok
  | succ k ih =>
    cases p with
    | nil => exact ok
    | cons b p =>
      rw [specBlock]
      cases hf : specField T b p with
      | none => exact ok
      | some x =>
        obtain ⟨T', hs, q⟩ := x
        obtain ⟨⟨f, q'⟩, -, hf⟩ := bind_eq_some_iff.mp hf
        obtain ⟨⟨T'', hs'⟩, ha, hf⟩ := bind_eq_some_iff.mp hf
        cases hf
        exact ih (ok.apply ha) q

theorem Ok.blocks (ok : T.Ok) (ps : List Bytes) : (specBlocks ps T).1.Ok := by
  induction ps generalizing T with
  | nil => exact ok
  | cons p ps ih => exact ih (ok.block _ _)

end SpecTable

/-! ### The ring is the table of the specification -/

/-- The ring table represents a table of the specification. -/
structure Represents (h : Heap) (t : Dyntab) (T : SpecTable) : Prop where
  newest : T.entries <+: T.inserted
  size : t.size = sizeOf T.entries
  size_le : t.size ≤ t.max
  max : t.max = T.max
  max_le : t.max ≤ t.settingsMax
  count : t.n = T.entries.length
  count_le : t.n ≤ t.cap
  index : ∀ k e, T.entries[k]? = some e →
    ∃ name value, tableLookup t (62 + k) = some (some (name, value)) ∧ name.read h = some e.1 ∧ value.read h = some e.2
  beyond : ∀ k, T.entries.length ≤ k → tableLookup t (62 + k) = some none

theorem represents_of_tracks {h : Heap} {t : Dyntab} (w : Tracks h t T) (ok : T.Ok) : Represents h t T := by
  obtain ⟨tes, r, hmax, hset⟩ := w
  refine ⟨ok.newest, r.size, ?_, hmax, ?_, r.count.trans r.length, r.count_le, fun k e he => ?_, fun k hk => ?_⟩
  · rw [r.size, hmax]
    exact ok.size
  · rw [hmax, hset]
    exact ok.max
  · rcases r.tableLookup (62 + k) with ⟨hs, -⟩ | ⟨e', name, value, hs, hc, hn, hv⟩
    · rw [SpecTable.lookup, if_neg (by omega), if_neg (by omega), Nat.add_sub_cancel_left, he] at hs
      cases hs
    · rw [SpecTable.lookup, if_neg (by omega), if_neg (by omega), Nat.add_sub_cancel_left, he] at hs
      cases hs
      exact ⟨name, value, hc, (r.read_name hn).1, hv⟩
  · rcases r.tableLookup (62 + k) with ⟨-, hc⟩ | ⟨e, name, value, hs, -⟩
    · exact hc
    · rw [SpecTable.lookup, if_neg (by omega), if_neg (by omega), Nat.add_sub_cancel_left,
        List.getElem?_eq_none_iff.mpr hk] at hs
      cases hs

/-- **The dynamic table follows its specification** over every sequence of header blocks, as long
as no field takes the name of the entry it inserts from one that it drops. A block that stops
after any of its fields is itself a block, so this is the state after every field. -/
theorem dynamicTable_follows (blocks : List Bytes) (hsafe : keepsAllNames blocks .init = true) :
    ∃ h t, decodeBlocks blocks .empty .init = some (h, t, (specBlocks blocks .init).2) ∧
      Represents h t (specBlocks blocks .init).1 := by
  have w : Tracks .empty .init .init := ⟨[], Rep.init, rfl, rfl⟩
  obtain ⟨h, t, w', hrun⟩ := decodeBlocks_spec w hsafe
  exact ⟨h, t, hrun, represents_of_tracks w' (SpecTable.ok_init.blocks blocks)⟩

/-- Two entries in a table with room for one, the second with the name of the first spelled out. -/
theorem dynamicTable_follows_spelled : ∃ h t,
    decodeBlocks [[0x3f, 0x21, 0x40, 0x01, 0x61, 0x00], [0x40, 0x01, 0x61, 0x00]] .empty .init =
      some (h, t, [([([0x61], [])], true), ([([0x61], [])], true)]) ∧
    t.n = 1 := by
  obtain ⟨h, t, hrun, hrep⟩ := dynamicTable_follows
    [[0x3f, 0x21, 0x40, 0x01, 0x61, 0x00], [0x40, 0x01, 0x61, 0x00]] (by decide)
  exact ⟨h, t, hrun, hrep.count⟩

/-- The same, with the name taken from the table: it is freed, and then copied. -/
theorem dynamicTable_copies_freed_name :
    decodeBlocks [[0x3f, 0x21, 0x40, 0x01, 0x61, 0x00], [0x7e, 0x00]] .empty .init = none ∧
      (specBlocks [[0x3f, 0x21, 0x40, 0x01, 0x61, 0x00], [0x7e, 0x00]] .init).1.entries = [([0x61], [])] := by
  constructor
  · rfl
  · decide

end Scriptc.Runtime.Hpack
