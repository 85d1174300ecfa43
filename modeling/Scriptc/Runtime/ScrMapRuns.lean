import Mathlib.Data.Nat.Digits.Lemmas
import Scriptc.Runtime.ScrMap
import Scriptc.Runtime.ScrMapRefines

/-!
# Own keys in the order of ECMAScript

`keysJsOrder` gives the keys that are array indices in ascending order, and then the other keys in
the order of insertion. An array index is a number up to `2 ^ 32 - 2` in its decimal spelling.
-/

namespace Scriptc.Runtime.ScrMap

open List

/-- The decimal spelling of a number. -/
def decimal (v : ℕ) : Bytes := if v = 0 then [48] else (Nat.digits 10 v).reverse.map fun d => UInt8.ofNat (48 + d)

/-- The digit that a byte spells. -/
def digit (b : UInt8) : ℕ := b.toNat - 48

theorem foldl_digits (k : Bytes) :
    k.foldl (fun v b => v * 10 + (b.toNat - 48)) 0 = Nat.ofDigits 10 (k.reverse.map digit) := by
  induction k using reverseRecOn with
  | nil => rfl
  | append_singleton k b ih =>
    rw [foldl_append, reverse_append, foldl_cons, foldl_nil, ih, reverse_singleton, singleton_append,
      map_cons, Nat.ofDigits_cons, digit]
    ring

/-- The byte of a digit. -/
theorem digit_ofNat {d : ℕ} (h : d < 10) : digit (UInt8.ofNat (48 + d)) = d := by
  rw [digit, UInt8.toNat_ofNat']
  omega

theorem ofNat_digit {b : UInt8} (h : (48 ≤ b && b ≤ 57) = true) : UInt8.ofNat (48 + digit b) = b := by
  rw [Bool.and_eq_true, decide_eq_true_eq, decide_eq_true_eq, UInt8.le_iff_toNat_le, UInt8.le_iff_toNat_le] at h
  have h48 : (48 : UInt8).toNat = 48 := rfl
  have : 48 + digit b = b.toNat := by
    rw [digit]
    omega
  rw [this, UInt8.ofNat_toNat]

theorem digit_lt {b : UInt8} (h : (48 ≤ b && b ≤ 57) = true) : digit b < 10 := by
  rw [Bool.and_eq_true, decide_eq_true_eq, decide_eq_true_eq, UInt8.le_iff_toNat_le, UInt8.le_iff_toNat_le] at h
  have h57 : (57 : UInt8).toNat = 57 := rfl
  rw [digit]
  omega

/-- Digits without a leading zero are the decimal spelling of what they say. -/
theorem decimal_ofDigits {k : Bytes} (hk : k ≠ []) (hdigits : ∀ b ∈ k, (48 ≤ b && b ≤ 57) = true)
    (hlead : k.head? = some 48 → k.length ≤ 1) : decimal (Nat.ofDigits 10 (k.reverse.map digit)) = k := by
  obtain ⟨b, k', rfl⟩ := exists_cons_of_ne_nil hk
  have hb0 := hdigits b mem_cons_self
  by_cases hb : b = 48
  · have hnil : k' = [] := length_eq_zero_iff.mp (by
      have := hlead (by rw [hb]; rfl)
      rw [length_cons] at this
      omega)
    rw [hnil, hb]
    rfl
  · have hne : ((b :: k').reverse.map digit) ≠ [] := by simp
    have hlast : ((b :: k').reverse.map digit).getLast hne ≠ 0 := by
      rw [getLast_map, getLast_reverse, head_cons]
      intro h0
      have hd := ofNat_digit hb0
      rw [h0] at hd
      exact hb hd.symm
    have hsmall : ∀ d ∈ (b :: k').reverse.map digit, d < 10 := by
      rw [forall_mem_map]
      intro c hc
      exact digit_lt (hdigits c (mem_reverse.mp hc))
    have hdig := Nat.digits_ofDigits 10 (by norm_num) _ hsmall fun _ => hlast
    have hv : Nat.ofDigits 10 ((b :: k').reverse.map digit) ≠ 0 := by
      intro h0
      rw [h0, Nat.digits_zero] at hdig
      exact hne hdig.symm
    rw [decimal, if_neg hv, hdig, ← map_reverse, reverse_reverse, map_map]
    refine (map_congr_left fun c hc => ?_).trans (map_id _)
    exact ofNat_digit (hdigits c hc)

/-- What a decimal spelling looks like. -/
theorem decimal_spec {v : ℕ} (h : v ≤ 4294967294) :
    decimal v ≠ [] ∧ (decimal v).length ≤ 10 ∧ (∀ b ∈ decimal v, (48 ≤ b && b ≤ 57) = true) ∧
      ((decimal v).head? = some 48 → (decimal v).length ≤ 1) ∧ Nat.ofDigits 10 ((decimal v).reverse.map digit) = v := by
  by_cases hv : v = 0
  · rw [hv, decimal, if_pos rfl]
    refine ⟨cons_ne_nil _ _, Nat.le_add_left 1 9, ?_, fun _ => le_refl _, rfl⟩
    rw [forall_mem_singleton]
    rfl
  · have hlen : (Nat.digits 10 v).length ≤ 10 := (Nat.digits_length_le_iff (by norm_num) v).mpr (by omega)
    have hne : Nat.digits 10 v ≠ [] := Nat.digits_ne_nil_iff_ne_zero.mpr hv
    have hlt : ∀ d ∈ Nat.digits 10 v, d < 10 := fun d hd => Nat.digits_lt_base (by norm_num) hd
    have hback : (Nat.digits 10 v).map (fun d => digit (UInt8.ofNat (48 + d))) = Nat.digits 10 v :=
      (map_congr_left fun d hd => digit_ofNat (hlt d hd)).trans (map_id' _)
    rw [decimal, if_neg hv]
    refine ⟨by simpa using hne, by rw [length_map, length_reverse]; exact hlen, ?_, ?_, ?_⟩
    · rw [forall_mem_map]
      intro d hd
      have := hlt d (mem_reverse.mp hd)
      rw [Bool.and_eq_true, decide_eq_true_eq, decide_eq_true_eq, UInt8.le_iff_toNat_le, UInt8.le_iff_toNat_le,
        UInt8.toNat_ofNat']
      have h48 : (48 : UInt8).toNat = 48 := rfl
      have h57 : (57 : UInt8).toNat = 57 := rfl
      omega
    · intro hhead
      exfalso
      rw [List.head?_map, List.head?_reverse, List.getLast?_eq_getLast_of_ne_nil hne, Option.map_some, Option.some.injEq] at hhead
      have h0 := congrArg digit hhead
      rw [digit_ofNat (hlt _ (getLast_mem hne))] at h0
      exact Nat.getLast_digit_ne_zero 10 hv h0
    · rw [← map_reverse, reverse_reverse, map_map]
      exact (congrArg (Nat.ofDigits 10) hback).trans (Nat.ofDigits_digits 10 v)

/-- The test for an array index is exact. -/
theorem keyArrayIndex_eq_some {k : Bytes} {v : ℕ} : keyArrayIndex k = some v ↔ v ≤ 4294967294 ∧ k = decimal v := by
  constructor
  · intro h
    rw [keyArrayIndex] at h
    split_ifs at h with h1 h2 h3
    dsimp only at h
    split_ifs at h with h4
    obtain rfl := Option.some.inj h
    refine ⟨not_lt.mp h4, ?_⟩
    rw [foldl_digits]
    refine (decimal_ofDigits (fun hnil => h1 (.inl (by rw [hnil]; rfl))) (all_eq_true.mp h3) fun hhead => ?_).symm
    exact not_lt.mp fun hlen => h2 ⟨hhead, hlen⟩
  · rintro ⟨hv, rfl⟩
    obtain ⟨hne, hlen, hdigits, hhead, hval⟩ := decimal_spec hv
    have h1 : ¬((decimal v).length = 0 ∨ 10 < (decimal v).length) := by
      rw [length_eq_zero_iff]
      exact not_or.mpr ⟨hne, not_lt.mpr hlen⟩
    have h2 : ¬((decimal v).head? = some 48 ∧ 1 < (decimal v).length) := fun h => absurd h.2 (not_lt.mpr (hhead h.1))
    rw [keyArrayIndex, if_neg h1, if_neg h2, if_pos (all_eq_true.mpr hdigits), foldl_digits, hval, if_neg (not_lt.mpr hv)]

/-! ### The order -/

instance : Std.Total fun a b : ℕ × Bytes => b.1 ≤ a.1 := ⟨fun a b => le_total b.1 a.1⟩

instance : IsTrans (ℕ × Bytes) fun a b => b.1 ≤ a.1 := ⟨fun _ _ _ h h' => h'.trans h⟩

/-- The index keys come in order, the greatest first. -/
theorem foldl_insertIndex (es acc : List (ℕ × Bytes)) (h : acc.Pairwise fun a b => b.1 ≤ a.1) :
    (es.foldl insertIndex acc).Pairwise (fun a b => b.1 ≤ a.1) ∧ (es.foldl insertIndex acc).Perm (es ++ acc) := by
  induction es generalizing acc with
  | nil => exact ⟨h, List.Perm.refl _⟩
  | cons e es ih =>
    obtain ⟨hs, hp⟩ := ih (insertIndex acc e) (h.orderedInsert e acc)
    refine ⟨hs, hp.trans ?_⟩
    exact ((perm_orderedInsert _ e acc).append_left es).trans perm_middle

variable {V : Type}

/-- The keys of the live entries, in their order. -/
def liveKeys (m : Table Bytes V) : List Bytes := (m.entries.filter Entry.live).map Entry.key

/-- **Own keys**: the array indices in ascending order, then the other keys as they were inserted. -/
theorem keysJsOrder_spec (m : Table Bytes V) (hd : (liveKeys m).Nodup) :
    ∃ indices : List ℕ, indices.Pairwise (· < ·) ∧
      (∀ v, v ∈ indices ↔ v ≤ 4294967294 ∧ decimal v ∈ liveKeys m) ∧
      keysJsOrder m = indices.map decimal ++ (liveKeys m).filter fun k => (keyArrayIndex k).isNone := by
  obtain ⟨es, hes⟩ : ∃ es, (liveKeys m).filterMap (fun k => (keyArrayIndex k).map fun v => (v, k)) = es := ⟨_, rfl⟩
  obtain ⟨hsorted, hperm⟩ := foldl_insertIndex es [] .nil
  rw [append_nil] at hperm
  have hmem : ∀ e, e ∈ es ↔ e.1 ≤ 4294967294 ∧ e.2 = decimal e.1 ∧ e.2 ∈ liveKeys m := by
    intro e
    rw [← hes, mem_filterMap]
    constructor
    · rintro ⟨k, hk, he⟩
      obtain ⟨v, hv, rfl⟩ := Option.map_eq_some_iff.mp he
      obtain ⟨hle, hdec⟩ := keyArrayIndex_eq_some.mp hv
      exact ⟨hle, hdec, hk⟩
    · rintro ⟨hle, hdec, hk⟩
      exact ⟨e.2, hk, by rw [keyArrayIndex_eq_some.mpr ⟨hle, hdec⟩]; rfl⟩
  have hnodup : (es.map Prod.fst).Nodup := by
    rw [← hes, map_filterMap]
    refine List.Nodup.filterMap (fun k k' v hv hv' => ?_) hd
    simp only [Option.map_map, Option.mem_def, Option.map_eq_some_iff] at hv hv'
    obtain ⟨w, hw, rfl⟩ := hv
    obtain ⟨w', hw', heq⟩ := hv'
    have hkk := (keyArrayIndex_eq_some.mp hw).2
    have hkk' := (keyArrayIndex_eq_some.mp hw').2
    rw [hkk, hkk', show w' = w from heq]
  have hascending : ((es.foldl insertIndex []).reverse.map Prod.fst).Pairwise (· < ·) := by
    have hle : ((es.foldl insertIndex []).reverse.map Prod.fst).Pairwise (· ≤ ·) := by
      rw [pairwise_map, pairwise_reverse]
      exact hsorted
    have hne : ((es.foldl insertIndex []).reverse.map Prod.fst).Nodup :=
      (((reverse_perm _).trans hperm).map Prod.fst).nodup_iff.mpr hnodup
    exact (hle.and hne).imp fun h => lt_of_le_of_ne h.1 h.2
  have hmem' : ∀ e, e ∈ (es.foldl insertIndex []).reverse ↔ e ∈ es := fun e => mem_reverse.trans hperm.mem_iff
  refine ⟨(es.foldl insertIndex []).reverse.map Prod.fst, hascending, fun v => ?_, ?_⟩
  · rw [mem_map]
    constructor
    · rintro ⟨e, he, rfl⟩
      obtain ⟨hle, hdec, hk⟩ := (hmem e).mp ((hmem' e).mp he)
      exact ⟨hle, hdec ▸ hk⟩
    · rintro ⟨hle, hk⟩
      exact ⟨(v, decimal v), (hmem' _).mpr ((hmem _).mpr ⟨hle, rfl, hk⟩), rfl⟩
  · rw [keysJsOrder, ← liveKeys, hes, map_map]
    congr 1
    exact map_congr_left fun e he => ((hmem e).mp ((hmem' e).mp he)).2.1

/-!
## `ScrMap` is an ordered map

Every history of a `ScrMap`, with any number of iterations open, has the results of the machine of
`LiveMap`, with keys compared by SameValueZero. In every state that is reached the entries are those
of the machine in their order, a lookup finds the live entry of its key and nothing else, and an entry
stays at its index as long as an iteration is open.
-/

open LiveMap (Op Res Sim live)
open Probe (stored)

variable {K V : Type} {hash : K → ℕ} {m m' : Table K V}

/-! ### Histories -/

section

variable {kind : KeyKind} {s : Session (Key kind) V} {t : LiveMap.State (Key kind) V}

/-- Keys as they are stored, and compared with what is stored. -/
def probeKeys (kind : KeyKind) : LiveMap.Keys (Key kind) := ⟨probeKey kind, fun a k => a = probeKey kind k⟩

/-- One operation. -/
theorem Inv.step (h : Inv (hashKey kind) s t) (op : Op (Key kind) V) :
    ∃ s', step kind s op = some (s', (LiveMap.step (probeKeys kind) t op).2) ∧
      Inv (hashKey kind) s' (LiveMap.step (probeKeys kind) t op).1 := by
  cases op with
  | set k v =>
    obtain ⟨m', hm', hinv⟩ := h.set (probeKey kind k) v
    refine ⟨_, ?_, hinv⟩
    rw [ScrMap.step, hm']
    rfl
  | get k =>
    refine ⟨s, ?_, h⟩
    rw [ScrMap.step, h.get]
    rfl
  | has k =>
    refine ⟨s, ?_, h⟩
    rw [ScrMap.step, h.has]
    rfl
  | delete k =>
    obtain ⟨m', hm', hinv⟩ := h.delete (probeKey kind k)
    refine ⟨_, ?_, hinv⟩
    rw [ScrMap.step, hm']
    rfl
  | clear => exact ⟨_, rfl, h.clear⟩
  | size =>
    refine ⟨s, ?_, h⟩
    rw [ScrMap.step, h.sound.count, h.sim.live]
    rfl
  | enter => exact ⟨_, rfl, h.opened⟩
  | next c => exact h.iterNext c
  | leave c => exact h.iterClose c

/-- A history. -/
theorem Inv.run (h : Inv (hashKey kind) s t) (ops : List (Op (Key kind) V)) :
    ∃ s', run kind s ops = some (s', LiveMap.run (probeKeys kind) t ops) ∧
      Inv (hashKey kind) s' (LiveMap.after (probeKeys kind) t ops) := by
  induction ops generalizing s t with
  | nil => exact ⟨s, rfl, h⟩
  | cons op ops ih =>
    obtain ⟨s₁, hstep, h₁⟩ := h.step op
    obtain ⟨s', hrun, h'⟩ := ih h₁
    refine ⟨s', ?_, h'⟩
    rw [ScrMap.run, hstep]
    dsimp only [bind, Option.bind]
    rw [hrun]
    rfl

end

theorem inv_new [DecidableEq K] (hash : K → ℕ) : Inv hash ⟨(new : Table K V), []⟩ ⟨[], []⟩ :=
  ⟨⟨rfl, .nil⟩, sound_new, .nil, rfl⟩

/-! ### SameValueZero -/

/-- SameValueZero of the numbers with these bits. -/
def sameValueZero (a b : UInt64) : Bool :=
  if isNaN a || isNaN b then isNaN a && isNaN b else a = b || (isZero a && isZero b)

/-- The keys of an ECMAScript map: numbers by SameValueZero, strings by their text, objects by identity. -/
def ecmaKeys : (kind : KeyKind) → LiveMap.Keys (Key kind)
  | .f64 => ⟨f64Bits, sameValueZero⟩
  | .str => ⟨id, fun (a b : Bytes) => a = b⟩
  | .ref => ⟨id, fun (a b : UInt64) => a = b⟩

theorem f64Bits_idem (k : UInt64) : f64Bits (f64Bits k) = f64Bits k := by
  by_cases hn : isNaN k = true
  · rw [f64Bits, f64Bits, if_pos hn]
    decide
  · by_cases hz : isZero k = true
    · rw [f64Bits, f64Bits, if_neg hn, if_pos hz]
      decide
    · have h : f64Bits k = k := by rw [f64Bits, if_neg hn, if_neg hz]
      rw [h, h]

theorem isNaN_f64Bits (k : UInt64) : isNaN (f64Bits k) = isNaN k := by
  rw [f64Bits]
  split_ifs with hn hz
  · rw [hn]
    decide
  · rw [Bool.eq_false_iff.mpr hn]
    decide
  · rfl

theorem f64Bits_of_isNaN {k : UInt64} (h : isNaN k = true) : f64Bits k = 0x7ff8000000000000 := by rw [f64Bits, if_pos h]

theorem f64Bits_of_not_isNaN {k : UInt64} (h : isNaN k = false) : f64Bits k = if isZero k then 0 else k := by
  rw [f64Bits, h, if_neg Bool.false_ne_true]

/-- Comparing the stored bits is SameValueZero. -/
theorem sameValueZero_eq (a b : UInt64) : sameValueZero a b = decide (f64Bits a = f64Bits b) := by
  have hnan : isNaN 0x7ff8000000000000 = true := by decide
  have hzero : isZero 0 = true := by decide
  rw [sameValueZero]
  cases ha : isNaN a with
  | true =>
    rw [f64Bits_of_isNaN ha]
    cases hb : isNaN b with
    | true => rw [f64Bits_of_isNaN hb]; rfl
    | false =>
      refine (decide_eq_false fun heq => ?_).symm
      have := isNaN_f64Bits b
      rw [← heq, hnan, hb] at this
      cases this
  | false =>
    cases hb : isNaN b with
    | true =>
      rw [f64Bits_of_isNaN hb]
      refine (decide_eq_false fun heq => ?_).symm
      have := isNaN_f64Bits a
      rw [heq, hnan, ha] at this
      cases this
    | false =>
      rw [f64Bits_of_not_isNaN ha, f64Bits_of_not_isNaN hb, Bool.or_false, if_neg Bool.false_ne_true, Bool.eq_iff_iff,
        Bool.or_eq_true, Bool.and_eq_true, decide_eq_true_eq, decide_eq_true_eq]
      by_cases hza : isZero a = true <;> by_cases hzb : isZero b = true
      · simp [hza, hzb]
      · rw [if_pos hza, if_neg hzb]
        refine iff_of_false (not_or.mpr ⟨?_, fun h => hzb h.2⟩) fun h => hzb (h ▸ hzero)
        rintro rfl
        exact hzb hza
      · rw [if_neg hza, if_pos hzb]
        refine iff_of_false (not_or.mpr ⟨?_, fun h => hza h.1⟩) fun h => hza (h ▸ hzero)
        rintro rfl
        exact hza hzb
      · simp [hza, hzb]

/-- On the keys that are stored, the comparison of the code is that of ECMAScript. -/
theorem agree_ecmaKeys (kind : KeyKind) :
    LiveMap.Agree (probeKeys kind) (ecmaKeys kind) (fun k => probeKey kind k = k) fun _ => True := by
  cases kind with
  | f64 =>
    refine ⟨fun _ _ => rfl, fun k _ => f64Bits_idem k, fun (a k : UInt64) (ha : f64Bits a = a) => ?_⟩
    change decide (a = f64Bits k) = sameValueZero a k
    rw [sameValueZero_eq, ha]
  | str => exact ⟨fun _ _ => rfl, fun _ _ => rfl, fun _ _ _ => rfl⟩
  | ref => exact ⟨fun _ _ => rfl, fun _ _ => rfl, fun _ _ _ => rfl⟩

/-! ### Iterations keep their indices -/

/-- Every entry stays at its index, with its key. -/
def Stays (m m' : Table K V) : Prop :=
  ∀ (i : ℕ) (x : Entry K V), m.entries[i]? = some x →
    ∃ x', m'.entries[i]? = some x' ∧ x'.key = x.key ∧ (x'.live = true → x.live = true)

theorem stays_refl (m : Table K V) : Stays m m := fun _ x hx => ⟨x, hx, rfl, id⟩

theorem stays_of_entries (h : m'.entries = m.entries) : Stays m m' := fun _ x hx => ⟨x, h ▸ hx, rfl, id⟩

theorem stays_modify (m : Table K V) (f : Entry K V → Entry K V) (hf : ∀ x, (f x).key = x.key)
    (hl : ∀ x, (f x).live = true → x.live = true) {i : ℕ} (he : m'.entries = m.entries.modify i f) : Stays m m' := by
  intro j x hx
  rw [he, List.getElem?_modify, hx, Option.map_eq_map, Option.map_some]
  refine ⟨_, rfl, ?_⟩
  split_ifs
  · exact ⟨hf x, hl x⟩
  · exact ⟨rfl, id⟩

theorem iterExit_entries {m' : Table K V} (h : iterExit hash m = some m') (hd : m'.iterDepth ≠ 0) (hs : Sound hash m) :
    m'.entries = m.entries := by
  rw [iterExit] at h
  dsimp only at h
  split_ifs at h with hc
  · obtain ⟨m₁, h₁, -, hdepth, -⟩ := @compact_spec K V hash { m with iterDepth := m.iterDepth - 1 }
      ⟨hs.indexed, hs.room, hs.count, hs.capacity⟩
    rw [h, Option.some.injEq] at h₁
    subst h₁
    exact absurd (hdepth.trans hc.1) hd
  · rw [← Option.some.inj h]

theorem stays_clear (hd : m.iterDepth ≠ 0) : Stays m (ScrMap.clear m) := by
  intro i x hx
  refine ⟨x.kill, ?_, rfl, fun hh => absurd hh Bool.false_ne_true⟩
  rw [ScrMap.clear]
  dsimp only
  rw [if_neg hd, getElem?_map, hx]
  rfl

section

variable [DecidableEq K] {s : Session K V} {t : LiveMap.State K V}

theorem Inv.stays_set (h : Inv hash s t) {key : K} {val : V} (heq : ScrMap.set hash s.map key val = some m')
    (hd : s.map.iterDepth ≠ 0) : Stays s.map m' := by
  rw [ScrMap.set] at heq
  rcases h.sound.find_spec (different_of_distinct h.distinct) key with ⟨e, x, hf, hx, hl, hk⟩ | ⟨hf, hno⟩
  · rw [hf] at heq
    obtain rfl := Option.some.inj heq
    exact stays_modify s.map (Entry.setVal val) (fun _ => rfl) (fun _ hh => hh) rfl
  · obtain ⟨m₁, hres, r, -, -⟩ := reserveAppend_spec h.sound
    have he : m₁.entries = s.map.entries := r.entries.resolve_right fun h0 => hd h0.1
    rw [hf] at heq
    dsimp only [bind, Option.bind] at heq
    rw [hres] at heq
    dsimp only at heq
    split at heq
    · cases heq
    · obtain rfl := Option.some.inj heq
      intro i x hx
      refine ⟨x, ?_, rfl, id⟩
      rw [he, getElem?_append_left (List.getElem?_eq_some_iff.mp hx).1]
      exact hx

theorem Inv.stays_delete (h : Inv hash s t) {key : K} {r : Table K V × Bool} (heq : ScrMap.delete hash s.map key = some r) :
    Stays s.map r.1 := by
  rw [ScrMap.delete] at heq
  rcases h.sound.find_spec (different_of_distinct h.distinct) key with ⟨e, x, hf, hx, hl, hk⟩ | ⟨hf, hno⟩
  · rw [hf] at heq
    obtain rfl := Option.some.inj heq
    exact stays_modify s.map Entry.kill (fun _ => rfl) (fun _ hh => absurd hh Bool.false_ne_true) rfl
  · rw [hf] at heq
    obtain rfl := Option.some.inj heq
    exact stays_refl _

end

variable {kind : KeyKind} {t : LiveMap.State (Key kind) V}

theorem Inv.stays {s s' : Session (Key kind) V} {op : Op (Key kind) V}
    {r : Res (Key kind) V} (h : Inv (hashKey kind) s t) (hstep : ScrMap.step kind s op = some (s', r)) (hd : s.map.iterDepth ≠ 0)
    (hd' : s'.map.iterDepth ≠ 0) : Stays s.map s'.map := by
  cases op with
  | set k v =>
    obtain ⟨m', hm', hs⟩ := Option.bind_eq_some_iff.mp hstep
    obtain ⟨rfl, -⟩ := Prod.mk.inj (Option.some.inj hs)
    exact h.stays_set hm' hd
  | get k =>
    obtain ⟨v, -, hs⟩ := Option.bind_eq_some_iff.mp hstep
    obtain ⟨rfl, -⟩ := Prod.mk.inj (Option.some.inj hs)
    exact stays_refl _
  | has k =>
    obtain ⟨b, -, hs⟩ := Option.bind_eq_some_iff.mp hstep
    obtain ⟨rfl, -⟩ := Prod.mk.inj (Option.some.inj hs)
    exact stays_refl _
  | delete k =>
    obtain ⟨r', hr', hs⟩ := Option.bind_eq_some_iff.mp hstep
    obtain ⟨rfl, -⟩ := Prod.mk.inj (Option.some.inj hs)
    exact h.stays_delete hr'
  | clear =>
    obtain ⟨rfl, -⟩ := Prod.mk.inj (Option.some.inj hstep)
    exact stays_clear hd
  | size =>
    obtain ⟨rfl, -⟩ := Prod.mk.inj (Option.some.inj hstep)
    exact stays_refl _
  | enter =>
    obtain ⟨rfl, -⟩ := Prod.mk.inj (Option.some.inj hstep)
    exact stays_of_entries rfl
  | next c =>
    rw [ScrMap.step, ScrMap.iterNext] at hstep
    split at hstep
    · obtain ⟨o, -, hs⟩ := Option.bind_eq_some_iff.mp hstep
      cases o with
      | some e =>
        obtain ⟨rfl, -⟩ := Prod.mk.inj (Option.some.inj hs)
        exact stays_refl _
      | none =>
        obtain ⟨m', hm', hs⟩ := Option.bind_eq_some_iff.mp hs
        obtain ⟨rfl, -⟩ := Prod.mk.inj (Option.some.inj hs)
        exact stays_of_entries (iterExit_entries hm' hd' h.sound)
    · obtain ⟨rfl, -⟩ := Prod.mk.inj (Option.some.inj hstep)
      exact stays_refl _
  | leave c =>
    rw [ScrMap.step, ScrMap.iterClose] at hstep
    split at hstep
    · obtain ⟨m', hm', hs⟩ := Option.bind_eq_some_iff.mp hstep
      obtain ⟨rfl, -⟩ := Prod.mk.inj (Option.some.inj hs)
      exact stays_of_entries (iterExit_entries hm' hd' h.sound)
    · obtain ⟨rfl, -⟩ := Prod.mk.inj (Option.some.inj hstep)
      exact stays_refl _

/-! ### Every state that is reached -/

/-- The decimal spelling of an array index. -/
def IsIndex (k : Bytes) : Prop := ∃ v ≤ 4294967294, k = decimal v

theorem keyArrayIndex_eq_none {k : Bytes} : keyArrayIndex k = none ↔ ¬IsIndex k := by
  rw [Option.eq_none_iff_forall_ne_some]
  constructor
  · rintro h ⟨v, hv, hk⟩
    exact h v (keyArrayIndex_eq_some.mpr ⟨hv, hk⟩)
  · intro h v hv
    exact h ⟨v, keyArrayIndex_eq_some.mp hv⟩

open Classical in
/-- What the own keys of a string map are, for the entries of the machine. -/
def OwnKeys : (kind : KeyKind) → Table (Key kind) V → LiveMap.State (Key kind) V → Prop
  | .str, m, t =>
    ∃ indices : List ℕ, indices.Pairwise (· < ·) ∧
      (∀ v, v ∈ indices ↔ v ≤ 4294967294 ∧ decimal v ∈ (live t.slots).map Prod.fst) ∧
      keysJsOrder m = indices.map decimal ++ ((live t.slots).map Prod.fst).filter fun k => ¬IsIndex k
  | _, _, _ => True

/-- A state of the map, and that of the machine. -/
structure Correct (kind : KeyKind) (s : Session (Key kind) V) (t : LiveMap.State (Key kind) V) : Prop where
  /-- The entries, in the order of their insertion. -/
  entries : live (slots s.map) = live t.slots
  different : (live (slots s.map)).Pairwise fun a b => a.1 ≠ b.1
  /-- A lookup ends, and finds the live entry of its key and nothing else. -/
  lookup : ∀ key, ∃ found, find (hashKey kind) s.map key = some found ∧
    ∀ e : ℕ, found = some e ↔ ∃ x : Entry (Key kind) V, s.map.entries[e]? = some x ∧ x.live = true ∧ x.key = key
  room : s.map.buckets ≠ [] → (stored s.map.buckets).length < s.map.buckets.length
  ownKeys : OwnKeys kind s.map t
  stays : ∀ op s' r, step kind s op = some (s', r) → s.map.iterDepth ≠ 0 → s'.map.iterDepth ≠ 0 → Stays s.map s'.map

theorem liveKeys_eq (m : Table Bytes V) : liveKeys m = (live (slots m)).map Prod.fst := by
  rw [liveKeys, slots]
  induction m.entries with
  | nil => rfl
  | cons e es ih =>
    by_cases he : e.live = true
    · have hslot : e.slot = some (e.key, e.val) := if_pos he
      rw [filter_cons_of_pos he, map_cons, map_cons, hslot, LiveMap.live_some, map_cons, ih]
    · have hslot : e.slot = none := if_neg he
      rw [filter_cons_of_neg he, map_cons, hslot, LiveMap.live_none, ih]

open Classical in
theorem ownKeys_spec (m : Table Bytes V) (es : List (Bytes × V)) (hl : live (slots m) = es)
    (hd : es.Pairwise fun a b => a.1 ≠ b.1) :
    ∃ indices : List ℕ, indices.Pairwise (· < ·) ∧ (∀ v, v ∈ indices ↔ v ≤ 4294967294 ∧ decimal v ∈ es.map Prod.fst) ∧
      keysJsOrder m = indices.map decimal ++ (es.map Prod.fst).filter fun k => ¬IsIndex k := by
  have hkeys : liveKeys m = es.map Prod.fst := by rw [liveKeys_eq, hl]
  have hother : ∀ k, (keyArrayIndex k).isNone = decide (¬IsIndex k) := by
    intro k
    rw [Bool.eq_iff_iff, Option.isNone_iff_eq_none, decide_eq_true_eq]
    exact keyArrayIndex_eq_none
  have hspec := keysJsOrder_spec m (by rw [hkeys]; exact pairwise_map.mpr hd)
  rw [hkeys] at hspec
  simpa only [hother] using hspec

theorem Inv.different {s : Session (Key kind) V} (h : Inv (hashKey kind) s t) :
    (live (slots s.map)).Pairwise fun a b => a.1 ≠ b.1 :=
  h.distinct.imp fun hab => of_decide_eq_false hab

theorem Inv.correct {s : Session (Key kind) V} (h : Inv (hashKey kind) s t) :
    Correct kind s t := by
  refine ⟨h.sim.live, h.different, fun key => ?_, h.sound.lt_buckets, ?_, fun op s' r hstep hd hd' => h.stays hstep hd hd'⟩
  · have hdiff := different_of_distinct h.distinct
    rcases h.sound.find_spec hdiff key with ⟨e, x, hf, hx, hl, hk⟩ | ⟨hf, hno⟩
    · refine ⟨some e, hf, fun e' => ⟨?_, ?_⟩⟩
      · rintro ⟨⟩
        exact ⟨x, hx, hl, hk⟩
      · rintro ⟨x', hx', hl', hk'⟩
        rw [hdiff e' e x' x hx' hx hl' hl (hk'.trans hk.symm)]
    · refine ⟨none, hf, fun e => iff_of_false (fun h0 => by cases h0) ?_⟩
      rintro ⟨x, hx, hl, hk⟩
      exact hno x (mem_of_getElem? hx) hl hk
  · cases kind with
    | str =>
      have hdiff := h.different
      rw [h.sim.live] at hdiff
      exact ownKeys_spec s.map _ h.sim.live hdiff
    | f64 => trivial
    | ref => trivial

/-- **Every history of a `ScrMap` is one of the ordered map**, and every state that it reaches is in
order. -/
theorem run_correct (kind : KeyKind) (V : Type) (ops : List (Op (Key kind) V)) :
    ∃ s, run kind ⟨new, []⟩ ops = some (s, LiveMap.run (ecmaKeys kind) ⟨[], []⟩ ops) ∧
      Correct kind s (LiveMap.after (ecmaKeys kind) ⟨[], []⟩ ops) := by
  obtain ⟨s, hrun, h⟩ := (inv_new (hashKey kind)).run ops
  have hnil : ∀ e ∈ live (⟨[], []⟩ : LiveMap.State (Key kind) V).slots, probeKey kind e.1 = e.1 := forall_mem_nil _
  obtain ⟨hr, ha⟩ := LiveMap.run_congr (agree_ecmaKeys kind) hnil fun op (_ : op ∈ ops) => op.sets_true
  rw [hr] at hrun
  rw [ha] at h
  exact ⟨s, hrun, h.correct⟩

end Scriptc.Runtime.ScrMap
