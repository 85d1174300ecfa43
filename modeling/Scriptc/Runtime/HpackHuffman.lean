import Scriptc.Lib.PrefixCode
import Scriptc.Runtime.Hpack

/-!
# The Huffman code of HPACK

The table is a prefix code, and the tree that is built from it leads to a symbol by the bits of its
word. So the decoder takes exactly the bit strings that the code spells, with ones at the end that
do not fill a byte.
-/

namespace Scriptc.Runtime.Hpack

open PrefixCode List

/-- A byte, or `EOS`. -/
abbrev Symbol := Fin 257

def eos : Symbol := 256

/-- The code word of a symbol. -/
def codeWord (s : Symbol) : List Bool :=
  let e := SCR_H2_HUFF.getD s (0, 0)
  bitsOf e.1 e.2

/-! ### The table -/

theorem length_bitsOf (code len : ℕ) : (bitsOf code len).length = len := by
  rw [bitsOf, length_map, length_reverse, length_range]

theorem getElem?_bitsOf {code len i : ℕ} (hi : i < len) : (bitsOf code len)[i]? = some (code.testBit (len - 1 - i)) := by
  rw [bitsOf, getElem?_map, List.getElem?_reverse (by simpa), length_range, List.getElem?_range (by omega)]
  rfl

/-- A code has no bits above its length. -/
def Fits (e : ℕ × ℕ) : Prop := 0 < e.2 ∧ e.2 ≤ 30 ∧ e.1 < 2 ^ e.2

instance (e : ℕ × ℕ) : Decidable (Fits e) := inferInstanceAs (Decidable (_ ∧ _))

/-- The numbers of 30 bits that begin with a code. -/
def span (e : ℕ × ℕ) : ℕ × ℕ := (e.1 <<< (30 - e.2), (e.1 + 1) <<< (30 - e.2))

/-- No two spans meet. -/
def apart : List (ℕ × ℕ) → Bool
  | [] => true
  | i :: is => (is.all fun j => Nat.ble i.2 j.1 || Nat.ble j.2 i.1) && apart is

theorem pairwise_of_apart {is : List (ℕ × ℕ)} (h : apart is = true) : is.Pairwise fun i j => i.2 ≤ j.1 ∨ j.2 ≤ i.1 := by
  induction is with
  | nil => exact List.Pairwise.nil
  | cons i is ih =>
    rw [apart, Bool.and_eq_true, all_eq_true] at h
    refine List.Pairwise.cons (fun j hj => ?_) (ih h.2)
    simpa using h.1 j hj

theorem Fits.testBit {e : ℕ × ℕ} (he : Fits e) {i : ℕ} (hi : e.2 ≤ i) : e.1.testBit i = false :=
  Nat.testBit_lt_two_pow (he.2.2.trans_le (Nat.pow_le_pow_right (by omega) hi))

/-- The first bits of a longer code. -/
theorem shiftRight_of_prefix {e e' : ℕ × ℕ} (he : Fits e) (he' : Fits e') (h : bitsOf e.1 e.2 <+: bitsOf e'.1 e'.2) :
    e.2 ≤ e'.2 ∧ e'.1 >>> (e'.2 - e.2) = e.1 := by
  have hle := h.length_le
  rw [length_bitsOf, length_bitsOf] at hle
  refine ⟨hle, Nat.eq_of_testBit_eq fun i => ?_⟩
  rw [Nat.testBit_shiftRight]
  by_cases hi : i < e.2
  · obtain ⟨rest, hrest⟩ := h
    have hbit : (bitsOf e'.1 e'.2)[e.2 - 1 - i]? = (bitsOf e.1 e.2)[e.2 - 1 - i]? := by
      rw [← hrest, getElem?_append_left (by rw [length_bitsOf]; omega)]
    rw [getElem?_bitsOf (by omega), getElem?_bitsOf (by omega), Option.some.injEq] at hbit
    rwa [show e'.2 - 1 - (e.2 - 1 - i) = e'.2 - e.2 + i by omega, show e.2 - 1 - (e.2 - 1 - i) = i by omega] at hbit
  · rw [he.testBit (by omega), he'.testBit (by omega)]

/-- Then the span of the one lies in the span of the other. -/
theorem span_meets {e e' : ℕ × ℕ} (he : Fits e) (he' : Fits e') (h : bitsOf e.1 e.2 <+: bitsOf e'.1 e'.2) :
    ¬((span e).2 ≤ (span e').1 ∨ (span e').2 ≤ (span e).1) := by
  obtain ⟨hle, hshift⟩ := shiftRight_of_prefix he he' h
  have hmax := he'.2.1
  have hsplit : 30 - e.2 = (e'.2 - e.2) + (30 - e'.2) := by omega
  rw [Nat.shiftRight_eq_div_pow] at hshift
  have hpos := Nat.two_pow_pos (30 - e'.2)
  have hlow : e.1 * 2 ^ (e'.2 - e.2) ≤ e'.1 := hshift ▸ Nat.div_mul_le_self _ _
  have hhigh : e'.1 + 1 ≤ (e.1 + 1) * 2 ^ (e'.2 - e.2) := by
    have := Nat.lt_div_mul_add (a := e'.1) (Nat.two_pow_pos (e'.2 - e.2))
    rw [hshift] at this
    rw [Nat.add_mul, Nat.one_mul]
    omega
  have hlow := Nat.mul_le_mul_right (2 ^ (30 - e'.2)) hlow
  have hhigh := Nat.mul_le_mul_right (2 ^ (30 - e'.2)) hhigh
  rw [Nat.mul_assoc] at hlow hhigh
  have hwide : e'.1 * 2 ^ (30 - e'.2) < (e'.1 + 1) * 2 ^ (30 - e'.2) := Nat.mul_lt_mul_of_pos_right (Nat.lt_succ_self _) hpos
  simp only [span, Nat.shiftLeft_eq, hsplit, pow_add]
  omega

/-- All that is read off the table itself. -/
theorem checked_SCR_H2_HUFF : SCR_H2_HUFF.length = 257 ∧ (∀ e ∈ SCR_H2_HUFF, Fits e) ∧ apart (SCR_H2_HUFF.map span) = true ∧
    codeWord eos = replicate 30 true := by
  decide +kernel

theorem length_SCR_H2_HUFF : SCR_H2_HUFF.length = 257 := checked_SCR_H2_HUFF.1

theorem fits_SCR_H2_HUFF : ∀ e ∈ SCR_H2_HUFF, Fits e := checked_SCR_H2_HUFF.2.1

theorem apart_SCR_H2_HUFF : apart (SCR_H2_HUFF.map span) = true := checked_SCR_H2_HUFF.2.2.1

theorem getElem?_SCR_H2_HUFF (s : Symbol) : SCR_H2_HUFF[s.val]? = some (SCR_H2_HUFF.getD s (0, 0)) := by
  rw [getD_eq_getElem?_getD, List.getElem?_eq_getElem (by rw [length_SCR_H2_HUFF]; exact s.isLt), Option.getD_some]

/-- **No code word begins another.** -/
theorem lawful_codeWord : Lawful codeWord where
  ne_nil s := by
    have hpos := (fits_SCR_H2_HUFF _ (mem_of_getElem? (getElem?_SCR_H2_HUFF s))).1
    rw [ne_eq, ← length_eq_zero_iff, codeWord, length_bitsOf]
    omega
  eq_of_prefix s t h := by
    by_contra hne
    have hs := getElem?_SCR_H2_HUFF s
    have ht := getElem?_SCR_H2_HUFF t
    have hmeet := span_meets (fits_SCR_H2_HUFF _ (mem_of_getElem? hs)) (fits_SCR_H2_HUFF _ (mem_of_getElem? ht)) h
    obtain ⟨hs', hs⟩ := List.getElem?_eq_some_iff.mp hs
    obtain ⟨ht', ht⟩ := List.getElem?_eq_some_iff.mp ht
    have hpair := pairwise_iff_getElem.mp (pairwise_map.mp (pairwise_of_apart apart_SCR_H2_HUFF))
    rcases Nat.lt_or_gt_of_ne (Fin.val_ne_of_ne hne) with hlt | hlt
    · exact hmeet (by rw [← hs, ← ht]; exact hpair s t hs' ht' hlt)
    · exact hmeet (by rw [← hs, ← ht]; exact (hpair t s ht' hs' hlt).symm)

/-! ### The tree -/

namespace HuffNode

/-- The node that some bits lead to. -/
def walk : HuffNode → List Bool → HuffNode
  | t, [] => t
  | t, b :: p => (t.child b).walk p

theorem walk_nil (t : HuffNode) : t.walk [] = t := rfl

theorem walk_null (p : List Bool) : null.walk p = null := by
  induction p with
  | nil => rfl
  | cons b p ih => exact ih

theorem walk_append (t : HuffNode) (p q : List Bool) : t.walk (p ++ q) = (t.walk p).walk q := by
  induction p generalizing t with
  | nil => rfl
  | cons b p ih => exact ih _

/-- The branch that a code follows has what the code leads to, and the other one stays. -/
theorem child_insert (s : ℕ) (b c : Bool) (bits : List Bool) (t : HuffNode) :
    (t.insert s (b :: bits)).child c = if c = b then (t.child c).insert s bits else t.child c := by
  cases t <;> cases b <;> cases c <;> rfl

theorem sym_insert (s : ℕ) (b : Bool) (bits : List Bool) (t : HuffNode) : (t.insert s (b :: bits)).sym = t.sym := by
  cases t <;> cases b <;> rfl

theorem sym_walk_insert (s : ℕ) (bits p : List Bool) (t : HuffNode) :
    ((t.insert s bits).walk p).sym = if p = bits then some s else (t.walk p).sym := by
  induction bits generalizing t p with
  | nil =>
    cases p with
    | nil => cases t <;> rfl
    | cons c p => cases t <;> cases c <;> rfl
  | cons b bits ih =>
    cases p with
    | nil => exact sym_insert s b bits t
    | cons c p =>
      rw [walk, walk, child_insert]
      by_cases hc : c = b
      · rw [if_pos hc, ih, hc]
        simp only [List.cons.injEq, true_and]
      · rw [if_neg hc, if_neg fun h => hc (List.cons.inj h).1]

theorem walk_insert_eq_null (s : ℕ) (bits p : List Bool) (t : HuffNode) :
    (t.insert s bits).walk p = null ↔ t.walk p = null ∧ ¬p <+: bits := by
  induction bits generalizing t p with
  | nil =>
    cases p with
    | nil => cases t <;> simp [walk, insert]
    | cons c p => cases t <;> cases c <;> simp [walk, insert, child, walk_null]
  | cons b bits ih =>
    cases p with
    | nil => cases t <;> cases b <;> simp [walk, insert]
    | cons c p =>
      rw [walk, walk, child_insert, cons_prefix_cons]
      by_cases hc : c = b
      · rw [if_pos hc, ih]
        simp only [hc, true_and]
      · rw [if_neg hc]
        simp only [hc, false_and, not_false_eq_true, and_true]

/-- Words put into a tree, one after the other. -/
def insertAll (es : List ((ℕ × ℕ) × ℕ)) (t : HuffNode) : HuffNode :=
  es.foldl (fun root e => root.insert e.2 (bitsOf e.1.1 e.1.2)) t

theorem walk_insertAll_eq_null (es : List ((ℕ × ℕ) × ℕ)) (p : List Bool) (t : HuffNode) :
    (insertAll es t).walk p = null ↔ t.walk p = null ∧ ∀ e ∈ es, ¬p <+: bitsOf e.1.1 e.1.2 := by
  induction es generalizing t with
  | nil => simp [insertAll]
  | cons e es ih =>
    rw [forall_mem_cons, ← and_assoc, ← walk_insert_eq_null e.2]
    exact ih _

/-- A node has the symbol of a word that leads there, or the one it had. -/
theorem sym_walk_insertAll (es : List ((ℕ × ℕ) × ℕ)) (p : List Bool) (t : HuffNode) :
    (∃ e ∈ es, bitsOf e.1.1 e.1.2 = p ∧ ((insertAll es t).walk p).sym = some e.2) ∨
      (∀ e ∈ es, bitsOf e.1.1 e.1.2 ≠ p) ∧ ((insertAll es t).walk p).sym = (t.walk p).sym := by
  induction es generalizing t with
  | nil => exact .inr ⟨by simp, rfl⟩
  | cons e es ih =>
    rcases ih (t.insert e.2 (bitsOf e.1.1 e.1.2)) with ⟨e', he', hp, hs⟩ | ⟨hne, hs⟩
    · exact .inl ⟨e', mem_cons_of_mem e he', hp, hs⟩
    · rw [sym_walk_insert] at hs
      by_cases hp : p = bitsOf e.1.1 e.1.2
      · rw [if_pos hp] at hs
        exact .inl ⟨e, mem_cons_self, hp.symm, hs⟩
      · rw [if_neg hp] at hs
        exact .inr ⟨forall_mem_cons.mpr ⟨Ne.symm hp, hne⟩, hs⟩

end HuffNode

open HuffNode

theorem mem_zipIdx_SCR_H2_HUFF {e : (ℕ × ℕ) × ℕ} :
    e ∈ SCR_H2_HUFF.zipIdx ↔ ∃ s : Symbol, s.val = e.2 ∧ bitsOf e.1.1 e.1.2 = codeWord s ∧ SCR_H2_HUFF.getD s (0, 0) = e.1 := by
  rw [mem_zipIdx_iff_getElem?]
  constructor
  · intro he
    have hlt : e.2 < 257 := by
      have := (List.getElem?_eq_some_iff.mp he).1
      rwa [length_SCR_H2_HUFF] at this
    have hs := getElem?_SCR_H2_HUFF ⟨e.2, hlt⟩
    rw [he, Option.some.injEq] at hs
    exact ⟨⟨e.2, hlt⟩, rfl, by rw [codeWord, ← hs], hs.symm⟩
  · rintro ⟨s, hs, -, he⟩
    rw [← hs, getElem?_SCR_H2_HUFF, he]

/-- The tree goes on where a word does, -/
theorem walk_huffRoot_eq_null (p : List Bool) : huffRoot.walk p = .null ↔ ∀ s, ¬p <+: codeWord s := by
  have hroot : (HuffNode.node none .null .null).walk p = .null ↔ p ≠ [] := by
    rcases p with _ | ⟨_ | _, p⟩
    · simp [HuffNode.walk]
    · simp [HuffNode.walk, child, walk_null]
    · simp [HuffNode.walk, child, walk_null]
  refine (walk_insertAll_eq_null _ _ _).trans ?_
  rw [hroot]
  constructor
  · rintro ⟨-, hall⟩ s
    exact hall (_, s.val) (mem_zipIdx_SCR_H2_HUFF.mpr ⟨s, rfl, rfl, rfl⟩)
  · intro hall
    refine ⟨fun h0 => hall eos (h0 ▸ nil_prefix), fun e he => ?_⟩
    obtain ⟨s, -, hs, -⟩ := mem_zipIdx_SCR_H2_HUFF.mp he
    exact hs ▸ hall s

/-- and it has a symbol where its word ends. -/
theorem sym_walk_huffRoot (p : List Bool) (k : ℕ) :
    (huffRoot.walk p).sym = some k ↔ ∃ s : Symbol, s.val = k ∧ p = codeWord s := by
  have hroot : ((HuffNode.node none .null .null).walk p).sym = none := by
    rcases p with _ | ⟨_ | _, p⟩
    · rfl
    · simp [HuffNode.walk, child, walk_null, sym]
    · simp [HuffNode.walk, child, walk_null, sym]
  rcases sym_walk_insertAll SCR_H2_HUFF.zipIdx p (.node none .null .null) with ⟨e, he, hp, hs⟩ | ⟨hne, hs⟩
  · obtain ⟨s, hse, hw, -⟩ := mem_zipIdx_SCR_H2_HUFF.mp he
    have hs : (huffRoot.walk p).sym = some e.2 := hs
    rw [hs, Option.some.injEq, ← hse]
    constructor
    · rintro rfl
      exact ⟨s, rfl, hp.symm.trans hw⟩
    · rintro ⟨t, rfl, ht⟩
      rw [lawful_codeWord.eq_of_prefix s t (hw.symm.trans (hp.trans ht) ▸ prefix_rfl)]
  · have hs : (huffRoot.walk p).sym = none := hs.trans hroot
    rw [hs]
    constructor
    · nofun
    · rintro ⟨s, -, rfl⟩
      exact absurd rfl (hne (_, s.val) (mem_zipIdx_SCR_H2_HUFF.mpr ⟨s, rfl, rfl, rfl⟩))

/-! ### Decoding -/

def symbolOf (b : UInt8) : Symbol := ⟨b.toNat, b.toNat_lt.trans (by decide)⟩

theorem val_symbolOf (b : UInt8) : (symbolOf b).val = b.toNat := rfl

theorem symbolOf_injective : Function.Injective symbolOf := fun b c h => by
  have hval := congrArg Fin.val h
  rwa [val_symbolOf, val_symbolOf, UInt8.toNat_inj] at hval

theorem symbolOf_ne_eos (b : UInt8) : symbolOf b ≠ eos := by
  intro h
  have hlt : b.toNat < 256 := b.toNat_lt
  have hval : b.toNat = 256 := congrArg Fin.val h
  omega

theorem symbolOf_ofNat {s : Symbol} (h : s ≠ eos) : symbolOf (UInt8.ofNat s) = s := by
  have hne : s.val ≠ 256 := fun hval => h (Fin.ext hval)
  have hlt := s.isLt
  refine Fin.ext ?_
  rw [val_symbolOf, UInt8.toNat_ofNat', Nat.mod_eq_of_lt (by omega)]

/-- A walk of the decoder, without its node. -/
def HuffWalk.plain (w : HuffWalk) : Walk Symbol Bool := ⟨w.path, w.out.map symbolOf⟩

/-- The node is where the path leads. -/
def HuffWalk.Placed (w : HuffWalk) : Prop := w.node = huffRoot.walk w.path

theorem placed_root (out : Bytes) : HuffWalk.Placed ⟨huffRoot, [], out⟩ := by
  rw [HuffWalk.Placed, walk_nil]

theorem child_of_placed {w : HuffWalk} (h : w.Placed) (bit : Bool) : w.node.child bit = huffRoot.walk (w.path ++ [bit]) := by
  rw [walk_append, ← h]
  rfl

/-- A step of the decoder follows the code. -/
theorem reads_huffBit : Reads codeWord (· ≠ eos) HuffWalk.Placed HuffWalk.plain huffBit where
  whole w bit s hg hword hs := by
    have hsym := (sym_walk_huffRoot (w.path ++ [bit]) s).mpr ⟨s, rfl, hword⟩
    rw [huffBit, child_of_placed hg]
    cases hn : huffRoot.walk (w.path ++ [bit]) with
    | null =>
      rw [hn] at hsym
      cases hsym
    | node v zero one =>
      rw [hn] at hsym
      obtain rfl : v = some s.val := hsym
      refine ⟨_, if_neg fun h => hs (Fin.ext h), placed_root _, ?_⟩
      simp only [HuffWalk.plain, map_append, map_cons, map_nil, symbolOf_ofNat hs]
  unwanted w bit s hg hword hs := by
    have hsym := (sym_walk_huffRoot (w.path ++ [bit]) s).mpr ⟨s, rfl, hword⟩
    rw [huffBit, child_of_placed hg]
    cases hn : huffRoot.walk (w.path ++ [bit]) with
    | null => rfl
    | node v zero one =>
      rw [hn] at hsym
      obtain rfl : v = some s.val := hsym
      exact if_pos (congrArg Fin.val (not_not.mp hs))
  part w bit hg hpart := by
    rw [huffBit, child_of_placed hg]
    cases hn : huffRoot.walk (w.path ++ [bit]) with
    | null =>
      obtain ⟨s, hs, -⟩ := hpart
      exact absurd hs ((walk_huffRoot_eq_null _).mp hn s)
    | node v zero one =>
      cases v with
      | none => exact ⟨_, rfl, hn.symm, rfl⟩
      | some k =>
        obtain ⟨s, -, hs⟩ := (sym_walk_huffRoot (w.path ++ [bit]) k).mp (by rw [hn]; rfl)
        exact absurd (hs ▸ prefix_rfl) (lawful_codeWord.not_prefix hpart s)
  other w bit hg hnone := by
    have hnull := (walk_huffRoot_eq_null (w.path ++ [bit])).mpr hnone
    rw [huffBit, child_of_placed hg, hnull]

/-- The bits of some bytes, the highest of each first. -/
def bits (p : Bytes) : List Bool := p.flatMap fun b => bitsOf b.toNat 8

/-- The bits of the code words of some bytes. -/
def codeBits (s : Bytes) : List Bool := s.flatMap fun b => codeWord (symbolOf b)

theorem codeBits_eq_spell (s : Bytes) : codeBits s = spell codeWord (s.map symbolOf) := by
  rw [codeBits, spell, flatMap_map]

/-- The ones that fill the last byte. -/
def padding (k : ℕ) : List Bool := replicate k true

theorem length_padding (k : ℕ) : (padding k).length = k := length_replicate

theorem codeWord_eos : codeWord eos = padding 30 := checked_SCR_H2_HUFF.2.2.2

/-- Few ones are a part of a word. -/
theorem pending_padding {k : ℕ} (hk : k ≤ 7) : Pending codeWord (padding k) := by
  refine ⟨eos, ?_, fun h => ?_⟩
  · rw [codeWord_eos, padding, padding]
    exact (prefix_replicate_iff).mpr ⟨by rw [length_replicate]; omega, by rw [length_replicate]⟩
  · have hlen := congrArg List.length h
    rw [codeWord_eos, length_padding, length_padding] at hlen
    omega

/-- Two sequences of symbols are not spelled alike, whatever fills the last byte. -/
theorem spell_padding_inj {ss ts : List Symbol} {k m : ℕ} (hk : k ≤ 7) (hm : m ≤ 7)
    (h : spell codeWord ss ++ padding k = spell codeWord ts ++ padding m) : ss = ts :=
  (lawful_codeWord.unique (pending_padding hk) (pending_padding hm) h).1

theorem all_id_iff (p : List Bool) : p.all id = true ↔ p = padding p.length := by
  rw [padding, eq_replicate_iff, all_eq_true]
  simp

theorem huffDecode_eq_some_iff (p s : Bytes) :
    huffDecode p = some s ↔ ∃ k ≤ 7, bits p = codeBits s ++ padding k := by
  have hread := lawful_codeWord.read_iff reads_huffBit (w := ⟨huffRoot, [], []⟩) (placed_root []) (pending_nil lawful_codeWord eos) (bits p)
  constructor
  · intro h
    obtain ⟨w, hw, h⟩ := Option.bind_eq_some_iff.mp h
    split_ifs at h with hlen hones
    cases h
    obtain ⟨ss, hout, heq, -, -⟩ := (hread w.plain).mp ⟨w, hw, rfl⟩
    refine ⟨w.path.length, not_lt.mp hlen, ?_⟩
    rw [codeBits_eq_spell, ← (all_id_iff w.path).mp hones]
    have hss : w.out.map symbolOf = ss := hout
    rw [hss]
    exact heq
  · rintro ⟨k, hk, heq⟩
    have hfin : Finishes codeWord (· ≠ eos) ⟨[], []⟩ (bits p) ⟨padding k, s.map symbolOf⟩ := by
      refine ⟨s.map symbolOf, rfl, ?_, pending_padding hk, ?_⟩
      · rw [← codeBits_eq_spell]
        exact heq
      · intro t ht
        obtain ⟨b, -, rfl⟩ := mem_map.mp ht
        exact symbolOf_ne_eos b
    obtain ⟨w, hw, hplain⟩ := (hread _).mpr hfin
    obtain ⟨hpath, hout⟩ := Walk.mk.inj hplain
    have hout : w.out = s := symbolOf_injective.list_map hout
    refine Option.bind_eq_some_iff.mpr ⟨w, hw, ?_⟩
    rw [if_neg (by rw [hpath, length_padding]; omega),
      if_pos ((all_id_iff _).mpr (by rw [hpath, length_padding])), hout]

/-! ### Encoding -/

def byteOf (l : List Bool) : UInt8 := UInt8.ofNat (l.foldl (fun n b => 2 * n + b.toNat) 0)

theorem bitsOf_byteOf {l : List Bool} (h : l.length = 8) : bitsOf (byteOf l).toNat 8 = l := by
  obtain ⟨a, b, c, d, e, f, g, i, rfl⟩ : ∃ a b c d e f g i, l = [a, b, c, d, e, f, g, i] := by
    match l, h with
    | [a, b, c, d, e, f, g, i], _ => exact ⟨a, b, c, d, e, f, g, i, rfl⟩
  decide +kernel +revert

/-- Bits in bytes, the last one filled up. -/
def pack (l : List Bool) : Bytes :=
  if l = [] then [] else byteOf ((l ++ padding 7).take 8) :: pack (l.drop 8)
termination_by l.length
decreasing_by
  rename_i h
  have := length_pos_iff.mpr h
  rw [length_drop]
  omega

theorem bits_pack (l : List Bool) : ∃ k ≤ 7, bits (pack l) = l ++ padding k := by
  induction hn : l.length using Nat.strong_induction_on generalizing l with
  | _ n ih =>
    obtain rfl | hne := eq_or_ne l []
    · exact ⟨0, by omega, by rw [pack, if_pos rfl]; rfl⟩
    have hpos := length_pos_iff.mpr hne
    have hbyte : bits (pack l) = (l ++ padding 7).take 8 ++ bits (pack (l.drop 8)) := by
      rw [pack, if_neg hne, bits, flatMap_cons, bitsOf_byteOf (by simp [length_padding]; omega)]
      rfl
    rcases Nat.lt_or_ge l.length 8 with hlt | hge
    · refine ⟨8 - l.length, by omega, ?_⟩
      have hdrop : l.drop 8 = [] := drop_of_length_le hlt.le
      rw [hbyte, hdrop, pack, if_pos rfl, take_append, take_of_length_le hlt.le, padding, padding, take_replicate,
        Nat.min_eq_left (by omega)]
      exact append_nil _
    · obtain ⟨k, hk, hrest⟩ := ih (l.drop 8).length (by rw [length_drop]; omega) (l.drop 8) rfl
      refine ⟨k, hk, ?_⟩
      rw [hbyte, hrest, take_append_of_le_length hge, ← append_assoc, take_append_drop]

/-- The code words of some bytes, and ones up to the end of the last byte. -/
def huffEncode (s : Bytes) : Bytes := pack (codeBits s)

/-- **The decoder takes what the code spells**, with at most seven ones after it, and gives the bytes
that are spelled; what the encoding writes is such a text, and no two sequences of symbols are
spelled by one text. -/
theorem huffDecode_correct :
    (∀ p s, huffDecode p = some s ↔ ∃ k ≤ 7, bits p = codeBits s ++ padding k) ∧
    (∀ s, huffDecode (huffEncode s) = some s) ∧
    ∀ (ss ts : List Symbol) (k m : ℕ), k ≤ 7 → m ≤ 7 → ss ≠ ts →
      spell codeWord ss ++ padding k ≠ spell codeWord ts ++ padding m := by
  refine ⟨huffDecode_eq_some_iff, fun s => ?_, fun ss ts k m hk hm hne heq => hne (spell_padding_inj hk hm heq)⟩
  exact (huffDecode_eq_some_iff _ s).mpr (bits_pack (codeBits s))

/-- The five bits of an `a` and three ones, which are not those of a `c`. -/
theorem huffDecode_correct_a :
    huffDecode [0x1f] = some [0x61] ∧
      spell codeWord [symbolOf 0x61] ++ padding 3 ≠ spell codeWord [symbolOf 0x63] ++ padding 3 :=
  ⟨(huffDecode_correct.1 _ _).mpr ⟨3, by decide, by decide +kernel⟩,
    huffDecode_correct.2.2 _ _ 3 3 (by decide) (by decide) (by decide)⟩

end Scriptc.Runtime.Hpack
