import Scriptc.Lib.Utf16

/-!
# Encodings of characters

An encoding writes every character as some codes. In the ones here the first code of a character tells
it from the codes that go on another, so that no character's codes begin those of another.
-/

namespace Scriptc

open List

/-- A code for characters. -/
structure Coding (α : Type) where
  code : Char → List α

namespace Coding

variable {α : Type} (E : Coding α)

def text (cs : List Char) : List α := cs.flatMap E.code

structure Lawful (E : Coding α) : Prop where
  ne_nil : ∀ c, E.code c ≠ []
  /-- A code that goes on a character starts none. -/
  tail_ne_lead : ∀ c d, ∀ x ∈ (E.code c).tail, (E.code d).head? ≠ some x
  eq_of_prefix : ∀ c d, E.code c <+: E.code d → c = d

@[simp] theorem text_nil : E.text [] = [] := rfl

theorem text_cons (c : Char) (cs : List Char) : E.text (c :: cs) = E.code c ++ E.text cs := rfl

theorem text_append (cs ds : List Char) : E.text (cs ++ ds) = E.text cs ++ E.text ds := flatMap_append

variable {E}

theorem Lawful.length_pos (h : E.Lawful) (c : Char) : 0 < (E.code c).length :=
  length_pos_iff.mpr (h.ne_nil c)

theorem length_take_add (cs : List Char) {n : ℕ} {c : Char} (h : cs[n]? = some c) :
    (E.text (cs.take (n + 1))).length = (E.text (cs.take n)).length + (E.code c).length := by
  rw [take_add_one, h, Option.toList_some, text_append, length_append, text_cons, text_nil, append_nil]

theorem length_take_mono (cs : List Char) {m n : ℕ} (h : m ≤ n) :
    (E.text (cs.take m)).length ≤ (E.text (cs.take n)).length := by
  have hsplit : cs.take n = cs.take m ++ (cs.take n).drop m := by
    have := take_append_drop m (cs.take n)
    rwa [take_take, Nat.min_eq_left h, eq_comm] at this
  rw [hsplit, text_append, length_append]
  omega

theorem Lawful.length_take_lt (h : E.Lawful) (cs : List Char) {m n : ℕ} (hn : n ≤ cs.length) :
    (E.text (cs.take m)).length < (E.text (cs.take n)).length ↔ m < n := by
  constructor
  · intro hlt
    by_contra hle
    have := length_take_mono (E := E) cs (Nat.le_of_not_lt hle)
    omega
  · intro hlt
    have hget : cs[m]? = some (cs.get ⟨m, by omega⟩) := List.getElem?_eq_getElem (by omega)
    have hnext := length_take_add (E := E) cs hget
    have hmono : (E.text (cs.take (m + 1))).length ≤ (E.text (cs.take n)).length := length_take_mono cs hlt
    have := h.length_pos (cs.get ⟨m, by omega⟩)
    omega

/-- The codes between two characters. -/
theorem slice_text (cs : List Char) {l m : ℕ} (h : l ≤ m) :
    ((E.text cs).take (E.text (cs.take m)).length).drop (E.text (cs.take l)).length =
      E.text ((cs.take m).drop l) := by
  have htake : (E.text cs).take (E.text (cs.take m)).length = E.text (cs.take m) := by
    have hsplit : E.text cs = E.text (cs.take m) ++ E.text (cs.drop m) := by
      rw [← text_append, take_append_drop]
    rw [hsplit, take_left]
  have hsplit : E.text (cs.take m) = E.text (cs.take l) ++ E.text ((cs.take m).drop l) := by
    rw [← text_append]
    congr 1
    have := take_append_drop l (cs.take m)
    rwa [take_take, Nat.min_eq_left h, eq_comm] at this
  rw [htake, hsplit, drop_left]

theorem drop_text (cs : List Char) {n : ℕ} {c : Char} (h : cs[n]? = some c) :
    (E.text cs).drop (E.text (cs.take n)).length = E.code c ++ E.text (cs.drop (n + 1)) := by
  have hdrop : cs.drop n = c :: cs.drop (n + 1) := by
    obtain ⟨hlt, hc⟩ := List.getElem?_eq_some_iff.mp h
    rw [drop_eq_getElem_cons hlt, hc]
  have hsplit : E.text cs = E.text (cs.take n) ++ E.text (cs.drop n) := by
    rw [← text_append, take_append_drop]
  rw [hsplit, drop_left, hdrop, text_cons]

/-- Two different characters part at some code, which for both goes on what was common. -/
theorem Lawful.parts (h : E.Lawful) {c d : Char} (hne : c ≠ d) :
    ∃ common x v y w, E.code c = common ++ x :: v ∧ E.code d = common ++ y :: w ∧ x ≠ y := by
  have hsplit : ∀ as bs : List α, ¬as <+: bs → ¬bs <+: as →
      ∃ common x v y w, as = common ++ x :: v ∧ bs = common ++ y :: w ∧ x ≠ y := by
    intro as
    induction as with
    | nil => exact fun bs has _ => absurd nil_prefix has
    | cons a as ih =>
      rintro (_ | ⟨b, bs⟩) has hbs
      · exact absurd nil_prefix hbs
      · by_cases hab : a = b
        · obtain rfl := hab
          obtain ⟨common, x, v, y, w, rfl, rfl, hxy⟩ :=
            ih bs (fun hp => has (cons_prefix_cons.mpr ⟨rfl, hp⟩))
              (fun hp => hbs (cons_prefix_cons.mpr ⟨rfl, hp⟩))
          exact ⟨a :: common, x, v, y, w, rfl, rfl, hxy⟩
        · exact ⟨[], a, as, b, bs, rfl, rfl, hab⟩
  exact hsplit _ _ (fun hp => hne (h.eq_of_prefix c d hp)) fun hp => hne (h.eq_of_prefix d c hp).symm

end Coding

/-! ### UTF-8 and UTF-16 -/

def utf8 : Coding UInt8 := ⟨String.utf8EncodeChar⟩

def utf16 : Coding UInt16 := ⟨Utf16.encodeChar⟩

/-- `String::from_utf8`. -/
def fromUtf8 (bytes : List UInt8) : Option (List Char) := bytes.toByteArray.utf8Decode?.map Array.toList

theorem fromUtf8_text (cs : List Char) : fromUtf8 (utf8.text cs) = some cs := by
  have hencode : (utf8.text cs).toByteArray = cs.utf8Encode := rfl
  rw [fromUtf8, hencode, List.utf8Decode?_utf8Encode, Option.map_some]

theorem toNat_char (c : Char) : c.toNat < 0xD800 ∨ 0xDFFF < c.toNat ∧ c.toNat < 0x110000 := c.valid

/-- The bytes of a character, by its length. -/
inductive Bytes8 (n : ℕ) : List UInt8 → Prop
  | one {a : UInt8} : a.toNat = n → n < 0x80 → Bytes8 n [a]
  | two {a b : UInt8} : a.toNat = n / 64 + 0xc0 → b.toNat = n % 64 + 0x80 → 0x80 ≤ n → n < 0x800 → Bytes8 n [a, b]
  | three {a b c : UInt8} : a.toNat = n / 4096 + 0xe0 → b.toNat = n / 64 % 64 + 0x80 → c.toNat = n % 64 + 0x80 →
      0x800 ≤ n → n < 0x10000 → Bytes8 n [a, b, c]
  | four {a b c d : UInt8} : a.toNat = n / 262144 + 0xf0 → b.toNat = n / 4096 % 64 + 0x80 →
      c.toNat = n / 64 % 64 + 0x80 → d.toNat = n % 64 + 0x80 → 0x10000 ≤ n → n < 0x110000 → Bytes8 n [a, b, c, d]

theorem bytes8_code (c : Char) : Bytes8 c.toNat (utf8.code c) := by
  have hvalid := toNat_char c
  have hval : c.val.toNat = c.toNat := rfl
  have hcode : utf8.code c = String.utf8EncodeChar c := rfl
  rw [hcode, String.utf8EncodeChar, hval]
  split
  · refine .one ?_ (by omega)
    rw [UInt8.toNat_ofNat']
    omega
  · split
    · refine .two ?_ ?_ (by omega) (by omega) <;> (rw [UInt8.toNat_ofNat']; omega)
    · split
      · refine .three ?_ ?_ ?_ (by omega) (by omega) <;> (rw [UInt8.toNat_ofNat']; omega)
      · refine .four ?_ ?_ ?_ ?_ (by omega) (by omega) <;> (rw [UInt8.toNat_ofNat']; omega)

/-- An ASCII character is one byte. -/
theorem code_ascii {n : ℕ} (h : n < 0x80) : utf8.code (Char.ofNat n) = [UInt8.ofNat n] := by
  have hbytes := bytes8_code (Char.ofNat n)
  rw [Utf16.toNat_ofNat_char (.inl (by omega))] at hbytes
  generalize utf8.code (Char.ofNat n) = code at hbytes
  cases hbytes with
  | one ha _ => rw [← ha, UInt8.ofNat_toNat]
  | two _ _ hge _ => omega
  | three _ _ _ hge _ => omega
  | four _ _ _ _ hge _ => omega

/-- ASCII text is its numbers as bytes. -/
theorem text_ascii {ns : List ℕ} (h : ∀ n ∈ ns, n < 0x80) : utf8.text (ns.map Char.ofNat) = ns.map UInt8.ofNat := by
  induction ns with
  | nil => rfl
  | cons n ns ih =>
    obtain ⟨hn, h⟩ := forall_mem_cons.mp h
    rw [map_cons, map_cons, Coding.text_cons, code_ascii hn, ih h]
    rfl

theorem char_eq {c d : Char} (h : c.toNat = d.toNat) : c = d := by
  rw [← Char.ofNat_toNat c, h, Char.ofNat_toNat]

theorem Bytes8.tail {n : ℕ} {bs : List UInt8} (h : Bytes8 n bs) : ∀ x ∈ bs.tail, 0x80 ≤ x.toNat ∧ x.toNat < 0xc0 := by
  cases h with
  | one => simp
  | two => simp; omega
  | three => simp; omega
  | four => simp; omega

theorem Bytes8.lead {n : ℕ} {bs : List UInt8} (h : Bytes8 n bs) :
    ∃ a as, bs = a :: as ∧ (a.toNat < 0x80 ∨ 0xc0 ≤ a.toNat) := by
  cases h with
  | one => exact ⟨_, _, rfl, by omega⟩
  | two => exact ⟨_, _, rfl, by omega⟩
  | three => exact ⟨_, _, rfl, by omega⟩
  | four => exact ⟨_, _, rfl, by omega⟩

theorem Bytes8.inj {m n : ℕ} {as bs : List UInt8} (ha : Bytes8 m as) (hb : Bytes8 n bs) (h : as <+: bs) : m = n := by
  -- the first byte gives the length, and bytes of one length give the number
  cases ha <;> cases hb <;> simp only [cons_prefix_cons, nil_prefix, prefix_nil, reduceCtorEq,
    and_false, and_true, ← UInt8.toNat_inj] at h <;> omega

theorem utf8_lawful : utf8.Lawful where
  ne_nil c := by
    obtain ⟨a, as, h, _⟩ := (bytes8_code c).lead
    simp [h]
  tail_ne_lead c d x hx := by
    obtain ⟨a, as, h, ha⟩ := (bytes8_code d).lead
    have := (bytes8_code c).tail x hx
    rw [h, List.head?_cons]
    rintro heq
    obtain rfl := Option.some.inj heq
    omega
  eq_of_prefix c d h := char_eq ((bytes8_code c).inj (bytes8_code d) h)

/-- The units of a character, by its length. -/
inductive Units16 (n : ℕ) : List UInt16 → Prop
  | one {u : UInt16} : u.toNat = n → (n < 0xD800 ∨ 0xDFFF < n) → n < 0x10000 → Units16 n [u]
  | two {u v : UInt16} : u.toNat = 0xD800 + (n - 0x10000) / 0x400 → v.toNat = 0xDC00 + (n - 0x10000) % 0x400 →
      0x10000 ≤ n → n < 0x110000 → Units16 n [u, v]

theorem units16_code (c : Char) : Units16 c.toNat (utf16.code c) := by
  have hvalid := toNat_char c
  have hcode : utf16.code c = Utf16.encodeChar c := rfl
  rw [hcode, Utf16.encodeChar]
  split
  · refine .one ?_ (by omega) (by omega)
    rw [UInt16.toNat_ofNat']
    omega
  · refine .two ?_ ?_ (by omega) (by omega) <;> (rw [UInt16.toNat_ofNat']; omega)

theorem Units16.inj {m n : ℕ} {us vs : List UInt16} (hu : Units16 m us) (hv : Units16 n vs) (h : us <+: vs) :
    m = n := by
  cases hu <;> cases hv <;> simp only [cons_prefix_cons, nil_prefix, prefix_nil, reduceCtorEq,
    and_false, and_true, ← UInt16.toNat_inj] at h <;> omega

theorem utf16_lawful : utf16.Lawful where
  ne_nil c := by
    have h := units16_code c
    intro hnil
    rw [hnil] at h
    cases h
  tail_ne_lead c d x hx := by
    have hc := units16_code c
    have hd := units16_code d
    generalize utf16.code c = us at hc hx
    generalize utf16.code d = vs at hd
    cases hc with
    | one => simp at hx
    | two hu hv =>
      obtain rfl := mem_singleton.mp hx
      cases hd with
      | one hw hrange =>
        rintro heq
        obtain rfl := Option.some.inj heq
        omega
      | two hw =>
        rintro heq
        obtain rfl := Option.some.inj heq
        omega
  eq_of_prefix c d h := char_eq ((units16_code c).inj (units16_code d) h)

end Scriptc
