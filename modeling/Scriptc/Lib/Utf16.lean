import Mathlib.Data.List.Basic
import Mathlib.Tactic.Ring

/-!
# UTF-16

Text as 16-bit units, where a surrogate may stand alone, and as characters.
-/

namespace Scriptc.Utf16

open List

abbrev Units := List UInt16

def IsHigh (u : UInt16) : Prop := 0xD800 ≤ u.toNat ∧ u.toNat < 0xDC00

def IsLow (u : UInt16) : Prop := 0xDC00 ≤ u.toNat ∧ u.toNat < 0xE000

instance (u : UInt16) : Decidable (IsHigh u) := inferInstanceAs (Decidable (_ ∧ _))

instance (u : UInt16) : Decidable (IsLow u) := inferInstanceAs (Decidable (_ ∧ _))

/-- What holds of the items of a list is decided item by item, not for all values of their type. -/
scoped instance (priority := 1100) decidableList {α : Type} (items : List α) (p : α → Prop) [DecidablePred p] :
    Decidable (∀ x ∈ items, p x) := List.decidableBAll p items

scoped instance (priority := 1100) decidableOption {α : Type} (item : Option α) (p : α → Prop) [DecidablePred p] :
    Decidable (∀ x ∈ item, p x) := Option.decidableForallMem item

/-- The units of a character. -/
def encodeChar (c : Char) : Units :=
  if c.toNat < 0x10000 then [UInt16.ofNat c.toNat]
  else
    [UInt16.ofNat (0xD800 + (c.toNat - 0x10000) / 0x400),
      UInt16.ofNat (0xDC00 + (c.toNat - 0x10000) % 0x400)]

/-- The character of a surrogate pair. -/
def pair (u v : UInt16) : Char := Char.ofNat (0x10000 + (u.toNat - 0xD800) * 0x400 + (v.toNat - 0xDC00))

/-- The characters of a text, and the surrogates that stand alone. -/
def decode : Units → List (Char ⊕ UInt16)
  | [] => []
  | [u] => if IsHigh u ∨ IsLow u then [.inr u] else [.inl (Char.ofNat u.toNat)]
  | u :: v :: rest =>
    if IsHigh u ∧ IsLow v then .inl (pair u v) :: decode rest
    else if IsHigh u ∨ IsLow u then .inr u :: decode (v :: rest)
    else .inl (Char.ofNat u.toNat) :: decode (v :: rest)

def encodeItem : Char ⊕ UInt16 → Units
  | .inl c => encodeChar c
  | .inr u => [u]

/-- The units of a text. -/
def encode (text : List Char) : Units := text.flatMap encodeChar

theorem toNat_ofNat_char {n : ℕ} (h : n < 0xD800 ∨ 0xDFFF < n ∧ n < 0x110000) : (Char.ofNat n).toNat = n := by
  have hvalid : n.isValidChar := h
  have hofNat : Char.ofNat n = Char.ofNatAux n hvalid := dif_pos hvalid
  rw [hofNat]
  rfl

theorem encodeChar_ofNat {u : UInt16} (h : ¬(IsHigh u ∨ IsLow u)) : encodeChar (Char.ofNat u.toNat) = [u] := by
  have hlt := u.toNat_lt
  have hvalid : (Char.ofNat u.toNat).toNat = u.toNat := by
    refine toNat_ofNat_char ?_
    simp only [IsHigh, IsLow] at h
    omega
  rw [encodeChar, hvalid, if_pos (by omega), UInt16.ofNat_toNat]

theorem encodeChar_pair {u v : UInt16} (hu : IsHigh u) (hv : IsLow v) : encodeChar (pair u v) = [u, v] := by
  simp only [IsHigh, IsLow] at hu hv
  have hvalid : (pair u v).toNat = 0x10000 + (u.toNat - 0xD800) * 0x400 + (v.toNat - 0xDC00) :=
    toNat_ofNat_char (.inr (by omega))
  have hhigh : 0xD800 + ((pair u v).toNat - 0x10000) / 0x400 = u.toNat := by omega
  have hlow : 0xDC00 + ((pair u v).toNat - 0x10000) % 0x400 = v.toNat := by omega
  rw [encodeChar, if_neg (by omega), hhigh, hlow, UInt16.ofNat_toNat, UInt16.ofNat_toNat]

/-- No unit is lost. -/
theorem flatMap_decode (units : Units) : (decode units).flatMap encodeItem = units := by
  induction units using decode.induct with
  | case1 => rfl
  | case2 u h => simp [decode, h, encodeItem]
  | case3 u h => simp [decode, h, encodeItem, encodeChar_ofNat h]
  | case4 u v rest h ih => simp [decode, h, encodeItem, encodeChar_pair h.1 h.2, ih]
  | case5 u v rest h h' ih => rw [decode, if_neg h, if_pos h', flatMap_cons, ih]; rfl
  | case6 u v rest h h' ih =>
    rw [decode, if_neg h, if_neg h', flatMap_cons, ih, encodeItem, encodeChar_ofNat h']
    rfl

/-- What stands alone is a surrogate. -/
theorem decode_alone {units : Units} {u : UInt16} (h : .inr u ∈ decode units) : IsHigh u ∨ IsLow u := by
  induction units using decode.induct with
  | case1 => simp [decode] at h
  | case2 v hv =>
    simp [decode, hv] at h
    exact h ▸ hv
  | case3 v hv => simp [decode, hv] at h
  | case4 v w rest hv ih =>
    simp only [decode, hv, and_self, ↓reduceIte, mem_cons, reduceCtorEq, false_or] at h
    exact ih h
  | case5 v w rest hv hv' ih =>
    rw [decode, if_neg hv, if_pos hv'] at h
    rcases mem_cons.mp h with heq | h
    · cases heq
      exact hv'
    · exact ih h
  | case6 v w rest hv hv' ih =>
    rw [decode, if_neg hv, if_neg hv'] at h
    rcases mem_cons.mp h with heq | h
    · cases heq
    · exact ih h

theorem decode_encodeChar (c : Char) (rest : Units) : decode (encodeChar c ++ rest) = .inl c :: decode rest := by
  have hvalid : c.toNat < 0xD800 ∨ 0xDFFF < c.toNat ∧ c.toNat < 0x110000 := c.valid
  by_cases hc : c.toNat < 0x10000
  · have hunit : (UInt16.ofNat c.toNat).toNat = c.toNat := by
      rw [UInt16.toNat_ofNat']
      omega
    have halone : ¬(IsHigh (UInt16.ofNat c.toNat) ∨ IsLow (UInt16.ofNat c.toNat)) := by
      simp only [IsHigh, IsLow, hunit]
      omega
    have hchar : Char.ofNat c.toNat = c := Char.ofNat_toNat c
    rw [encodeChar, if_pos hc]
    cases rest with
    | nil => simp [decode, halone, hchar, hunit]
    | cons v rest =>
      have hpair : ¬(IsHigh (UInt16.ofNat c.toNat) ∧ IsLow v) := fun hh => halone (.inl hh.1)
      rw [singleton_append, decode, if_neg hpair, if_neg halone, hunit, hchar]
  · have hhigh : (UInt16.ofNat (0xD800 + (c.toNat - 0x10000) / 0x400)).toNat =
        0xD800 + (c.toNat - 0x10000) / 0x400 := by
      rw [UInt16.toNat_ofNat']
      omega
    have hlow : (UInt16.ofNat (0xDC00 + (c.toNat - 0x10000) % 0x400)).toNat =
        0xDC00 + (c.toNat - 0x10000) % 0x400 := by
      rw [UInt16.toNat_ofNat']
      omega
    have hpair : pair (UInt16.ofNat (0xD800 + (c.toNat - 0x10000) / 0x400))
        (UInt16.ofNat (0xDC00 + (c.toNat - 0x10000) % 0x400)) = c := by
      rw [pair, hhigh, hlow]
      have hsum : 0x10000 + (0xD800 + (c.toNat - 0x10000) / 0x400 - 0xD800) * 0x400 +
          (0xDC00 + (c.toNat - 0x10000) % 0x400 - 0xDC00) = c.toNat := by omega
      rw [hsum, Char.ofNat_toNat]
    have hsurrogates : IsHigh (UInt16.ofNat (0xD800 + (c.toNat - 0x10000) / 0x400)) ∧
        IsLow (UInt16.ofNat (0xDC00 + (c.toNat - 0x10000) % 0x400)) := by
      simp only [IsHigh, IsLow, hhigh, hlow]
      omega
    rw [encodeChar, if_neg hc]
    simp only [cons_append, nil_append, decode, if_pos hsurrogates, hpair]

/-- A text that is encoded decodes to its characters, whatever comes after it. -/
theorem decode_encode_append (text : List Char) (rest : Units) : decode (encode text ++ rest) = text.map .inl ++ decode rest := by
  induction text with
  | nil => rfl
  | cons c text ih =>
    rw [encode, flatMap_cons, append_assoc, decode_encodeChar, map_cons, cons_append, ← ih]
    rfl

theorem decode_encode (text : List Char) : decode (encode text) = text.map .inl := by
  have h := decode_encode_append text []
  rwa [append_nil, decode, append_nil] at h

end Scriptc.Utf16
