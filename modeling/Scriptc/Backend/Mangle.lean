import Mathlib.Data.Nat.Digits.Defs
import Mathlib.Data.Nat.Digits.Lemmas
import Mathlib.Data.Set.Function
import Mathlib.Tactic.FinCases

/-!
# Name mangling

`backend/mangle.ts` turns IR names into C identifiers: a prefix for the kind of name,
then the name with every character outside `[A-Za-z0-9_]` encoded, `.` as `_` and any
other as `_x<hex>_`. A JavaScript string is a sequence of UTF-16 code units, and the
encoding goes unit by unit.

The encoding is not injective: `_`, `x` and the hexadecimal digits are themselves
identifier characters, so a name may spell out another name's escape. `Confusable` says
exactly which names share an image, without mentioning the encoding, and
`mangle_injective_iff` that a program's symbols are distinct exactly when it has no
confusable names.
-/

namespace Mangle

open List

/-- A JavaScript string: UTF-16 code units. -/
abbrev Units := List UInt16

/-- The code unit of an ASCII character. -/
def unit (c : Char) : UInt16 := c.toNat.toUInt16

/-- An ASCII literal. -/
def units (cs : List Char) : Units := cs.map unit

/-- The digit characters of `Number.prototype.toString`. -/
def digitUnit (d : ℕ) : UInt16 := (if d < 10 then 48 + d else 87 + d).toUInt16

/-- `n.toString(base)`. -/
def toDigits (base n : ℕ) : Units := if n = 0 then [digitUnit 0] else ((Nat.digits base n).reverse.map digitUnit)

/-- `[A-Za-z0-9_]`. -/
def isWord (c : UInt16) : Bool :=
  (65 ≤ c && c ≤ 90) || (97 ≤ c && c ≤ 122) || (48 ≤ c && c ≤ 57) || c == unit '_'

/-- What stands for a character C identifiers cannot hold. -/
def escape (c : UInt16) : Units := units ['_', 'x'] ++ toDigits 16 c.toNat ++ [unit '_']

def sanitizeUnit (c : UInt16) : Units :=
  if isWord c then [c] else if c = unit '.' then [unit '_'] else escape c

def sanitize (name : Units) : Units := name.flatMap sanitizeUnit

def mangleFunction (name : Units) : Units := units ['s', 'c', '_', 'f', '_'] ++ sanitize name

def mangleLocal (localId : Units) : Units := units ['s', 'c', '_', 'l', '_'] ++ sanitize localId

/-- The tag every module global's id starts with. -/
def globalTag : Units := units ['%', 'g', '.']

def mangleGlobal (globalId : Units) : Units :=
  units ['s', 'c', '_', 'g', '_'] ++
    sanitize (if globalTag.isPrefixOf globalId then globalId.drop globalTag.length else globalId)

/-- The id `freshLocal` gives the `count`-th local of a name. -/
def localId (name : Units) (count : ℕ) : Units := name ++ unit '.' :: toDigits 10 count

/-! ### Digits -/

/-- The digit a character stands for. -/
def digitOf (c : UInt16) : ℕ := if c ≤ 57 then c.toNat - 48 else c.toNat - 87

theorem digitOf_digitUnit : ∀ d < 16, digitOf (digitUnit d) = d := by decide

theorem isWord_digitUnit : ∀ d < 16, isWord (digitUnit d) = true := by decide

theorem digitUnit_ne_underscore : ∀ d < 16, digitUnit d ≠ unit '_' := by decide

section

variable {base : ℕ} (h1 : 1 < base) (hb : base ≤ 16)

include h1 hb

theorem mem_toDigits {n : ℕ} {c : UInt16} (hc : c ∈ toDigits base n) : ∃ d < 16, c = digitUnit d := by
  unfold toDigits at hc
  split_ifs at hc
  · exact ⟨0, by omega, by simpa using hc⟩
  · simp only [mem_map, mem_reverse] at hc
    obtain ⟨d, hd, rfl⟩ := hc
    exact ⟨d, (Nat.digits_lt_base h1 hd).trans_le hb, rfl⟩

/-- The number can be read back from its digits. -/
theorem ofDigits_toDigits (n : ℕ) : Nat.ofDigits base ((toDigits base n).reverse.map digitOf) = n := by
  unfold toDigits
  split_ifs with hn
  · simp [digitOf_digitUnit, hn]
  · have hmap : (Nat.digits base n).map (digitOf ∘ digitUnit) = Nat.digits base n := by
      conv_rhs => rw [← map_id (Nat.digits base n)]
      refine map_congr_left fun d hd => ?_
      exact digitOf_digitUnit d ((Nat.digits_lt_base h1 hd).trans_le hb)
    rw [← map_reverse, reverse_reverse, map_map, hmap, Nat.ofDigits_digits]

theorem toDigits_inj {n m : ℕ} (h : toDigits base n = toDigits base m) : n = m := by
  rw [← ofDigits_toDigits h1 hb n, h, ofDigits_toDigits h1 hb m]

theorem isWord_of_mem_toDigits {n : ℕ} {c : UInt16} (hc : c ∈ toDigits base n) : isWord c = true := by
  obtain ⟨d, hd, rfl⟩ := mem_toDigits h1 hb hc
  exact isWord_digitUnit d hd

theorem underscore_not_mem_toDigits (n : ℕ) : unit '_' ∉ toDigits base n := by
  intro hc
  obtain ⟨d, hd, e⟩ := mem_toDigits h1 hb hc
  exact digitUnit_ne_underscore d hd e.symm

end

/-! ### The encoding -/

@[simp] theorem sanitize_nil : sanitize [] = [] := rfl

@[simp] theorem sanitize_cons (c : UInt16) (s : Units) : sanitize (c :: s) = sanitizeUnit c ++ sanitize s := rfl

@[simp] theorem sanitize_append (s t : Units) : sanitize (s ++ t) = sanitize s ++ sanitize t := flatMap_append

variable {c : UInt16}

theorem sanitizeUnit_word (h : isWord c = true) : sanitizeUnit c = [c] := by simp [sanitizeUnit, h]

theorem sanitizeUnit_dot : sanitizeUnit (unit '.') = [unit '_'] := by decide

/-- A character written out as an escape. -/
def isSpecial (c : UInt16) : Bool := !isWord c && c != unit '.'

theorem sanitizeUnit_special (h : isSpecial c = true) : sanitizeUnit c = escape c := by
  simp only [isSpecial, Bool.and_eq_true, Bool.not_eq_true', bne_iff_ne, ne_eq] at h
  simp [sanitizeUnit, h.1, h.2]

theorem sanitize_words {s : Units} (h : ∀ c ∈ s, isWord c = true) : sanitize s = s := by
  induction s with
  | nil => rfl
  | cons c s ih =>
    simp only [mem_cons, forall_eq_or_imp] at h
    rw [sanitize_cons, sanitizeUnit_word h.1, ih h.2]
    rfl

theorem isWord_of_mem_escape {c d : UInt16} (h : d ∈ escape c) : isWord d = true := by
  simp only [escape, units, map_cons, map_nil, cons_append, nil_append, mem_cons,
    mem_append, not_mem_nil, or_false] at h
  rcases h with rfl | rfl | h | rfl
  · decide
  · decide
  · exact isWord_of_mem_toDigits (by omega) (by omega) h
  · decide

/-- An escape spelled out in a name is left as it is. -/
theorem sanitize_escape (c : UInt16) : sanitize (escape c) = escape c :=
  sanitize_words fun _ h => isWord_of_mem_escape h

/-! ### Confusable names -/

/-- Two names that can be read as one another: equal but for a `.` that the other has as
`_`, and special characters that the other has spelled out as their escapes. -/
inductive Confusable : Units → Units → Prop where
  /-- Nothing left to compare. -/
  | nil : Confusable [] []
  /-- The same character in both. -/
  | same (c : UInt16) {s t : Units} : Confusable s t → Confusable (c :: s) (c :: t)
  /-- `_` in one, `.` in the other. -/
  | dot {s t : Units} : Confusable s t → Confusable (unit '_' :: s) (unit '.' :: t)
  /-- A special character in one, its escape in the other. -/
  | spelled {c : UInt16} {s t : Units} : isSpecial c = true → Confusable s (escape c ++ t) → Confusable s (c :: t)
  /-- In either order. -/
  | symm {s t : Units} : Confusable s t → Confusable t s

theorem Confusable.sanitize_eq {s t : Units} (h : Confusable s t) : sanitize s = sanitize t := by
  induction h with
  | nil => rfl
  | same c _ ih => rw [sanitize_cons, sanitize_cons, ih]
  | dot _ ih =>
    rw [sanitize_cons, sanitize_cons, sanitizeUnit_dot, sanitizeUnit_word (by decide), ih]
  | spelled hc _ ih =>
    rw [ih, sanitize_append, sanitize_escape, sanitize_cons, sanitizeUnit_special hc]
  | symm _ ih => exact ih.symm

/-- The special characters of a name. -/
def specials (s : Units) : ℕ := s.countP isSpecial

theorem specials_spelled (hc : isSpecial c = true) (s : Units) :
    specials (escape c ++ s) < specials (c :: s) := by
  have h0 : specials (escape c) = 0 := by
    rw [specials, countP_eq_zero]
    intro d hd
    simp [isSpecial, isWord_of_mem_escape hd]
  simp only [specials, countP_append, countP_cons, hc, if_true] at h0 ⊢
  omega

theorem sanitizeUnit_ne_nil (c : UInt16) : sanitizeUnit c ≠ [] := by
  unfold sanitizeUnit escape
  split_ifs <;> simp [units]

/-- What is not special stands for one character, `.` for the same as `_`. -/
theorem sanitizeUnit_of_not_special (h : isSpecial c = false) :
    (isWord c = true ∧ sanitizeUnit c = [c]) ∨ (c = unit '.' ∧ sanitizeUnit c = [unit '_']) := by
  by_cases hw : isWord c = true
  · exact Or.inl ⟨hw, sanitizeUnit_word hw⟩
  · have hc : c = unit '.' := by
      by_contra hne
      simp [isSpecial, hw, hne] at h
    subst hc
    exact Or.inr ⟨rfl, sanitizeUnit_dot⟩

/-- What is left of a name: the length of its image, and the special characters still to spell out. -/
def weight (s : Units) : ℕ := (sanitize s).length + specials s

theorem weight_spelled (hc : isSpecial c = true) (s : Units) : weight (escape c ++ s) < weight (c :: s) := by
  have h := specials_spelled hc s
  have he : sanitize (escape c ++ s) = sanitize (c :: s) := by
    rw [sanitize_append, sanitize_escape, sanitize_cons, sanitizeUnit_special hc]
  unfold weight
  rw [he]
  omega

theorem weight_tail (c : UInt16) (s : Units) : weight s < weight (c :: s) := by
  have h := length_pos_iff.mpr (sanitizeUnit_ne_nil c)
  have hs : specials s ≤ specials (c :: s) := (sublist_cons_self c s).countP_le
  unfold weight
  rw [sanitize_cons, length_append]
  omega

/-- Two characters neither of which is special, with one image, are the same or a `_` and a `.`. -/
theorem confusable_cons {c d : UInt16} {s t : Units} (hc : isSpecial c = false) (hd : isSpecial d = false)
    (h : sanitizeUnit c = sanitizeUnit d) (hst : Confusable s t) : Confusable (c :: s) (d :: t) := by
  rcases sanitizeUnit_of_not_special hc with ⟨-, ec⟩ | ⟨rfl, ec⟩
  · rcases sanitizeUnit_of_not_special hd with ⟨-, ed⟩ | ⟨rfl, ed⟩
    · rw [ec, ed, singleton_inj] at h
      exact h ▸ .same c hst
    · rw [ec, ed, singleton_inj] at h
      exact h ▸ .dot hst
  · rcases sanitizeUnit_of_not_special hd with ⟨-, ed⟩ | ⟨rfl, ed⟩
    · rw [ec, ed, singleton_inj] at h
      exact h ▸ .symm (.dot hst.symm)
    · exact .same _ hst

/-- Names with one image are confusable. The special characters are spelled out first; what is
left is compared character by character. -/
theorem confusable_of_sanitize_eq (s t : Units) (h : sanitize s = sanitize t) : Confusable s t := by
  match s, t with
  | [], [] => exact .nil
  | [], d :: t =>
    rw [sanitize_nil, sanitize_cons] at h
    exact absurd (append_eq_nil_iff.mp h.symm).1 (sanitizeUnit_ne_nil d)
  | c :: s, [] =>
    rw [sanitize_nil, sanitize_cons] at h
    exact absurd (append_eq_nil_iff.mp h).1 (sanitizeUnit_ne_nil c)
  | c :: s, d :: t =>
    by_cases hd : isSpecial d = true
    · have hw := weight_spelled hd t
      refine .spelled hd (confusable_of_sanitize_eq (c :: s) (escape d ++ t) ?_)
      rw [h, sanitize_append, sanitize_escape, sanitize_cons, sanitizeUnit_special hd]
    by_cases hc : isSpecial c = true
    · have hw := weight_spelled hc s
      refine .symm (.spelled hc (.symm (confusable_of_sanitize_eq (escape c ++ s) (d :: t) ?_)))
      rw [← h, sanitize_append, sanitize_escape, sanitize_cons, sanitizeUnit_special hc]
    rw [Bool.not_eq_true] at hc hd
    have hws := weight_tail c s
    have hwt := weight_tail d t
    have hlen : ∀ {e : UInt16}, isSpecial e = false → (sanitizeUnit e).length = 1 := by
      intro e he
      rcases sanitizeUnit_of_not_special he with ⟨-, ee⟩ | ⟨-, ee⟩ <;> rw [ee] <;> rfl
    obtain ⟨hu, hst⟩ := append_inj h (by rw [hlen hc, hlen hd])
    exact confusable_cons hc hd hu (confusable_of_sanitize_eq s t hst)
termination_by weight s + weight t

theorem sanitize_eq_iff {s t : Units} : sanitize s = sanitize t ↔ Confusable s t :=
  ⟨confusable_of_sanitize_eq s t, Confusable.sanitize_eq⟩

/-! ### When mangling is injective -/

theorem mangleFunction_eq_iff {f g : Units} : mangleFunction f = mangleFunction g ↔ Confusable f g := by
  rw [mangleFunction, mangleFunction, append_right_inj, sanitize_eq_iff]

theorem sanitize_localId (a : Units) (i : ℕ) : sanitize (localId a i) = sanitize a ++ unit '_' :: toDigits 10 i := by
  rw [localId, sanitize_append, sanitize_cons, sanitizeUnit_dot,
    sanitize_words fun _ h => isWord_of_mem_toDigits (by omega) (by omega) h]
  rfl

/-- A text splits in one way around its last `_`. -/
theorem append_underscore_inj {s t u v : Units} (hu : unit '_' ∉ u) (hv : unit '_' ∉ v)
    (h : s ++ unit '_' :: u = t ++ unit '_' :: v) : s = t ∧ u = v := by
  rcases append_eq_append_iff.mp h with ⟨w, rfl, e⟩ | ⟨w, rfl, e⟩
  · cases w with
    | nil => simpa using e
    | cons c w =>
      simp only [cons_append, List.cons.injEq] at e
      rw [e.2] at hu
      simp at hu
  · cases w with
    | nil => simpa using e.symm
    | cons c w =>
      simp only [cons_append, List.cons.injEq] at e
      rw [e.2] at hv
      simp at hv

/-- The counter of a local survives, so only locals of one counter can clash. -/
theorem mangleLocal_eq_iff {a b : Units} {i j : ℕ} :
    mangleLocal (localId a i) = mangleLocal (localId b j) ↔ i = j ∧ Confusable a b := by
  rw [mangleLocal, mangleLocal, append_right_inj, sanitize_localId, sanitize_localId, ← sanitize_eq_iff]
  constructor
  · intro h
    obtain ⟨h1, h2⟩ := append_underscore_inj (underscore_not_mem_toDigits (by omega) (by omega) i)
      (underscore_not_mem_toDigits (by omega) (by omega) j) h
    exact ⟨toDigits_inj (by omega) (by omega) h2, h1⟩
  · rintro ⟨rfl, h⟩
    rw [h]

theorem mangleGlobal_eq_iff {x y : Units} :
    mangleGlobal (globalTag ++ x) = mangleGlobal (globalTag ++ y) ↔ Confusable x y := by
  have strip : ∀ x, mangleGlobal (globalTag ++ x) = units ['s', 'c', '_', 'g', '_'] ++ sanitize x := by
    intro x
    rw [mangleGlobal, if_pos (by simp [List.isPrefixOf_iff_prefix]), drop_left]
  rw [strip, strip, append_right_inj, sanitize_eq_iff]

/-- The names of a program, as the frontend hands them over: the IR names of its functions,
the locals of each function by name and counter, and its module globals, whose ids all
carry the tag. -/
structure Program where
  functions : Set Units
  locals : Units → Set (Units × ℕ)
  globals : Set Units

/-- Distinct names get distinct symbols, each kind of name for itself, locals function by function. -/
def Injective (p : Program) : Prop :=
  Set.InjOn mangleFunction p.functions ∧
    (∀ f ∈ p.functions, ∀ l ∈ p.locals f, ∀ l' ∈ p.locals f,
      localId l.1 l.2 ≠ localId l'.1 l'.2 → mangleLocal (localId l.1 l.2) ≠ mangleLocal (localId l'.1 l'.2)) ∧
    Set.InjOn mangleGlobal ((globalTag ++ ·) '' p.globals)

/-- No two names of a kind are confusable, locals of one function and one counter. -/
def NoConfusion (p : Program) : Prop :=
  (∀ f ∈ p.functions, ∀ g ∈ p.functions, Confusable f g → f = g) ∧
    (∀ f ∈ p.functions, ∀ l ∈ p.locals f, ∀ l' ∈ p.locals f, l.2 = l'.2 → Confusable l.1 l'.1 → l.1 = l'.1) ∧
    ∀ x ∈ p.globals, ∀ y ∈ p.globals, Confusable x y → x = y

theorem localId_inj {a b : Units} {i : ℕ} (h : localId a i = localId b i) : a = b := append_cancel_right h

/-- **The symbols of a program are distinct exactly when none of its names are confusable.** -/
theorem mangle_injective_iff (p : Program) : Injective p ↔ NoConfusion p := by
  unfold Injective NoConfusion
  refine and_congr ?_ (and_congr ?_ ?_)
  · exact ⟨fun h f hf g hg e => h hf hg (mangleFunction_eq_iff.mpr e),
      fun h f hf g hg e => h f hf g hg (mangleFunction_eq_iff.mp e)⟩
  · refine forall₂_congr fun f _ => forall₂_congr fun l _ => forall₂_congr fun l' _ => ?_
    obtain ⟨a, i⟩ := l
    obtain ⟨b, j⟩ := l'
    simp only [Ne, mangleLocal_eq_iff]
    constructor
    · rintro h rfl hc
      by_contra hne
      exact h (fun e => hne (localId_inj e)) ⟨rfl, hc⟩
    · rintro h hne ⟨rfl, hc⟩
      exact hne (by rw [h rfl hc])
  · constructor
    · rintro h x hx y hy e
      exact append_cancel_left (h ⟨x, hx, rfl⟩ ⟨y, hy, rfl⟩ (mangleGlobal_eq_iff.mpr e))
    · rintro h _ ⟨x, hx, rfl⟩ _ ⟨y, hy, rfl⟩ e
      exact congrArg _ (h x hx y hy (mangleGlobal_eq_iff.mp e))

/-- A program with the functions `$` and `_x24_`, both of which become `sc_f__x24_`. -/
def dollarProgram : Program where
  functions := {units ['$'], units ['_', 'x', '2', '4', '_']}
  locals _ := ∅
  globals := ∅

/-- `function $() {}` and `function _x24_() {}` share a symbol. -/
theorem dollar_clashes : ¬ Injective dollarProgram := by
  intro h
  have e : mangleFunction (units ['$']) = mangleFunction (units ['_', 'x', '2', '4', '_']) := by decide +kernel
  exact absurd (h.1 (by simp [dollarProgram]) (by simp [dollarProgram]) e) (by decide)

end Mangle
