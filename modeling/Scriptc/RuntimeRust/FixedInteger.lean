import Mathlib.Data.Nat.Digits.Lemmas
import Mathlib.Data.Nat.Size
import Mathlib.Data.List.DropRight
import Mathlib.Tactic.Linarith
import Mathlib.Tactic.Ring
import Scriptc.Lib.Numerals

/-!
# Fixed integers

`FixedInteger` of `number_format.rs`: natural numbers in limbs of 32 bits, the lowest first. A loop over the
limbs that carries something on is a recursion on the list. Each operation is that of the natural number.
-/

namespace Scriptc.RuntimeRust

open List

/-- The number that limbs spell. -/
def spell (limbs : List UInt32) : ℕ := Nat.ofDigits (2 ^ 32) (limbs.map UInt32.toNat)

@[simp] theorem spell_nil : spell [] = 0 := rfl

@[simp] theorem spell_cons (limb : UInt32) (limbs : List UInt32) : spell (limb :: limbs) = limb.toNat + 2 ^ 32 * spell limbs := rfl

theorem spell_append (as bs : List UInt32) : spell (as ++ bs) = spell as + 2 ^ (32 * as.length) * spell bs := by
  rw [spell, map_append, Nat.ofDigits_append, length_map, ← pow_mul]
  rfl

theorem spell_lt (limbs : List UInt32) : spell limbs < 2 ^ (32 * limbs.length) := by
  induction limbs with
  | nil => simp
  | cons limb limbs ih =>
    have := limb.toNat_lt
    rw [spell_cons, length_cons, Nat.mul_succ, pow_add]
    omega

theorem spell_zeros (k : ℕ) : spell (replicate k 0) = 0 := by
  induction k with
  | zero => rfl
  | succ k ih =>
    rw [replicate_succ, spell_cons, ih]
    rfl

theorem le_spell {limbs : List UInt32} (h : limbs ≠ []) (hlast : limbs.getLast h ≠ 0) : 2 ^ (32 * (limbs.length - 1)) ≤ spell limbs := by
  obtain ⟨front, last, rfl⟩ := eq_nil_or_concat limbs |>.resolve_left h
  simp only [concat_eq_append, getLast_append_singleton] at hlast
  have hpos : 0 < last.toNat := Nat.pos_of_ne_zero fun h0 => hlast (UInt32.toNat_inj.mp h0)
  rw [concat_eq_append, spell_append, length_append, length_singleton, Nat.add_sub_cancel, spell_cons, spell_nil,
    Nat.mul_zero, Nat.add_zero]
  exact (Nat.le_mul_of_pos_right _ hpos).trans (Nat.le_add_left _ _)

/-- A number has no limbs that are zeros at its top, but for a single one. -/
structure FixedInteger where
  limbs : List UInt32
  ne_nil : limbs ≠ []
  normal : limbs.length = 1 ∨ 2 ^ (32 * (limbs.length - 1)) ≤ spell limbs

namespace FixedInteger

def value (x : FixedInteger) : ℕ := spell x.limbs

/-! ### Limbs at the top -/

def normalize (limbs : List UInt32) : FixedInteger :=
  if h : limbs.rdropWhile (· = 0) = [] then ⟨[0], cons_ne_nil _ _, .inl rfl⟩
  else ⟨limbs.rdropWhile (· = 0), h, .inr (le_spell h (by simpa using rdropWhile_last_not (· = 0) limbs h))⟩

theorem spell_rdropWhile (limbs : List UInt32) : spell (limbs.rdropWhile (· = 0)) = spell limbs := by
  induction limbs using reverseRecOn with
  | nil => rfl
  | append_singleton limbs last ih =>
    by_cases h : last = 0
    · subst h
      rw [rdropWhile_concat_pos _ _ _ (by simp), ih, spell_append]
      simp
    · rw [rdropWhile_concat_neg _ _ _ (by simpa using h)]

@[simp] theorem value_normalize (limbs : List UInt32) : (normalize limbs).value = spell limbs := by
  rw [← spell_rdropWhile limbs, normalize]
  split_ifs with h
  · rw [h]
    rfl
  · rfl

def isZero (x : FixedInteger) : Bool := x.limbs == [0]

theorem isZero_iff (x : FixedInteger) : x.isZero = true ↔ x.value = 0 := by
  rw [isZero, beq_iff_eq]
  constructor
  · intro h
    rw [value, h]
    rfl
  · intro h
    obtain hlength | hlarge := x.normal
    · obtain ⟨limb, hlimb⟩ := length_eq_one_iff.mp hlength
      rw [value, hlimb, spell_cons, spell_nil, Nat.mul_zero, Nat.add_zero] at h
      rw [hlimb, show limb = 0 from UInt32.toNat_inj.mp h]
    · have := Nat.two_pow_pos (32 * (x.limbs.length - 1))
      rw [value] at h
      omega

/-! ### Multiplication and division by a limb -/

def fromU64 (value : ℕ) : FixedInteger := normalize [UInt32.ofNat value, UInt32.ofNat (value / 2 ^ 32)]

theorem value_fromU64 {value : ℕ} (h : value < 2 ^ 64) : (fromU64 value).value = value := by
  rw [fromU64, value_normalize, spell_cons, spell_cons, spell_nil, UInt32.toNat_ofNat', UInt32.toNat_ofNat']
  omega

/-- The limb that is pushed for a carry. -/
def carryLimb (carry : ℕ) : List UInt32 := if carry ≠ 0 then [UInt32.ofNat carry] else []

theorem spell_carryLimb {carry : ℕ} (h : carry < 2 ^ 32) : spell (carryLimb carry) = carry := by
  rw [carryLimb]
  split_ifs with h0
  · rw [spell_cons, spell_nil, UInt32.toNat_ofNat']
    omega
  · simp [not_not.mp h0]

def multiplyLimbs (multiplier : UInt32) : ℕ → List UInt32 → List UInt32
  | carry, [] => carryLimb carry
  | carry, limb :: limbs =>
    let product := limb.toNat * multiplier.toNat + carry
    UInt32.ofNat product :: multiplyLimbs multiplier (product / 2 ^ 32) limbs

theorem spell_multiplyLimbs (multiplier : UInt32) {carry : ℕ} (limbs : List UInt32) (h : carry < 2 ^ 32) :
    spell (multiplyLimbs multiplier carry limbs) = spell limbs * multiplier.toNat + carry := by
  induction limbs generalizing carry with
  | nil => rw [multiplyLimbs, spell_carryLimb h, spell_nil, Nat.zero_mul, Nat.zero_add]
  | cons limb limbs ih =>
    have hproduct : limb.toNat * multiplier.toNat ≤ (2 ^ 32 - 1) * (2 ^ 32 - 1) :=
      Nat.mul_le_mul (Nat.le_pred_of_lt limb.toNat_lt) (Nat.le_pred_of_lt multiplier.toNat_lt)
    rw [multiplyLimbs, spell_cons, ih (by omega), UInt32.toNat_ofNat', spell_cons, Nat.add_mul, Nat.mul_assoc]
    omega

def multiplySmall (x : FixedInteger) (multiplier : UInt32) : FixedInteger := normalize (multiplyLimbs multiplier 0 x.limbs)

@[simp] theorem value_multiplySmall (x : FixedInteger) (multiplier : UInt32) :
    (x.multiplySmall multiplier).value = x.value * multiplier.toNat := by
  rw [multiplySmall, value_normalize, spell_multiplyLimbs _ _ (by norm_num), Nat.add_zero]
  rfl

/-- The quotients from the top limb down, and the remainder. -/
def divideLimbs (divisor : UInt32) : List UInt32 → List UInt32 × ℕ
  | [] => ([], 0)
  | limb :: limbs =>
    let (quotient, remainder) := divideLimbs divisor limbs
    let current := remainder * 2 ^ 32 + limb.toNat
    (UInt32.ofNat (current / divisor.toNat) :: quotient, current % divisor.toNat)

theorem divideLimbs_spec {divisor : UInt32} (h : divisor ≠ 0) (limbs : List UInt32) :
    spell (divideLimbs divisor limbs).1 = spell limbs / divisor.toNat ∧ (divideLimbs divisor limbs).2 = spell limbs % divisor.toNat := by
  have hpos : 0 < divisor.toNat := Nat.pos_of_ne_zero fun h0 => h (UInt32.toNat_inj.mp h0)
  induction limbs with
  | nil => simp [divideLimbs]
  | cons limb limbs ih =>
    obtain ⟨hquotient, hremainder⟩ := ih
    have hlt : spell limbs % divisor.toNat < divisor.toNat := Nat.mod_lt _ hpos
    have hlimb := limb.toNat_lt
    have hsplit : limb.toNat + 2 ^ 32 * spell limbs =
        (spell limbs % divisor.toNat * 2 ^ 32 + limb.toNat) + divisor.toNat * (2 ^ 32 * (spell limbs / divisor.toNat)) := by
      conv_lhs => rw [← Nat.div_add_mod (spell limbs) divisor.toNat]
      ring
    have hsmall : (spell limbs % divisor.toNat * 2 ^ 32 + limb.toNat) / divisor.toNat < 2 ^ 32 := by
      rw [Nat.div_lt_iff_lt_mul hpos]
      nlinarith
    rw [divideLimbs, spell_cons]
    simp only [spell_cons, hquotient, hremainder]
    rw [hsplit, Nat.add_mul_div_left _ _ hpos, Nat.add_mul_mod_self_left, UInt32.toNat_ofNat', Nat.mod_eq_of_lt hsmall]
    exact ⟨rfl, rfl⟩

/-- `divide_small`: the quotient that is left, and the remainder. -/
def divideSmall (x : FixedInteger) (divisor : UInt32) : FixedInteger × ℕ :=
  (normalize (divideLimbs divisor x.limbs).1, (divideLimbs divisor x.limbs).2)

theorem value_divideSmall (x : FixedInteger) {divisor : UInt32} (h : divisor ≠ 0) :
    (x.divideSmall divisor).1.value = x.value / divisor.toNat ∧ (x.divideSmall divisor).2 = x.value % divisor.toNat := by
  obtain ⟨hquotient, hremainder⟩ := divideLimbs_spec h x.limbs
  exact ⟨by rw [divideSmall, value_normalize, hquotient]; rfl, hremainder⟩

/-! ### Shifts and bits -/

/-- The high bits of a limb are the low ones of the next. -/
def shiftLeftLimbs (remainder : ℕ) : ℕ → List UInt32 → List UInt32
  | high, [] => if remainder ≠ 0 then [UInt32.ofNat high] else []
  | high, limb :: limbs =>
    UInt32.ofNat (limb.toNat <<< remainder % 2 ^ 32 ||| high) ::
      shiftLeftLimbs remainder (if remainder ≠ 0 then limb.toNat >>> (32 - remainder) else 0) limbs

theorem spell_shiftLeftLimbs {remainder : ℕ} (hr : remainder < 32) {high : ℕ} (limbs : List UInt32) (h : high < 2 ^ remainder) :
    spell (shiftLeftLimbs remainder high limbs) = spell limbs * 2 ^ remainder + high := by
  induction limbs generalizing high with
  | nil =>
    rw [shiftLeftLimbs]
    split_ifs with h0
    · have : high < 2 ^ 32 := h.trans_le (Nat.pow_le_pow_right Nat.two_pos hr.le)
      rw [spell_cons, spell_nil, UInt32.toNat_ofNat']
      omega
    · obtain rfl := not_not.mp h0
      simp at h
      simp [h]
  | cons limb limbs ih =>
    have hlimb := limb.toNat_lt
    have hsplit : (2 : ℕ) ^ 32 = 2 ^ (32 - remainder) * 2 ^ remainder := by rw [← pow_add, Nat.sub_add_cancel hr.le]
    have hhigh : (if remainder ≠ 0 then limb.toNat >>> (32 - remainder) else 0) = limb.toNat / 2 ^ (32 - remainder) := by
      split_ifs with h0
      · rw [Nat.shiftRight_eq_div_pow]
      · obtain rfl := not_not.mp h0
        rw [Nat.sub_zero, Nat.div_eq_of_lt hlimb]
    have hlow : limb.toNat <<< remainder % 2 ^ 32 = 2 ^ remainder * (limb.toNat % 2 ^ (32 - remainder)) := by
      rw [Nat.shiftLeft_eq, hsplit, Nat.mul_mod_mul_right, Nat.mul_comm]
    have hdiv : limb.toNat / 2 ^ (32 - remainder) < 2 ^ remainder := Nat.div_lt_of_lt_mul (by rwa [← hsplit])
    have hmod := Nat.mod_lt limb.toNat (Nat.two_pow_pos (32 - remainder))
    have hlt : 2 ^ remainder * (limb.toNat % 2 ^ (32 - remainder)) + high < 2 ^ 32 := by
      rw [hsplit]
      nlinarith
    rw [shiftLeftLimbs, hhigh, spell_cons, ih hdiv, hlow, ← Nat.two_pow_add_eq_or_of_lt h, UInt32.toNat_ofNat',
      Nat.mod_eq_of_lt hlt, spell_cons]
    have := Nat.div_add_mod limb.toNat (2 ^ (32 - remainder))
    generalize limb.toNat / 2 ^ (32 - remainder) = q at *
    generalize limb.toNat % 2 ^ (32 - remainder) = r at *
    rw [← this, hsplit]
    ring

def shiftLeft (x : FixedInteger) (bits : ℕ) : FixedInteger :=
  normalize (replicate (bits / 32) 0 ++ shiftLeftLimbs (bits % 32) 0 x.limbs)

@[simp] theorem value_shiftLeft (x : FixedInteger) (bits : ℕ) : (x.shiftLeft bits).value = x.value * 2 ^ bits := by
  rw [shiftLeft, value_normalize, spell_append, spell_zeros, spell_shiftLeftLimbs (Nat.mod_lt _ (by norm_num)) _ (Nat.two_pow_pos _),
    length_replicate, Nat.zero_add, Nat.add_zero]
  conv_rhs => rw [← Nat.div_add_mod bits 32, pow_add]
  rw [value]
  ring

/-- The low bits of a limb come from the next. -/
def shiftRightLimbs (remainder : ℕ) : List UInt32 → List UInt32
  | [] => []
  | limb :: limbs =>
    UInt32.ofNat (limb.toNat >>> remainder ||| if remainder ≠ 0 then (limbs.headD 0).toNat <<< (32 - remainder) % 2 ^ 32 else 0) ::
      shiftRightLimbs remainder limbs

theorem spell_mod (limbs : List UInt32) : spell limbs % 2 ^ 32 = (limbs.headD 0).toNat := by
  cases limbs with
  | nil => rfl
  | cons limb limbs =>
    have := limb.toNat_lt
    rw [spell_cons, headD_cons]
    omega

theorem spell_shiftRightLimbs {remainder : ℕ} (hr : remainder < 32) (limbs : List UInt32) :
    spell (shiftRightLimbs remainder limbs) = spell limbs / 2 ^ remainder := by
  induction limbs with
  | nil => simp [shiftRightLimbs]
  | cons limb limbs ih =>
    have hlimb := limb.toNat_lt
    have hpos := Nat.two_pow_pos remainder
    have hsplit : (2 : ℕ) ^ 32 = 2 ^ remainder * 2 ^ (32 - remainder) := by rw [← pow_add, Nat.add_sub_cancel' hr.le]
    have hlow : limb.toNat / 2 ^ remainder < 2 ^ (32 - remainder) := Nat.div_lt_of_lt_mul (by rwa [← hsplit])
    have hhigh : (if remainder ≠ 0 then (limbs.headD 0).toNat <<< (32 - remainder) % 2 ^ 32 else 0) =
        2 ^ (32 - remainder) * (spell limbs % 2 ^ remainder) := by
      split_ifs with h0
      · rw [Nat.shiftLeft_eq, ← spell_mod, hsplit, Nat.mul_mod_mul_right, Nat.mod_mul_right_mod, Nat.mul_comm]
      · obtain rfl := not_not.mp h0
        simp [Nat.mod_one]
    have hmod := Nat.mod_lt (spell limbs) hpos
    have hlt : 2 ^ (32 - remainder) * (spell limbs % 2 ^ remainder) + limb.toNat / 2 ^ remainder < 2 ^ 32 := by
      rw [hsplit]
      nlinarith
    have hdiv : (limb.toNat + 2 ^ 32 * spell limbs) / 2 ^ remainder =
        limb.toNat / 2 ^ remainder + 2 ^ (32 - remainder) * spell limbs := by
      rw [hsplit, Nat.mul_assoc, Nat.add_mul_div_left _ _ hpos]
    rw [shiftRightLimbs, spell_cons, ih, hhigh, Nat.shiftRight_eq_div_pow, Nat.or_comm, ← Nat.two_pow_add_eq_or_of_lt hlow,
      UInt32.toNat_ofNat', Nat.mod_eq_of_lt hlt, spell_cons, hdiv]
    conv_rhs => rw [← Nat.div_add_mod (spell limbs) (2 ^ remainder)]
    rw [hsplit]
    ring

theorem spell_drop (limbs : List UInt32) (words : ℕ) : spell (limbs.drop words) = spell limbs / 2 ^ (32 * words) := by
  rcases Nat.lt_or_ge limbs.length words with h | h
  · rw [drop_eq_nil_of_le h.le, spell_nil, Nat.div_eq_of_lt]
    exact (spell_lt limbs).trans_le (Nat.pow_le_pow_right Nat.two_pos (by omega))
  · have hlow := spell_lt (limbs.take words)
    rw [length_take, Nat.min_eq_left h] at hlow
    conv_rhs => rw [← take_append_drop words limbs, spell_append, length_take, Nat.min_eq_left h]
    rw [Nat.add_mul_div_left _ _ (Nat.two_pow_pos _), Nat.div_eq_of_lt hlow, Nat.zero_add]

def shiftRight (x : FixedInteger) (bits : ℕ) : FixedInteger :=
  if x.limbs.length ≤ bits / 32 then ⟨[0], cons_ne_nil _ _, .inl rfl⟩
  else normalize (shiftRightLimbs (bits % 32) (x.limbs.drop (bits / 32)))

@[simp] theorem value_shiftRight (x : FixedInteger) (bits : ℕ) : (x.shiftRight bits).value = x.value / 2 ^ bits := by
  have hbits : 2 ^ bits = 2 ^ (32 * (bits / 32)) * 2 ^ (bits % 32) := by rw [← pow_add, Nat.div_add_mod]
  have hdiv := spell_shiftRightLimbs (Nat.mod_lt bits (by norm_num)) (x.limbs.drop (bits / 32))
  rw [spell_drop, Nat.div_div_eq_div_mul, ← hbits] at hdiv
  rw [shiftRight]
  split_ifs with h
  · rw [drop_eq_nil_of_le h] at hdiv
    exact hdiv
  · rw [value_normalize, hdiv]
    rfl

def bit (x : FixedInteger) (bit : ℕ) : Bool := (x.limbs.getD (bit / 32) 0).toNat.testBit (bit % 32)

theorem bit_eq (x : FixedInteger) (bit : ℕ) : x.bit bit = x.value.testBit bit := by
  have hword : (x.limbs.getD (bit / 32) 0).toNat = x.value / 2 ^ (32 * (bit / 32)) % 2 ^ 32 := by
    rw [value, ← spell_drop, spell_mod]
    congr 1
    rw [headD_eq_head?_getD, List.head?_drop, getD_eq_getElem?_getD]
  rw [FixedInteger.bit, hword, Nat.testBit_mod_two_pow, Nat.testBit_div_two_pow, Nat.mod_add_div]
  simp [Nat.mod_lt]

/-! ### Adding one -/

def incrementLimbs : ℕ → List UInt32 → List UInt32
  | carry, [] => carryLimb carry
  | carry, limb :: limbs =>
    if carry = 0 then limb :: limbs
    else UInt32.ofNat (limb.toNat + carry) :: incrementLimbs ((limb.toNat + carry) / 2 ^ 32) limbs

theorem spell_incrementLimbs (carry : ℕ) (limbs : List UInt32) (h : carry < 2 ^ 32) :
    spell (incrementLimbs carry limbs) = spell limbs + carry := by
  induction limbs generalizing carry with
  | nil => rw [incrementLimbs, spell_carryLimb h, spell_nil, Nat.zero_add]
  | cons limb limbs ih =>
    have hlimb := limb.toNat_lt
    rw [incrementLimbs]
    split_ifs with h0
    · rw [h0, Nat.add_zero]
    · rw [spell_cons, ih _ (by omega), UInt32.toNat_ofNat', spell_cons]
      omega

/-- Another limb is pushed for what does not fit. -/
theorem length_incrementLimbs (carry : ℕ) (limbs : List UInt32) (h : carry < 2 ^ 32) :
    (incrementLimbs carry limbs).length = limbs.length ∨
      (incrementLimbs carry limbs).length = limbs.length + 1 ∧ 2 ^ (32 * limbs.length) ≤ spell limbs + carry := by
  induction limbs generalizing carry with
  | nil =>
    rw [incrementLimbs, carryLimb]
    split_ifs with h0
    · exact .inr ⟨rfl, by simp; omega⟩
    · exact .inl rfl
  | cons limb limbs ih =>
    have hlimb := limb.toNat_lt
    rw [incrementLimbs]
    split_ifs with h0
    · exact .inl rfl
    · obtain hsame | ⟨hmore, hle⟩ := ih ((limb.toNat + carry) / 2 ^ 32) (by omega)
      · exact .inl (by rw [length_cons, hsame, length_cons])
      · refine .inr ⟨by rw [length_cons, hmore, length_cons], ?_⟩
        rw [length_cons, Nat.mul_succ, pow_add, spell_cons]
        omega

def increment (x : FixedInteger) : FixedInteger where
  limbs := incrementLimbs 1 x.limbs
  ne_nil h := by
    have hspell := spell_incrementLimbs 1 x.limbs (by norm_num)
    rw [h, spell_nil] at hspell
    omega
  normal := by
    rw [spell_incrementLimbs _ _ (by norm_num)]
    obtain hsame | ⟨hmore, hle⟩ := length_incrementLimbs 1 x.limbs (by norm_num)
    · rw [hsame]
      exact x.normal.imp_right fun h => h.trans (Nat.le_succ _)
    · rw [hmore]
      exact .inr hle

@[simp] theorem value_increment (x : FixedInteger) : x.increment.value = x.value + 1 := spell_incrementLimbs _ _ (by norm_num)

/-! ### Comparison and subtraction -/

/-- The limbs of two numbers of one length, from the top. -/
def compareLimbs : List UInt32 → List UInt32 → Ordering
  | a :: as, b :: bs => (compareLimbs as bs).then (Ord.compare a.toNat b.toNat)
  | _, _ => .eq

theorem compareLimbs_eq {as bs : List UInt32} (h : as.length = bs.length) : compareLimbs as bs = Ord.compare (spell as) (spell bs) := by
  induction as generalizing bs with
  | nil =>
    obtain rfl := length_eq_zero_iff.mp h.symm
    rfl
  | cons a as ih =>
    cases bs with
    | nil => cases h
    | cons b bs =>
      have ha := a.toNat_lt
      have hb := b.toNat_lt
      rw [compareLimbs, ih (Nat.succ.inj h), spell_cons, spell_cons]
      rcases lt_trichotomy (spell as) (spell bs) with hlt | heq | hgt
      · rw [Nat.compare_eq_lt.mpr hlt, Ordering.lt_then, Nat.compare_eq_lt.mpr (by omega)]
      · rw [heq, Nat.compare_eq_eq.mpr rfl, Ordering.eq_then]
        rcases lt_trichotomy a.toNat b.toNat with hlt | heq | hgt
        · rw [Nat.compare_eq_lt.mpr hlt, Nat.compare_eq_lt.mpr (by omega)]
        · rw [heq, Nat.compare_eq_eq.mpr rfl, Nat.compare_eq_eq.mpr rfl]
        · rw [Nat.compare_eq_gt.mpr hgt, Nat.compare_eq_gt.mpr (by omega)]
      · rw [Nat.compare_eq_gt.mpr hgt, Ordering.gt_then, Nat.compare_eq_gt.mpr (by omega)]

def compare (x y : FixedInteger) : Ordering := (Ord.compare x.limbs.length y.limbs.length).then (compareLimbs x.limbs y.limbs)

theorem value_lt_of_length {x y : FixedInteger} (h : x.limbs.length < y.limbs.length) : x.value < y.value := by
  have hx := length_pos_of_ne_nil x.ne_nil
  have hy := y.normal.resolve_left (by omega)
  exact (spell_lt x.limbs).trans_le ((Nat.pow_le_pow_right Nat.two_pos (by omega)).trans hy)

theorem compare_eq (x y : FixedInteger) : x.compare y = Ord.compare x.value y.value := by
  rw [FixedInteger.compare]
  rcases lt_trichotomy x.limbs.length y.limbs.length with hlt | heq | hgt
  · rw [Nat.compare_eq_lt.mpr hlt, Ordering.lt_then, Nat.compare_eq_lt.mpr (value_lt_of_length hlt)]
  · rw [Nat.compare_eq_eq.mpr heq, Ordering.eq_then, compareLimbs_eq heq]
    rfl
  · rw [Nat.compare_eq_gt.mpr hgt, Ordering.gt_then, Nat.compare_eq_gt.mpr (value_lt_of_length hgt)]

def subtractLimbs : ℕ → List UInt32 → List UInt32 → List UInt32
  | _, [], _ => []
  | borrow, a :: as, bs =>
    let difference : ℤ := a.toNat - (bs.headD 0).toNat - borrow
    if difference < 0 then UInt32.ofNat (difference + 2 ^ 32).toNat :: subtractLimbs 1 as bs.tail
    else UInt32.ofNat difference.toNat :: subtractLimbs 0 as bs.tail

theorem spell_head_tail (limbs : List UInt32) : spell limbs = (limbs.headD 0).toNat + 2 ^ 32 * spell limbs.tail := by
  cases limbs <;> rfl

theorem spell_subtractLimbs (borrow : ℕ) (as bs : List UInt32) (hborrow : borrow ≤ 1) (h : spell bs + borrow ≤ spell as) :
    spell (subtractLimbs borrow as bs) + (spell bs + borrow) = spell as := by
  induction as generalizing borrow bs with
  | nil =>
    rw [spell_nil] at h
    rw [subtractLimbs, spell_nil]
    omega
  | cons a as ih =>
    have ha := a.toNat_lt
    have hb := (bs.headD 0).toNat_lt
    rw [spell_head_tail bs, spell_cons] at h ⊢
    rw [subtractLimbs]
    split_ifs with hneg
    · have hrest := ih 1 bs.tail le_rfl (by omega)
      rw [spell_cons, UInt32.toNat_ofNat']
      omega
    · have hrest := ih 0 bs.tail (Nat.zero_le _) (by omega)
      rw [spell_cons, UInt32.toNat_ofNat']
      omega

/-- `subtract_assign`, of a number that is not larger. -/
def subtract (x y : FixedInteger) : FixedInteger := normalize (subtractLimbs 0 x.limbs y.limbs)

theorem value_subtract {x y : FixedInteger} (h : y.value ≤ x.value) : (x.subtract y).value = x.value - y.value := by
  have hspell := spell_subtractLimbs 0 x.limbs y.limbs (Nat.zero_le _) h
  rw [subtract, value_normalize, value, value]
  omega

/-! ### Long division -/

/-- The list grows by zeros up to the limb. -/
def setLimb (mask : UInt32) : ℕ → List UInt32 → List UInt32
  | 0, limbs => (limbs.headD 0 ||| mask) :: limbs.tail
  | word + 1, limbs => limbs.headD 0 :: setLimb mask word limbs.tail

theorem spell_or (limbs : List UInt32) : spell limbs = 2 ^ 32 * spell limbs.tail ||| (limbs.headD 0).toNat := by
  rw [spell_head_tail, Nat.add_comm, Nat.two_pow_add_eq_or_of_lt (limbs.headD 0).toNat_lt]

theorem spell_setLimb (mask : UInt32) (word : ℕ) (limbs : List UInt32) :
    spell (setLimb mask word limbs) = spell limbs ||| 2 ^ (32 * word) * mask.toNat := by
  induction word generalizing limbs with
  | zero =>
    rw [setLimb, spell_or, spell_or limbs, tail_cons, headD_cons, UInt32.toNat_or, Nat.mul_zero, pow_zero, Nat.one_mul,
      Nat.or_assoc]
  | succ word ih =>
    have hshift : ∀ a b : ℕ, 2 ^ 32 * (a ||| b) = 2 ^ 32 * a ||| 2 ^ 32 * b := by
      intro a b
      rw [Nat.mul_comm, ← Nat.shiftLeft_eq, Nat.shiftLeft_or_distrib, Nat.shiftLeft_eq, Nat.shiftLeft_eq, Nat.mul_comm a, Nat.mul_comm b]
    have hpow : 2 ^ (32 * (word + 1)) * mask.toNat = 2 ^ 32 * (2 ^ (32 * word) * mask.toNat) := by
      rw [Nat.mul_succ, pow_add]
      ring
    rw [setLimb, spell_or, spell_or limbs, tail_cons, headD_cons, ih, hshift, hpow, Nat.or_assoc, Nat.or_assoc,
      Nat.or_comm (limbs.headD 0).toNat]

theorem length_setLimb (mask : UInt32) (word : ℕ) (limbs : List UInt32) :
    (setLimb mask word limbs).length = max limbs.length (word + 1) := by
  induction word generalizing limbs with
  | zero =>
    cases limbs with
    | nil => rfl
    | cons limb limbs => simp [setLimb]
  | succ word ih =>
    cases limbs with
    | nil => simp [setLimb, ih]
    | cons limb limbs => simp [setLimb, ih]

def setBit (x : FixedInteger) (bit : ℕ) : FixedInteger where
  limbs := setLimb (UInt32.ofNat (2 ^ (bit % 32))) (bit / 32) x.limbs
  ne_nil h := by
    have hlength := length_setLimb (UInt32.ofNat (2 ^ (bit % 32))) (bit / 32) x.limbs
    rw [h, length_nil] at hlength
    omega
  normal := by
    have hmask : 1 ≤ (UInt32.ofNat (2 ^ (bit % 32))).toNat := by
      rw [UInt32.toNat_ofNat', Nat.mod_eq_of_lt (Nat.pow_lt_pow_right Nat.one_lt_two (Nat.mod_lt _ (by norm_num)))]
      exact Nat.two_pow_pos _
    rw [length_setLimb, spell_setLimb]
    rcases Nat.lt_or_ge (bit / 32) x.limbs.length with h | h
    · rw [Nat.max_eq_left h]
      exact x.normal.imp_right fun hle => hle.trans Nat.left_le_or
    · rw [Nat.max_eq_right (by omega), Nat.add_sub_cancel]
      exact .inr ((Nat.le_mul_of_pos_right _ hmask).trans Nat.right_le_or)

theorem value_setBit (x : FixedInteger) (bit : ℕ) : (x.setBit bit).value = x.value ||| 2 ^ bit := by
  have hmask : (UInt32.ofNat (2 ^ (bit % 32))).toNat = 2 ^ (bit % 32) := by
    rw [UInt32.toNat_ofNat', Nat.mod_eq_of_lt (Nat.pow_lt_pow_right Nat.one_lt_two (Nat.mod_lt _ (by norm_num)))]
  refine (spell_setLimb _ _ _).trans ?_
  rw [hmask, ← pow_add, Nat.div_add_mod]
  rfl

/-- `bit_length`: the bits of the last limb, and of all that are below it. -/
def bitLength (x : FixedInteger) : ℕ := if x.isZero then 0 else (x.limbs.length - 1) * 32 + (x.limbs.getLast x.ne_nil).toNat.size

theorem bitLength_eq (x : FixedInteger) : x.bitLength = x.value.size := by
  rw [bitLength]
  split_ifs with hzero
  · rw [(isZero_iff x).mp hzero, Nat.size_zero]
  · obtain ⟨front, last, hlimbs⟩ := eq_nil_or_concat x.limbs |>.resolve_left x.ne_nil
    rw [concat_eq_append] at hlimbs
    have hvalue : x.value = spell front + 2 ^ (32 * front.length) * last.toNat := by
      rw [value, hlimbs, spell_append, spell_cons, spell_nil, Nat.mul_zero, Nat.add_zero]
    have hfront := spell_lt front
    have hnormal := x.normal
    have hne := mt (isZero_iff x).mpr hzero
    simp only [hlimbs, length_append, length_singleton, Nat.add_sub_cancel, getLast_append_singleton] at hnormal ⊢
    have hlast : 0 < last.toNat := by
      refine Nat.pos_of_ne_zero fun h0 => ?_
      rw [h0, Nat.mul_zero, Nat.add_zero] at hvalue
      obtain hone | hlarge := hnormal
      · rw [length_eq_zero_iff.mp (by omega : front.length = 0), spell_nil] at hvalue
        exact hne hvalue
      · rw [← hlimbs] at hlarge
        exact (hlarge.trans_eq hvalue).not_gt hfront
    have hsize := Nat.size_pos.mpr hlast
    refine le_antisymm ?_ (Nat.size_le.mpr ?_)
    · have hlow : 2 ^ (last.toNat.size - 1) ≤ last.toNat := Nat.lt_size.mp (by omega)
      have hle : 2 ^ (front.length * 32 + last.toNat.size - 1) ≤ x.value := by
        rw [hvalue, Nat.add_sub_assoc hsize, pow_add, Nat.mul_comm front.length]
        exact (Nat.mul_le_mul_left _ hlow).trans (Nat.le_add_left _ _)
      have := Nat.lt_size.mpr hle
      omega
    · have hmul := Nat.mul_le_mul_left (2 ^ (32 * front.length)) (Nat.lt_size_self last.toNat)
      rw [Nat.mul_succ] at hmul
      rw [hvalue, pow_add, Nat.mul_comm front.length]
      omega

/-- The bits of a quotient from some bit down. -/
def divideLoop : ℕ → FixedInteger → FixedInteger → FixedInteger → FixedInteger × FixedInteger
  | 0, _, remainder, quotient => (quotient, remainder)
  | bit + 1, shifted, remainder, quotient =>
    if remainder.compare shifted ≠ .lt then divideLoop bit (shifted.shiftRight 1) (remainder.subtract shifted) (quotient.setBit bit)
    else divideLoop bit (shifted.shiftRight 1) remainder quotient

theorem divideLoop_spec {d bits : ℕ} {shifted remainder quotient : FixedInteger}
    (hshifted : ∀ bit, bits = bit + 1 → shifted.value = d * 2 ^ bit) (hremainder : remainder.value < d * 2 ^ bits)
    (hquotient : 2 ^ bits ∣ quotient.value) :
    (divideLoop bits shifted remainder quotient).1.value = quotient.value + remainder.value / d ∧
      (divideLoop bits shifted remainder quotient).2.value = remainder.value % d := by
  induction bits generalizing shifted remainder quotient with
  | zero =>
    rw [pow_zero, Nat.mul_one] at hremainder
    rw [divideLoop, Nat.div_eq_of_lt hremainder, Nat.mod_eq_of_lt hremainder]
    exact ⟨rfl, rfl⟩
  | succ bits ih =>
    have hvalue := hshifted bits rfl
    have hnext : ∀ bit, bits = bit + 1 → (shifted.shiftRight 1).value = d * 2 ^ bit := by
      rintro bit rfl
      rw [value_shiftRight, hvalue, pow_succ, ← Nat.mul_assoc, pow_one, Nat.mul_div_cancel _ Nat.two_pos]
    obtain ⟨k, hk⟩ := hquotient
    rw [divideLoop, compare_eq]
    split_ifs with hcompare
    · have hle : shifted.value ≤ remainder.value := not_lt.mp (mt Nat.compare_eq_lt.mpr hcompare)
      have hpos : 0 < d := Nat.pos_of_ne_zero fun h0 => by simp [h0] at hremainder
      have hset : (quotient.setBit bits).value = quotient.value + 2 ^ bits := by
        rw [value_setBit, hk, Nat.two_pow_add_eq_or_of_lt (Nat.pow_lt_pow_right Nat.one_lt_two (Nat.lt_succ_self bits))]
      have hsubtract := value_subtract hle
      have hsplit : remainder.value = (remainder.subtract shifted).value + d * 2 ^ bits := by omega
      have hlt : (remainder.subtract shifted).value < d * 2 ^ bits := by
        rw [pow_succ, ← Nat.mul_assoc] at hremainder
        omega
      have hdvd : 2 ^ bits ∣ (quotient.setBit bits).value := by
        rw [hset, hk, pow_succ, Nat.mul_assoc]
        exact (Nat.dvd_mul_right _ _).add dvd_rfl
      have hspec := ih hnext hlt hdvd
      rw [hspec.1, hspec.2, hset, hsplit, Nat.add_mul_div_left _ _ hpos, Nat.add_mul_mod_self_left]
      exact ⟨by omega, rfl⟩
    · have hlt : remainder.value < shifted.value := Nat.compare_eq_lt.mp (not_not.mp hcompare)
      exact ih hnext (hlt.trans_eq hvalue) ((Nat.pow_dvd_pow 2 (Nat.le_succ bits)).trans ⟨k, hk⟩)

/-- `divide_rem`, of a divisor that is not zero. -/
def divideRem (x divisor : FixedInteger) : FixedInteger × FixedInteger :=
  if x.compare divisor = .lt then (fromU64 0, x)
  else
    let shift := x.bitLength - divisor.bitLength
    let (quotient, remainder) := divideLoop (shift + 1) (divisor.shiftLeft shift) x (fromU64 0)
    (normalize quotient.limbs, remainder)

theorem divideRem_spec (x : FixedInteger) {divisor : FixedInteger} (h : divisor.value ≠ 0) :
    (x.divideRem divisor).1.value = x.value / divisor.value ∧ (x.divideRem divisor).2.value = x.value % divisor.value := by
  rw [divideRem, compare_eq]
  split_ifs with hlt
  · have hlt := Nat.compare_eq_lt.mp hlt
    rw [Nat.div_eq_of_lt hlt, Nat.mod_eq_of_lt hlt]
    exact ⟨value_fromU64 (by norm_num), rfl⟩
  · have hle := not_lt.mp (mt Nat.compare_eq_lt.mpr hlt)
    have hsize := Nat.size_le_size hle
    have hpos := Nat.size_pos.mpr (Nat.pos_of_ne_zero h)
    have hlarge : x.value < divisor.value * 2 ^ (x.value.size - divisor.value.size + 1) := by
      have hlow : 2 ^ (divisor.value.size - 1) ≤ divisor.value := Nat.lt_size.mp (by omega)
      refine (Nat.lt_size_self x.value).trans_le (le_trans ?_ (Nat.mul_le_mul_right _ hlow))
      rw [← pow_add]
      exact Nat.pow_le_pow_right Nat.two_pos (by omega)
    rw [bitLength_eq, bitLength_eq]
    have hzero : (fromU64 0).value = 0 := value_fromU64 (by norm_num)
    have hshift : ∀ bit, x.value.size - divisor.value.size + 1 = bit + 1 →
        (divisor.shiftLeft (x.value.size - divisor.value.size)).value = divisor.value * 2 ^ bit := fun bit hbit => by
      rw [value_shiftLeft, Nat.succ.inj hbit]
    have hdvd : 2 ^ (x.value.size - divisor.value.size + 1) ∣ (fromU64 0).value := by
      rw [hzero]
      exact dvd_zero _
    have hspec := divideLoop_spec hshift hlarge hdvd
    rw [hzero, Nat.zero_add] at hspec
    dsimp only
    rw [value_normalize]
    exact hspec

def isOdd (x : FixedInteger) : Bool := (x.limbs.headD 0).toNat.testBit 0

end FixedInteger

end Scriptc.RuntimeRust
