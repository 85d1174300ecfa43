import Scriptc.Runtime.BigInt

/-!
# Normal BigInt values

A value is normal when its length and its sign tell of each other and its top limb is not zero. What
is written limb by limb, and trimmed, is normal again; no limb outside a buffer is touched.
-/

namespace Scriptc.Runtime.BigInt

open Limbs Except List

/-- The limbs stand in the buffer. -/
structure Valid (v : ScrBigInt) : Prop where
  len_le : v.len ≤ v.limb.length
  limb_lt : ∀ x ∈ v.limb, x < base

/-- The invariant of the values that operations take and return. -/
structure Normal (v : ScrBigInt) : Prop extends Valid v where
  sign_cases : v.sign = -1 ∨ v.sign = 0 ∨ v.sign = 1
  sign_iff : v.sign = 0 ↔ v.len = 0
  top : ∀ n, v.len = n + 1 → dig v.limb n ≠ 0

namespace ScrBigInt

/-- The magnitude. -/
def mag (v : ScrBigInt) : ℕ := val base (dig v.limb) v.len

/-- The integer that a value stands for. -/
def value (v : ScrBigInt) : ℤ := v.sign * v.mag

end ScrBigInt

/-! ### Buffers -/

variable {l : List ℕ}

theorem readLimb_eq {i : ℕ} (h : i < l.length) : readLimb l i = .ok (dig l i) := if_pos h

theorem writeLimb_eq {i : ℕ} (h : i < l.length) (x : ℕ) : writeLimb l i x = .ok (l.set i x) := if_pos h

theorem ok_bind {α β : Type} (a : α) (g : α → Run β) : (Except.ok a >>= g : Run β) = g a := rfl

theorem base_pos : 0 < base := Nat.two_pow_pos 32

theorem replicate_lt (n : ℕ) : ∀ x ∈ replicate n 0, x < base := by
  intro x hx
  rw [eq_of_mem_replicate hx]
  exact base_pos

section

variable {v a b : ScrBigInt}

theorem Valid.dig_lt (h : Valid v) (i : ℕ) : dig v.limb i < base := Limbs.dig_lt h.limb_lt base_pos i

theorem Normal.pow_le_mag (h : Normal v) {n : ℕ} (hn : v.len = n + 1) : base ^ n ≤ v.mag := by
  rw [ScrBigInt.mag, hn]
  exact pow_le_val (h.top n hn)

/-- The top limb, from the size of the magnitude. -/
theorem Valid.top_ne_zero (h : Valid v) {n : ℕ} (hn : v.len = n + 1) (hm : base ^ n ≤ v.mag) : dig v.limb n ≠ 0 := by
  intro h0
  rw [ScrBigInt.mag, hn, val_succ, h0, Nat.zero_mul, Nat.add_zero] at hm
  have := val_lt (n := n) fun i _ => h.dig_lt i
  omega

theorem Normal.of_pow_le (h : Valid v) (hs : v.sign = -1 ∨ v.sign = 0 ∨ v.sign = 1) (h0 : v.sign = 0 ↔ v.len = 0)
    (hm : ∀ n, v.len = n + 1 → base ^ n ≤ v.mag) : Normal v :=
  ⟨h, hs, h0, fun n hn => h.top_ne_zero hn (hm n hn)⟩

theorem Normal.mag_eq_zero (h : Normal v) : v.mag = 0 ↔ v.sign = 0 := by
  rw [h.sign_iff]
  constructor
  · intro hm
    cases hn : v.len with
    | zero => rfl
    | succ n =>
      have hle := h.pow_le_mag hn
      have := pow_pos base_pos n
      omega
  · intro hn
    rw [ScrBigInt.mag, hn, val_zero]

end

theorem trimLen_eq {n : ℕ} (h : n ≤ l.length) :
    ∃ m, trimLen l n = .ok m ∧ m ≤ n ∧ val base (dig l) m = val base (dig l) n ∧ ∀ k, m = k + 1 → dig l k ≠ 0 := by
  induction n with
  | zero => exact ⟨0, rfl, le_rfl, rfl, by simp⟩
  | succ n ih =>
    rw [trimLen, readLimb_eq (by omega), ok_bind]
    by_cases h0 : dig l n = 0
    · obtain ⟨m, hm, hle, hval, htop⟩ := ih (by omega)
      refine ⟨m, by rw [if_pos h0, hm], by omega, ?_, htop⟩
      rw [hval, val_succ, h0, Nat.zero_mul, Nat.add_zero]
    · refine ⟨n + 1, by rw [if_neg h0], le_rfl, rfl, fun k hk => ?_⟩
      cases hk
      exact h0

/-! ### Carries -/

/-- A sum of two limbs and a carry, cut into a limb and the carry above. -/
theorem limb_add_carry (s : ℕ) : s % 2 ^ 32 + s >>> 32 * base = s := by
  rw [Nat.shiftRight_eq_div_pow, Nat.mul_comm]
  exact Nat.mod_add_div s base

/-- A limb is written at the top of what was written. -/
theorem val_write {i x : ℕ} (h : i < l.length) : val base (dig (l.set i x)) (i + 1) = val base (dig l) i + x * base ^ i := by
  rw [val_succ, val_set h x le_rfl, dig_set_self h]

/-- A carry at the end becomes the top limb, if it is not zero. -/
theorem mag_carry {n carry : ℕ} (h : n < l.length) (sign : ℤ) :
    (⟨n + (if carry ≠ 0 then 1 else 0), sign, l.set n carry⟩ : ScrBigInt).mag = val base (dig l) n + carry * base ^ n := by
  rw [ScrBigInt.mag]
  dsimp only
  by_cases h0 : carry = 0
  · rw [if_neg (by simpa using h0), Nat.add_zero, val_set h _ le_rfl, h0, Nat.zero_mul, Nat.add_zero]
  · rw [if_pos h0, val_write h]

theorem valid_carry {n carry : ℕ} (h : n < l.length) (hl : ∀ x ∈ l, x < base) (hc : carry < base) (sign : ℤ) :
    Valid ⟨n + (if carry ≠ 0 then 1 else 0), sign, l.set n carry⟩ := by
  refine ⟨?_, mem_set_lt hl hc n⟩
  dsimp only
  rw [length_set]
  split <;> omega

/-! ### Signs -/

section

variable {a b r : ScrBigInt}

/-- Another sign for a magnitude that is not zero. -/
theorem Normal.withSign (h : Normal r) (h0 : r.mag ≠ 0) {sign : ℤ} (hs : sign = -1 ∨ sign = 1) :
    Normal { r with sign } ∧ ({ r with sign } : ScrBigInt).value = sign * r.mag := by
  have hr : r.sign ≠ 0 := fun hr => h0 (h.mag_eq_zero.mpr hr)
  refine ⟨⟨⟨h.len_le, h.limb_lt⟩, hs.imp_right .inr, ?_, h.top⟩, rfl⟩
  have hlen : r.len ≠ 0 := fun hl => hr (h.sign_iff.mpr hl)
  dsimp only
  omega

theorem Normal.sign_of_ne (h : Normal r) (h0 : r.sign ≠ 0) : r.sign = -1 ∨ r.sign = 1 := by
  have := h.sign_cases
  omega

end

/-! ### Values -/

theorem biZero_eq : biZero = .ok ⟨0, 0, []⟩ := rfl

theorem normal_zero (limb : List ℕ) (h : ∀ x ∈ limb, x < base) : Normal ⟨0, 0, limb⟩ :=
  ⟨⟨Nat.zero_le _, h⟩, .inr (.inl rfl), by simp, by simp⟩

theorem copyLimbs_eq {dst src : List ℕ} {n : ℕ} (hs : n ≤ src.length) (hd : n ≤ dst.length) :
    ∃ l, copyLimbs dst src n = .ok l ∧ l.length = dst.length ∧ (∀ i < n, dig l i = dig src i) ∧
      (∀ i, n ≤ i → dig l i = dig dst i) ∧ ((∀ x ∈ src, x < base) → (∀ x ∈ dst, x < base) → ∀ x ∈ l, x < base) := by
  refine ⟨src.take n ++ dst.drop n, if_pos ⟨hs, hd⟩, ?_, fun i hi => ?_, fun i hi => ?_, fun h h' x hx => ?_⟩
  · rw [length_append, length_take, length_drop]
    omega
  · rw [dig, dig, getD_append _ _ _ _ (by rw [length_take]; omega), getD_eq_getElem?_getD,
      getD_eq_getElem?_getD, List.getElem?_take_of_lt hi]
  · have hl : (src.take n).length = n := by
      rw [length_take]
      omega
    rw [dig, dig, getD_append_right _ _ _ _ (by omega), hl, getD_eq_getElem?_getD, getD_eq_getElem?_getD,
      getElem?_drop]
    congr 2
    omega
  · rcases mem_append.mp hx with hx | hx
    · exact h x (mem_of_mem_take hx)
    · exact h' x (mem_of_mem_drop hx)

theorem value_eq_zero {a : ScrBigInt} (h : a.sign = 0) : a.value = 0 := by rw [ScrBigInt.value, h, Int.zero_mul]

/-! ### Bits -/

theorem limbBits_le (n top : ℕ) : limbBits n top ≤ n := by
  induction n generalizing top with
  | zero => exact le_rfl
  | succ n ih =>
    rw [limbBits]
    split
    · exact Nat.zero_le _
    · exact Nat.succ_le_succ (ih _)

theorem lt_two_pow_limbBits {n top : ℕ} (h : top < 2 ^ n) : top < 2 ^ limbBits n top := by
  induction n generalizing top with
  | zero => exact h
  | succ n ih =>
    rw [limbBits]
    split
    · omega
    · rw [pow_succ] at h
      have hlt : top >>> 1 < 2 ^ n := by
        rw [Nat.shiftRight_one]
        omega
      have hhalf := ih hlt
      rw [Nat.shiftRight_one] at hhalf ⊢
      rw [pow_succ]
      omega

theorem base_pow (n : ℕ) : base ^ n = 2 ^ (32 * n) := (pow_mul 2 32 n).symm

end Scriptc.Runtime.BigInt
