import Mathlib.Algebra.Order.Group.Nat
import Mathlib.Tactic.Ring

/-!
# Bytes

Little-endian numbers in byte strings, slices of a byte string, and writes into it.
-/

abbrev Bytes := List UInt8

namespace Bytes

open List

/-- The little-endian number that some bytes spell. -/
def leNat : Bytes → ℕ
  | [] => 0
  | b :: bs => b.toNat + 256 * leNat bs

/-- The little-endian bytes of a number, cut to a width. -/
def leBytes : ℕ → ℕ → Bytes
  | 0, _ => []
  | n + 1, v => UInt8.ofNat v :: leBytes n (v / 256)

@[simp] theorem length_leBytes (n v : ℕ) : (leBytes n v).length = n := by
  induction n generalizing v with
  | zero => rfl
  | succ n ih => simp [leBytes, ih]

theorem leNat_leBytes (n v : ℕ) : leNat (leBytes n v) = v % 256 ^ n := by
  induction n generalizing v with
  | zero => simp [leBytes, leNat, Nat.mod_one]
  | succ n ih =>
    have hb : (UInt8.ofNat v).toNat = v % 256 := by simp
    rw [leBytes, leNat, ih, hb, pow_succ, mul_comm (256 ^ n), Nat.mod_mul]

theorem leNat_leBytes_of_lt {n v : ℕ} (h : v < 256 ^ n) : leNat (leBytes n v) = v := by
  rw [leNat_leBytes, Nat.mod_eq_of_lt h]

theorem leNat_lt (bs : Bytes) : leNat bs < 256 ^ bs.length := by
  induction bs with
  | nil => simp [leNat]
  | cons b bs ih =>
    have hb := b.toNat_lt
    rw [leNat, length_cons, pow_succ]
    omega

/-! ### Slices -/

/-- The bytes from a position on, as many as there are up to a number. -/
def slice (b : Bytes) (pos n : ℕ) : Bytes := (b.drop pos).take n

theorem getElem?_slice (b : Bytes) (pos n k : ℕ) : (slice b pos n)[k]? = if k < n then b[pos + k]? else none := by
  rw [slice, getElem?_take]
  simp only [getElem?_drop]

theorem length_slice {b : Bytes} {pos n : ℕ} (h : pos + n ≤ b.length) : (slice b pos n).length = n := by
  rw [slice, length_take, length_drop]
  omega

/-! ### Writes -/

/-- Overwrite the bytes from a position on. -/
def put (b : Bytes) (pos : ℕ) (bs : Bytes) : Bytes := b.take pos ++ bs ++ b.drop (pos + bs.length)

variable {b bs : Bytes}

theorem length_put {pos : ℕ} (h : pos + bs.length ≤ b.length) : (put b pos bs).length = b.length := by
  simp only [put, length_append, length_take, length_drop]
  omega

theorem getElem?_put {pos : ℕ} (h : pos + bs.length ≤ b.length) (k : ℕ) :
    (put b pos bs)[k]? = if pos ≤ k ∧ k < pos + bs.length then bs[k - pos]? else b[k]? := by
  have hl : (b.take pos).length = pos := by
    rw [length_take]
    omega
  rw [put, append_assoc]
  by_cases h1 : k < pos
  · rw [getElem?_append_left (by omega), getElem?_take, if_pos h1, if_neg (by omega)]
  · rw [getElem?_append_right (by omega), hl]
    by_cases h2 : k < pos + bs.length
    · rw [getElem?_append_left (by omega), if_pos ⟨by omega, h2⟩]
    · rw [getElem?_append_right (by omega), if_neg (by omega), getElem?_drop]
      congr 1
      omega

theorem slice_put_self {pos : ℕ} (h : pos + bs.length ≤ b.length) :
    slice (put b pos bs) pos bs.length = bs := by
  refine ext_getElem? fun k => ?_
  rw [getElem?_slice]
  by_cases hk : k < bs.length
  · rw [if_pos hk, getElem?_put h, if_pos ⟨by omega, by omega⟩, Nat.add_sub_cancel_left]
  · rw [if_neg hk, getElem?_eq_none (by omega)]

end Bytes
