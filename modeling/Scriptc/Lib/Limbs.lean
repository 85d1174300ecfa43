import Mathlib.Algebra.Order.Group.Nat
import Mathlib.Algebra.Order.Ring.Nat
import Mathlib.Data.Nat.Bitwise
import Mathlib.Tactic.Linarith
import Mathlib.Tactic.Ring

/-!
# Numbers in limbs

The number that the first limbs of a little-endian sequence spell, in an arbitrary base. A loop
over the limbs from below adds the next one at the top (`val_succ`); a sequence is taken apart at
any place (`val_add`). The sequences are functions; a buffer is one by `dig`.
-/

namespace Limbs

variable {B : ℕ} {f g : ℕ → ℕ} {m n : ℕ}

/-- The number that the first `n` limbs spell. -/
def val (B : ℕ) (f : ℕ → ℕ) : ℕ → ℕ
  | 0 => 0
  | n + 1 => val B f n + f n * B ^ n

@[simp] theorem val_zero : val B f 0 = 0 := rfl

theorem val_succ : val B f (n + 1) = val B f n + f n * B ^ n := rfl

theorem val_congr (h : ∀ i < n, f i = g i) : val B f n = val B g n := by
  induction n with
  | zero => rfl
  | succ n ih => rw [val_succ, val_succ, ih fun i hi => h i (by omega), h n (by omega)]

theorem val_lt (h : ∀ i < n, f i < B) : val B f n < B ^ n := by
  induction n with
  | zero => simp
  | succ n ih =>
    have hn := h n (by omega)
    have hv := ih fun i hi => h i (by omega)
    calc val B f n + f n * B ^ n < B ^ n + f n * B ^ n := by omega
      _ = (f n + 1) * B ^ n := by ring
      _ ≤ B * B ^ n := Nat.mul_le_mul_right _ hn
      _ = B ^ (n + 1) := by ring

theorem val_add : val B f (m + n) = val B f m + val B (fun i => f (m + i)) n * B ^ m := by
  induction n with
  | zero => simp
  | succ n ih =>
    rw [← Nat.add_assoc, val_succ, ih, val_succ, pow_add]
    ring

/-- Below the top, a limb that is not zero is outweighed. -/
theorem pow_le_val (h : f n ≠ 0) : B ^ n ≤ val B f (n + 1) := by
  have hpos : 1 ≤ f n := Nat.one_le_iff_ne_zero.mpr h
  calc B ^ n = 1 * B ^ n := (Nat.one_mul _).symm
    _ ≤ f n * B ^ n := Nat.mul_le_mul_right _ hpos
    _ ≤ val B f (n + 1) := Nat.le_add_left ..

/-! ### From the top down -/

/-- The number that the limbs from `i` on spell. -/
def upper (B : ℕ) (f : ℕ → ℕ) (i n : ℕ) : ℕ := val B (fun k => f (i + k)) (n - i)

theorem upper_self (i : ℕ) : upper B f i i = 0 := by rw [upper, Nat.sub_self, val_zero]

theorem upper_zero (n : ℕ) : upper B f 0 n = val B f n := by
  rw [upper, Nat.sub_zero]
  exact val_congr fun i _ => by rw [Nat.zero_add]

variable {i : ℕ}

/-- A loop over the limbs from above puts the next one below. -/
theorem upper_of_lt (hi : i < n) : upper B f i n = f i + B * upper B f (i + 1) n := by
  obtain ⟨r, rfl⟩ := Nat.exists_eq_add_of_lt hi
  rw [upper, upper, show i + r + 1 - i = 1 + r by omega, show i + r + 1 - (i + 1) = r by omega, val_add, val_succ, val_zero,
    pow_zero, pow_one, Nat.zero_add, Nat.mul_one, Nat.add_zero, Nat.mul_comm]
  congr 2
  exact val_congr fun k _ => by rw [Nat.add_assoc]

/-! ### Buffers -/

/-- A limb of a buffer. -/
def dig (l : List ℕ) (i : ℕ) : ℕ := l.getD i 0

variable {l : List ℕ}

theorem dig_set (hi : i < l.length) (x k : ℕ) : dig (l.set i x) k = if k = i then x else dig l k := by
  rw [dig, dig, List.getD_eq_getElem?_getD, List.getD_eq_getElem?_getD, List.getElem?_set]
  by_cases hk : i = k
  · subst hk
    rw [if_pos rfl, if_pos rfl, if_pos hi, Option.getD_some]
  · rw [if_neg hk, if_neg (Ne.symm hk)]

theorem dig_set_self (hi : i < l.length) (x : ℕ) : dig (l.set i x) i = x := by
  rw [dig_set hi, if_pos rfl]

theorem dig_set_of_ne {i k : ℕ} (hi : i < l.length) (x : ℕ) (h : k ≠ i) : dig (l.set i x) k = dig l k := by
  rw [dig_set hi, if_neg h]

theorem dig_lt (h : ∀ x ∈ l, x < B) (hB : 0 < B) (i : ℕ) : dig l i < B := by
  rw [dig, List.getD_eq_getElem?_getD]
  cases hi : l[i]? with
  | none => exact hB
  | some x => exact h x (List.mem_of_getElem? hi)

/-- Writing a limb above leaves the number below as it is. -/
theorem val_set (hi : i < l.length) (x : ℕ) (h : n ≤ i) : val B (dig (l.set i x)) n = val B (dig l) n :=
  val_congr fun k hk => dig_set_of_ne hi x (by omega)

theorem mem_set_lt {x : ℕ} (h : ∀ y ∈ l, y < B) (hx : x < B) (i : ℕ) : ∀ y ∈ l.set i x, y < B := by
  intro y hy
  rcases List.mem_or_eq_of_mem_set hy with hy | rfl
  · exact h y hy
  · exact hx

end Limbs
