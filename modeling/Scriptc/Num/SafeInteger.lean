import Scriptc.Num.Order

/-!
# Safe integers

The numbers that are integers of at most 53 bits, with `+0` as the only zero. Arithmetic on
them is arithmetic on `ℤ` as long as the result is one of them again: a sum or a product that
is too large rounds to a number that is not safe either.
-/

namespace F64

open Binary64

/-- `Number.MAX_SAFE_INTEGER`. -/
def maxSafeInteger : ℤ := 2 ^ 53 - 1

/-- The integers that `Number.isSafeInteger` accepts. -/
def IsSafe (n : ℤ) : Prop := -maxSafeInteger ≤ n ∧ n ≤ maxSafeInteger

instance (n : ℤ) : Decidable (IsSafe n) := inferInstanceAs (Decidable (_ ∧ _))

/-- The integer a number is: `Number.isSafeInteger(x) && !Object.is(x, -0)`. -/
def toSafe : F64 → Option ℤ
  | fin x => if x.val.den = 1 ∧ IsSafe x.val.num then some x.val.num else none
  | _ => none

variable {a b n : ℤ}

theorem IsSafe.abs_bound (h : IsSafe n) : |n| ≤ 2 ^ 53 := by
  unfold IsSafe maxSafeInteger at h
  rw [abs_le]
  omega

/-- Up to `2⁵³` an integer is held as itself. -/
theorem ofInt_eq_fin (h : |n| ≤ 2 ^ 53) : ∃ x : Finite64, ofInt n = fin x ∧ x.val = n := by
  have hg := gridRound_of_onGrid (onGrid_intCast h)
  have hb : |(n : ℚ)| < limit := lt_limit (by exact_mod_cast h)
  refine ⟨⟨n, onGrid_intCast h, hb⟩, ?_, rfl⟩
  unfold ofInt round
  simp only [hg, hb, dif_pos]
  rw [if_neg]
  rintro ⟨h0, hneg⟩
  rw [h0] at hneg
  exact lt_irrefl _ hneg

theorem rat_ofInt (h : IsSafe n) : (ofInt n).rat = n := (round_intCast h.abs_bound).2

theorem isFinite_ofInt (h : IsSafe n) : (ofInt n).isFinite = true := (round_intCast h.abs_bound).1

theorem ofInt_ne_negZero (h : IsSafe n) : ofInt n ≠ negZero := by
  obtain ⟨x, hx, -⟩ := ofInt_eq_fin h.abs_bound
  rw [hx]
  simp

theorem isNeg_ofInt (h : IsSafe n) : (ofInt n).isNeg = decide (n < 0) := by
  obtain ⟨x, hx, hv⟩ := ofInt_eq_fin h.abs_bound
  simp [hx, isNeg, hv]

theorem isZero_ofInt (h : IsSafe n) : (ofInt n).isZero = decide (n = 0) := by
  obtain ⟨x, hx, hv⟩ := ofInt_eq_fin h.abs_bound
  simp [hx, isZero, hv]

theorem ofInt_inj (ha : IsSafe a) (hb : IsSafe b) (h : ofInt a = ofInt b) : a = b := by
  have := congrArg rat h
  rw [rat_ofInt ha, rat_ofInt hb] at this
  exact_mod_cast this

theorem toSafe_eq_some {x : F64} : toSafe x = some n ↔ IsSafe n ∧ x = ofInt n := by
  constructor
  · intro h
    cases x with
    | fin x =>
      simp only [toSafe] at h
      split_ifs at h with hx
      obtain rfl := Option.some.inj h
      obtain ⟨y, hy, hv⟩ := ofInt_eq_fin hx.2.abs_bound
      refine ⟨hx.2, ?_⟩
      rw [hy]
      congr 1
      have : x.val = y.val := by rw [hv, Rat.den_eq_one_iff _ |>.mp hx.1]
      cases x; cases y
      congr
    | _ => cases h
  · rintro ⟨h, rfl⟩
    obtain ⟨y, hy, hv⟩ := ofInt_eq_fin h.abs_bound
    simp [hy, toSafe, hv, h]

/-! ### Arithmetic -/

theorem add_eq_round {x y : F64} (hx : x.isFinite = true) (hy : y.isFinite = true) (h : x ≠ negZero) :
    add x y = round (x.rat + y.rat) := by
  unfold add
  simp [hx, hy, h, isNaN_eq_false.mpr (ne_nan_of_isFinite hx), isNaN_eq_false.mpr (ne_nan_of_isFinite hy)]

theorem add_ofInt (ha : IsSafe a) (hb : IsSafe b) : add (ofInt a) (ofInt b) = ofInt (a + b) := by
  rw [add_eq_round (isFinite_ofInt ha) (isFinite_ofInt hb) (ofInt_ne_negZero ha), rat_ofInt ha, rat_ofInt hb]
  unfold ofInt
  push_cast
  rfl

theorem rat_neg (x : F64) : (neg x).rat = -x.rat := by
  rcases x with _ | (_ | _) | _ | q <;> simp [neg, rat, zero]
  split_ifs with h <;> simp [h]

theorem sub_ofInt (ha : IsSafe a) (hb : IsSafe b) : sub (ofInt a) (ofInt b) = ofInt (a - b) := by
  have hf : (neg (ofInt b)).isFinite = true := by rw [isFinite_neg, isFinite_ofInt hb]
  rw [sub, add_eq_round (isFinite_ofInt ha) hf (ofInt_ne_negZero ha), rat_neg, rat_ofInt ha, rat_ofInt hb]
  unfold ofInt
  push_cast
  rw [sub_eq_add_neg]

/-- A product, but for a zero times a negative number, which is `-0`. -/
theorem mul_ofInt (ha : IsSafe a) (hb : IsSafe b) (h1 : a = 0 → 0 ≤ b) (h2 : b = 0 → 0 ≤ a) :
    mul (ofInt a) (ofInt b) = ofInt (a * b) := by
  unfold mul
  have hna := isNaN_eq_false.mpr (ne_nan_of_isFinite (isFinite_ofInt ha))
  have hnb := isNaN_eq_false.mpr (ne_nan_of_isFinite (isFinite_ofInt hb))
  simp only [hna, hnb, isFinite_ofInt ha, isFinite_ofInt hb, isZero_ofInt ha, isZero_ofInt hb, isNeg_ofInt ha,
    isNeg_ofInt hb, rat_ofInt ha, rat_ofInt hb, Bool.or_self, Bool.and_self, if_true, Bool.false_eq_true, if_false]
  by_cases hz : a = 0 ∨ b = 0
  · have hab : a * b = 0 := mul_eq_zero.mpr hz
    have hs : decide (a < 0) = decide (b < 0) := by
      rw [decide_eq_decide]
      omega
    have hz' : (decide (a = 0) || decide (b = 0)) = true := by simpa using hz
    obtain ⟨x, hx, hv⟩ := ofInt_eq_fin (n := 0) (by norm_num)
    simp only [hz', if_true, hs, hab, hx, signedZero, bne_self_eq_false, Bool.false_eq_true, if_false, zero]
    congr 1
    cases x
    simp_all
  · have hz' : (decide (a = 0) || decide (b = 0)) = false := by simpa using hz
    simp only [hz', Bool.false_eq_true, if_false]
    unfold ofInt
    push_cast
    rfl

theorem abs_ofInt (h : IsSafe n) : F64.abs (ofInt n) = ofInt |n| := by
  unfold F64.abs
  rw [isNeg_ofInt h]
  obtain ⟨x, hx, hv⟩ := ofInt_eq_fin h.abs_bound
  by_cases hn : n < 0
  · obtain ⟨y, hy, hw⟩ := ofInt_eq_fin (n := |n|) (by rw [abs_abs]; exact h.abs_bound)
    have h0 : x.val ≠ 0 := by
      rw [hv]
      exact_mod_cast hn.ne
    simp only [hn, decide_true, if_true, hx, hy, neg, h0, if_false]
    congr 1
    cases y
    simp only [Finite64.mk.injEq]
    rw [abs_of_neg hn] at hw
    rw [hv]
    simpa using hw.symm
  · simp [hn, abs_of_nonneg (not_lt.mp hn)]

theorem le_ofInt (ha : IsSafe a) (hb : IsSafe b) : le (ofInt a) (ofInt b) = decide (a ≤ b) := by
  rw [Bool.eq_iff_iff, le_iff, num_of_isFinite (isFinite_ofInt ha), num_of_isFinite (isFinite_ofInt hb), rat_ofInt ha,
    rat_ofInt hb]
  simp [ne_nan_of_isFinite (isFinite_ofInt ha), ne_nan_of_isFinite (isFinite_ofInt hb)]

theorem lt_ofInt (ha : IsSafe a) (hb : IsSafe b) : lt (ofInt a) (ofInt b) = decide (a < b) := by
  rw [Bool.eq_iff_iff, lt_iff, num_of_isFinite (isFinite_ofInt ha), num_of_isFinite (isFinite_ofInt hb), rat_ofInt ha,
    rat_ofInt hb]
  simp [ne_nan_of_isFinite (isFinite_ofInt ha), ne_nan_of_isFinite (isFinite_ofInt hb)]

end F64
