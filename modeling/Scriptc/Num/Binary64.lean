import Mathlib.Data.Int.Log
import Mathlib.Data.Rat.Floor
import Mathlib.Tactic.Linarith
import Mathlib.Tactic.NormNum
import Mathlib.Tactic.Ring

/-!
# Rounding to binary64

The rationals a binary64 can hold, and rounding to nearest, ties to even, with the
exponent range cut below by the subnormals. The exponent is left unbounded above
here; overflow to an infinity is a matter for the values, not for the grid.

A rational lies on the grid when it is a multiple of its own unit in the last
place (`OnGrid`). `gridRound` maps a rational to the grid, and the three facts
everything else rests on are

* `gridRound_mono` — rounding is monotone,
* `gridRound_of_onGrid` — rounding is exact on the grid,
* `gridRound_nonneg`, `gridRound_neg` — rounding keeps the sign.

From them, `gridRound_isInt`: an integer rounds to an integer.
-/

namespace Binary64

/-- `2¹⁰²⁴`, where the finite numbers end. -/
def limit : ℚ := 2 ^ 1024

variable {q : ℚ}

theorem lt_limit (h : q ≤ 2 ^ 53) : q < limit :=
  h.trans_lt (pow_lt_pow_right₀ (by norm_num) (by norm_num))

theorem limit_pos : 0 < limit := lt_limit (by norm_num)

/-! ### To the nearest integer, ties to even -/

/-- The integer nearest to `q`; of two equally near, the even one. -/
def roundEven (q : ℚ) : ℤ :=
  if q - ⌊q⌋ < 1 / 2 then ⌊q⌋
  else if 1 / 2 < q - ⌊q⌋ then ⌊q⌋ + 1
  else if ⌊q⌋ % 2 = 0 then ⌊q⌋ else ⌊q⌋ + 1

@[simp] theorem roundEven_intCast (n : ℤ) : roundEven n = n := by simp [roundEven]

theorem floor_le_roundEven (q : ℚ) : ⌊q⌋ ≤ roundEven q := by
  unfold roundEven
  split_ifs <;> omega

theorem roundEven_le_floor_add_one (q : ℚ) : roundEven q ≤ ⌊q⌋ + 1 := by
  unfold roundEven
  split_ifs <;> omega

variable {p q : ℚ}

theorem roundEven_mono (h : p ≤ q) : roundEven p ≤ roundEven q := by
  rcases (Int.floor_mono h).lt_or_eq with hlt | heq
  · calc roundEven p ≤ ⌊p⌋ + 1 := roundEven_le_floor_add_one p
      _ ≤ ⌊q⌋ := hlt
      _ ≤ roundEven q := floor_le_roundEven q
  · have hr : p - ⌊p⌋ ≤ q - ⌊q⌋ := by rw [heq]; linarith
    unfold roundEven
    rw [← heq] at hr ⊢
    split_ifs <;> first | omega | (exfalso; linarith)

theorem le_roundEven {n : ℤ} (h : (n : ℚ) ≤ q) : n ≤ roundEven q := by
  simpa using roundEven_mono h

theorem roundEven_le {n : ℤ} (h : q ≤ n) : roundEven q ≤ n := by
  simpa using roundEven_mono h

/-! ### The grid -/

/-- The exponent of the unit in the last place of a number of magnitude `q`. -/
def ulpExp (q : ℚ) : ℤ := max (Int.log 2 q - 52) (-1074)

/-- The unit in the last place. -/
def ulp (q : ℚ) : ℚ := 2 ^ ulpExp q

theorem ulp_pos (q : ℚ) : 0 < ulp q := zpow_pos (by norm_num) _

theorem ulp_ne_zero (q : ℚ) : ulp q ≠ 0 := (ulp_pos q).ne'

theorem ulpExp_mono (hp : 0 < p) (h : p ≤ q) : ulpExp p ≤ ulpExp q := by
  have := Int.log_mono_right (b := 2) hp h
  unfold ulpExp
  omega

/-- Below the next binade: a magnitude is less than `2⁵³` units. -/
theorem lt_two_pow_ulp (q : ℚ) : q < 2 ^ (53 : ℤ) * ulp q := by
  have h := Int.lt_zpow_succ_log_self (b := 2) (by norm_num) q
  calc q < 2 ^ (Int.log 2 q + 1) := by exact_mod_cast h
    _ ≤ 2 ^ (53 + ulpExp q) := zpow_le_zpow_right₀ (by norm_num) (by unfold ulpExp; omega)
    _ = 2 ^ (53 : ℤ) * ulp q := by rw [zpow_add₀ (by norm_num)]; rfl

/-- Above the subnormals a magnitude is at least `2⁵²` units. -/
theorem two_pow_ulp_le (hq : 0 < q) (h : -1074 < ulpExp q) : 2 ^ (52 : ℤ) * ulp q ≤ q := by
  have hlog := Int.zpow_log_le_self (b := 2) (by norm_num) hq
  have he : 52 + ulpExp q = Int.log 2 q := by unfold ulpExp at h ⊢; omega
  calc 2 ^ (52 : ℤ) * ulp q = 2 ^ (52 + ulpExp q) := by rw [zpow_add₀ (by norm_num)]; rfl
    _ = 2 ^ Int.log 2 q := by rw [he]
    _ ≤ q := by exact_mod_cast hlog

/-- Rounding of a magnitude: a whole number of units. -/
def magRound (q : ℚ) : ℚ := roundEven (q / ulp q) * ulp q

/-- Rounding to the grid. -/
def gridRound (q : ℚ) : ℚ := if q < 0 then -magRound (-q) else magRound q

/-- The rationals binary64 holds exactly, overflow aside: multiples of their own unit. -/
def OnGrid (q : ℚ) : Prop := (q / ulp |q|).den = 1

instance (q : ℚ) : Decidable (OnGrid q) := inferInstanceAs (Decidable (_ = _))

theorem onGrid_iff : OnGrid q ↔ ∃ n : ℤ, q = n * ulp |q| := by
  constructor
  · intro h
    refine ⟨(q / ulp |q|).num, ?_⟩
    have := Rat.den_eq_one_iff _ |>.mp h
    rw [this, div_mul_cancel₀ _ (ulp_ne_zero _)]
  · rintro ⟨n, hn⟩
    have : q / ulp |q| = n := by rw [div_eq_iff (ulp_ne_zero _)]; exact hn
    unfold OnGrid
    rw [this]
    rfl

theorem OnGrid.neg (h : OnGrid q) : OnGrid (-q) := by
  obtain ⟨n, hn⟩ := onGrid_iff.mp h
  exact onGrid_iff.mpr ⟨-n, by rw [abs_neg]; push_cast; linarith⟩

theorem onGrid_neg : OnGrid (-q) ↔ OnGrid q :=
  ⟨fun h => by simpa using h.neg, OnGrid.neg⟩

@[simp] theorem onGrid_zero : OnGrid 0 := onGrid_iff.mpr ⟨0, by simp⟩

theorem OnGrid.abs (h : OnGrid q) : OnGrid |q| := by
  rcases abs_choice q with hq | hq <;> rw [hq]
  · exact h
  · exact h.neg

/-! ### Monotone, exact, sign-preserving -/

@[simp] theorem magRound_zero : magRound 0 = 0 := by
  have : roundEven 0 = 0 := by simpa using roundEven_intCast 0
  simp [magRound, this]

theorem magRound_nonneg (h : 0 ≤ q) : 0 ≤ magRound q := by
  have : (0 : ℤ) ≤ roundEven (q / ulp q) := le_roundEven (by simpa using div_nonneg h (ulp_pos q).le)
  exact mul_nonneg (by exact_mod_cast this) (ulp_pos q).le

theorem magRound_le_binade (q : ℚ) : magRound q ≤ 2 ^ (53 : ℤ) * ulp q := by
  have : roundEven (q / ulp q) ≤ 2 ^ 53 :=
    roundEven_le (by rw [div_le_iff₀ (ulp_pos q)]; exact_mod_cast (lt_two_pow_ulp q).le)
  have h' : ((roundEven (q / ulp q) : ℤ) : ℚ) ≤ 2 ^ (53 : ℤ) := by exact_mod_cast this
  exact mul_le_mul_of_nonneg_right h' (ulp_pos q).le

theorem binade_le_magRound (hq : 0 < q) (h : -1074 < ulpExp q) : 2 ^ (52 : ℤ) * ulp q ≤ magRound q := by
  have : (2 ^ 52 : ℤ) ≤ roundEven (q / ulp q) :=
    le_roundEven (by rw [le_div_iff₀ (ulp_pos q)]; exact_mod_cast two_pow_ulp_le hq h)
  have h' : (2 : ℚ) ^ (52 : ℤ) ≤ ((roundEven (q / ulp q) : ℤ) : ℚ) := by exact_mod_cast this
  exact mul_le_mul_of_nonneg_right h' (ulp_pos q).le

theorem magRound_mono (hp : 0 ≤ p) (h : p ≤ q) : magRound p ≤ magRound q := by
  rcases hp.eq_or_lt with rfl | hp
  · simpa using magRound_nonneg h
  rcases (ulpExp_mono hp h).lt_or_eq with hlt | heq
  · -- different binades: a power of two lies between the two results
    calc magRound p ≤ 2 ^ (53 : ℤ) * ulp p := magRound_le_binade p
      _ = 2 ^ (53 + ulpExp p) := by rw [zpow_add₀ (by norm_num)]; rfl
      _ ≤ 2 ^ (52 + ulpExp q) := zpow_le_zpow_right₀ (by norm_num) (by omega)
      _ = 2 ^ (52 : ℤ) * ulp q := by rw [zpow_add₀ (by norm_num)]; rfl
      _ ≤ magRound q := binade_le_magRound (hp.trans_le h) (by have := le_max_right (Int.log 2 p - 52) (-1074); unfold ulpExp at hlt ⊢; omega)
  · have hu : ulp p = ulp q := by unfold ulp; rw [heq]
    unfold magRound
    rw [hu]
    have := roundEven_mono (div_le_div_of_nonneg_right h (ulp_pos q).le)
    exact mul_le_mul_of_nonneg_right (by exact_mod_cast this) (ulp_pos q).le

theorem gridRound_neg (q : ℚ) : gridRound (-q) = -gridRound q := by
  unfold gridRound
  rcases lt_trichotomy q 0 with h | rfl | h
  · simp [h, h.le]
  · simp
  · simp [h, h.le]

@[simp] theorem gridRound_zero : gridRound 0 = 0 := by simp [gridRound]

theorem gridRound_of_nonneg (h : 0 ≤ q) : gridRound q = magRound q := by
  simp [gridRound, h]

theorem gridRound_nonneg (h : 0 ≤ q) : 0 ≤ gridRound q := by
  rw [gridRound_of_nonneg h]
  exact magRound_nonneg h

theorem gridRound_nonpos (h : q ≤ 0) : gridRound q ≤ 0 := by
  have := gridRound_nonneg (q := -q) (by linarith)
  rw [gridRound_neg] at this
  linarith

/-- **Rounding is monotone.** -/
theorem gridRound_mono (h : p ≤ q) : gridRound p ≤ gridRound q := by
  rcases le_or_gt 0 p with hp | hp
  · rw [gridRound_of_nonneg hp, gridRound_of_nonneg (hp.trans h)]
    exact magRound_mono hp h
  rcases le_or_gt 0 q with hq | hq
  · exact (gridRound_nonpos hp.le).trans (gridRound_nonneg hq)
  · have := magRound_mono (p := -q) (q := -p) (by linarith) (by linarith)
    simp only [gridRound, hp, hq, if_true]
    linarith

/-- **Rounding is exact on the grid.** -/
theorem gridRound_of_onGrid (h : OnGrid q) : gridRound q = q := by
  suffices H : ∀ q : ℚ, 0 ≤ q → OnGrid q → gridRound q = q by
    rcases le_total 0 q with hq | hq
    · exact H q hq h
    · have := H (-q) (by linarith) h.neg
      rw [gridRound_neg] at this
      linarith
  intro q hq h
  obtain ⟨n, hn⟩ := onGrid_iff.mp h
  rw [abs_of_nonneg hq] at hn
  have : q / ulp q = n := by rw [div_eq_iff (ulp_ne_zero _)]; exact hn
  rw [gridRound_of_nonneg hq, magRound, this, roundEven_intCast]
  exact hn.symm

theorem log_le_of_lt_zpow (hq : 0 < q) {k : ℤ} (h : q < 2 ^ k) : Int.log 2 q < k := by
  have := (Int.lt_zpow_iff_log_lt (b := 2) (by norm_num) hq (x := k)).mp (by exact_mod_cast h)
  exact this

/-- A whole number of units, at most `2⁵³` of them, is on the grid. -/
theorem onGrid_of_units (hq : 0 ≤ q) {n e : ℤ} (he : -1074 ≤ e) (hn : n ≤ 2 ^ 53) (h : q = n * 2 ^ e) :
    OnGrid q := by
  rcases hq.eq_or_lt with rfl | hq
  · exact onGrid_zero
  rw [onGrid_iff, abs_of_pos hq]
  rcases hn.lt_or_eq with hlt | rfl
  · have hlog : Int.log 2 q < 53 + e := by
      apply log_le_of_lt_zpow hq
      rw [h, zpow_add₀ (by norm_num)]
      exact mul_lt_mul_of_pos_right (by exact_mod_cast hlt) (zpow_pos (by norm_num) _)
    have hle : ulpExp q ≤ e := by unfold ulpExp; omega
    refine ⟨n * 2 ^ (e - ulpExp q).toNat, ?_⟩
    push_cast
    rw [← zpow_natCast, Int.toNat_of_nonneg (by omega), mul_assoc, ulp, ← zpow_add₀ (by norm_num)]
    rw [sub_add_cancel, h]
  · have hlog : Int.log 2 q < 54 + e := by
      apply log_le_of_lt_zpow hq
      rw [h, show ((2 ^ 53 : ℤ) : ℚ) = 2 ^ (53 : ℤ) by norm_num, ← zpow_add₀ (by norm_num)]
      exact zpow_lt_zpow_right₀ (by norm_num) (by omega)
    have hle : ulpExp q ≤ e + 1 := by unfold ulpExp; omega
    refine ⟨2 ^ (53 + e - ulpExp q).toNat, ?_⟩
    push_cast
    rw [← zpow_natCast, Int.toNat_of_nonneg (by omega), ulp, ← zpow_add₀ (by norm_num)]
    rw [sub_add_cancel, h, zpow_add₀ (by norm_num)]
    norm_num

/-- Rounding lands on the grid. -/
theorem onGrid_gridRound (q : ℚ) : OnGrid (gridRound q) := by
  suffices H : ∀ q : ℚ, 0 ≤ q → OnGrid (gridRound q) by
    rcases le_total 0 q with hq | hq
    · exact H q hq
    · have := H (-q) (by linarith)
      rw [gridRound_neg] at this
      exact onGrid_neg.mp this
  intro q hq
  rw [gridRound_of_nonneg hq]
  refine onGrid_of_units (n := roundEven (q / ulp q)) (e := ulpExp q) (magRound_nonneg hq) (le_max_right _ _) ?_ rfl
  exact roundEven_le (by rw [div_le_iff₀ (ulp_pos q)]; exact_mod_cast (lt_two_pow_ulp q).le)

/-- The integers up to `2⁵³` in magnitude are on the grid. -/
theorem onGrid_intCast {n : ℤ} (h : |n| ≤ 2 ^ 53) : OnGrid (n : ℚ) := by
  rcases le_total 0 n with hn | hn
  · rw [abs_of_nonneg hn] at h
    exact onGrid_of_units (by exact_mod_cast hn) (e := 0) (by norm_num) h (by simp)
  · rw [abs_of_nonpos hn] at h
    rw [← onGrid_neg]
    exact onGrid_of_units (n := -n) (by simpa using hn) (e := 0) (by norm_num) h (by simp)

/-- Past `2⁵³` the unit is at least one, so everything on the grid is an integer. -/
theorem isInt_of_onGrid (h : OnGrid q) (hq : (2 : ℚ) ^ 53 ≤ |q|) : q.den = 1 := by
  obtain ⟨n, hn⟩ := onGrid_iff.mp h
  have hpos : 0 < |q| := lt_of_lt_of_le (by norm_num) hq
  have he : 0 ≤ ulpExp |q| := by
    have : (53 : ℤ) ≤ Int.log 2 |q| :=
      (Int.zpow_le_iff_le_log (b := 2) (by norm_num) hpos).mp (by exact_mod_cast hq)
    unfold ulpExp
    omega
  have : q = ((n * 2 ^ (ulpExp |q|).toNat : ℤ) : ℚ) := by
    push_cast
    rw [← zpow_natCast, Int.toNat_of_nonneg he]
    exact hn
  rw [this]
  rfl

end Binary64
