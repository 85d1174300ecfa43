import Scriptc.Num.SafeInteger

/-!
# Integers among the numbers

Rounding down and towards zero, and how far rounding to a number moves a rational.
-/

namespace F64

open Binary64

theorem ofInt_zero : ofInt 0 = zero := by simp [ofInt, round, zero, limit_pos]

/-- A finite number that `Math.floor` leaves alone is an integer. -/
theorem floor_eq_self_iff {x : F64} (hx : x.isFinite = true) : (floor x).eq x = true ↔ ∃ n : ℤ, x.rat = n := by
  cases x with
  | nan => cases hx
  | inf neg => cases hx
  | negZero => exact iff_of_true (by decide) ⟨0, by simp [rat]⟩
  | fin x =>
    have hfloor : (floor (fin x)).eq (fin x) = true ↔ roundNum (⌊x.val⌋ : ℤ) = ExtRat.fin x.val := by
      have hn : ¬ (⌊x.val⌋ = 0 ∧ (fin x).isNeg) := by
        rintro ⟨h0, hneg⟩
        have hneg : x.val < 0 := of_decide_eq_true hneg
        exact absurd (Int.floor_lt.mpr (by exact_mod_cast hneg : x.val < ((0 : ℤ) : ℚ))) (by omega)
      rw [eq_iff, floor, toIntegral, if_neg hn, num_round, num_fin]
      simp
    rw [hfloor]
    constructor
    · intro h
      by_cases hbig : (2 : ℚ) ^ 53 ≤ |x.val|
      · exact ⟨x.val.num, (Rat.den_eq_one_iff _ |>.mp (isInt_of_onGrid x.onGrid hbig)).symm⟩
      · have hab := abs_lt.mp (not_le.mp hbig)
        have hb : |⌊x.val⌋| ≤ 2 ^ 53 := by
          refine abs_le.mpr ⟨Int.le_floor.mpr ?_, ?_⟩
          · push_cast
            exact hab.1.le
          · exact_mod_cast (Int.floor_le x.val).trans hab.2.le
        rw [num_round_intCast hb, ExtRat.fin_inj] at h
        exact ⟨_, h.symm⟩
    · rintro ⟨n, hn⟩
      replace hn : x.val = n := hn
      rw [hn, Int.floor_intCast, ← hn]
      exact roundNum_rat (x := fin x) rfl

theorem lt_iff_rat {x y : F64} (hx : x.isFinite = true) (hy : y.isFinite = true) : x.lt y = true ↔ x.rat < y.rat := by
  rw [lt_iff, num_of_isFinite hx, num_of_isFinite hy, ExtRat.fin_lt_fin]
  exact and_iff_right (ne_nan_of_isFinite hx) |>.trans (and_iff_right (ne_nan_of_isFinite hy))

theorem le_iff_rat {x y : F64} (hx : x.isFinite = true) (hy : y.isFinite = true) : x.le y = true ↔ x.rat ≤ y.rat := by
  rw [le_iff, num_of_isFinite hx, num_of_isFinite hy, ExtRat.fin_le_fin]
  exact and_iff_right (ne_nan_of_isFinite hx) |>.trans (and_iff_right (ne_nan_of_isFinite hy))

/-- Truncation stays between integers. -/
theorem truncRat_between {q : ℚ} {a b : ℤ} (ha : (a : ℚ) ≤ q) (hb : q ≤ b) : a ≤ truncRat q ∧ truncRat q ≤ b := by
  have hfloor := Int.floor_le_ceil q
  unfold truncRat
  split_ifs
  · exact ⟨(Int.le_floor.mpr ha).trans hfloor, Int.ceil_le.mpr hb⟩
  · exact ⟨Int.le_floor.mpr ha, hfloor.trans (Int.ceil_le.mpr hb)⟩

@[simp] theorem truncRat_intCast (n : ℤ) : truncRat n = n := by simp [truncRat]

theorem trunc_ofInt {n : ℤ} (h : IsSafe n) : trunc (ofInt n) = ofInt n := by
  obtain ⟨x, hx, hv⟩ := ofInt_eq_fin h.abs_bound
  rw [hx, trunc, toIntegral, hv, truncRat_intCast, if_neg, ← hx, ofInt]
  rintro ⟨rfl, hneg⟩
  rw [isNeg, hv, Int.cast_zero] at hneg
  exact absurd (of_decide_eq_true hneg) (lt_irrefl 0)

/-! ### Rounding natural numbers -/

/-- A natural number cut by some bits, to the nearest; of two equally near, to the even one. -/
def halfEven (n e : ℕ) : ℕ :=
  n / 2 ^ e + if 2 ^ e < 2 * (n % 2 ^ e) ∨ 2 * (n % 2 ^ e) = 2 ^ e ∧ n / 2 ^ e % 2 = 1 then 1 else 0

theorem roundEven_div (n e : ℕ) : roundEven ((n : ℚ) / 2 ^ e) = halfEven n e := by
  have hpos : (0 : ℚ) < 2 ^ e := by positivity
  have hcast : ((2 ^ e : ℕ) : ℚ) = 2 ^ e := by push_cast; rfl
  have hfloor : ⌊(n : ℚ) / 2 ^ e⌋ = (n / 2 ^ e : ℕ) := by
    rw [← hcast, ← Int.cast_natCast (R := ℚ) n, Rat.floor_intCast_div_natCast]
    rfl
  have hsplit : (n : ℚ) = 2 ^ e * (n / 2 ^ e : ℕ) + (n % 2 ^ e : ℕ) := by
    rw [← hcast]
    exact_mod_cast (Nat.div_add_mod n (2 ^ e)).symm
  unfold roundEven halfEven
  rw [hfloor]
  generalize n / 2 ^ e = q at hsplit ⊢
  generalize n % 2 ^ e = r at hsplit ⊢
  have hfract : (n : ℚ) / 2 ^ e - (q : ℤ) = r / 2 ^ e := by
    rw [hsplit, Int.cast_natCast, add_div, mul_div_cancel_left₀ _ hpos.ne', add_sub_cancel_left]
  have hlt : (r : ℚ) / 2 ^ e < 1 / 2 ↔ 2 * r < 2 ^ e := by
    rw [div_lt_div_iff₀ hpos (by norm_num), one_mul, mul_comm, ← hcast]
    exact_mod_cast Iff.rfl
  have hgt : 1 / 2 < (r : ℚ) / 2 ^ e ↔ 2 ^ e < 2 * r := by
    rw [div_lt_div_iff₀ (by norm_num) hpos, one_mul, mul_comm (r : ℚ), ← hcast]
    exact_mod_cast Iff.rfl
  rw [hfract, if_congr hlt rfl rfl, if_congr hgt rfl rfl]
  generalize 2 ^ e = p
  split_ifs <;> push_cast <;> omega

variable {n e : ℕ}

/-- A magnitude with its unit. -/
theorem ulp_natCast (hlo : 2 ^ (52 + e) ≤ n) (hhi : n < 2 ^ (53 + e)) : ulp (n : ℚ) = 2 ^ e := by
  have hpos : (0 : ℚ) < n := by exact_mod_cast (Nat.two_pow_pos _).trans_le hlo
  have hlog : Int.log 2 (n : ℚ) = 52 + e := by
    refine le_antisymm ?_ ?_
    · have h := log_le_of_lt_zpow hpos (k := 53 + e) (by exact_mod_cast hhi)
      omega
    · exact (Int.zpow_le_iff_le_log (b := 2) (by norm_num) hpos).mp (by exact_mod_cast hlo)
  rw [ulp, ulpExp, hlog]
  have he : Max.max (52 + (e : ℤ) - 52) (-1074) = e := by omega
  rw [he, zpow_natCast]

theorem gridRound_natCast (hlo : 2 ^ (52 + e) ≤ n) (hhi : n < 2 ^ (53 + e)) :
    gridRound n = halfEven n e * 2 ^ e := by
  rw [gridRound_of_nonneg (by positivity), magRound, ulp_natCast hlo hhi, roundEven_div]
  push_cast
  rfl

/-- A whole number of units stays. -/
theorem gridRound_units {t e : ℕ} (ht : t ≤ 2 ^ 53) : gridRound ((t * 2 ^ e : ℕ) : ℚ) = (t * 2 ^ e : ℕ) := by
  refine gridRound_of_onGrid (onGrid_of_units (by positivity) (n := t) (e := e) (by omega) (by exact_mod_cast ht) ?_)
  rw [zpow_natCast]
  push_cast
  rfl

theorem limit_le_natCast {n : ℕ} : limit ≤ n ↔ 2 ^ 1024 ≤ n := by
  rw [limit, ← Nat.cast_le (α := ℚ), Nat.cast_pow, Nat.cast_ofNat]

theorem abs_roundEven_sub_le (q : ℚ) : |roundEven q - q| ≤ 1 / 2 := by
  have h0 := Int.floor_le q
  have h1 := Int.lt_floor_add_one q
  unfold roundEven
  split_ifs <;> push_cast <;> rw [abs_le] <;> constructor <;> linarith

/-- Rounding moves a rational by half a unit at most. -/
theorem abs_gridRound_sub_le (q : ℚ) : |gridRound q - q| ≤ ulp |q| / 2 := by
  suffices H : ∀ q : ℚ, 0 ≤ q → |gridRound q - q| ≤ ulp q / 2 by
    rcases le_total 0 q with hq | hq
    · rw [abs_of_nonneg hq]
      exact H q hq
    · have h := H (-q) (neg_nonneg.mpr hq)
      rwa [gridRound_neg, neg_sub_neg, abs_sub_comm, ← abs_of_nonpos hq] at h
  intro q hq
  have hu := ulp_pos q
  have hunits : gridRound q - q = (roundEven (q / ulp q) - q / ulp q) * ulp q := by
    rw [gridRound_of_nonneg hq, magRound, sub_mul, div_mul_cancel₀ _ hu.ne']
  rw [hunits, abs_mul, abs_of_pos hu]
  have := mul_le_mul_of_nonneg_right (abs_roundEven_sub_le (q / ulp q)) hu.le
  linarith

/-- Two magnitudes round to one number when they round to one point of the grid, or both overflow. -/
theorem round_eq_round_iff {p q : ℚ} (hp : 0 ≤ p) (hq : 0 ≤ q) :
    round p = round q ↔ gridRound p = gridRound q ∨ limit ≤ gridRound p ∧ limit ≤ gridRound q := by
  have hround : ∀ {q : ℚ}, 0 ≤ q → (gridRound q < limit → ∃ x : Finite64, round q = fin x ∧ x.val = gridRound q) ∧
      (limit ≤ gridRound q → round q = inf false) := by
    intro q hq
    have habs := abs_of_nonneg (gridRound_nonneg hq)
    refine ⟨fun h => ?_, fun h => ?_⟩
    · exact ⟨_, by rw [round, dif_pos (by rwa [habs]), if_neg fun hneg => absurd hneg.2 hq.not_gt], rfl⟩
    · rw [round, dif_neg (by rwa [habs, not_lt]), decide_eq_false hq.not_gt]
  rcases lt_or_ge (gridRound p) limit with h1 | h1
  · obtain ⟨x, hx, hxv⟩ := (hround hp).1 h1
    rcases lt_or_ge (gridRound q) limit with h2 | h2
    · obtain ⟨y, hy, hyv⟩ := (hround hq).1 h2
      rw [hx, hy, or_iff_left fun h => h1.not_ge h.1, ← hxv, ← hyv]
      constructor
      · rintro h
        cases h
        rfl
      · intro h
        obtain ⟨x, _, _⟩ := x
        obtain ⟨y, _, _⟩ := y
        cases h
        rfl
    · rw [hx, (hround hq).2 h2]
      refine iff_of_false (by simp) ?_
      rintro (h | h)
      · linarith
      · linarith [h.1]
  · rcases lt_or_ge (gridRound q) limit with h2 | h2
    · obtain ⟨y, hy, hyv⟩ := (hround hq).1 h2
      rw [(hround hp).2 h1, hy]
      refine iff_of_false (by simp) ?_
      rintro (h | h)
      · linarith
      · linarith [h.2]
    · rw [(hround hp).2 h1, (hround hq).2 h2]
      exact iff_of_true rfl (.inr ⟨h1, h2⟩)

/-- A magnitude on the grid is a number. -/
theorem round_of_onGrid {q : ℚ} (hq : 0 ≤ q) (hgrid : OnGrid q) (h : q < limit) : ∃ x : Finite64, round q = fin x ∧ x.val = q := by
  have hg := gridRound_of_onGrid hgrid
  have hlt : |gridRound q| < limit := by rwa [hg, abs_of_nonneg hq]
  exact ⟨_, by rw [round, dif_pos hlt, if_neg fun hneg => absurd hneg.2 hq.not_gt], hg⟩

theorem onGrid_two_pow (k : ℕ) : OnGrid (2 ^ k) :=
  onGrid_of_units (by positivity) (n := 1) (e := k) (by omega) (by norm_num) (by simp)

theorem round_two_pow {k : ℕ} (h : k < 1024) : ∃ x : Finite64, round (2 ^ k) = fin x ∧ x.val = 2 ^ k :=
  round_of_onGrid (by positivity) (onGrid_two_pow k) (pow_lt_pow_right₀ (by norm_num) h)

/-- The product of two positive numbers is rounded once. -/
theorem mul_fin {x y : Finite64} (hx : 0 < x.val) (hy : 0 < y.val) : mul (fin x) (fin y) = round (x.val * y.val) := by
  simp [mul, isNaN, isZero, isFinite, rat, hx.ne', hy.ne']

/-- From `2¹⁰²⁴` on everything overflows. -/
theorem round_of_limit_le {q : ℚ} (h : limit ≤ q) : round q = posInf := by
  have hg : limit ≤ gridRound q := (gridRound_of_onGrid (onGrid_two_pow 1024)).ge.trans (gridRound_mono h)
  have hq : 0 ≤ q := limit_pos.le.trans h
  rw [round, dif_neg (by rwa [abs_of_nonneg (gridRound_nonneg hq), not_lt]), decide_eq_false hq.not_gt]
  rfl

theorem halfEven_bounds (hlo : 2 ^ (52 + e) ≤ n) (hhi : n < 2 ^ (53 + e)) :
    2 ^ 52 ≤ halfEven n e ∧ halfEven n e ≤ 2 ^ 53 := by
  have h1 : 2 ^ 52 ≤ n / 2 ^ e := (Nat.le_div_iff_mul_le (Nat.two_pow_pos e)).mpr (by rwa [← pow_add])
  have h2 : n / 2 ^ e < 2 ^ 53 := Nat.div_lt_of_lt_mul (by rwa [← pow_add, Nat.add_comm e])
  unfold halfEven
  split_ifs <;> omega

/-- Cutting in two steps: the bits that went first matter to a tie only. -/
theorem halfEven_append {v w j e : ℕ} (hw : w < 2 ^ j) : halfEven (v * 2 ^ j + w) (e + 1 + j) =
    halfEven v (e + 1) + if 2 * (v % 2 ^ (e + 1)) = 2 ^ (e + 1) ∧ v / 2 ^ (e + 1) % 2 = 0 ∧ w ≠ 0 then 1 else 0 := by
  have hdiv : (v * 2 ^ j + w) / 2 ^ (e + 1 + j) = v / 2 ^ (e + 1) := by
    rw [Nat.add_comm (e + 1), pow_add, ← Nat.div_div_eq_div_mul, Nat.mul_comm v, Nat.mul_add_div (Nat.two_pow_pos j),
      Nat.div_eq_of_lt hw, Nat.add_zero]
  have hmod : (v * 2 ^ j + w) % 2 ^ (e + 1 + j) = v % 2 ^ (e + 1) * 2 ^ j + w := by
    rw [Nat.add_comm (e + 1), pow_add, Nat.mod_mul, Nat.mul_comm v, Nat.mul_add_mod, Nat.mod_eq_of_lt hw,
      Nat.mul_add_div (Nat.two_pow_pos j), Nat.div_eq_of_lt hw, Nat.add_zero]
    ring
  unfold halfEven
  rw [hdiv, hmod]
  generalize v / 2 ^ (e + 1) = q
  generalize v % 2 ^ (e + 1) = r
  rw [pow_add, pow_succ]
  generalize 2 ^ e = h
  generalize 2 ^ j = p at hw ⊢
  -- how twice the remainder compares with the unit, once and with the other bits below
  rcases lt_trichotomy r h with hr | rfl | hr
  · have : (r + 1) * p ≤ h * p := Nat.mul_le_mul_right p hr
    rw [Nat.succ_mul] at this
    rw [if_neg (by rw [Nat.mul_right_comm]; omega), if_neg (by omega), if_neg (by omega)]
  · rw [Nat.mul_right_comm]
    split_ifs <;> omega
  · have : (h + 1) * p ≤ r * p := Nat.mul_le_mul_right p hr
    rw [Nat.succ_mul] at this
    rw [if_pos (by rw [Nat.mul_right_comm]; omega), if_pos (by omega), if_neg (by omega)]

/-- Rounding by hand: the bits that are kept, rounded, times the unit. -/
theorem mul_halfEven (hlo : 2 ^ (52 + e) ≤ n) (hhi : n < 2 ^ (53 + e)) (he : e < 1024) :
    mul (ofInt (halfEven n e)) (round (2 ^ e)) = ofInt n := by
  obtain ⟨h1, h2⟩ := halfEven_bounds hlo hhi
  obtain ⟨x, hx, hxv⟩ := ofInt_eq_fin (n := halfEven n e) (by rw [Nat.abs_cast]; exact_mod_cast h2)
  obtain ⟨y, hy, hyv⟩ := round_two_pow he
  have hxpos : 0 < x.val := by
    rw [hxv]
    exact_mod_cast (Nat.two_pow_pos 52).trans_le h1
  have hypos : 0 < y.val := by
    rw [hyv]
    positivity
  rw [hx, hy, mul_fin hxpos hypos, ofInt, round_eq_round_iff (by positivity) (by positivity)]
  refine .inl ?_
  have hunits := gridRound_units (e := e) h2
  push_cast at hunits
  rw [Int.cast_natCast, gridRound_natCast hlo hhi, hxv, hyv, Int.cast_natCast, hunits]

/-- The floor of a quotient of integers is not moved by rounding the quotient first, when the quotient is short. -/
theorem floor_div_ofInt {n : ℤ} {d : ℕ} (hn : IsSafe n) (hd : 0 < d) (hd27 : d < 2 ^ 27) (hq : |n| < 2 ^ 27 * d) :
    floor (div (ofInt n) (ofInt d)) = ofInt (n / d) := by
  obtain ⟨x, hx, hxv⟩ := ofInt_eq_fin hn.abs_bound
  obtain ⟨y, hy, hyv⟩ := ofInt_eq_fin (n := d) (by rw [Nat.abs_cast]; exact_mod_cast (by omega : d ≤ 2 ^ 53))
  have hdpos : (0 : ℚ) < d := by exact_mod_cast hd
  rw [Int.cast_natCast] at hyv
  rw [hx, hy]
  rcases eq_or_ne n 0 with rfl | hn0
  · have hdiv : div (fin x) (fin y) = zero := by simp [div, isNaN, isFinite, isZero, isNeg, hxv, hyv, hd.ne', hdpos.not_gt, signedZero]
    rw [hdiv, Int.zero_ediv, ofInt_zero]
    simp [floor, toIntegral, zero, isNeg, round, limit_pos]
  · have hdiv : div (fin x) (fin y) = round ((n : ℚ) / d) := by
      simp [div, isNaN, isFinite, isZero, rat, hxv, hyv, hd.ne', hn0]
    obtain ⟨k, hk⟩ : ∃ k, k = n / d := ⟨_, rfl⟩
    obtain ⟨q, hqv⟩ : ∃ q, q = (n : ℚ) / d := ⟨_, rfl⟩
    have hlow : (k : ℚ) ≤ q := by
      rw [hqv, le_div_iff₀ hdpos, hk]
      exact_mod_cast Int.ediv_mul_le n (by omega)
    have hhigh : q + 1 / d ≤ k + 1 := by
      have h := Int.lt_ediv_add_one_mul_self n (by omega : (0 : ℤ) < d)
      rw [hqv, ← add_div, div_le_iff₀ hdpos, hk]
      exact_mod_cast h
    have habs : |q| < 2 ^ 27 := by
      rw [hqv, abs_div, abs_of_pos hdpos, div_lt_iff₀ hdpos]
      exact_mod_cast hq
    have hulp : ulp |q| ≤ 2 ^ (-26 : ℤ) := by
      have hq0 : 0 < |q| := abs_pos.mpr (by rw [hqv]; exact div_ne_zero (by exact_mod_cast hn0) hdpos.ne')
      have hlog := log_le_of_lt_zpow hq0 (k := 27) (by exact_mod_cast habs)
      exact zpow_le_zpow_right₀ (by norm_num) (by unfold ulpExp; omega)
    have hunit : (1 : ℚ) / 2 ^ 27 < 1 / d := one_div_lt_one_div_of_lt hdpos (by exact_mod_cast hd27)
    have herr := abs_le.mp (abs_gridRound_sub_le q)
    have hk53 : |k| ≤ 2 ^ 53 := by
      have := abs_lt.mp habs
      have h1 : ((-2 ^ 53 : ℤ) : ℚ) < (k + 1 : ℤ) := by
        push_cast
        linarith [one_div_pos.mpr hdpos]
      have h2 : (k : ℚ) < (2 ^ 53 : ℤ) := by
        push_cast
        linarith
      exact abs_le.mpr ⟨Int.lt_add_one_iff.mp (by exact_mod_cast h1), by exact_mod_cast h2.le⟩
    have hgrid : (k : ℚ) ≤ gridRound q := (gridRound_of_onGrid (onGrid_intCast hk53)).ge.trans (gridRound_mono hlow)
    have hfloor : ⌊gridRound q⌋ = k := by
      refine Int.floor_eq_iff.mpr ⟨hgrid, ?_⟩
      norm_num at hulp hunit hhigh
      linarith
    have hneg : q < 0 → gridRound q ≠ 0 := by
      intro hq0 h
      rw [h, Int.floor_zero] at hfloor
      rw [← hfloor] at hlow
      exact hq0.not_ge (by exact_mod_cast hlow)
    have hlimit : |gridRound q| < limit := by
      refine lt_limit ?_
      have := abs_lt.mp habs
      norm_num at hulp
      exact abs_le.mpr ⟨by linarith, by linarith⟩
    rw [hdiv, ← hqv, ← hk, round, dif_pos hlimit, if_neg fun h => hneg h.2 h.1, floor, toIntegral, hfloor]
    rw [if_neg, ofInt]
    rintro ⟨rfl, h⟩
    have h : gridRound q < 0 := of_decide_eq_true h
    exact h.not_ge (by exact_mod_cast hgrid)

end F64
