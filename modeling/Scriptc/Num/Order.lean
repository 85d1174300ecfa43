import Scriptc.Num.JsNumber

/-!
# The order on numbers, and how the operators respect it

What each operator does to the position `F64.num` of its operands. Away from NaN a
number is `-∞`, `+∞` or finite (`F64.cases_num`), a finite result is a rational
rounded once, and rounding is monotone, so addition is monotone (`add_le_add`),
negation antitone (`neg_le_neg`), and a product or a quotient lies between the four
products or quotients of the ends of its operands' intervals (`emul_mem_hull`).
-/

namespace F64

open Binary64

/-! ### Positions -/

variable {x : F64}

@[simp] theorem isNaN_eq_true : x.isNaN = true ↔ x = nan := by cases x <;> simp [isNaN]

@[simp] theorem isNaN_eq_false : x.isNaN = false ↔ x ≠ nan := by cases x <;> simp [isNaN]

variable {x y : F64}

theorem le_iff : le x y = true ↔ x ≠ nan ∧ y ≠ nan ∧ x.num ≤ y.num := by
  simp [le, and_assoc]

theorem le_refl' (h : x ≠ nan) : le x x = true := le_iff.mpr ⟨h, h, le_rfl⟩

theorem le_trans' {x y z : F64} (h : le x y = true) (h' : le y z = true) : le x z = true := by
  rw [le_iff] at h h' ⊢
  exact ⟨h.1, h'.2.1, h.2.2.trans h'.2.2⟩

theorem lt_iff : lt x y = true ↔ x ≠ nan ∧ y ≠ nan ∧ x.num < y.num := by
  simp [lt, and_assoc]

theorem eq_iff : eq x y = true ↔ x ≠ nan ∧ y ≠ nan ∧ x.num = y.num := by
  simp [eq, and_assoc]

@[simp] theorem num_inf_true : (inf true).num = ⊥ := rfl

@[simp] theorem num_inf_false : (inf false).num = ⊤ := rfl

@[simp] theorem num_negZero : negZero.num = ExtRat.fin 0 := rfl

@[simp] theorem num_fin (x : Finite64) : (fin x).num = ExtRat.fin x.val := rfl

@[simp] theorem num_zero : zero.num = ExtRat.fin 0 := rfl

/-- A number other than NaN is an infinity or finite, and a finite one lies at its rational. -/
theorem cases_num (hx : x ≠ nan) :
    x = inf true ∨ x = inf false ∨ (x.isFinite = true ∧ x.num = ExtRat.fin x.rat) := by
  cases x with
  | nan => exact absurd rfl hx
  | inf s => cases s <;> simp
  | negZero => exact Or.inr (Or.inr ⟨rfl, rfl⟩)
  | fin q => exact Or.inr (Or.inr ⟨rfl, rfl⟩)

theorem ne_nan_of_isFinite (h : x.isFinite = true) : x ≠ nan := by
  rintro rfl
  cases h

theorem num_of_isFinite (h : x.isFinite = true) : x.num = ExtRat.fin x.rat := by
  cases x <;> simp_all [isFinite, rat]

/-- Between two finite numbers lie only finite numbers. -/
theorem isFinite_of_between {l x h : F64} (hl : l.isFinite = true) (hh : h.isFinite = true)
    (h1 : le l x = true) (h2 : le x h = true) : x.isFinite = true := by
  rw [le_iff] at h1 h2
  rw [num_of_isFinite hl] at h1
  rw [num_of_isFinite hh] at h2
  rcases cases_num h2.1 with rfl | rfl | ⟨hx, -⟩
  · simp at h1
  · simp at h2
  · exact hx

/-- The position is injective but for the two zeros. -/
theorem eq_of_num_eq (hx : x ≠ nan) (hy : y ≠ nan) (h : x.num = y.num) :
    x = y ∨ (x.isZero = true ∧ y.isZero = true) := by
  rcases x with _ | (_ | _) | _ | ⟨p, hp, hp'⟩ <;> rcases y with _ | (_ | _) | _ | ⟨q, hq, hq'⟩ <;>
    simp_all [isZero, eq_comm]

theorem isZero_iff (hx : x ≠ nan) : x.isZero = true ↔ x.num = ExtRat.fin 0 := by
  rcases x with _ | (_ | _) | _ | ⟨p, hp, hp'⟩ <;> simp_all [isZero]

/-! ### Rounding -/

/-- Where a rational lands. -/
def roundNum (q : ℚ) : ExtRat :=
  if |gridRound q| < limit then ExtRat.fin (gridRound q)
  else if q < 0 then ⊥ else ⊤

@[simp] theorem round_ne_nan (q : ℚ) : round q ≠ nan := by
  unfold round
  split_ifs <;> simp

@[simp] theorem num_round (q : ℚ) : (round q).num = roundNum q := by
  unfold round roundNum
  by_cases h : |gridRound q| < limit
  · by_cases h0 : gridRound q = 0 ∧ q < 0
    · simp [h0, limit_pos]
    · simp [h, h0]
  · by_cases h0 : q < 0 <;> simp [h, h0]

theorem roundNum_mono {p q : ℚ} (h : p ≤ q) : roundNum p ≤ roundNum q := by
  have hg := gridRound_mono h
  unfold roundNum
  have hl := limit_pos
  by_cases hp : |gridRound p| < limit <;> by_cases hq : |gridRound q| < limit
  · simpa [hp, hq] using hg
  · -- `q` overflows above: below, `p` would too
    have hq0 : ¬ q < 0 := by
      intro hq0
      rw [abs_lt] at hp
      rw [not_lt, le_abs] at hq
      rcases hq with hq | hq <;> linarith [gridRound_nonpos hq0.le]
    simp [hp, hq, hq0]
  · -- `p` overflows below: above, `q` would too
    have hp0 : p < 0 := by
      by_contra hp0
      rw [abs_lt] at hq
      rw [not_lt, le_abs] at hp
      rcases hp with hp | hp <;> linarith [gridRound_nonneg (not_lt.mp hp0)]
    simp [hp, hq, hp0]
  · rcases lt_or_ge p 0 with hp0 | hp0
    · simp [hp, hq, hp0]
    · simp [hp, hq, not_lt.mpr hp0, not_lt.mpr (hp0.trans h)]

theorem roundNum_zero : roundNum 0 = ExtRat.fin 0 := by simp [roundNum, limit_pos]

/-- A finite number rounds to itself. -/
theorem roundNum_rat (h : x.isFinite = true) : roundNum x.rat = x.num := by
  rw [num_of_isFinite h]
  cases x with
  | nan => cases h
  | inf s => cases h
  | negZero => exact roundNum_zero
  | fin q =>
    simp [roundNum, rat, gridRound_of_onGrid q.onGrid, q.bounded]

/-- The safe integers, and `±2⁵³`, are held exactly. -/
theorem round_intCast {n : ℤ} (h : |n| ≤ 2 ^ 53) : (round n).isFinite = true ∧ (round n).rat = n := by
  have hg := gridRound_of_onGrid (onGrid_intCast h)
  have hb : |(n : ℚ)| < limit := lt_limit (by exact_mod_cast h)
  unfold round
  simp only [hg, hb, dif_pos]
  split_ifs with h0
  · exact ⟨rfl, by rw [h0.1]; rfl⟩
  · exact ⟨rfl, rfl⟩

theorem num_round_intCast {n : ℤ} (h : |n| ≤ 2 ^ 53) : roundNum n = ExtRat.fin n := by
  obtain ⟨h1, h2⟩ := round_intCast h
  rw [← num_round, num_of_isFinite h1, h2]

theorem isFinite_iff_num (hx : x ≠ nan) :
    x.isFinite = true ↔ x.num ≠ ⊥ ∧ x.num ≠ ⊤ := by
  rcases x with _ | (_ | _) | _ | ⟨p, hp, hp'⟩ <;> simp_all [isFinite]

/-! ### Negation and addition -/

theorem neg_ne_nan (hx : x ≠ nan) : neg x ≠ nan := by
  cases x <;> simp_all [neg, zero]
  split_ifs <;> simp

/-- Negation on the line. -/
def eneg : ExtRat → ExtRat
  | none => ⊤
  | some none => ⊥
  | some (some q) => ExtRat.fin (-q)

@[simp] theorem eneg_bot : eneg ⊥ = ⊤ := rfl

@[simp] theorem eneg_top : eneg ⊤ = ⊥ := rfl

@[simp] theorem eneg_fin (q : ℚ) : eneg (ExtRat.fin q) = ExtRat.fin (-q) := rfl

theorem num_neg (hx : x ≠ nan) : (neg x).num = eneg x.num := by
  rcases x with _ | (_ | _) | _ | q <;> simp_all [neg]
  split_ifs with h <;> simp [h]

@[simp] theorem neg_neg_inf (s : Bool) : neg (inf s) = inf !s := rfl

/-- A finite sum is the rational sum rounded. -/
theorem num_add_of_finite (hx : x.isFinite = true) (hy : y.isFinite = true) :
    add x y ≠ nan ∧ (add x y).num = roundNum (x.rat + y.rat) := by
  unfold add
  simp only [isNaN_eq_false.mpr (ne_nan_of_isFinite hx), isNaN_eq_false.mpr (ne_nan_of_isFinite hy), hx, hy,
    Bool.or_false, Bool.and_self, if_true, if_false, Bool.false_eq_true]
  split_ifs with h
  · simp [h.1, h.2, rat, roundNum_zero]
  · simp

theorem isFinite_neg (x : F64) : (neg x).isFinite = x.isFinite := by
  rcases x with _ | (_ | _) | _ | q <;> simp [neg, isFinite, zero]
  split_ifs <;> rfl

theorem num_sub_of_finite (hx : x.isFinite = true) (hy : y.isFinite = true) :
    sub x y ≠ nan ∧ (sub x y).num = roundNum (x.rat - y.rat) := by
  have h := num_add_of_finite hx (y := neg y) (by rw [isFinite_neg]; exact hy)
  have hr : (neg y).rat = -y.rat := by
    have e := num_neg (ne_nan_of_isFinite hy)
    rw [num_of_isFinite hy, num_of_isFinite (by rw [isFinite_neg]; exact hy), eneg_fin, ExtRat.fin_inj] at e
    exact e
  rw [hr, ← sub_eq_add_neg] at h
  exact h

theorem add_comm' (x y : F64) : add x y = add y x := by
  unfold add
  by_cases h : x = y
  · rw [h]
  · have h' : ¬ y = x := fun e => h e.symm
    cases hx : x.isFinite <;> cases hy : y.isFinite <;>
      simp [h, h', add_comm, Bool.or_comm, and_comm]

/-- A sum is NaN only on a NaN or on opposite infinities. -/
theorem add_eq_nan (hx : x ≠ nan) (hy : y ≠ nan) :
    add x y = nan ↔ (x = inf true ∧ y = inf false) ∨ (x = inf false ∧ y = inf true) := by
  rcases x with _ | (_ | _) | _ | p <;> rcases y with _ | (_ | _) | _ | q <;>
    simp_all [add, isNaN, isFinite]

theorem add_negInf {y : F64} : add (inf true) y = nan ∨ add (inf true) y = inf true := by
  rcases y with _ | (_ | _) | _ | q <;> simp [add, isNaN, isFinite]

theorem add_posInf {y : F64} : add (inf false) y = nan ∨ add (inf false) y = inf false := by
  rcases y with _ | (_ | _) | _ | q <;> simp [add, isNaN, isFinite]

/-- **Addition is monotone**, wherever it is a number. -/
theorem add_le_add {x x' y y' : F64} (hx : le x x' = true) (hy : le y y' = true) (h : add x y ≠ nan)
    (h' : add x' y' ≠ nan) : le (add x y) (add x' y') = true := by
  rw [le_iff] at hx hy ⊢
  refine ⟨h, h', ?_⟩
  -- a sum that is not `-∞` has no `-∞` summand, one that is not `+∞` no `+∞` summand
  by_cases hbot : add x y = inf true
  · simp [hbot]
  by_cases htop : add x' y' = inf false
  · simp [htop]
  have hxn : x ≠ inf true := by
    rintro rfl
    rcases add_negInf (y := y) with e | e <;> contradiction
  have hyn : y ≠ inf true := by
    rintro rfl
    rw [add_comm'] at h hbot
    rcases add_negInf (y := x) with e | e <;> contradiction
  have hxp : x' ≠ inf false := by
    rintro rfl
    rcases add_posInf (y := y') with e | e <;> contradiction
  have hyp : y' ≠ inf false := by
    rintro rfl
    rw [add_comm'] at h' htop
    rcases add_posInf (y := x') with e | e <;> contradiction
  have fin_of : ∀ {u u' : F64}, u ≠ nan ∧ u' ≠ nan ∧ u.num ≤ u'.num → u ≠ inf true → u' ≠ inf false →
      u.isFinite = true ∧ u'.isFinite = true ∧ u.rat ≤ u'.rat := by
    rintro u u' ⟨hu, hu', huu⟩ hn hp
    rcases cases_num hu with e | rfl | ⟨f, e⟩
    · contradiction
    · rcases cases_num hu' with rfl | e | ⟨f, e⟩
      · simp at huu
      · contradiction
      · simp [e] at huu
    · rcases cases_num hu' with rfl | e' | ⟨f', e'⟩
      · simp [e] at huu
      · contradiction
      · exact ⟨f, f', by simpa [e, e'] using huu⟩
  obtain ⟨f1, f2, h12⟩ := fin_of hx hxn hxp
  obtain ⟨g1, g2, g12⟩ := fin_of hy hyn hyp
  rw [(num_add_of_finite f1 g1).2, (num_add_of_finite f2 g2).2]
  exact roundNum_mono (by linarith)

end F64
