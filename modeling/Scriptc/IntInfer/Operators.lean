import Scriptc.Num.Order

/-!
# The numeric operators of the IR

What the operators of the IR that take numbers mean, on the numbers of JavaScript. A power with a
fractional exponent is only approximated by an engine, which is a parameter.
-/

namespace IntInfer

open F64

/-- Numeric binary operators of the IR. -/
inductive IrNumBinOp where
  | add | sub | mul | div | mod | pow
  | bitAnd | bitOr | bitXor | shl | shr | ushr
  | lt | le | gt | ge | eq | ne
  deriving DecidableEq, Repr

/-- The six bitwise operators on numbers. -/
def bitwise : IrNumBinOp → F64 → F64 → F64
  | .bitAnd => bitAnd
  | .bitOr => bitOr
  | .bitXor => bitXor
  | .shl => shl
  | .shr => sar
  | _ => shr

/-- The `Math` rounding family. -/
inductive MathRound where
  | trunc | floor | ceil | round
  deriving DecidableEq, Repr

def MathRound.apply : MathRound → F64 → F64
  | .trunc => F64.trunc
  | .floor => F64.floor
  | .ceil => F64.ceil
  | .round => F64.mathRound

inductive MinMax where
  | min | max
  deriving DecidableEq, Repr

def MinMax.apply : MinMax → List F64 → F64
  | .min => minOf
  | .max => maxOf

/-- The JavaScript meaning of a numeric operator. Comparisons give no number. -/
def jsBin (P : PowApprox) : IrNumBinOp → F64 → F64 → F64
  | .add => add
  | .sub => sub
  | .mul => mul
  | .div => div
  | .mod => rem
  | .pow => pow P
  | op => bitwise op

/-- The arithmetic and bitwise operators. -/
def IrNumBinOp.isArith : IrNumBinOp → Bool
  | .lt | .le | .gt | .ge | .eq | .ne => false
  | _ => true

variable {P : PowApprox}

theorem powFinite_floor {x y : ℚ} (hx : 1 ≤ x) :
    powFinite (fun x y => F64.round (x ^ ⌊y⌋)) x y = F64.round (x ^ ⌊y⌋) := by
  unfold powFinite
  split_ifs with h h'
  · have : ⌊y⌋ = y.num := by
      conv_lhs => rw [← Rat.den_eq_one_iff y |>.mp h]
      exact Int.floor_intCast _
    rw [this]
  · linarith
  · rfl

/-- An engine that computes a fractional power of the largest integer exponent below. -/
def floorPow : PowApprox where
  frac x y := F64.round (x ^ ⌊y⌋)
  one_le x y hx hy := by
    rw [powFinite_floor hx]
    refine le_iff.mpr ⟨round_ne_nan _, round_ne_nan _, ?_⟩
    rw [num_round, num_round]
    exact roundNum_mono (one_le_zpow₀ hx (Int.floor_nonneg.mpr hy.le))
  mono x x' y y' hx hxx hy hyy := by
    rw [powFinite_floor hx, powFinite_floor (hx.trans hxx)]
    refine le_iff.mpr ⟨round_ne_nan _, round_ne_nan _, ?_⟩
    rw [num_round, num_round]
    refine roundNum_mono ?_
    calc x ^ ⌊y⌋ ≤ x' ^ ⌊y⌋ := zpow_le_zpow_left₀ (Int.floor_nonneg.mpr hy.le) (by linarith) hxx
      _ ≤ x' ^ ⌊y'⌋ := zpow_le_zpow_right₀ (hx.trans hxx) (Int.floor_mono hyy)

/-! ### Comparisons -/

/-- The comparison operators on numbers. -/
def jsCmp : IrNumBinOp → F64 → F64 → Bool
  | .lt, x, y => F64.lt x y
  | .le, x, y => F64.le x y
  | .gt, x, y => F64.lt y x
  | .ge, x, y => F64.le y x
  | .eq, x, y => F64.eq x y
  | _, x, y => !F64.eq x y

def IrNumBinOp.isOrdered : IrNumBinOp → Bool
  | .lt | .le | .gt | .ge => true
  | _ => false

end IntInfer
