import Scriptc.Num.Binary64
import Mathlib.Data.Rat.Lemmas
import Mathlib.Order.WithBot
import Mathlib.Data.BitVec
import Mathlib.Algebra.Order.Round

/-!
# JavaScript numbers

A `number` is a binary64: NaN, the two infinities, the two zeros, and the rationals
on the grid below `2¹⁰²⁴`. The operators are ECMAScript's, corner by corner, with
one rounding (`F64.round`) at the end of each: `0 × ∞`, `∞ – ∞`, `x / -0`, `x % 0`,
`NaN ** 0`, the sign of a zero result, and the `ToInt32` coercion of the bitwise
operators are all here.

`x ** y` for a finite positive base and a fractional exponent is implementation
approximated in ECMAScript; `PowApprox` stands for an engine's choice, of which only
monotonicity above `1` is asked.

Comparisons go through `F64.num`, which places a number on the extended rational
line and sends both zeros to `0`.
-/

/-- The rationals a binary64 holds. -/
structure Finite64 where
  /-- The value. -/
  val : ℚ
  onGrid : Binary64.OnGrid val
  bounded : |val| < Binary64.limit
  deriving DecidableEq

/-- A binary64 value. -/
inductive F64 where
  /-- Not a number. -/
  | nan
  /-- An infinity; `neg` is its sign. -/
  | inf (neg : Bool)
  /-- `-0`. -/
  | negZero
  /-- A finite value; `0` is `+0`. -/
  | fin (x : Finite64)
  deriving DecidableEq

/-- The extended rational line. -/
abbrev ExtRat := WithBot (WithTop ℚ)

namespace ExtRat

/-- A rational on the extended line. -/
def fin (q : ℚ) : ExtRat := ((q : WithTop ℚ) : ExtRat)

@[simp] theorem fin_le_fin {p q : ℚ} : fin p ≤ fin q ↔ p ≤ q := by simp [fin]

@[simp] theorem fin_lt_fin {p q : ℚ} : fin p < fin q ↔ p < q := by simp [fin]

@[simp] theorem fin_inj {p q : ℚ} : fin p = fin q ↔ p = q := by simp [fin]

@[simp] theorem bot_lt_fin (q : ℚ) : ⊥ < fin q := WithBot.bot_lt_coe _

@[simp] theorem fin_lt_top (q : ℚ) : fin q < ⊤ := WithBot.coe_lt_coe.mpr (WithTop.coe_lt_top q)

@[simp] theorem fin_ne_bot (q : ℚ) : fin q ≠ ⊥ := (bot_lt_fin q).ne'

@[simp] theorem bot_ne_fin (q : ℚ) : ⊥ ≠ fin q := (bot_lt_fin q).ne

@[simp] theorem fin_ne_top (q : ℚ) : fin q ≠ ⊤ := (fin_lt_top q).ne

@[simp] theorem top_ne_fin (q : ℚ) : ⊤ ≠ fin q := (fin_lt_top q).ne'

end ExtRat

namespace F64

open Binary64

/-! ### Constants and rounding -/

/-- `+0`. -/
def zero : F64 := fin ⟨0, onGrid_zero, by simpa using limit_pos⟩

/-- `Infinity`. -/
def posInf : F64 := inf false

/-- `-Infinity`. -/
def negInf : F64 := inf true

/-- A zero of the given sign. -/
def signedZero (neg : Bool) : F64 := if neg then negZero else zero

/-- Round a rational to a number: ties to even, overflow to an infinity, and a
negative number that underflows to `-0`. -/
def round (q : ℚ) : F64 :=
  if h : |gridRound q| < limit then
    if gridRound q = 0 ∧ q < 0 then negZero else fin ⟨gridRound q, onGrid_gridRound q, h⟩
  else inf (decide (q < 0))

/-- The number an integer rounds to. -/
def ofInt (n : ℤ) : F64 := round n

/-- The rational behind a finite number. -/
def rat : F64 → ℚ
  | fin x => x.val
  | _ => 0

/-- The sign bit. -/
def isNeg : F64 → Bool
  | nan => false
  | inf neg => neg
  | negZero => true
  | fin x => decide (x.val < 0)

/-- `Number.isNaN`. -/
def isNaN : F64 → Bool
  | nan => true
  | _ => false

/-- `Number.isFinite`. -/
def isFinite : F64 → Bool
  | negZero | fin _ => true
  | _ => false

/-- `Number.isInteger`. -/
def isInteger : F64 → Bool
  | negZero => true
  | fin x => x.val.den = 1
  | _ => false

/-! ### Comparison -/

/-- Where a number lies on the extended line; both zeros at `0` (NaN nowhere: see `le`). -/
def num : F64 → ExtRat
  | nan => ⊥
  | inf true => ⊥
  | inf false => ⊤
  | negZero => ExtRat.fin 0
  | fin x => ExtRat.fin x.val

/-- `x <= y`: false when either side is NaN. -/
def le (x y : F64) : Bool := !x.isNaN && !y.isNaN && decide (x.num ≤ y.num)

/-- `x < y`. -/
def lt (x y : F64) : Bool := !x.isNaN && !y.isNaN && decide (x.num < y.num)

/-- `x === y`. -/
def eq (x y : F64) : Bool := !x.isNaN && !y.isNaN && decide (x.num = y.num)

/-! ### Arithmetic -/

/-- `-x`. -/
def neg : F64 → F64
  | nan => nan
  | inf s => inf !s
  | negZero => zero
  | fin x => if x.val = 0 then negZero else fin ⟨-x.val, x.onGrid.neg, by rw [abs_neg]; exact x.bounded⟩

/-- `x + y`. -/
def add (x y : F64) : F64 :=
  if x.isNaN || y.isNaN then nan
  else if x.isFinite && y.isFinite then
    if x = negZero ∧ y = negZero then negZero else round (x.rat + y.rat)
  else if x.isFinite then y
  else if y.isFinite || x = y then x
  else nan

/-- `x - y`. -/
def sub (x y : F64) : F64 := add x (neg y)

/-- Whether a number is a zero. -/
def isZero : F64 → Bool
  | negZero => true
  | fin x => x.val = 0
  | _ => false

/-- `x * y`. -/
def mul (x y : F64) : F64 :=
  if x.isNaN || y.isNaN then nan
  else if x.isZero || y.isZero then
    if x.isFinite && y.isFinite then signedZero (x.isNeg != y.isNeg) else nan
  else if x.isFinite && y.isFinite then round (x.rat * y.rat)
  else inf (x.isNeg != y.isNeg)

/-- `x / y`. -/
def div (x y : F64) : F64 :=
  if x.isNaN || y.isNaN then nan
  else if !x.isFinite then
    if y.isFinite then inf (x.isNeg != y.isNeg) else nan
  else if y.isZero then
    if x.isZero then nan else inf (x.isNeg != y.isNeg)
  else if x.isZero || !y.isFinite then signedZero (x.isNeg != y.isNeg)
  else round (x.rat / y.rat)

/-- Towards zero. -/
def truncRat (q : ℚ) : ℤ := if q < 0 then ⌈q⌉ else ⌊q⌋

/-- The remainder of a truncated division. -/
def remRat (p q : ℚ) : ℚ := p - q * truncRat (p / q)

/-- `x % y`: the sign is the dividend's. -/
def rem (x y : F64) : F64 :=
  if x.isNaN || y.isNaN || !x.isFinite || y.isZero then nan
  else if !y.isFinite then x
  else if remRat x.rat y.rat = 0 then signedZero x.isNeg
  else round (remRat x.rat y.rat)

/-- An odd integer. -/
def isOddInteger : F64 → Bool
  | fin x => x.val.den = 1 ∧ x.val.num % 2 = 1
  | _ => false

/-- `x ** y` for finite nonzero `x` and `y`: an integer power rounds once, and what an
engine computes for a fractional one is given. -/
def powFinite (frac : ℚ → ℚ → F64) (x y : ℚ) : F64 :=
  if y.den = 1 then round (x ^ y.num) else if x < 0 then nan else frac x y

/-- An engine's choice for fractional exponents, which ECMAScript leaves implementation
approximated: monotone where the base is at least `1`, and never below `1` there. -/
structure PowApprox where
  /-- `x ** y` for `x > 0` and a fractional `y`. -/
  frac : ℚ → ℚ → F64
  one_le : ∀ x y : ℚ, 1 ≤ x → 0 < y → le (round 1) (powFinite frac x y)
  mono : ∀ x x' y y' : ℚ, 1 ≤ x → x ≤ x' → 0 < y → y ≤ y' →
    le (powFinite frac x y) (powFinite frac x' y')

/-- `x ** y`. -/
def pow (P : PowApprox) (x y : F64) : F64 :=
  if y.isNaN then nan
  else if y.isZero then round 1
  else if x.isNaN then nan
  else if x = posInf then
    if y.isNeg then zero else posInf
  else if x = negInf then
    if y.isNeg then signedZero y.isOddInteger else inf y.isOddInteger
  else if x.isZero then
    if y.isNeg then inf (x.isNeg && y.isOddInteger) else signedZero (x.isNeg && y.isOddInteger)
  else if y.isFinite then powFinite P.frac x.rat y.rat
  else if |x.rat| = 1 then nan
  else if decide (1 < |x.rat|) = y.isNeg then zero
  else posInf

/-! ### The bitwise operators -/

/-- `ToInt32`/`ToUint32` as 32 bits: NaN and the infinities go to `0`, the rest truncates and wraps. -/
def toBits (x : F64) : BitVec 32 := BitVec.ofInt 32 (truncRat x.rat)

/-- A shift count: five bits. -/
def shiftCount (y : F64) : ℕ := (toBits y).toNat % 32

/-- `x & y`. -/
def bitAnd (x y : F64) : F64 := ofInt (toBits x &&& toBits y).toInt

/-- `x | y`. -/
def bitOr (x y : F64) : F64 := ofInt (toBits x ||| toBits y).toInt

/-- `x ^ y`. -/
def bitXor (x y : F64) : F64 := ofInt (toBits x ^^^ toBits y).toInt

/-- `x << y`. -/
def shl (x y : F64) : F64 := ofInt (toBits x <<< shiftCount y).toInt

/-- `x >> y`. -/
def sar (x y : F64) : F64 := ofInt ((toBits x).sshiftRight (shiftCount y)).toInt

/-- `x >>> y`. -/
def shr (x y : F64) : F64 := ofInt (toBits x >>> shiftCount y).toNat

/-- `~x`. -/
def bitNot (x : F64) : F64 := ofInt (~~~ toBits x).toInt

/-! ### `Math` -/

/-- Apply a rounding-to-integer function, keeping the sign of a zero result. -/
def toIntegral (f : ℚ → ℤ) (x : F64) : F64 :=
  match x with
  | fin q => if f q.val = 0 ∧ x.isNeg then negZero else round (f q.val)
  | x => x

/-- `Math.trunc`. -/
def trunc : F64 → F64 := toIntegral truncRat

/-- `Math.floor`. -/
def floor : F64 → F64 := toIntegral Int.floor

/-- `Math.ceil`. -/
def ceil : F64 → F64 := toIntegral Int.ceil

/-- `Math.round`: half up. -/
def mathRound : F64 → F64 := toIntegral (fun q : ℚ => ⌊q + 1 / 2⌋)

/-- `Math.abs`. -/
def abs (x : F64) : F64 := if x.isNeg then neg x else x

/-- `Math.min` of two: NaN wins, and `-0` is below `+0`. -/
def min (x y : F64) : F64 :=
  if x.isNaN || y.isNaN then nan
  else if x.num < y.num || (x.num = y.num && x.isNeg) then x else y

/-- `Math.max` of two. -/
def max (x y : F64) : F64 :=
  if x.isNaN || y.isNaN then nan
  else if y.num < x.num || (x.num = y.num && !x.isNeg) then x else y

/-- `Math.min(...xs)`. -/
def minOf (xs : List F64) : F64 := xs.foldl min posInf

/-- `Math.max(...xs)`. -/
def maxOf (xs : List F64) : F64 := xs.foldl max negInf

end F64
