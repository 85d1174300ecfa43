import Scriptc.Lib.Limbs
import Scriptc.Lib.Loop
import Scriptc.Num.JsNumber

/-!
# BigInt values

Arbitrary-precision integers as `scr_bigint.c` has them: a sign and a magnitude in little-endian
limbs of 32 bits. A limb is a natural number below `2 ^ 32`, and what the code computes in 64 bits
is cut to 64 bits here. The limbs stand in a buffer of a fixed capacity, and every read and every
write of a limb is checked against it: one outside is not a value but a fault.

Reference counts are left out: no operation looks at them, and a value is not changed after it was
handed out. A `calloc` that finds no memory ends the program, as the check of the size before it
does; only the check is kept.
-/

namespace Scriptc.Runtime.BigInt

open Limbs

/-- The base of the limbs. -/
abbrev base : ℕ := 2 ^ 32

/-- A sign and limbs of 32 bits, the lowest first. -/
structure ScrBigInt where
  len : ℕ
  sign : ℤ
  limb : List ℕ
  deriving DecidableEq

/-- Why an operation does not return a value. -/
inductive Stop where
  /-- A limb outside the buffer. -/
  | outOfBounds
  /-- The program ends. -/
  | outOfMemory
  /-- A `RangeError` with this message. -/
  | rangeError (message : String)
  deriving DecidableEq

abbrev Run := Except Stop

/-! ### Buffers -/

def readLimb (l : List ℕ) (i : ℕ) : Run ℕ := if i < l.length then .ok (dig l i) else .error .outOfBounds

def writeLimb (l : List ℕ) (i x : ℕ) : Run (List ℕ) := if i < l.length then .ok (l.set i x) else .error .outOfBounds

/-- `memcpy` of the first limbs. -/
def copyLimbs (dst src : List ℕ) (n : ℕ) : Run (List ℕ) :=
  if n ≤ src.length ∧ n ≤ dst.length then .ok (src.take n ++ dst.drop n) else .error .outOfBounds

def SIZE_MAX : ℕ := 2 ^ 64 - 1

/-- `calloc`: a buffer of zeros. The header of a value takes 24 bytes. -/
def biAlloc (cap : ℕ) : Run ScrBigInt :=
  if (SIZE_MAX - 24) / 4 < cap then .error .outOfMemory else .ok ⟨0, 0, List.replicate cap 0⟩

/-- The length without the zeros at the top. -/
def trimLen (l : List ℕ) : ℕ → Run ℕ
  | 0 => .ok 0
  | n + 1 => do
    let top ← readLimb l n
    if top = 0 then trimLen l n else .ok (n + 1)

def biZero : Run ScrBigInt := biAlloc 0

/-! ### Bits -/

/-- The bits of a limb, up to its highest one. -/
def limbBits : ℕ → ℕ → ℕ
  | 0, _ => 0
  | n + 1, top => if top = 0 then 0 else limbBits n (top >>> 1) + 1

def biBits (a : ScrBigInt) : Run ℕ := do
  if a.len = 0 then return 0
  else
    let top ← readLimb a.limb (a.len - 1)
    let high := limbBits 32 top
    let words := a.len - 1
    if (SIZE_MAX - high) / 32 < words then .error .outOfMemory
    else return words * 32 + high

end Scriptc.Runtime.BigInt
