import Scriptc.Num.JsNumber
import Mathlib.Control.Lawful

/-!
# The generated array sort

`buildArraySortFn` and `buildBytesSortFn` write a stable bottom-up merge sort in the IR: a
snapshot of the receiver is taken, the values are merged between two buffers in runs of doubling
width, and the last buffer is copied back. The functions here run that IR. The counters are
array indices, far below the integers that a double holds exactly, and are natural numbers here.

A comparator can throw, and it can change whatever it sees, the receiver included. An access that
the runtime refuses (a read of a hole or past the end, a byte write past the end) is a trap.
-/

namespace Scriptc.Frontend

/-- Why a run ends early. -/
inductive Stop (X : Type) where
  | throw (x : X)
  | trap

/-- The receiver, and all else that a comparator can see. -/
structure World (R σ : Type) where
  recv : R
  rest : σ

/-- A run of the generated code. -/
abbrev Sorting (W X α : Type) := ExceptT (Stop X) (StateM W) α

variable {W X V B E R σ α : Type}

def orTrap : Option α → Sorting W X α
  | some a => pure a
  | none => throw .trap

/-- `callValue`. -/
def callValue (f : List V → W → Except X F64 × W) (args : List V) : Sorting W X F64 := fun w =>
  match f args w with
  | (.ok c, w) => (.ok c, w)
  | (.error x, w) => (.error (.throw x), w)

/-- Indexed reads and writes. -/
structure Buffer (B V : Type) where
  get : B → ℕ → Option V
  set : B → ℕ → V → Option B

/-! ### Merging -/

section Merge

variable (buf : Buffer B V) (takeRight : V → V → Sorting W X Bool)

/-- `copyRange`. -/
def copyRange (src dst : B) (k right : ℕ) : Sorting W X B :=
  if k < right then do
    let v ← orTrap (buf.get src k)
    let dst ← orTrap (buf.set dst k v)
    copyRange src dst (k + 1) right
  else pure dst
termination_by right - k

/-- The first loop of `mergeBody`, while both runs last. -/
def mergeHeads (src dst : B) (left mid r right k : ℕ) : Sorting W X (B × ℕ × ℕ × ℕ) :=
  if left < mid ∧ r < right then do
    let vL ← orTrap (buf.get src left)
    let vR ← orTrap (buf.get src r)
    if ← takeRight vL vR then
      let dst ← orTrap (buf.set dst k vR)
      mergeHeads src dst left mid (r + 1) right (k + 1)
    else
      let dst ← orTrap (buf.set dst k vL)
      mergeHeads src dst (left + 1) mid r right (k + 1)
  else pure (dst, left, r, k)
termination_by (mid - left) + (right - r)

/-- The other loops of `mergeBody`: the rest of one run. -/
def copyRun (src dst : B) (i stop k : ℕ) : Sorting W X (B × ℕ) :=
  if i < stop then do
    let v ← orTrap (buf.get src i)
    let dst ← orTrap (buf.set dst k v)
    copyRun src dst (i + 1) stop (k + 1)
  else pure (dst, k)
termination_by stop - i

def mergeBody (src dst : B) (left mid r right k : ℕ) : Sorting W X B := do
  let (dst, left, r, k) ← mergeHeads buf takeRight src dst left mid r right k
  let (dst, k) ← copyRun buf src dst left mid k
  let (dst, _) ← copyRun buf src dst r right k
  pure dst

/-- The runs are merged, unless they are in order at their boundary. -/
def mergeOrCopy (src dst : B) (start mid right : ℕ) : Sorting W X B :=
  if mid < right then do
    let boundaryL ← orTrap (buf.get src (mid - 1))
    let boundaryR ← orTrap (buf.get src mid)
    if ← takeRight boundaryL boundaryR then mergeBody buf takeRight src dst start mid mid right start
    else copyRange buf src dst start right
  else copyRange buf src dst start right

/-- `mergePass`, from `start` on. -/
def mergePass (src dst : B) (width count start : ℕ) (hw : 0 < width) : Sorting W X B :=
  if start < count then do
    let mid := if start + width < count then start + width else count
    let right := if start + width + width < count then start + width + width else count
    let dst ← mergeOrCopy buf takeRight src dst start mid right
    mergePass src dst width count (start + (width + width)) hw
  else pure dst
termination_by count - start

/-- The loop over the widths: the buffers change places after every pass. -/
def mergeWidths (src dst : B) (width count : ℕ) (hw : 0 < width) : Sorting W X B :=
  if width < count then do
    let dst ← mergePass buf takeRight src dst width count 0 hw
    mergeWidths dst src (width * 2) count (by omega)
  else pure src
termination_by count - width

end Merge

/-! ### Arrays -/

/-- The state of a slot: `HOLE=0`, `VALUE=1`, `UNDEFINED=2`. -/
inductive Slot (E : Type) where
  | hole
  | value (v : E)
  | undefined
  deriving DecidableEq, Repr

abbrev Arr (E : Type) := List (Slot E)

/-- `arrayGet` requires a present value. -/
def arrayGet (a : Arr E) (i : ℕ) : Option E :=
  match a[i]? with
  | some (.value v) => some v
  | _ => none

def arrayState (a : Arr E) (i : ℕ) : ℕ :=
  match a[i]? with
  | some .hole => 0
  | some (.value _) => 1
  | some .undefined => 2
  | none => 0

/-- A write past the end grows the array, with holes in between. -/
def setSlot (a : Arr E) (i : ℕ) (s : Slot E) : Arr E :=
  if i < a.length then a.set i s else a ++ List.replicate (i - a.length) .hole ++ [s]

def arraySet (a : Arr E) (i : ℕ) (v : E) : Arr E := setSlot a i (.value v)

def arraySetUndefined (a : Arr E) (i : ℕ) : Arr E := setSlot a i .undefined

/-- The length stays. -/
def arrayDelete (a : Arr E) (i : ℕ) : Arr E := a.set i .hole

def arrayBuffer : Buffer (Arr E) E where
  get := arrayGet
  set a i v := some (arraySet a i v)

section ArraySort

/- Elements of a union with an `undefined` arm, and dynamic ones, can be undefined as values. -/
variable (isUndefined : Option (E → Bool)) (arity : ℕ) (f : List E → World (Arr E) σ → Except X F64 × World (Arr E) σ)

/-- `cmp(left, right) > 0`. -/
def compareGreater (leftValue rightValue : E) : Sorting (World (Arr E) σ) X Bool := do
  let c ← callValue f ([leftValue, rightValue].take arity)
  pure (F64.lt F64.zero c)

def shouldTakeRight (leftValue rightValue : E) : Sorting (World (Arr E) σ) X Bool :=
  match isUndefined with
  | some undef =>
    if undef leftValue then pure !undef rightValue
    else if undef rightValue then pure false
    else compareGreater arity f leftValue rightValue
  | none => compareGreater arity f leftValue rightValue

/-- `collect`, from `i` on: the values, their number, and the number of own `undefined` elements. -/
def collect (snapshot : Arr E) (n i : ℕ) (src : Arr E) (valueCount undefinedCount : ℕ) : Sorting W X (Arr E × ℕ × ℕ) :=
  if i < n then
    if arrayState snapshot i = 1 then do
      let v ← orTrap (arrayGet snapshot i)
      collect snapshot n (i + 1) (arraySet src valueCount v) (valueCount + 1) undefinedCount
    else if arrayState snapshot i = 2 then collect snapshot n (i + 1) src valueCount (undefinedCount + 1)
    else collect snapshot n (i + 1) src valueCount undefinedCount
  else pure (src, valueCount, undefinedCount)
termination_by n - i

/-- `writeValues`, from `i` on. -/
def writeValues (src a : Arr E) (valueCount i : ℕ) : Sorting W X (Arr E) :=
  if i < valueCount then do
    let v ← orTrap (arrayGet src i)
    writeValues src (arraySet a i v) valueCount (i + 1)
  else pure a
termination_by valueCount - i

/-- `writeUndefined`, from `j` on. -/
def writeUndefined (a : Arr E) (j stop : ℕ) : Arr E :=
  if j < stop then writeUndefined (arraySetUndefined a j) (j + 1) stop else a
termination_by stop - j

/-- `deleteRemaining`, from `j` on. -/
def deleteRemaining (a : Arr E) (j n : ℕ) : Arr E :=
  if j < n then deleteRemaining (arrayDelete a j) (j + 1) n else a
termination_by n - j

/-- From the snapshot to the last buffer, with the counts. -/
def sortValues (snapshot : Arr E) : Sorting (World (Arr E) σ) X (Arr E × ℕ × ℕ) := do
  let (src, valueCount, undefinedCount) ← collect snapshot snapshot.length 0 [] 0 0
  let src ← mergeWidths arrayBuffer (shouldTakeRight isUndefined arity f) src [] 1 valueCount one_pos
  pure (src, valueCount, undefinedCount)

/-- The function that `buildArraySortFn` builds; `copyFirst` is `toSorted`, which works on a copy.
No comparator runs during the write back, so that it is one step for the rest of the program. -/
def buildArraySortFn (copyFirst : Bool) : Sorting (World (Arr E) σ) X (Arr E) := do
  let snapshot := (← get).recv
  let n := snapshot.length
  let (src, valueCount, undefinedCount) ← sortValues isUndefined arity f snapshot
  if copyFirst then
    let a ← writeValues src snapshot valueCount 0
    pure (writeUndefined a valueCount n)
  else
    let w ← get
    let a ← writeValues src w.recv valueCount 0
    let a := writeUndefined a valueCount (valueCount + undefinedCount)
    let a := deleteRemaining a (valueCount + undefinedCount) n
    set { w with recv := a }
    pure a

end ArraySort

/-! ### Byte arrays -/

def bytesBuffer : Buffer (List UInt8) UInt8 where
  get b i := b[i]?
  set b i v := if i < b.length then some (b.set i v) else none

/-- A byte as the number that a read gives. -/
def byteNum (b : UInt8) : F64 := F64.ofInt b.toNat

section BytesSort

variable (arity : ℕ) (f : Option (List F64 → World (List UInt8) σ → Except X F64 × World (List UInt8) σ))

/-- Without a comparator the difference decides. -/
def bytesTakeRight (leftValue rightValue : UInt8) : Sorting (World (List UInt8) σ) X Bool := do
  let c ← match f with
    | some f => callValue f ([byteNum leftValue, byteNum rightValue].take arity)
    | none => pure (F64.sub (byteNum leftValue) (byteNum rightValue))
  pure (F64.lt F64.zero c)

/-- The copy back, from `i` on. -/
def writeBytes (src a : List UInt8) (n i : ℕ) : Sorting W X (List UInt8) :=
  if i < n then do
    let v ← orTrap (bytesBuffer.get src i)
    let a ← orTrap (bytesBuffer.set a i v)
    writeBytes src a n (i + 1)
  else pure a
termination_by n - i

/-- The function that `buildBytesSortFn` builds: it always works on a copy. -/
def buildBytesSortFn : Sorting (World (List UInt8) σ) X (List UInt8) := do
  let a := (← get).recv
  let n := a.length
  let src ← mergeWidths bytesBuffer (bytesTakeRight arity f) a a 1 n one_pos
  writeBytes src a n 0

end BytesSort

end Scriptc.Frontend
