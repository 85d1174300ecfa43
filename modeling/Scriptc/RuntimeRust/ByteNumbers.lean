import Scriptc.Lib.Bytes
import Scriptc.Lib.Twos
import Scriptc.Num.Integral
import Scriptc.RuntimeRust.ByteBuffers

/-!
# Numbers in buffers

The accessors of `bytes_encoding.rs` and `bigint.rs` for integers of one to six bytes and of eight, over
the bytes that a buffer shows. A write answers together with the bytes that it leaves; indexing outside
them is a panic. The kinds of floats are left out.
-/

namespace Scriptc.RuntimeRust.ByteNumbers

open List

open ByteBuffers (dataViewIndex)

/-- What a message is made of: text, numbers as they print, and numbers that were received. -/
inductive Piece where
  | text (text : String)
  | number (value : F64)
  | received (value : F64)
  | receivedBigInt (value : ℤ)
  deriving DecidableEq

inductive Failure where
  | rangeError (message : List Piece)
  | panic
  deriving DecidableEq

def bytesBoundsError (value length : F64) (valueName : Option String) : Failure :=
  let name := .text ("The value of \"" ++ valueName.getD "offset" ++ "\" is out of range. It must be ")
  if !(F64.floor value).eq value then .rangeError [name, .text "an integer. Received ", .received value]
  else if length.lt .zero then .rangeError [.text "Attempt to access memory outside buffer bounds"]
  else
    .rangeError [name, .text (">= " ++ (if valueName.isSome then "1" else "0") ++ " and <= "), .number length,
      .text ". Received ", .received value]

def bytesNumOffset (bytes : Bytes) (offset : F64) (width : ℕ) : Except Failure ℕ :=
  let capacity := F64.sub (.ofInt bytes.length) (.ofInt width)
  if !(F64.floor offset).eq offset || capacity.lt .zero || offset.lt .zero || capacity.lt offset then
    .error (bytesBoundsError offset capacity none)
  else .ok (F64.truncRat offset.rat).toNat

def bytesCheckInt (bytes : Bytes) (value offset : F64) (width : ℕ) (signed : Bool) : Except Failure ℕ :=
  let exponent := width * 8 - if signed then 1 else 0
  let minimum : F64 := if signed then .ofInt (-2 ^ exponent) else .zero
  let maximum : F64 := .ofInt (2 ^ exponent - 1)
  if maximum.lt value || value.lt minimum then
    let requirement : List Piece :=
      if 4 < width then
        if signed then [.text s!">= -(2 ** {exponent}) and < 2 ** {exponent}"] else [.text s!">= 0 and < 2 ** {exponent}"]
      else [.text ">= ", .number minimum, .text " and <= ", .number maximum]
    .error (.rangeError ([.text "The value of \"value\" is out of range. It must be "] ++ requirement ++
      [.text ". Received ", .received value]))
  else bytesNumOffset bytes offset width

/-- `bytes_u8_at` -/
def bytesU8At (bytes : Bytes) (index : ℕ) : Except Failure UInt8 :=
  match bytes[index]? with
  | some byte => .ok byte
  | none => .error .panic

/-- `bytes_u8_set_at` for some indices, one after the other. -/
def bytesSetAll : List (ℕ × UInt8) → Bytes → Except Failure Unit × Bytes
  | [], bytes => (.ok (), bytes)
  | (index, value) :: rest, bytes =>
    if index < bytes.length then bytesSetAll rest (bytes.set index value) else (.error .panic, bytes)

/-- Where the byte of some weight stands among the bytes of a number. -/
def place (littleEndian : Bool) (width index : ℕ) : ℕ := if littleEndian then index else width - 1 - index

def bytesReadUnsigned (bytes : Bytes) (offset width : ℕ) (littleEndian : Bool) : Except Failure ℕ :=
  (List.range width).foldlM (fun value index =>
    (bytesU8At bytes (offset + place littleEndian width index)).map fun byte => value ||| byte.toNat <<< (8 * index)) 0

def bytesWriteUnsigned (offset width : ℕ) (littleEndian : Bool) (value : ℕ) (bytes : Bytes) : Except Failure Unit × Bytes :=
  bytesSetAll ((List.range width).map fun index =>
    (offset + place littleEndian width index, UInt8.ofNat (value >>> (8 * index)))) bytes

/-- `value.trunc() as i64 as u64`, and `0` for NaN. -/
def truncBits (value : F64) : ℕ :=
  match value with
  | .nan => 0
  | .inf negative => if negative then 2 ^ 63 else 2 ^ 63 - 1
  | value => Twos.bits 64 (max (-2 ^ 63) (min (F64.truncRat value.rat) (2 ^ 63 - 1)))

/-- A write after its checks: where it ends, or its refusal. -/
def writeAt (width : ℕ) (offset : Except Failure ℕ) (write : ℕ → Bytes → Except Failure Unit × Bytes) (bytes : Bytes) :
    Except Failure F64 × Bytes :=
  match offset with
  | .error failure => (.error failure, bytes)
  | .ok offset => ((write offset bytes).1.map fun _ => .ofInt (offset + width), (write offset bytes).2)

/-! ### The fixed widths -/

inductive NumKind where
  | u8 | i8 | u16be | u16le | i16be | i16le | u32be | u32le | i32be | i32le
  deriving DecidableEq

def bytesNumWidth : NumKind → ℕ
  | .u8 | .i8 => 1
  | .u16be | .u16le | .i16be | .i16le => 2
  | .u32be | .u32le | .i32be | .i32le => 4

def NumKind.signed : NumKind → Bool
  | .i8 | .i16be | .i16le | .i32be | .i32le => true
  | _ => false

/-- `ends_with("le")` -/
def NumKind.endsLe : NumKind → Bool
  | .u16le | .i16le | .u32le | .i32le => true
  | _ => false

def bytesReadNum (bytes : Bytes) (kind : NumKind) (offset : F64) : Except Failure F64 := do
  let offset ← bytesNumOffset bytes offset (bytesNumWidth kind)
  let input ← (List.range (bytesNumWidth kind)).mapM fun index => bytesU8At bytes (offset + index)
  let value := Bytes.leNat (if kind.endsLe then input else input.reverse)
  return .ofInt (if kind.signed then Twos.signed (8 * bytesNumWidth kind) value else value)

def bytesWriteNum (kind : NumKind) (value offset : F64) (bytes : Bytes) : Except Failure F64 × Bytes :=
  let width := bytesNumWidth kind
  let source := (Bytes.leBytes 8 (truncBits value)).reverse.drop (8 - width)
  writeAt width (bytesCheckInt bytes value offset width kind.signed) (fun offset =>
    bytesSetAll ((if kind.endsLe then source.reverse else source).zipIdx.map fun (byte, index) => (offset + index, byte))) bytes

/-! ### The variable widths -/

inductive NumVarKind where
  | ube | ule | ibe | ile
  deriving DecidableEq

/-- Whether it is signed, and whether it is little-endian. -/
def bytesNumVarKind : NumVarKind → Bool × Bool
  | .ube => (false, false)
  | .ule => (false, true)
  | .ibe => (true, false)
  | .ile => (true, true)

def bytesNumVarWidth (byteLength : F64) : Except Failure ℕ :=
  if !(F64.floor byteLength).eq byteLength || !(F64.le (.ofInt 1) byteLength && byteLength.le (.ofInt 6)) then
    .error (bytesBoundsError byteLength (.ofInt 6) (some "byteLength"))
  else .ok (F64.truncRat byteLength.rat).toNat

def bytesReadNumVar (bytes : Bytes) (kind : NumVarKind) (offset byteLength : F64) : Except Failure F64 := do
  let width ← bytesNumVarWidth byteLength
  let offset ← bytesNumOffset bytes offset width
  let (signed, littleEndian) := bytesNumVarKind kind
  let value ← bytesReadUnsigned bytes offset width littleEndian
  return .ofInt (if signed && value.testBit (width * 8 - 1) then (value : ℤ) - 2 ^ (width * 8) else value)

def bytesWriteNumVar (kind : NumVarKind) (value offset byteLength : F64) (bytes : Bytes) : Except Failure F64 × Bytes :=
  match bytesNumVarWidth byteLength with
  | .error failure => (.error failure, bytes)
  | .ok width =>
    let (signed, littleEndian) := bytesNumVarKind kind
    writeAt width (bytesCheckInt bytes value offset width signed) (fun offset =>
      bytesWriteUnsigned offset width littleEndian (truncBits value)) bytes

/-! ### Eight bytes -/

/-- `to_i64`, `to_u64` -/
def bigintFits (value : ℤ) (signed : Bool) : Bool :=
  if signed then -2 ^ 63 ≤ value ∧ value < 2 ^ 63 else 0 ≤ value ∧ value < 2 ^ 64

/-- The value, as its lowest 64 bits. -/
def bigintBufferValue (value : ℤ) (signed : Bool) : Except Failure ℕ :=
  if bigintFits value signed then .ok (Twos.bits 64 value)
  else
    .error (.rangeError [.text "The value of \"value\" is out of range. It must be ",
      .text (if signed then ">= -(2n ** 63n) and < 2n ** 63n" else ">= 0n and < 2n ** 64n"), .text ". Received ",
      .receivedBigInt value])

/-- `value as i64`, where the number is signed. -/
def bigintOf (signed : Bool) (value : ℕ) : ℤ := if signed then Twos.signed 64 value else value

def bigintBufferRead (bytes : Bytes) (offset : F64) (signed littleEndian : Bool) : Except Failure ℤ := do
  let offset ← bytesNumOffset bytes offset 8
  let value ← bytesReadUnsigned bytes offset 8 littleEndian
  return bigintOf signed value

def bigintBufferWrite (value : ℤ) (offset : F64) (signed littleEndian : Bool) (bytes : Bytes) : Except Failure F64 × Bytes :=
  match bigintBufferValue value signed with
  | .error failure => (.error failure, bytes)
  | .ok value => writeAt 8 (bytesNumOffset bytes offset 8) (fun offset => bytesWriteUnsigned offset 8 littleEndian value) bytes

def dataViewOffset (bytes : Bytes) (value : F64) (width : ℕ) : Except Failure ℕ :=
  match dataViewIndex value with
  | some offset =>
    if bytes.length < offset ∨ bytes.length - offset < width then
      .error (.rangeError [.text "Offset is outside the bounds of the DataView"])
    else .ok offset
  | none => .error (.rangeError [.text "Offset is outside the bounds of the DataView"])

def bigintDataViewGet (bytes : Bytes) (offset : F64) (signed littleEndian : Bool) : Except Failure ℤ := do
  let offset ← dataViewOffset bytes offset 8
  let value ← bytesReadUnsigned bytes offset 8 littleEndian
  return bigintOf signed value

/-- It answers nothing; where it ends stands for that. -/
def bigintDataViewSet (offset : F64) (value : ℤ) (littleEndian : Bool) (bytes : Bytes) : Except Failure F64 × Bytes :=
  writeAt 8 (dataViewOffset bytes offset 8) (fun offset => bytesWriteUnsigned offset 8 littleEndian (Twos.bits 64 value)) bytes

/-! ### Bytes one by one -/

/-- Bytes that are set to those of a target, wherever the two differ, are the target. -/
theorem bytesSetAll_eq {pairs : List (ℕ × UInt8)} {bytes target : Bytes}
    (hset : ∀ pair ∈ pairs, pair.1 < bytes.length ∧ target[pair.1]? = some pair.2)
    (hrest : ∀ k, (∀ pair ∈ pairs, pair.1 ≠ k) → target[k]? = bytes[k]?) : bytesSetAll pairs bytes = (.ok (), target) := by
  induction pairs generalizing bytes with
  | nil =>
    rw [bytesSetAll, ext_getElem? fun k => hrest k fun _ h => absurd h not_mem_nil]
  | cons pair pairs ih =>
    obtain ⟨index, value⟩ := pair
    obtain ⟨hin, hvalue⟩ := hset _ mem_cons_self
    rw [bytesSetAll, if_pos hin]
    refine ih (fun pair hp => ?_) fun k hk => ?_
    · rw [length_set]
      exact hset pair (mem_cons_of_mem _ hp)
    · rw [List.getElem?_set]
      by_cases h : index = k
      · subst h
        rw [if_pos rfl, if_pos hin, hvalue]
      · rw [if_neg h]
        refine hrest k fun pair hp => ?_
        rcases mem_cons.mp hp with rfl | hp
        · exact h
        · exact hk pair hp

/-- A number of some bytes, set one after the other at an offset. -/
theorem bytesSetAll_put {pairs : List (ℕ × UInt8)} {bytes source : Bytes} {offset : ℕ}
    (hin : offset + source.length ≤ bytes.length)
    (hset : ∀ pair ∈ pairs, ∃ k < source.length, pair.1 = offset + k ∧ source[k]? = some pair.2)
    (hall : ∀ k < source.length, ∃ pair ∈ pairs, pair.1 = offset + k) :
    bytesSetAll pairs bytes = (.ok (), bytes.put offset source) := by
  refine bytesSetAll_eq (fun pair hp => ?_) fun k hk => ?_
  · obtain ⟨k, hlt, hindex, hvalue⟩ := hset pair hp
    rw [hindex, Bytes.getElem?_put hin, if_pos ⟨by omega, by omega⟩, Nat.add_sub_cancel_left]
    exact ⟨by omega, hvalue⟩
  · rw [Bytes.getElem?_put hin, if_neg]
    rintro ⟨hlo, hhi⟩
    obtain ⟨pair, hp, hindex⟩ := hall (k - offset) (by omega)
    exact hk pair hp (by omega)

/-- Bytes of a number in the order in which they stand. -/
def order (littleEndian : Bool) (bytes : Bytes) : Bytes := if littleEndian then bytes else bytes.reverse

@[simp] theorem length_order (littleEndian : Bool) (bytes : Bytes) : (order littleEndian bytes).length = bytes.length := by
  unfold order
  split_ifs <;> simp

@[simp] theorem order_order (littleEndian : Bool) (bytes : Bytes) : order littleEndian (order littleEndian bytes) = bytes := by
  unfold order
  split_ifs <;> simp

theorem place_lt {littleEndian : Bool} {width index : ℕ} (h : index < width) : place littleEndian width index < width := by
  unfold place
  split_ifs <;> omega

theorem getElem?_order (littleEndian : Bool) {bytes : Bytes} {index : ℕ} (h : index < bytes.length) :
    (order littleEndian bytes)[index]? = bytes[place littleEndian bytes.length index]? := by
  unfold order place
  split_ifs
  · rfl
  · exact List.getElem?_reverse h

theorem getElem?_order_place (littleEndian : Bool) {bytes : Bytes} {index : ℕ} (h : index < bytes.length) :
    (order littleEndian bytes)[place littleEndian bytes.length index]? = bytes[index]? := by
  have hp : (order littleEndian (order littleEndian bytes))[index]? = _ := getElem?_order littleEndian (by rwa [length_order])
  rwa [order_order, length_order, eq_comm] at hp

theorem getElem?_leBytes {width value index : ℕ} (h : index < width) :
    (Bytes.leBytes width value)[index]? = some (UInt8.ofNat (value >>> (8 * index))) := by
  induction width generalizing value index with
  | zero => omega
  | succ width ih =>
    cases index with
    | zero => rfl
    | succ index =>
      rw [Bytes.leBytes, List.getElem?_cons_succ, ih (by omega), Nat.mul_succ, Nat.add_comm, Nat.shiftRight_add,
        Nat.shiftRight_eq_div_pow value 8]

theorem bytesWriteUnsigned_eq {bytes : Bytes} {offset width : ℕ} (h : offset + width ≤ bytes.length) (littleEndian : Bool)
    (value : ℕ) : bytesWriteUnsigned offset width littleEndian value bytes =
      (.ok (), bytes.put offset (order littleEndian (Bytes.leBytes width value))) := by
  refine bytesSetAll_put (by simpa using h) (fun pair hp => ?_) fun k hk => ?_
  · obtain ⟨index, hi, rfl⟩ := mem_map.mp hp
    have hi := mem_range.mp hi
    refine ⟨place littleEndian width index, by simpa using place_lt hi, rfl, ?_⟩
    have hplace : (order littleEndian (Bytes.leBytes width value))[_]? = _ := getElem?_order_place littleEndian (by simpa using hi)
    rw [Bytes.length_leBytes] at hplace
    rw [hplace, getElem?_leBytes hi]
  · rw [length_order, Bytes.length_leBytes] at hk
    refine ⟨_, mem_map.mpr ⟨place littleEndian width k, mem_range.mpr (place_lt hk), rfl⟩, ?_⟩
    unfold place
    split_ifs
    · rfl
    · simp only
      omega

theorem leNat_append_singleton (bytes : Bytes) (byte : UInt8) :
    Bytes.leNat (bytes ++ [byte]) = Bytes.leNat bytes + byte.toNat * 256 ^ bytes.length := by
  induction bytes with
  | nil => simp [Bytes.leNat]
  | cons first bytes ih =>
    rw [cons_append, Bytes.leNat, ih, Bytes.leNat, length_cons, pow_succ]
    ring

/-- The loop over the first bytes: they are read, and together they are a number. -/
theorem bytesReadUnsigned_run {bytes : Bytes} (source : Bytes) {f : ℕ → ℕ} (count : ℕ) (hlen : count ≤ source.length)
    (h : ∀ index < count, bytes[f index]? = source[index]?) :
    (List.range count).foldlM (fun value index =>
      (bytesU8At bytes (f index)).map fun byte => value ||| byte.toNat <<< (8 * index)) 0 =
        (.ok (Bytes.leNat (source.take count)) : Except Failure ℕ) := by
  induction count with
  | zero => rfl
  | succ count ih =>
    have hget : source[count]? = some source[count] := List.getElem?_eq_getElem (by omega)
    have hlt := Bytes.leNat_lt (source.take count)
    rw [length_take_of_le (by omega), show 256 ^ count = 2 ^ (8 * count) by rw [pow_mul]; rfl] at hlt
    rw [range_succ, foldlM_append, ih (by omega) fun index hi => h index (by omega), take_add_one, hget]
    simp only [foldlM_cons, foldlM_nil, bytesU8At, h count (by omega), hget, Except.map, bind, Except.bind, pure,
      Except.pure, Option.toList_some, leNat_append_singleton, length_take_of_le (show count ≤ source.length by omega)]
    rw [Nat.or_comm, ← Nat.shiftLeft_add_eq_or_of_lt hlt, Nat.shiftLeft_eq, Nat.add_comm, pow_mul]
    rfl

theorem bytesReadUnsigned_eq {bytes : Bytes} {offset width : ℕ} (h : offset + width ≤ bytes.length) (littleEndian : Bool) :
    bytesReadUnsigned bytes offset width littleEndian =
      .ok (Bytes.leNat (order littleEndian (Bytes.slice bytes offset width))) := by
  have hl := Bytes.length_slice h
  have hget : ∀ index < width, bytes[offset + place littleEndian width index]? =
      (order littleEndian (Bytes.slice bytes offset width))[index]? := fun index hi => by
    rw [getElem?_order littleEndian (by rwa [hl]), hl, Bytes.getElem?_slice, if_pos (place_lt hi)]
  have hrun := bytesReadUnsigned_run _ width (by rw [length_order, hl]) hget
  rw [take_of_length_le (by rw [length_order, hl])] at hrun
  exact hrun

theorem bytesU8At_mapM {bytes : Bytes} {offset width : ℕ} (h : offset + width ≤ bytes.length) :
    (List.range width).mapM (fun index => bytesU8At bytes (offset + index)) = .ok (Bytes.slice bytes offset width) := by
  induction width with
  | zero => rfl
  | succ width ih =>
    have hget : bytes[offset + width]? = some bytes[offset + width] := List.getElem?_eq_getElem (by omega)
    have hslice : Bytes.slice bytes offset (width + 1) = Bytes.slice bytes offset width ++ [bytes[offset + width]] := by
      rw [Bytes.slice, take_add_one, getElem?_drop, hget]
      rfl
    rw [range_succ, mapM_append, ih (by omega), hslice]
    simp [bytesU8At, hget, bind, Except.bind, pure, Except.pure]

/-- The lowest bytes of a word. -/
theorem drop_reverse_leBytes {width : ℕ} (h : width ≤ 8) (value : ℕ) :
    (Bytes.leBytes 8 value).reverse.drop (8 - width) = (Bytes.leBytes width value).reverse := by
  rw [drop_reverse, Bytes.length_leBytes, Nat.sub_sub_self h]
  refine congrArg List.reverse (ext_getElem? fun k => ?_)
  rw [getElem?_take]
  split_ifs with hk
  · rw [getElem?_leBytes (by omega), getElem?_leBytes hk]
  · rw [List.getElem?_eq_none (by simpa using hk)]

theorem bytesSetAll_zipIdx {bytes source : Bytes} {offset : ℕ} (h : offset + source.length ≤ bytes.length) :
    bytesSetAll (source.zipIdx.map fun (byte, index) => (offset + index, byte)) bytes = (.ok (), bytes.put offset source) := by
  refine bytesSetAll_put h (fun pair hp => ?_) fun k hk => ?_
  · obtain ⟨⟨byte, index⟩, hmem, rfl⟩ := mem_map.mp hp
    have hget := mk_mem_zipIdx_iff_getElem?.mp hmem
    exact ⟨index, (List.getElem?_eq_some_iff.mp hget).1, rfl, hget⟩
  · exact ⟨_, mem_map.mpr ⟨(source[k], k), mk_mem_zipIdx_iff_getElem?.mpr (List.getElem?_eq_getElem hk), rfl⟩, rfl⟩

/-! ### Offsets -/

/-- An offset at which a number of some bytes lies in a buffer. -/
def IsOffset (bytes : Bytes) (width : ℕ) (offset : F64) (o : ℕ) : Prop :=
  offset.isFinite = true ∧ offset.rat = o ∧ o + width ≤ bytes.length

theorem bytesBoundsError_eq (value length : F64) (valueName : Option String) :
    ∃ message, bytesBoundsError value length valueName = .rangeError message := by
  unfold bytesBoundsError
  split_ifs <;> exact ⟨_, rfl⟩

theorem capacity_eq {length width : ℕ} (hl : F64.IsSafe length) (hw : width ≤ 8) :
    F64.sub (.ofInt length) (.ofInt width) = .ofInt (length - width) ∧ F64.IsSafe (length - width : ℤ) := by
  have hsafe : F64.IsSafe (width : ℤ) := by
    unfold F64.IsSafe F64.maxSafeInteger
    omega
  refine ⟨F64.sub_ofInt hl hsafe, ?_⟩
  unfold F64.IsSafe F64.maxSafeInteger at *
  omega

theorem bytesNumOffset_ok {bytes : Bytes} {width o : ℕ} {offset : F64} (hl : F64.IsSafe bytes.length) (hw : width ≤ 8)
    (h : IsOffset bytes width offset o) : bytesNumOffset bytes offset width = .ok o := by
  obtain ⟨hfin, hrat, hle⟩ := h
  obtain ⟨hcap, hsafe⟩ := capacity_eq hl hw
  have hzero : F64.zero.isFinite = true := rfl
  rw [bytesNumOffset, hcap, if_neg, hrat]
  · rw [show (o : ℚ) = ((o : ℤ) : ℚ) by push_cast; rfl, F64.truncRat_intCast, Int.toNat_natCast]
  · simp only [Bool.or_eq_true, Bool.not_eq_true', ← Bool.not_eq_true, F64.lt_iff_rat (F64.isFinite_ofInt hsafe) hzero,
      F64.lt_iff_rat hfin hzero, F64.lt_iff_rat (F64.isFinite_ofInt hsafe) hfin, F64.rat_ofInt hsafe, hrat]
    have hz : F64.zero.rat = 0 := rfl
    rw [hz, F64.floor_eq_self_iff hfin]
    have hle : (o : ℚ) + width ≤ bytes.length := by exact_mod_cast hle
    have hcast : ((bytes.length - width : ℤ) : ℚ) = bytes.length - width := by push_cast; rfl
    rw [hcast]
    have ho : (0 : ℚ) ≤ o := by positivity
    push Not
    exact ⟨⟨⟨⟨o, hrat⟩, by linarith⟩, ho⟩, by linarith⟩

theorem bytesNumOffset_error {bytes : Bytes} {width : ℕ} {offset : F64} (hl : F64.IsSafe bytes.length) (hw : width ≤ 8)
    (h : ¬ ∃ o, IsOffset bytes width offset o) : ∃ message, bytesNumOffset bytes offset width = .error (.rangeError message) := by
  obtain ⟨hcap, hsafe⟩ := capacity_eq hl hw
  have hzero : F64.zero.isFinite = true := rfl
  obtain ⟨message, hm⟩ := bytesBoundsError_eq offset (.ofInt (bytes.length - width)) none
  refine ⟨message, ?_⟩
  rw [bytesNumOffset, hcap, if_pos, hm]
  by_contra hc
  simp only [Bool.or_eq_true, Bool.not_eq_true', not_or, Bool.not_eq_false] at hc
  obtain ⟨⟨⟨hfloor, hcap⟩, hneg⟩, hle⟩ := hc
  cases hfin : offset.isFinite with
  | false =>
    -- infinity is above every length and the other one below zero
    rcases offset with _ | (_ | _) | _ | _
    · cases hfloor
    · rw [F64.lt_iff, F64.num_of_isFinite (F64.isFinite_ofInt hsafe)] at hle
      exact hle ⟨F64.ne_nan_of_isFinite (F64.isFinite_ofInt hsafe), by simp, ExtRat.fin_lt_top _⟩
    · exact hneg (by decide)
    · cases hfin
    · cases hfin
  | true =>
    rw [F64.floor_eq_self_iff hfin] at hfloor
    rw [F64.lt_iff_rat hfin hzero] at hneg
    rw [F64.lt_iff_rat (F64.isFinite_ofInt hsafe) hfin, F64.rat_ofInt hsafe] at hle
    obtain ⟨n, hn⟩ := hfloor
    rw [hn] at hneg hle
    have hz : F64.zero.rat = ((0 : ℤ) : ℚ) := by simp [F64.zero, F64.rat]
    rw [hz, Int.cast_lt] at hneg
    rw [Int.cast_lt] at hle
    refine h ⟨n.toNat, hfin, ?_, by omega⟩
    rw [hn]
    exact_mod_cast (Int.toNat_of_nonneg (not_lt.mp hneg)).symm

/-! ### Layouts -/

/-- How a number lies in bytes. -/
structure Layout where
  width : ℕ
  signed : Bool
  littleEndian : Bool

namespace Layout

variable {layout : Layout}

def exponent (layout : Layout) : ℕ := layout.width * 8 - if layout.signed then 1 else 0

def minimum (layout : Layout) : ℤ := if layout.signed then -2 ^ layout.exponent else 0

def maximum (layout : Layout) : ℤ := 2 ^ layout.exponent - 1

/-- The integers of the type. -/
def Holds (layout : Layout) (z : ℤ) : Prop := layout.minimum ≤ z ∧ z ≤ layout.maximum

/-- An integer cut to the type. -/
def wrap (layout : Layout) (z : ℤ) : ℤ := if layout.signed then Int.bmod z (2 ^ (layout.width * 8)) else z % 2 ^ (layout.width * 8)

def encode (layout : Layout) (z : ℤ) : Bytes := order layout.littleEndian (Bytes.leBytes layout.width (Twos.bits 64 z))

def decode (layout : Layout) (bytes : Bytes) : ℤ :=
  let value := Bytes.leNat (order layout.littleEndian bytes)
  if layout.signed then Twos.signed (layout.width * 8) value else value

@[simp] theorem length_encode (z : ℤ) : (layout.encode z).length = layout.width := by simp [encode]

theorem decode_encode (hw : 0 < layout.width) (h8 : layout.width ≤ 8) (z : ℤ) : layout.decode (layout.encode z) = layout.wrap z := by
  have hbits : Bytes.leNat (Bytes.leBytes layout.width (Twos.bits 64 z)) = Twos.bits (layout.width * 8) z := by
    rw [Bytes.leNat_leBytes, show 256 ^ layout.width = 2 ^ (layout.width * 8) by rw [Nat.mul_comm, pow_mul]; rfl,
      Twos.bits_mod (by omega)]
  simp only [decode, encode, order_order, hbits, wrap]
  rw [Twos.signed_bits (by omega), Twos.bits_cast]

theorem wrap_of_holds {z : ℤ} (hw : 0 < layout.width) (h : layout.Holds z) : layout.wrap z = z := by
  obtain ⟨hlo, hhi⟩ := h
  unfold minimum at hlo
  unfold maximum at hhi
  unfold exponent at hlo hhi
  unfold wrap
  split_ifs at hlo hhi ⊢
  · obtain ⟨k, hk⟩ : ∃ k, layout.width * 8 = k + 1 := ⟨layout.width * 8 - 1, by omega⟩
    rw [hk] at hlo hhi ⊢
    exact Twos.bmod_of_fits ⟨hlo, by simpa using Int.lt_of_le_sub_one hhi⟩
  · exact Int.emod_eq_of_lt hlo (by simpa using Int.lt_of_le_sub_one hhi)

/-- The bytes of a number that was written there are read back. -/
theorem decode_put {bytes : Bytes} {o : ℕ} (hw : 0 < layout.width) (h8 : layout.width ≤ 8) (hin : o + layout.width ≤ bytes.length)
    (z : ℤ) : layout.decode (Bytes.slice (bytes.put o (layout.encode z)) o layout.width) = layout.wrap z := by
  have hslice : Bytes.slice (bytes.put o (layout.encode z)) o _ = _ := Bytes.slice_put_self (by rwa [length_encode])
  rw [length_encode] at hslice
  rw [hslice, decode_encode hw h8]

end Layout

/-! ### Accessors -/

/-- The numbers that a type has room for, and NaN, which is stored as zero. -/
def AcceptsNumber (layout : Layout) (value : F64) : Prop :=
  value = .nan ∨ value.isFinite = true ∧ (layout.minimum : ℚ) ≤ value.rat ∧ value.rat ≤ layout.maximum

/-- Integers of up to 48 bits are safe. -/
theorem Layout.isSafe {layout : Layout} (hw : layout.width ≤ 6) : F64.IsSafe layout.minimum ∧ F64.IsSafe layout.maximum := by
  have hpow : (2 : ℤ) ^ layout.exponent ≤ 2 ^ 48 := pow_le_pow_right₀ (by norm_num) (by unfold exponent; omega)
  have hpos : (0 : ℤ) < 2 ^ layout.exponent := by positivity
  unfold F64.IsSafe F64.maxSafeInteger Layout.minimum Layout.maximum
  split_ifs <;> omega

theorem checks_iff {layout : Layout} (hw : layout.width ≤ 6) (value : F64) :
    ((F64.ofInt layout.maximum).lt value || value.lt (.ofInt layout.minimum)) = true ↔ ¬ AcceptsNumber layout value := by
  obtain ⟨hmin, hmax⟩ := Layout.isSafe hw
  have hfmin := F64.isFinite_ofInt hmin
  have hfmax := F64.isFinite_ofInt hmax
  rcases value with _ | (_ | _) | _ | x
  · simp [AcceptsNumber, F64.lt, F64.isNaN]
  · refine iff_of_true ?_ (by simp [AcceptsNumber, F64.isFinite])
    rw [Bool.or_eq_true, F64.lt_iff, F64.num_of_isFinite hfmax]
    exact .inl ⟨F64.ne_nan_of_isFinite hfmax, by simp, ExtRat.fin_lt_top _⟩
  · refine iff_of_true ?_ (by simp [AcceptsNumber, F64.isFinite])
    rw [Bool.or_eq_true, F64.lt_iff, F64.lt_iff, F64.num_of_isFinite hfmin]
    exact .inr ⟨by simp, F64.ne_nan_of_isFinite hfmin, ExtRat.bot_lt_fin _⟩
  all_goals
    rw [Bool.or_eq_true, F64.lt_iff_rat hfmax rfl, F64.lt_iff_rat rfl hfmin, F64.rat_ofInt hmax, F64.rat_ofInt hmin]
    simp only [AcceptsNumber, reduceCtorEq, false_or, F64.isFinite, true_and, not_and_or, not_le]
    exact or_comm

theorem truncBits_eq {layout : Layout} (hw : layout.width ≤ 6) {value : F64} (h : AcceptsNumber layout value) :
    truncBits value = Twos.bits 64 (F64.truncRat value.rat) := by
  obtain ⟨hmin, hmax⟩ := Layout.isSafe hw
  unfold F64.IsSafe F64.maxSafeInteger at hmin hmax
  rcases h with rfl | ⟨hfin, hlo, hhi⟩
  · change 0 = Twos.bits 64 (F64.truncRat (F64.rat .nan))
    simp [F64.rat, F64.truncRat, Twos.bits]
  · obtain ⟨h1, h2⟩ := F64.truncRat_between hlo hhi
    have hclamp : max (-2 ^ 63) (min (F64.truncRat value.rat) (2 ^ 63 - 1)) = F64.truncRat value.rat := by
      rw [min_eq_left (by omega), max_eq_right (by omega)]
    cases value with
    | nan => cases hfin
    | inf negative => cases hfin
    | negZero => exact congrArg (Twos.bits 64) hclamp
    | fin x => exact congrArg (Twos.bits 64) hclamp

/-- What is stored is an integer of the type. -/
theorem AcceptsNumber.holds {layout : Layout} {value : F64} (h : AcceptsNumber layout value) :
    layout.Holds (F64.truncRat value.rat) := by
  rcases h with rfl | ⟨-, hlo, hhi⟩
  · have hpos : (0 : ℤ) < 2 ^ layout.exponent := by positivity
    have hzero : F64.truncRat (F64.rat .nan) = 0 := by simp [F64.rat, F64.truncRat]
    rw [hzero]
    unfold Layout.Holds Layout.minimum Layout.maximum
    split_ifs <;> omega
  · exact F64.truncRat_between hlo hhi

theorem bytesCheckInt_eq (layout : Layout) (hw : layout.width ≤ 6) (bytes : Bytes) (value offset : F64) :
    (AcceptsNumber layout value → bytesCheckInt bytes value offset layout.width layout.signed =
      bytesNumOffset bytes offset layout.width) ∧
    (¬ AcceptsNumber layout value → ∃ message, bytesCheckInt bytes value offset layout.width layout.signed =
      .error (.rangeError message)) := by
  have hmin : (if layout.signed then F64.ofInt (-2 ^ layout.exponent) else .zero) = F64.ofInt layout.minimum := by
    unfold Layout.minimum
    split_ifs
    · rfl
    · simp [F64.ofInt, F64.round, F64.zero, Binary64.limit_pos]
  have hc := checks_iff hw value
  rw [← hmin] at hc
  simp only [Layout.maximum, Layout.exponent] at hc
  simp only [bytesCheckInt]
  constructor
  · intro h
    rw [if_neg (by rw [hc]; exact not_not.mpr h)]
  · intro h
    rw [if_pos (hc.mpr h)]
    exact ⟨_, rfl⟩

section

variable {α β : Type}

/-- A write and a read that are inverse to each other. Where the offset is one of the buffer, a value of the
type changes its bytes and no others, and they are read as it; every other value and every other offset is
refused before a byte is written. -/
def Inverse (layout : Layout) (At : Bytes → F64 → ℕ → Prop) (Accepts : α → Prop) (stored : α → ℤ) (shown : ℤ → β)
    (returned : α → β) (write : α → F64 → Bytes → Except Failure F64 × Bytes) (read : Bytes → F64 → Except Failure β) : Prop :=
  ∀ (bytes : Bytes) (offset : F64), F64.IsSafe bytes.length →
    (∀ o, At bytes offset o →
      (∀ value, Accepts value →
        write value offset bytes = (.ok (.ofInt (o + layout.width)), bytes.put o (layout.encode (stored value))) ∧
        read (bytes.put o (layout.encode (stored value))) offset = .ok (returned value)) ∧
      read bytes offset = .ok (shown (layout.decode (bytes.slice o layout.width)))) ∧
    (∀ value, ¬ (Accepts value ∧ ∃ o, At bytes offset o) →
      ∃ message, write value offset bytes = (.error (.rangeError message), bytes)) ∧
    ((¬ ∃ o, At bytes offset o) → ∃ message, read bytes offset = .error (.rangeError message))

/-- A search for an offset that finds those of a kind. -/
structure Finds (width : ℕ) (At : Bytes → F64 → ℕ → Prop) (find : Bytes → F64 → Except Failure ℕ) : Prop where
  fits {bytes offset o} : At bytes offset o → o + width ≤ bytes.length
  congr {bytes bytes' : Bytes} {offset o} : bytes'.length = bytes.length → At bytes offset o → At bytes' offset o
  ok {bytes offset o} : F64.IsSafe bytes.length → At bytes offset o → find bytes offset = .ok o
  error {bytes offset} : F64.IsSafe bytes.length → (¬ ∃ o, At bytes offset o) →
    ∃ message, find bytes offset = .error (.rangeError message)

/-- A write that checks its value and then finds its offset, and a read that finds it in the same way. -/
theorem Finds.inverse {layout : Layout} {At : Bytes → F64 → ℕ → Prop} {Accepts : α → Prop} {stored : α → ℤ} {shown : ℤ → β}
    {returned : α → β} {write : α → F64 → Bytes → Except Failure F64 × Bytes} {read : Bytes → F64 → Except Failure β}
    {find : Bytes → F64 → Except Failure ℕ} {readAt : Bytes → ℕ → Except Failure β}
    (h : Finds layout.width At find) (hw : 0 < layout.width) (h8 : layout.width ≤ 8)
    (hread : ∀ bytes offset, read bytes offset = find bytes offset >>= readAt bytes)
    (hreadAt : ∀ bytes o, o + layout.width ≤ bytes.length →
      readAt bytes o = .ok (shown (layout.decode (bytes.slice o layout.width))))
    (hwrite : ∀ value, Accepts value → ∀ offset bytes, ∃ store,
      write value offset bytes = writeAt layout.width (find bytes offset) store bytes ∧
      ∀ o, o + layout.width ≤ bytes.length → store o bytes = (.ok (), bytes.put o (layout.encode (stored value))))
    (hreject : ∀ value, ¬ Accepts value → ∀ offset bytes,
      ∃ message, write value offset bytes = (.error (.rangeError message), bytes))
    (hshown : ∀ value, Accepts value → shown (layout.wrap (stored value)) = returned value) :
    Inverse layout At Accepts stored shown returned write read := by
  intro bytes offset hl
  refine ⟨fun o ho => ⟨fun value hv => ?_, ?_⟩, fun value hv => ?_, fun hno => ?_⟩
  · have hin := h.fits ho
    have hput : (bytes.put o (layout.encode (stored value))).length = bytes.length :=
      Bytes.length_put (by rwa [Layout.length_encode])
    constructor
    · obtain ⟨store, hw, hstore⟩ := hwrite value hv offset bytes
      rw [hw, h.ok hl ho, writeAt, hstore o hin]
      rfl
    · rw [hread, h.ok (by rwa [hput]) (h.congr hput ho)]
      refine (hreadAt _ o (by rwa [hput])).trans ?_
      rw [Layout.decode_put hw h8 hin, hshown value hv]
  · rw [hread, h.ok hl ho]
    exact hreadAt bytes o (h.fits ho)
  · by_cases haccepts : Accepts value
    · obtain ⟨message, hm⟩ := h.error hl fun hex => hv ⟨haccepts, hex⟩
      obtain ⟨store, hw, -⟩ := hwrite value haccepts offset bytes
      exact ⟨message, by rw [hw, hm, writeAt]⟩
    · exact hreject value haccepts offset bytes
  · obtain ⟨message, hm⟩ := h.error hl hno
    exact ⟨message, by rw [hread, hm]; rfl⟩

end

theorem finds_bytesNumOffset {width : ℕ} (h8 : width ≤ 8) :
    Finds width (fun bytes => IsOffset bytes width) fun bytes offset => bytesNumOffset bytes offset width where
  fits ho := ho.2.2
  congr hl ho := ⟨ho.1, ho.2.1, by rw [hl]; exact ho.2.2⟩
  ok hl ho := bytesNumOffset_ok hl h8 ho
  error hl hno := bytesNumOffset_error hl h8 hno

/-- An offset as `ToIndex` has it. -/
def IsIndex (bytes : Bytes) (offset : F64) (o : ℕ) : Prop := dataViewIndex offset = some o ∧ o + 8 ≤ bytes.length

theorem finds_dataViewOffset : Finds 8 IsIndex fun bytes offset => dataViewOffset bytes offset 8 where
  fits ho := ho.2
  congr hl ho := ⟨ho.1, by rw [hl]; exact ho.2⟩
  ok := by
    rintro bytes offset o - ⟨ho, hin⟩
    simp only [dataViewOffset, ho]
    rw [if_neg (by omega)]
  error := by
    rintro bytes offset - hno
    simp only [dataViewOffset]
    split
    next o ho =>
      rw [if_pos]
      · exact ⟨_, rfl⟩
      · by_contra hin
        exact hno ⟨o, ho, by omega⟩
    next => exact ⟨_, rfl⟩

/-! #### The fixed widths -/

def NumKind.layout (kind : NumKind) : Layout := ⟨bytesNumWidth kind, kind.signed, kind.endsLe⟩

theorem inverse_num (kind : NumKind) :
    Inverse kind.layout (fun bytes => IsOffset bytes kind.layout.width) (AcceptsNumber kind.layout)
      (fun value => F64.truncRat value.rat) .ofInt (fun value => .ofInt (F64.truncRat value.rat)) (bytesWriteNum kind)
      fun bytes => bytesReadNum bytes kind := by
  have hw : 0 < kind.layout.width ∧ kind.layout.width ≤ 4 := by cases kind <;> decide
  refine (finds_bytesNumOffset (by omega)).inverse hw.1 (by omega) (fun bytes offset => rfl) (fun bytes o hin => ?_)
    (fun value hv offset bytes => ?_) (fun value hv offset bytes => ?_) fun value hv => ?_
  · have hmap := bytesU8At_mapM hin
    change (List.range (bytesNumWidth kind)).mapM _ = _ at hmap
    simp only [hmap]
    change Except.ok _ = _
    rw [Layout.decode, Nat.mul_comm]
    rfl
  · have hcheck : bytesCheckInt bytes value offset (bytesNumWidth kind) kind.signed = _ :=
      (bytesCheckInt_eq kind.layout (by omega) bytes value offset).1 hv
    refine ⟨_, by rw [bytesWriteNum, hcheck]; rfl, fun o hin => ?_⟩
    dsimp only
    have hsource : (if kind.endsLe then ((Bytes.leBytes 8 (truncBits value)).reverse.drop (8 - bytesNumWidth kind)).reverse
        else (Bytes.leBytes 8 (truncBits value)).reverse.drop (8 - bytesNumWidth kind)) =
        kind.layout.encode (F64.truncRat value.rat) := by
      rw [drop_reverse_leBytes (by have := hw.2; change kind.layout.width ≤ 8; omega), reverse_reverse,
        truncBits_eq (by omega) hv]
      rfl
    rw [hsource]
    exact bytesSetAll_zipIdx (by rwa [Layout.length_encode])
  · obtain ⟨message, hm⟩ := (bytesCheckInt_eq kind.layout (by omega) bytes value offset).2 hv
    change bytesCheckInt bytes value offset (bytesNumWidth kind) kind.signed = _ at hm
    exact ⟨message, by rw [bytesWriteNum, hm]; rfl⟩
  · rw [Layout.wrap_of_holds hw.1 hv.holds]

/-! #### The variable widths -/

/-- A byte length from one to six. -/
def IsWidth (byteLength : F64) (width : ℕ) : Prop :=
  byteLength.isFinite = true ∧ byteLength.rat = width ∧ 1 ≤ width ∧ width ≤ 6

theorem bytesNumVarWidth_ok {byteLength : F64} {width : ℕ} (h : IsWidth byteLength width) :
    bytesNumVarWidth byteLength = .ok width := by
  obtain ⟨hfin, hrat, h1, h6⟩ := h
  have hs1 : F64.IsSafe 1 := by decide
  have hs6 : F64.IsSafe 6 := by decide
  rw [bytesNumVarWidth, if_neg, hrat]
  · rw [show (width : ℚ) = ((width : ℤ) : ℚ) by push_cast; rfl, F64.truncRat_intCast, Int.toNat_natCast]
  · simp only [Bool.or_eq_true, Bool.not_eq_true', ← Bool.not_eq_true, Bool.and_eq_true,
      F64.le_iff_rat (F64.isFinite_ofInt hs1) hfin, F64.le_iff_rat hfin (F64.isFinite_ofInt hs6), F64.rat_ofInt hs1,
      F64.rat_ofInt hs6, hrat, F64.floor_eq_self_iff hfin]
    push Not
    exact ⟨⟨width, by push_cast; rfl⟩, by exact_mod_cast h1, by exact_mod_cast h6⟩

theorem bytesNumVarWidth_error {byteLength : F64} (h : ¬ ∃ width, IsWidth byteLength width) :
    ∃ message, bytesNumVarWidth byteLength = .error (.rangeError message) := by
  have hs1 : F64.IsSafe 1 := by decide
  have hs6 : F64.IsSafe 6 := by decide
  obtain ⟨message, hm⟩ := bytesBoundsError_eq byteLength (.ofInt 6) (some "byteLength")
  refine ⟨message, ?_⟩
  rw [bytesNumVarWidth, if_pos, hm]
  by_contra hc
  simp only [Bool.or_eq_true, Bool.not_eq_true', not_or, Bool.not_eq_false, Bool.and_eq_true] at hc
  obtain ⟨hfloor, hlo, hhi⟩ := hc
  have hfin := F64.isFinite_of_between (F64.isFinite_ofInt hs1) (F64.isFinite_ofInt hs6) hlo hhi
  rw [F64.le_iff_rat (F64.isFinite_ofInt hs1) hfin, F64.rat_ofInt hs1] at hlo
  rw [F64.le_iff_rat hfin (F64.isFinite_ofInt hs6), F64.rat_ofInt hs6] at hhi
  obtain ⟨n, hn⟩ := (F64.floor_eq_self_iff hfin).mp hfloor
  rw [hn] at hlo hhi
  have hlo : 1 ≤ n := by exact_mod_cast hlo
  have hhi : n ≤ 6 := by exact_mod_cast hhi
  refine h ⟨n.toNat, hfin, ?_, by omega, by omega⟩
  rw [hn]
  exact_mod_cast (Int.toNat_of_nonneg (by omega : 0 ≤ n)).symm

def NumVarKind.layout (kind : NumVarKind) (width : ℕ) : Layout := ⟨width, (bytesNumVarKind kind).1, (bytesNumVarKind kind).2⟩

/-- The highest bit of a number counts negative. -/
theorem signed_of_testBit {w value : ℕ} (hw : 0 < w) (h : value < 2 ^ w) :
    (if value.testBit (w - 1) then (value : ℤ) - 2 ^ w else value) = Twos.signed w value := by
  have hpow : 2 ^ w = 2 ^ (w - 1) * 2 := by rw [← pow_succ, Nat.sub_add_cancel hw]
  have hbit : value.testBit (w - 1) = true ↔ 2 ^ (w - 1) ≤ value := by
    refine ⟨Nat.ge_two_pow_of_testBit, fun hle => ?_⟩
    rw [Nat.testBit_eq_decide_div_mod_eq, decide_eq_true_eq, Nat.div_eq_of_lt_le (k := 1) (by omega) (by omega)]
  rw [Twos.signed]
  simp only [hbit]

theorem inverse_numVar (kind : NumVarKind) {byteLength : F64} {width : ℕ} (hwidth : IsWidth byteLength width) :
    Inverse (kind.layout width) (fun bytes => IsOffset bytes width) (AcceptsNumber (kind.layout width))
      (fun value => F64.truncRat value.rat) .ofInt (fun value => .ofInt (F64.truncRat value.rat))
      (fun value offset => bytesWriteNumVar kind value offset byteLength)
      fun bytes offset => bytesReadNumVar bytes kind offset byteLength := by
  have hok := bytesNumVarWidth_ok hwidth
  obtain ⟨-, -, h1, h6⟩ := hwidth
  have hw : 0 < (kind.layout width).width := h1
  have h6 : (kind.layout width).width ≤ 6 := h6
  refine (finds_bytesNumOffset (show width ≤ 8 from h6.trans (by norm_num))).inverse hw (by omega)
    (fun bytes offset => by rw [bytesReadNumVar, hok]; rfl) (fun bytes o hin => ?_)
    (fun value hv offset bytes => ?_) (fun value hv offset bytes => ?_) fun value hv => ?_
  · have hread : bytesReadUnsigned bytes o width (bytesNumVarKind kind).2 = _ :=
      bytesReadUnsigned_eq hin (kind.layout width).littleEndian
    have hlt := Bytes.leNat_lt (order (kind.layout width).littleEndian (bytes.slice o width))
    rw [length_order, Bytes.length_slice (show o + width ≤ _ from hin), show 256 ^ width = 2 ^ (width * 8) by rw [Nat.mul_comm, pow_mul]; rfl] at hlt
    simp only [hread]
    change _ = Except.ok (F64.ofInt (if (bytesNumVarKind kind).1 then
      Twos.signed (width * 8) (Bytes.leNat (order (kind.layout width).littleEndian (bytes.slice o width))) else _))
    rw [← signed_of_testBit (Nat.mul_pos h1 (by norm_num)) hlt]
    cases kind <;> rfl
  · have hcheck : bytesCheckInt bytes value offset width (bytesNumVarKind kind).1 = _ :=
      (bytesCheckInt_eq (kind.layout width) h6 bytes value offset).1 hv
    refine ⟨_, by rw [bytesWriteNumVar, hok]; dsimp only; rw [hcheck]; rfl, fun o hin => ?_⟩
    rw [truncBits_eq h6 hv]
    exact bytesWriteUnsigned_eq hin ..
  · obtain ⟨message, hm⟩ := (bytesCheckInt_eq (kind.layout width) h6 bytes value offset).2 hv
    change bytesCheckInt bytes value offset width (bytesNumVarKind kind).1 = _ at hm
    exact ⟨message, by rw [bytesWriteNumVar, hok]; dsimp only; rw [hm]; rfl⟩
  · rw [Layout.wrap_of_holds hw hv.holds]

/-! #### Eight bytes -/

theorem bigintFits_iff {signed littleEndian : Bool} {value : ℤ} :
    bigintFits value signed = true ↔ (Layout.mk 8 signed littleEndian).Holds value := by
  cases signed <;> simp [bigintFits, Layout.Holds, Layout.minimum, Layout.maximum, Layout.exponent] <;> omega

theorem bigintRead_eq {bytes : Bytes} {o : ℕ} (signed littleEndian : Bool) (hin : o + 8 ≤ bytes.length) :
    (do let value ← bytesReadUnsigned bytes o 8 littleEndian; return bigintOf signed value) =
      (.ok ((Layout.mk 8 signed littleEndian).decode (bytes.slice o 8)) : Except Failure ℤ) := by
  rw [bytesReadUnsigned_eq hin]
  rfl

theorem inverse_bigintBuffer (signed littleEndian : Bool) :
    Inverse ⟨8, signed, littleEndian⟩ (fun bytes => IsOffset bytes 8) (Layout.mk 8 signed littleEndian).Holds id id id
      (fun value offset => bigintBufferWrite value offset signed littleEndian)
      fun bytes offset => bigintBufferRead bytes offset signed littleEndian := by
  refine (finds_bytesNumOffset le_rfl).inverse (by decide : 0 < 8) le_rfl (fun bytes offset => rfl)
    (fun bytes o hin => bigintRead_eq signed littleEndian hin) (fun value hv offset bytes => ?_)
    (fun value hv offset bytes => ?_) fun value hv => Layout.wrap_of_holds (by decide : 0 < 8) hv
  · refine ⟨fun o => bytesWriteUnsigned o 8 littleEndian (Twos.bits 64 value), ?_, fun o hin => bytesWriteUnsigned_eq hin ..⟩
    rw [bigintBufferWrite, bigintBufferValue, if_pos (bigintFits_iff.mpr hv)]
  · rw [bigintBufferWrite, bigintBufferValue, if_neg (mt bigintFits_iff.mp hv)]
    exact ⟨_, rfl⟩

/-- A `DataView` stores the lowest bits of any integer, and its offsets are indices. -/
theorem inverse_bigintDataView (signed littleEndian : Bool) :
    Inverse ⟨8, signed, littleEndian⟩ IsIndex (fun _ => True) id id (Layout.mk 8 signed littleEndian).wrap
      (fun value offset => bigintDataViewSet offset value littleEndian)
      fun bytes offset => bigintDataViewGet bytes offset signed littleEndian :=
  finds_dataViewOffset.inverse (by decide : 0 < 8) le_rfl (fun _ _ => rfl)
    (fun _ _ hin => bigintRead_eq signed littleEndian hin)
    (fun value _ _ _ => ⟨_, rfl, fun _ hin => bytesWriteUnsigned_eq hin littleEndian (Twos.bits 64 value)⟩)
    (fun _ hv => absurd trivial hv) fun _ _ => rfl

/-! ### All of them -/

/-- NaN lies in the range of no type, and yet a byte is written for it. -/
theorem bytesWriteNum_nan : F64.le .zero .nan = false ∧ F64.le .nan (.ofInt 255) = false ∧
    bytesWriteNum .u8 .nan .zero [7] = (.ok (.ofInt 1), [0]) :=
  ⟨rfl, rfl, by decide +kernel⟩

/-- **The accessors of integers are inverse in pairs, and refuse whatever lies outside**: those of one, two
and four bytes, those of one to six, and those of eight in buffers and in views. -/
theorem buffer_accessors_inverse :
    (∀ kind : NumKind, Inverse kind.layout (fun bytes => IsOffset bytes kind.layout.width) (AcceptsNumber kind.layout)
      (fun value => F64.truncRat value.rat) .ofInt (fun value => .ofInt (F64.truncRat value.rat)) (bytesWriteNum kind)
      fun bytes => bytesReadNum bytes kind) ∧
    (∀ (kind : NumVarKind) (byteLength : F64),
      (∀ width, IsWidth byteLength width →
        Inverse (kind.layout width) (fun bytes => IsOffset bytes width) (AcceptsNumber (kind.layout width))
          (fun value => F64.truncRat value.rat) .ofInt (fun value => .ofInt (F64.truncRat value.rat))
          (fun value offset => bytesWriteNumVar kind value offset byteLength)
          fun bytes offset => bytesReadNumVar bytes kind offset byteLength) ∧
      ((¬ ∃ width, IsWidth byteLength width) → ∀ value offset bytes, ∃ message,
        bytesWriteNumVar kind value offset byteLength bytes = (.error (.rangeError message), bytes) ∧
        bytesReadNumVar bytes kind offset byteLength = .error (.rangeError message))) ∧
    ∀ signed littleEndian : Bool,
      Inverse ⟨8, signed, littleEndian⟩ (fun bytes => IsOffset bytes 8) (Layout.mk 8 signed littleEndian).Holds id id id
        (fun value offset => bigintBufferWrite value offset signed littleEndian)
        (fun bytes offset => bigintBufferRead bytes offset signed littleEndian) ∧
      Inverse ⟨8, signed, littleEndian⟩ IsIndex (fun _ => True) id id (Layout.mk 8 signed littleEndian).wrap
        (fun value offset => bigintDataViewSet offset value littleEndian)
        fun bytes offset => bigintDataViewGet bytes offset signed littleEndian := by
  refine ⟨inverse_num, fun kind byteLength => ⟨fun width hwidth => inverse_numVar kind hwidth, fun h value offset bytes => ?_⟩,
    fun signed littleEndian => ⟨inverse_bigintBuffer signed littleEndian, inverse_bigintDataView signed littleEndian⟩⟩
  obtain ⟨message, hm⟩ := bytesNumVarWidth_error h
  exact ⟨message, by rw [bytesWriteNumVar, hm], by rw [bytesReadNumVar, hm]; rfl⟩

end Scriptc.RuntimeRust.ByteNumbers
