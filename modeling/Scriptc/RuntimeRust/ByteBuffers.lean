import Scriptc.Lib.Bytes
import Scriptc.Lib.Loop
import Scriptc.Num.SafeInteger

/-!
# Byte objects and `Buffer.concat`

The byte objects of `bytes.rs` and `bytes_encoding.rs`: a window over storage of their own, or over
storage of any element type. Storage is shared and lives in a heap; an object names it by its place.
Bytes of an element are in the host's order, taken as little-endian.
-/

namespace Scriptc.RuntimeRust.ByteBuffers

open List Option

/-! ### Storage -/

/-- `Rc<RefCell<Vec<T>>>` for each element type; a float is its bits. -/
inductive Storage where
  | u8 (elements : List UInt8)
  | u32 (elements : List UInt32)
  | i32 (elements : List Int32)
  | f32 (elements : List UInt32)
  | f64 (elements : List UInt64)
  deriving DecidableEq

/-- `to_ne_bytes` of an element of some width. -/
def toNeBytes (width n : ℕ) : Bytes := (List.range width).map fun byte => UInt8.ofNat (n / 256 ^ byte)

namespace Storage

def byteLen : Storage → ℕ
  | u8 elements => elements.length
  | u32 elements => elements.length * 4
  | i32 elements => elements.length * 4
  | f32 elements => elements.length * 4
  | f64 elements => elements.length * 8

/-- A byte of the storage; there is none past its end. -/
def get (storage : Storage) (index : ℕ) : Option UInt8 :=
  match storage with
  | u8 elements => elements[index]?
  | u32 elements => elements[index / 4]?.bind fun element => (toNeBytes 4 element.toNat)[index % 4]?
  | i32 elements => elements[index / 4]?.bind fun element => (toNeBytes 4 element.toUInt32.toNat)[index % 4]?
  | f32 elements => elements[index / 4]?.bind fun element => (toNeBytes 4 element.toNat)[index % 4]?
  | f64 elements => elements[index / 8]?.bind fun element => (toNeBytes 8 element.toNat)[index % 8]?

theorem get_element {α : Type} {elements : List α} {width index : ℕ} (toNat : α → ℕ) (hw : 0 < width)
    (h : index < elements.length * width) :
    (elements[index / width]?.bind fun element => (toNeBytes width (toNat element))[index % width]?).isSome := by
  have hindex : index / width < elements.length := Nat.div_lt_of_lt_mul (by rwa [Nat.mul_comm])
  have hbyte : index % width < (toNeBytes width (toNat elements[index / width])).length := by
    rw [toNeBytes, length_map, length_range]
    exact Nat.mod_lt index hw
  rw [List.getElem?_eq_getElem hindex, bind_some, List.getElem?_eq_getElem hbyte]
  rfl

theorem get_isSome {storage : Storage} {index : ℕ} (h : index < storage.byteLen) : (storage.get index).isSome := by
  cases storage with
  | u8 elements => rw [get, List.getElem?_eq_getElem h]; rfl
  | u32 elements => exact get_element UInt32.toNat (by norm_num) h
  | i32 elements => exact get_element (fun element => element.toUInt32.toNat) (by norm_num) h
  | f32 elements => exact get_element UInt32.toNat (by norm_num) h
  | f64 elements => exact get_element UInt64.toNat (by norm_num) h

end Storage

abbrev Heap := List Storage

/-! ### Byte objects -/

/-- `BytesData<u8>`; the other typed arrays differ in the storage that they name. -/
structure BytesData where
  storage : ℕ
  backing : Option ℕ
  offset : ℕ
  length : ℕ
  deriving DecidableEq

inductive Failure where
  /-- The message, with the number in its place. -/
  | rangeError (before : String) (received : F64) (after : String)
  | panic
  deriving DecidableEq

/-- The elements of storage of bytes. -/
def Heap.bytes (h : Heap) (place : ℕ) : Option Bytes :=
  match h[place]? with
  | some (.u8 elements) => some elements
  | _ => none

/-- The bounds of a range are checked before it is read. -/
def slice (elements : Bytes) (start stop : ℕ) : Option Bytes :=
  if start ≤ stop ∧ stop ≤ elements.length then some ((elements.take stop).drop start) else none

/-- The element getter. A byte that goes through a number stands for itself. -/
def bytesGetUsize (h : Heap) (data : BytesData) (index : ℕ) : Option UInt8 :=
  if index < data.length then
    match data.backing with
    | some backing => h[backing]?.bind fun storage => storage.get (data.offset + index)
    | none => (h.bytes data.storage).bind fun elements => elements[data.offset + index]?
  else none

def bytesValues (h : Heap) (data : BytesData) : Option Bytes :=
  match data.backing with
  | some backing => h[backing]?.bind fun storage => (List.range' data.offset data.length).mapM storage.get
  | none => (h.bytes data.storage).bind fun elements => slice elements data.offset (data.offset + data.length)

/-- Storage of its own for some bytes. -/
def bytesFromVec (h : Heap) (values : Bytes) : Heap × BytesData := (h ++ [.u8 values], ⟨h.length, none, 0, values.length⟩)

/-- `bytes_slice` as a view, from one index to another. -/
def bytesView (data : BytesData) (start stop : ℕ) : BytesData :=
  { data with offset := data.offset + start, length := stop - start }

def dataViewIndex (value : F64) : Option ℕ :=
  if value.isNaN then some 0
  else
    let integer := F64.truncRat value.rat
    if value.isFinite ∧ 0 ≤ integer ∧ integer ≤ 2 ^ 64 then some (min integer.toNat (2 ^ 64 - 1)) else none

/-! ### `Buffer.concat` -/

/-- The largest safe integer. -/
def maxSafe : ℕ := 9007199254740991

def bytesValidateOffset (name : String) (value : F64) : Except Failure Unit :=
  if value.isInteger ∧ 0 ≤ value.rat ∧ value.rat ≤ maxSafe then pure ()
  else
    let requirement := if value.isInteger then ">= 0 && <= 9007199254740991" else "an integer"
    throw (.rangeError ("The value of \"" ++ name ++ "\" is out of range. It must be " ++ requirement ++ ". Received ") value "")

/-- Without a total, the storage is read directly. -/
def bufferConcat (h : Heap) (values : List BytesData) : Except Failure (Heap × BytesData) := do
  let parts := values.mapM fun data => (h.bytes data.storage).bind fun elements => slice elements data.offset (data.offset + data.length)
  match parts with
  | some parts => return bytesFromVec h parts.flatten
  | none => throw .panic

/-- The loop over the inputs: each is copied to where the last one ended, until the output is full. -/
def copyParts (h : Heap) : List BytesData → Bytes → ℕ → Option Bytes
  | [], output, _ => some output
  | data :: values, output, offset =>
    if offset = output.length then some output
    else do
      let part ← bytesValues h data
      let count := min part.length (output.length - offset)
      copyParts h values (output.take offset ++ part.take count ++ output.drop (offset + count)) (offset + count)

def bufferConcatLen (h : Heap) (values : List BytesData) (total : F64) : Except Failure (Heap × BytesData) := do
  if values = [] then return bytesFromVec h []
  bytesValidateOffset "length" total
  match copyParts h values (replicate (F64.truncRat total.rat).toNat 0) 0 with
  | some output => return bytesFromVec h output
  | none => throw .panic

/-! ### Objects that fit the heap -/

/-- The window of an object lies in the storage that it shows. -/
structure Fits (h : Heap) (data : BytesData) : Prop where
  own : ∃ elements, h.bytes data.storage = some elements ∧ (data.backing = none → data.offset + data.length ≤ elements.length)
  backed : ∀ place, data.backing = some place → ∃ storage, h[place]? = some storage ∧ data.offset + data.length ≤ storage.byteLen

section

variable {h : Heap} {data : BytesData}

theorem bytes_append {place : ℕ} {elements : Bytes} (hb : h.bytes place = some elements) (more : Heap) :
    Heap.bytes (h ++ more) place = some elements := by
  rw [Heap.bytes] at hb ⊢
  cases hp : h[place]? with
  | none => rw [hp] at hb; cases hb
  | some storage =>
    rw [getElem?_append_left (List.getElem?_eq_some_iff.mp hp).1, hp]
    rwa [hp] at hb

theorem bytes_last (elements : Bytes) : Heap.bytes (h ++ [.u8 elements]) h.length = some elements := by
  rw [Heap.bytes, List.getElem?_concat_length]

/-- More storage changes no object. -/
theorem Fits.append (hf : Fits h data) (more : Heap) : Fits (h ++ more) data := by
  obtain ⟨elements, hb, hlen⟩ := hf.own
  refine ⟨⟨elements, bytes_append hb more, hlen⟩, fun place hplace => ?_⟩
  obtain ⟨storage, hs, hlen⟩ := hf.backed place hplace
  exact ⟨storage, by rw [getElem?_append_left (List.getElem?_eq_some_iff.mp hs).1, hs], hlen⟩

theorem fits_bytesFromVec (h : Heap) (values : Bytes) : Fits (bytesFromVec h values).1 (bytesFromVec h values).2 :=
  ⟨⟨values, bytes_last values, fun _ => Nat.le_of_eq (Nat.zero_add _)⟩, nofun⟩

theorem Fits.bytesView (hf : Fits h data) {start stop : ℕ} (hle : start ≤ stop) (hstop : stop ≤ data.length) :
    Fits h (bytesView data start stop) := by
  obtain ⟨elements, hb, hlen⟩ := hf.own
  refine ⟨⟨elements, hb, fun hnone => ?_⟩, fun place hplace => ?_⟩
  · have := hlen hnone
    show data.offset + start + (stop - start) ≤ elements.length
    omega
  · obtain ⟨storage, hs, hlen⟩ := hf.backed place hplace
    refine ⟨storage, hs, ?_⟩
    show data.offset + start + (stop - start) ≤ storage.byteLen
    omega

/-- An object shows as many bytes as it is long, and they are those of the getter. -/
theorem Fits.values (hf : Fits h data) : ∃ bytes, bytesValues h data = some bytes ∧ bytes.length = data.length ∧
    ∀ i < data.length, bytesGetUsize h data i = bytes[i]? := by
  cases hb : data.backing with
  | none =>
    obtain ⟨elements, helements, hlen⟩ := hf.own
    have hlen := hlen hb
    refine ⟨(elements.take (data.offset + data.length)).drop data.offset, ?_, ?_, fun i hi => ?_⟩
    · simp only [bytesValues, hb, helements, bind_some, slice, if_pos (show _ ∧ _ from ⟨Nat.le_add_right .., hlen⟩)]
    · rw [length_drop, length_take]
      omega
    · simp only [bytesGetUsize, if_pos hi, hb, helements, bind_some]
      rw [getElem?_drop, List.getElem?_take_of_lt (by omega)]
  | some place =>
    obtain ⟨storage, hs, hlen⟩ := hf.backed place hb
    obtain ⟨bytes, hbytes⟩ := Option.exists_mapM (l := List.range' data.offset data.length) fun i hi => by
      rw [mem_range'_1] at hi
      exact Storage.get_isSome (show i < storage.byteLen by omega)
    have hall := Option.mapM_eq_some.mp hbytes
    have hlength : bytes.length = data.length := by rw [← hall.length_eq, length_range']
    refine ⟨bytes, by simp only [bytesValues, hb, hs, bind_some, hbytes], hlength, fun i hi => ?_⟩
    have hget := hall.get (by rwa [length_range']) (by rwa [hlength] : i < bytes.length)
    simp only [bytesGetUsize, if_pos hi, hb, hs, bind_some]
    rw [List.getElem?_eq_getElem (by rwa [hlength])]
    simpa using hget

end

/-! ### What is copied -/

/-- What an object shows through the element getter. -/
def visible (h : Heap) (data : BytesData) : Option Bytes := (List.range data.length).mapM (bytesGetUsize h data)

/-- Cut to a length, or filled up with zeros. -/
def resized (bytes : Bytes) (total : ℕ) : Bytes := bytes.take total ++ replicate (total - bytes.length) 0

variable {h : Heap} {values : List BytesData} {data : BytesData}

theorem bytesValues_eq_visible (hf : Fits h data) : bytesValues h data = visible h data := by
  obtain ⟨bytes, hbytes, hlen, hget⟩ := hf.values
  have hall : List.Forall₂ (fun i b => bytesGetUsize h data i = some b) (List.range data.length) bytes := by
    rw [forall₂_iff_get]
    refine ⟨by rw [length_range, hlen], fun i hi hi' => ?_⟩
    have := hget i (by rwa [length_range] at hi)
    rw [List.getElem?_eq_getElem hi'] at this
    simpa using this
  rw [hbytes, visible, Option.mapM_eq_some.mpr hall]

theorem exists_visible (hf : ∀ data ∈ values, Fits h data) : ∃ parts, values.mapM (visible h) = some parts := by
  refine Option.exists_mapM fun data hdata => ?_
  obtain ⟨bytes, hbytes, -⟩ := (hf data hdata).values
  rw [← bytesValues_eq_visible (hf data hdata), hbytes]
  rfl

/-- The loop copies the parts behind what it has copied, into what is left of the output. -/
theorem copyParts_eq (hf : ∀ data ∈ values, Fits h data) {parts : List Bytes} (hparts : values.mapM (visible h) = some parts)
    (done : Bytes) (left : ℕ) :
    copyParts h values (done ++ replicate left 0) done.length = some (done ++ resized parts.flatten left) := by
  induction values generalizing parts done left with
  | nil =>
    cases hparts
    simp [copyParts, resized]
  | cons data values ih =>
    obtain ⟨hdata, hvalues⟩ := forall_mem_cons.mp hf
    have hall := Option.mapM_eq_some.mp hparts
    cases hall with
    | @cons _ part _ parts hpart hrest =>
      have hrest := Option.mapM_eq_some.mpr hrest
      rw [copyParts]
      by_cases hfull : done.length = (done ++ replicate left 0).length
      · have hleft : left = 0 := by simpa using hfull
        subst hleft
        rw [if_pos hfull]
        simp [resized]
      · have hcount : (done ++ replicate left 0).length - done.length = left := by simp
        have hstep : (done ++ replicate left 0).take done.length ++ part.take (min part.length left) ++
            (done ++ replicate left 0).drop (done.length + min part.length left) =
              (done ++ part.take left) ++ replicate (left - min part.length left) 0 := by
          rw [take_left, ← drop_drop, drop_left, drop_replicate]
          congr 2
          rw [min_comm, ← take_take, take_length]
        have hoffset : done.length + min part.length left = (done ++ part.take left).length := by
          rw [length_append, length_take, min_comm]
        rw [if_neg hfull, bytesValues_eq_visible hdata, hpart]
        simp only [bind_eq_bind, bind_some, hcount]
        rw [hstep, hoffset, ih hvalues hrest, append_assoc]
        congr 2
        rw [resized, resized, flatten_cons, take_append, length_append]
        rw [append_assoc]
        congr 2
        · congr 1
          omega
        · congr 1
          omega

/-- Where objects show storage of their own, reading it directly is what the getter gives. -/
theorem bytesValues_direct (hd : data.backing = none) :
    bytesValues h data = (h.bytes data.storage).bind fun elements => slice elements data.offset (data.offset + data.length) := by
  simp only [bytesValues, hd]

/-- A number that is a total. -/
def IsTotal (total : F64) : Prop := total.isInteger ∧ 0 ≤ total.rat ∧ total.rat ≤ maxSafe

instance (total : F64) : Decidable (IsTotal total) := inferInstanceAs (Decidable (_ ∧ _))

/-- Every natural number up to the largest safe one is a total. -/
theorem total_ofInt {n : ℕ} (hn : n ≤ maxSafe) : IsTotal (.ofInt n) ∧ (F64.truncRat (F64.ofInt n).rat).toNat = n := by
  have hbound : |(n : ℤ)| ≤ 2 ^ 53 := by
    rw [Nat.abs_cast]
    have : (n : ℤ) ≤ (maxSafe : ℕ) := Int.ofNat_le.mpr hn
    norm_num [maxSafe] at this ⊢
    omega
  obtain ⟨x, hx, hval⟩ := F64.ofInt_eq_fin hbound
  rw [hx, IsTotal, F64.rat, hval, F64.truncRat, F64.isInteger, hval]
  have hn' : (n : ℚ) ≤ (maxSafe : ℕ) := Nat.cast_le.mpr hn
  simp [hn']

theorem visible_bytesFromVec (h : Heap) (bytes : Bytes) :
    visible (bytesFromVec h bytes).1 (bytesFromVec h bytes).2 = some bytes := by
  rw [← bytesValues_eq_visible (fits_bytesFromVec h bytes)]
  simp only [bytesFromVec, bytesValues, bytes_last, bind_some, slice, Nat.zero_add, Nat.zero_le, le_refl, and_self, if_true]
  rw [take_length, drop_zero]

/-- Objects show the same when there is more storage. -/
theorem visible_append (hf : Fits h data) (more : Heap) : visible (h ++ more) data = visible h data := by
  rw [← bytesValues_eq_visible hf, ← bytesValues_eq_visible (hf.append more)]
  cases hb : data.backing with
  | none =>
    obtain ⟨elements, helements, -⟩ := hf.own
    simp only [bytesValues, hb, helements, bytes_append helements more]
  | some place =>
    obtain ⟨storage, hs, -⟩ := hf.backed place hb
    simp only [bytesValues, hb, hs, getElem?_append_left (List.getElem?_eq_some_iff.mp hs).1]

/-- What `Buffer.concat` gives: storage of its own behind all that there was, with the bytes that the
inputs show through the getter, cut or filled up to a total. No inputs give no bytes, whatever the total,
and a number that is no total is thrown back. The new object shows these bytes, and every other one what
it did. -/
theorem bufferConcat_copies (hf : ∀ data ∈ values, Fits h data) :
    (∀ bytes, visible (bytesFromVec h bytes).1 (bytesFromVec h bytes).2 = some bytes ∧
      ∀ data, Fits h data → visible (bytesFromVec h bytes).1 data = visible h data) ∧
    ∃ parts, values.mapM (visible h) = some parts ∧
      ((∀ data ∈ values, data.backing = none) → bufferConcat h values = .ok (bytesFromVec h parts.flatten)) ∧
      ∀ total,
        (values = [] → bufferConcatLen h values total = .ok (bytesFromVec h [])) ∧
        (values ≠ [] → IsTotal total →
          bufferConcatLen h values total = .ok (bytesFromVec h (resized parts.flatten (F64.truncRat total.rat).toNat))) ∧
        (values ≠ [] → ¬IsTotal total → ∃ before after, bufferConcatLen h values total = .error (.rangeError before total after)) := by
  refine ⟨fun bytes => ⟨visible_bytesFromVec h bytes, fun data hdata => visible_append hdata _⟩, ?_⟩
  obtain ⟨parts, hparts⟩ := exists_visible hf
  refine ⟨parts, hparts, fun hdirect => ?_, fun total => ⟨fun hnil => ?_, fun hne htotal => ?_, fun hne htotal => ?_⟩⟩
  · have hread : (values.mapM fun data => (h.bytes data.storage).bind fun elements =>
        slice elements data.offset (data.offset + data.length)) = some parts := by
      rw [← hparts]
      refine Option.mapM_congr fun data hdata => ?_
      rw [← bytesValues_direct (hdirect data hdata), bytesValues_eq_visible (hf data hdata)]
    simp only [bufferConcat, hread]
    rfl
  · rw [bufferConcatLen, if_pos hnil]
    rfl
  · have hvalid : bytesValidateOffset "length" total = .ok () := if_pos htotal
    have hcopy := copyParts_eq hf hparts [] (F64.truncRat total.rat).toNat
    rw [nil_append, nil_append, length_nil] at hcopy
    rw [bufferConcatLen, if_neg hne, hvalid, hcopy]
    rfl
  · have hthrown : bytesValidateOffset "length" total = .error (.rangeError
        ("The value of \"" ++ "length" ++ "\" is out of range. It must be " ++
          (if total.isInteger then ">= 0 && <= 9007199254740991" else "an integer") ++ ". Received ") total "") := if_neg htotal
    rw [bufferConcatLen, if_neg hne, hthrown]
    exact ⟨_, _, rfl⟩

/-- Three bytes shown twice: as a whole, and without the first. -/
def threeBytes : Heap × BytesData := bytesFromVec [] [1, 2, 3]

def threeTwice : List BytesData := [threeBytes.2, bytesView threeBytes.2 1 3]

theorem bufferConcat_copies_three :
    bufferConcat threeBytes.1 threeTwice = .ok (bytesFromVec threeBytes.1 [1, 2, 3, 2, 3]) ∧
      bufferConcatLen threeBytes.1 threeTwice (.ofInt (4 : ℕ)) = .ok (bytesFromVec threeBytes.1 [1, 2, 3, 2]) := by
  have hwhole : Fits threeBytes.1 threeBytes.2 := fits_bytesFromVec [] [1, 2, 3]
  have hview : Fits threeBytes.1 (bytesView threeBytes.2 1 3) := hwhole.bytesView (by decide) (by decide)
  have hfits : ∀ data ∈ threeTwice, Fits threeBytes.1 data := forall_mem_cons.mpr ⟨hwhole, forall_mem_singleton.mpr hview⟩
  obtain ⟨-, parts, hparts, hconcat, hlen⟩ := bufferConcat_copies hfits
  obtain rfl : parts = [[1, 2, 3], [2, 3]] := some.inj (hparts.symm.trans (by decide))
  obtain ⟨htotal, hrat⟩ := total_ofInt (n := 4) (by decide)
  have hfour := (hlen (.ofInt (4 : ℕ))).2.1 (by decide) htotal
  rw [hrat] at hfour
  exact ⟨hconcat (by decide), hfour⟩

/-- With a total of four and no inputs there are no bytes. -/
theorem not_bufferConcatLen_filled : ¬∀ (h : Heap) (values : List BytesData) (total : F64) (parts : List Bytes),
    (∀ data ∈ values, Fits h data) → values.mapM (visible h) = some parts → IsTotal total →
      ∃ r, bufferConcatLen h values total = .ok r ∧ visible r.1 r.2 = some (resized parts.flatten (F64.truncRat total.rat).toNat) := by
  intro hall
  obtain ⟨htotal, hrat⟩ := total_ofInt (n := 4) (by decide)
  obtain ⟨r, hr, hv⟩ := hall [] [] (.ofInt (4 : ℕ)) [] (by simp) rfl htotal
  rw [hrat] at hv
  obtain rfl : bytesFromVec [] [] = r := Except.ok.inj hr
  cases hv

end Scriptc.RuntimeRust.ByteBuffers
