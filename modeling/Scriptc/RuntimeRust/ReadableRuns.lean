import Scriptc.RuntimeRust.Readable
import Scriptc.RuntimeRust.StringDecoder

/-!
# Readable streams: what is buffered

The buffer of a byte or string stream holds what should still be delivered, and its length is the
sum of the chunks'. In object mode this fails: some of the functions count an object as one, and
others by its bytes. So it does where views over an ArrayBuffer are joined.
-/

namespace Scriptc.RuntimeRust.Readable

open Decoder List Function

/-- What `buffer_concat` is given can be joined. -/
def Joinable (pieces : List JsBytes) : Prop := pieces.length = 1 ∨ ∀ piece ∈ pieces, piece.stored = true

/-- What the steps must not do: in object mode, what counts bytes; outside, pushing objects and joining
views over an ArrayBuffer; and decoding after the end what does not end there. -/
def Fair (data : ReadableData) : Event → Prop
  | .push _ | .pushNull => True
  | .takeNext => data.objectMode = false → Joinable (takeBytes data.chunks).1
  | .pushObjectString _ => data.objectMode = true
  | .unshift chunk => data.objectMode = true → chunk.value.length = 1
  | .setEncoding encoding =>
    data.objectMode = false ∧ (data.eof = true → stringDecoderUnpack (decodeChunks encoding 0 data.chunks).2 = [])
  | .pop => data.objectMode = true → ∀ chunk ∈ data.chunks.head?, chunk.length = 1
  | .read headChunk size =>
    if data.objectMode then readWanted data headChunk size = some 1 ∧ ∀ chunk ∈ data.chunks.head?, chunk.length = 1
    else ∀ wanted ∈ readWanted data headChunk size, ∀ r ∈ readBytes wanted data.chunks, Joinable r.1

/-! ### Chunks -/

/-- The bytes of some chunks. -/
def contents (bs : List JsBytes) : Bytes := bs.flatMap JsBytes.value

@[simp] theorem contents_nil : contents [] = [] := rfl

@[simp] theorem contents_cons (b : JsBytes) (bs : List JsBytes) : contents (b :: bs) = b.value ++ contents bs :=
  flatMap_cons

@[simp] theorem contents_concat (bs : List JsBytes) (b : JsBytes) : contents (bs ++ [b]) = contents bs ++ b.value := by
  rw [contents, flatMap_append, flatMap_singleton]
  rfl

theorem takeBytes_map (bs : List JsBytes) : takeBytes (bs.map .bytes) = (bs, []) := by
  induction bs with
  | nil => rfl
  | cons b bs ih => rw [map_cons, takeBytes, ih]

theorem joinPieces_eq {pieces : List JsBytes} (h : Joinable pieces) :
    ∃ joined, joinPieces pieces = some joined ∧ joined.value = contents pieces := by
  unfold joinPieces
  split
  · next piece => exact ⟨piece, rfl, by simp⟩
  · next hmany =>
    rcases h with hone | hall
    · obtain ⟨piece, rfl⟩ := length_eq_one_iff.mp hone
      exact absurd rfl (hmany piece)
    · exact ⟨_, if_pos (all_eq_true.mpr hall), rfl⟩

theorem takeStrings_map (ts : List Units) : takeStrings (ts.map .string) = (ts.flatten, []) := by
  induction ts with
  | nil => rfl
  | cons t ts ih => rw [map_cons, takeStrings, ih, flatten_cons]

theorem decodeChunks_strings (enc : Encoding) (pending : ℕ) (ts : List Units) :
    decodeChunks enc pending (ts.map .string) = (ts.flatten, pending) := by
  induction ts with
  | nil => rfl
  | cons t ts ih => rw [map_cons, decodeChunks, ih, flatten_cons]

variable {enc : Encoding}

theorem decodeChunks_bytes {pending : ℕ} (h : Reachable enc ⟨enc, pending⟩) (bs : List JsBytes) :
    Reachable enc ⟨enc, (decodeChunks enc pending (bs.map .bytes)).2⟩ ∧
      ∀ more, decodeBytes (stringDecoderUnpack pending ++ (contents bs ++ more)) enc =
        (decodeChunks enc pending (bs.map .bytes)).1 ++
          decodeBytes (stringDecoderUnpack (decodeChunks enc pending (bs.map .bytes)).2 ++ more) enc := by
  induction bs generalizing pending with
  | nil => exact ⟨h, fun more => rfl⟩
  | cons b bs ih =>
    have hwrite := h.write b.value
    have hout := (cuts_step h b.value).out
    obtain ⟨hreach, hrest⟩ := ih hwrite
    refine ⟨hreach, fun more => ?_⟩
    rw [map_cons, decodeChunks, contents_cons, append_assoc]
    dsimp only
    rw [append_assoc, ← hrest]
    exact hout _

theorem readBytes_map {n : ℕ} {bs : List JsBytes} {r : List JsBytes × List ReadableChunk}
    (h : readBytes n (bs.map .bytes) = some r) :
    contents r.1 = (contents bs).take n ∧ ∃ rest : List JsBytes, r.2 = rest.map .bytes ∧ contents rest = (contents bs).drop n := by
  induction bs generalizing n r with
  | nil =>
    simp only [map_nil, readBytes] at h
    split at h
    · cases h
      exact ⟨take_nil.symm, [], rfl, drop_nil.symm⟩
    · cases h
  | cons b bs ih =>
    simp only [map_cons, readBytes] at h
    split at h
    · next hn =>
      cases h
      exact ⟨by rw [hn, take_zero]; rfl, b :: bs, rfl, by rw [hn, drop_zero]⟩
    · split at h
      · next hle =>
        obtain ⟨r', hr, rfl⟩ := Option.map_eq_some_iff.mp h
        obtain ⟨hout, rest, hchunks, hflat⟩ := ih hr
        refine ⟨?_, rest, hchunks, ?_⟩
        · rw [contents_cons, contents_cons, take_append, take_of_length_le hle, hout]
        · rw [contents_cons, drop_append, drop_of_length_le hle, hflat]
          rfl
      · next hgt =>
        cases h
        refine ⟨?_, ⟨b.value.drop n, true⟩ :: bs, rfl, ?_⟩
        · rw [contents_cons, contents_nil, contents_cons, append_nil, take_append_of_le_length (by omega)]
        · rw [contents_cons, contents_cons, drop_append_of_le_length (by omega)]

variable {data : ReadableData}

theorem pushText_strings {ts : List Units} (hb : data.chunks = ts.map .string) (text : Units) :
    ∃ next : List Units, (data.pushText text).chunks = next.map .string ∧ next.flatten = ts.flatten ++ text ∧
      (data.pushText text).bufferedLength = data.bufferedLength + text.length := by
  unfold ReadableData.pushText
  split
  · exact ⟨ts ++ [text], by rw [hb, map_append]; rfl, flatten_concat .., rfl⟩
  · next hempty =>
    have hnil : text = [] := length_eq_zero_iff.mp (by omega)
    exact ⟨ts, hb, by rw [hnil, append_nil], by rw [hnil]; rfl⟩

@[simp] theorem pushText_objectMode (data : ReadableData) (text : Units) :
    (data.pushText text).objectMode = data.objectMode := by
  unfold ReadableData.pushText
  split <;> rfl

@[simp] theorem pushText_encoding (data : ReadableData) (text : Units) :
    (data.pushText text).encoding = data.encoding := by
  unfold ReadableData.pushText
  split <;> rfl

@[simp] theorem pushText_decoderPending (data : ReadableData) (text : Units) :
    (data.pushText text).decoderPending = data.decoderPending := by
  unfold ReadableData.pushText
  split <;> rfl

@[simp] theorem pushText_eof (data : ReadableData) (text : Units) : (data.pushText text).eof = data.eof := by
  unfold ReadableData.pushText
  split <;> rfl

/-! ### The invariant -/

/-- The bytes that still come. -/
def State.coming (s : State) (more : Bytes) : Bytes := if s.data.eof then [] else more

/-- What the buffer of each kind of stream holds, and what should be delivered. -/
inductive Inv (s : State) : Prop where
  | objects (ho : s.data.objectMode = true) (he : s.data.encoding = none)
    (hl : s.data.bufferedLength = s.data.chunks.length)
    (hc : ∀ more, s.content more = s.delivered ++ s.data.chunks.map .object)
  | bytes (bs : List JsBytes) (ho : s.data.objectMode = false) (he : s.data.encoding = none)
    (hb : s.data.chunks = bs.map .bytes) (hl : s.data.bufferedLength = (contents bs).length)
    (hc : ∀ more, s.content more = s.delivered ++ (contents bs ++ s.coming more).map .byte)
  | strings (enc : Encoding) (ts : List Units) (ho : s.data.objectMode = false) (he : s.data.encoding = some enc)
    (hb : s.data.chunks = ts.map .string) (hl : s.data.bufferedLength = ts.flatten.length)
    (hr : Reachable enc ⟨enc, s.data.decoderPending⟩)
    (hend : s.data.eof = true → stringDecoderUnpack s.data.decoderPending = [])
    (hc : ∀ more, s.content more = s.delivered ++
      (ts.flatten ++ decodeBytes (stringDecoderUnpack s.data.decoderPending ++ s.coming more) enc).map .unit)

/-- A text comes to the end of the buffer of a string stream. -/
theorem Inv.pushText {delivered : List Item} {content : Bytes → List Item}
    {ts : List Units} (text : Units) (ho : data.objectMode = false) (he : data.encoding = some enc)
    (hb : data.chunks = ts.map .string) (hl : data.bufferedLength = ts.flatten.length)
    (hr : Reachable enc ⟨enc, data.decoderPending⟩)
    (hend : data.eof = true → stringDecoderUnpack data.decoderPending = [])
    (hc : ∀ more, content more = delivered ++ (ts.flatten ++ text ++
      decodeBytes (stringDecoderUnpack data.decoderPending ++ if data.eof then [] else more) enc).map .unit) :
    Inv ⟨data.pushText text, delivered, content⟩ := by
  obtain ⟨next, hchunks, hflat, hlength⟩ := pushText_strings hb text
  refine .strings enc next ?_ ?_ hchunks ?_ ?_ ?_ fun more => ?_
  · rw [pushText_objectMode, ho]
  · rw [pushText_encoding, he]
  · rw [hflat, length_append, ← hl]
    exact hlength
  · rw [pushText_decoderPending]
    exact hr
  · rw [pushText_eof, pushText_decoderPending]
    exact hend
  · simp only [State.coming, pushText_eof, pushText_decoderPending, hflat]
    exact hc more

theorem inv_new (objectMode : Bool) (highWaterMark : ℕ) : Inv (.new objectMode highWaterMark) := by
  cases objectMode with
  | true => exact .objects rfl rfl rfl fun _ => rfl
  | false => exact .bytes [] rfl rfl rfl rfl fun _ => rfl

variable {s : State}

theorem Inv.push (h : Inv s) (chunk : JsBytes) :
    Inv { s with data := (readablePush s.data chunk).1, content := s.pushed chunk } := by
  cases heof : s.data.eof with
  | true =>
    have hdata : (readablePush s.data chunk).1 = s.data := by rw [readablePush, if_pos heof]
    have hcontent : s.pushed chunk = s.content := by rw [State.pushed, if_pos heof]
    rw [hdata, hcontent]
    exact h
  | false =>
    cases h with
    | objects ho he hl hc =>
      refine .objects ?_ ?_ ?_ fun more => ?_
      · simp only [readablePush, heof, he, ho, Bool.false_eq_true, if_false]
      · simp only [readablePush, heof, he, Bool.false_eq_true, if_false]
      · simp only [readablePush, heof, he, ho, Bool.false_eq_true, if_false, if_true, length_append, hl]
        rfl
      · simp only [State.pushed, readablePush, heof, he, ho, Bool.false_eq_true, if_false, if_true, map_append, hc]
        rw [append_assoc]
        rfl
    | bytes bs ho he hb hl hc =>
      refine .bytes (bs ++ [chunk]) ?_ ?_ ?_ ?_ fun more => ?_
      · simp only [readablePush, heof, he, ho, Bool.false_eq_true, if_false]
      · simp only [readablePush, heof, he, Bool.false_eq_true, if_false]
      · simp only [readablePush, heof, he, Bool.false_eq_true, if_false, hb, map_append]
        rfl
      · simp only [readablePush, heof, he, ho, Bool.false_eq_true, if_false, hl, contents_concat, length_append]
      · simp only [State.pushed, State.coming, readablePush, heof, he, ho, Bool.false_eq_true, if_false, hc,
          contents_concat, append_assoc]
    | strings enc ts ho he hb hl hr hend hc =>
      have hout := (cuts_step hr chunk.value).out
      have hdata : (readablePush s.data chunk).1 = ReadableData.pushText
          { s.data with decoderPending := (stringDecoderStep enc s.data.decoderPending chunk.value).2 }
          (stringDecoderStep enc s.data.decoderPending chunk.value).1 := by
        simp only [readablePush, heof, he, Bool.false_eq_true, if_false]
      have hcontent (more : Bytes) : s.pushed chunk more = s.content (chunk.value ++ more) := by
        simp only [State.pushed, heof, ho, Bool.false_eq_true, if_false]
      rw [hdata]
      apply Inv.pushText
      · exact ho
      · exact he
      · exact hb
      · exact hl
      · exact hr.write chunk.value
      · intro hn
        exact absurd (heof.symm.trans hn) (by decide)
      · intro more
        simp only [hcontent, hc, State.coming, heof, Bool.false_eq_true, if_false, append_assoc]
        rw [← hout more]
        rfl

theorem decodeBytes_nil (enc : Encoding) : decodeBytes [] enc = [] := by
  cases enc with
  | utf8 =>
    rw [decodeBytes, fromUtf8Lossy]
    rfl
  | utf16le | base64 | base64url | hex | latin1 | ascii => rfl

/-- The end of a decoder. -/
theorem stringDecoderEnd_eq {pending : ℕ} (h : Reachable enc ⟨enc, pending⟩) :
    stringDecoderEnd enc pending = decodeBytes (stringDecoderUnpack pending) enc :=
  congrArg Prod.fst (finish_eq h)

theorem Inv.pushNull (h : Inv s) :
    Inv { s with data := readablePushNull s.data, content := fun _ => s.content [] } := by
  cases h with
  | objects ho he hl hc =>
    have hdata : readablePushNull s.data = { s.data with eof := true } := by simp only [readablePushNull, he]
    rw [hdata]
    exact .objects ho he hl fun _ => hc []
  | bytes bs ho he hb hl hc =>
    have hdata : readablePushNull s.data = { s.data with eof := true } := by simp only [readablePushNull, he]
    rw [hdata]
    refine .bytes bs ho he hb hl fun more => ?_
    simp [hc, State.coming]
  | strings enc ts ho he hb hl hr hend hc =>
    have hdata : readablePushNull s.data = ReadableData.pushText { s.data with decoderPending := 0, eof := true }
        (stringDecoderEnd enc s.data.decoderPending) := by
      simp only [readablePushNull, he, ReadableData.pushText]
      split <;> rfl
    rw [hdata]
    apply Inv.pushText
    · exact ho
    · exact he
    · exact hb
    · exact hl
    · exact reachable_new enc
    · intro _
      exact unpack_zero
    · intro more
      simp [hc, State.coming, stringDecoderEnd_eq hr, unpack_zero, decodeBytes_nil]

/-- What is unshifted comes before what was not delivered. -/
theorem unshifted_eq {rest : List Item} {more : Bytes} (hc : s.content more = s.delivered ++ rest)
    (chunk : JsBytes) :
    s.unshifted chunk more = s.delivered ++ (s.data.itemsOf chunk ++ rest) := by
  rw [State.unshifted, hc, take_left, drop_left, append_assoc]

theorem Inv.unshift (h : Inv s) (chunk : JsBytes) (hf : Fair s.data (.unshift chunk)) :
    Inv { s with data := readableUnshift s.data chunk, content := s.unshifted chunk } := by
  cases h with
  | objects ho he hl hc =>
    have hdata : readableUnshift s.data chunk = { s.data with
        bufferedLength := s.data.bufferedLength + chunk.value.length
        chunks := .bytes chunk :: s.data.chunks } := by simp only [readableUnshift, he]
    rw [hdata]
    refine .objects ho he ?_ fun more => ?_
    · rw [hl, hf ho]
      rfl
    · refine (unshifted_eq (hc more) chunk).trans ?_
      rw [ReadableData.itemsOf, he, items, if_pos ho]
      rfl
  | bytes bs ho he hb hl hc =>
    have hdata : readableUnshift s.data chunk = { s.data with
        bufferedLength := s.data.bufferedLength + chunk.value.length
        chunks := .bytes chunk :: s.data.chunks } := by simp only [readableUnshift, he]
    rw [hdata]
    refine .bytes (chunk :: bs) ho he ?_ ?_ fun more => ?_
    · rw [hb]
      rfl
    · rw [hl, contents_cons, length_append, Nat.add_comm]
    · refine (unshifted_eq (hc more) chunk).trans ?_
      rw [ReadableData.itemsOf, he, items, if_neg (by rw [ho]; decide)]
      simp [State.coming]
  | strings enc ts ho he hb hl hr hend hc =>
    have htext : (stringDecoderStep enc 0 chunk.value).1 ++ stringDecoderEnd enc (stringDecoderStep enc 0 chunk.value).2 =
        decodeBytes chunk.value enc := by
      have hout := (cuts_step (reachable_new enc) chunk.value).out []
      have hnext := (reachable_new enc).write chunk.value
      rw [held_new, nil_append, append_nil, append_nil] at hout
      have hfinish : stringDecoderEnd enc (stringDecoderStep enc 0 chunk.value).2 =
          decodeBytes (stringDecoderUnpack (stringDecoderStep enc 0 chunk.value).2) enc := stringDecoderEnd_eq hnext
      rw [hout, hfinish]
      rfl
    have hitems : s.data.itemsOf chunk = (decodeBytes chunk.value enc).map .unit := by rw [ReadableData.itemsOf, he]
    by_cases hempty : (decodeBytes chunk.value enc).length > 0
    · have hdata : readableUnshift s.data chunk = { s.data with
          bufferedLength := s.data.bufferedLength + (decodeBytes chunk.value enc).length
          chunks := .string (decodeBytes chunk.value enc) :: s.data.chunks } := by
        simp only [readableUnshift, he, htext, if_pos hempty]
      rw [hdata]
      refine .strings enc (decodeBytes chunk.value enc :: ts) ho he ?_ ?_ hr hend fun more => ?_
      · rw [hb]
        rfl
      · rw [hl, flatten_cons, length_append, Nat.add_comm]
      · refine (unshifted_eq (hc more) chunk).trans ?_
        rw [hitems]
        simp [State.coming]
    · have hnil : decodeBytes chunk.value enc = [] := length_eq_zero_iff.mp (by omega)
      have hdata : readableUnshift s.data chunk = s.data := by simp only [readableUnshift, he, htext, if_neg hempty]
      rw [hdata]
      refine .strings enc ts ho he hb hl hr hend fun more => ?_
      refine (unshifted_eq (hc more) chunk).trans ?_
      rw [hitems, hnil]
      rfl

/-- What is encoded is what was not delivered. -/
theorem encoded_eq {rest : List Item} (hc : s.content [] = s.delivered ++ rest) (enc : Encoding)
    (more : Bytes) :
    s.encoded enc more = s.delivered ++ (rest.filter Item.isUnit ++
      (decodeBytes (rest.filterMap Item.byte? ++ s.coming more) enc).map .unit) := by
  rw [State.encoded, hc, drop_left, append_assoc]
  rfl

@[simp] theorem filter_units (u : Units) : (u.map Item.unit).filter Item.isUnit = u.map .unit := by
  simp [filter_map, comp_def, Item.isUnit]

@[simp] theorem filter_bytes (b : Bytes) : (b.map Item.byte).filter Item.isUnit = [] := by
  simp [Item.isUnit]

@[simp] theorem bytes_units (u : Units) : (u.map Item.unit).filterMap Item.byte? = [] := by
  simp [Item.byte?]

@[simp] theorem bytes_bytes (b : Bytes) : (b.map Item.byte).filterMap Item.byte? = b := by
  simp [filterMap_map, comp_def, Item.byte?]

theorem Inv.setEncoding (h : Inv s) (enc : Encoding) (hf : Fair s.data (.setEncoding enc)) :
    Inv { s with data := readableSetEncoding s.data enc, content := s.encoded enc } := by
  cases h with
  | objects ho he hl hc => cases ho.symm.trans hf.1
  | bytes bs ho he hb hl hc =>
    have hdecoded := decodeChunks_bytes (reachable_new enc) bs
    have hlast := hf.2
    rw [← hb] at hdecoded
    obtain ⟨hreach, hout⟩ := hdecoded
    have hdata : readableSetEncoding s.data enc = ReadableData.pushText { s.data with
        encoding := some enc, decoderPending := (decodeChunks enc 0 s.data.chunks).2, bufferedLength := 0, chunks := [] }
          (decodeChunks enc 0 s.data.chunks).1 := by
      simp only [readableSetEncoding, he, append_nil]
    have hempty : ([] : List ReadableChunk) = ([] : List Units).map .string := rfl
    rw [hdata]
    apply Inv.pushText
    · exact ho
    · exact rfl
    · exact hempty
    · exact rfl
    · exact hreach
    · exact hlast
    · intro more
      refine (encoded_eq (hc []) enc more).trans ?_
      have hall := hout (s.coming more)
      rw [unpack_zero, nil_append] at hall
      simp only [State.coming] at hall ⊢
      simp only [filter_bytes, bytes_bytes, ite_self, append_nil, nil_append, flatten_nil, hall]
  | strings prev ts ho he hb hl hr hend hc =>
    have hdata : readableSetEncoding s.data enc = ReadableData.pushText { s.data with
        encoding := some enc, decoderPending := 0, bufferedLength := 0, chunks := [] }
          (ts.flatten ++ stringDecoderEnd prev s.data.decoderPending) := by
      simp only [readableSetEncoding, he, hb, decodeChunks_strings]
    have hempty : ([] : List ReadableChunk) = ([] : List Units).map .string := rfl
    rw [hdata]
    apply Inv.pushText
    · exact ho
    · exact rfl
    · exact hempty
    · exact rfl
    · exact reachable_new enc
    · intro _
      exact unpack_zero
    · intro more
      refine (encoded_eq (hc []) enc more).trans ?_
      simp only [State.coming, ite_self, append_nil, flatten_nil, nil_append, filter_units, bytes_units,
        unpack_zero, stringDecoderEnd_eq hr, map_append, filter_append, filterMap_append, append_assoc]

/-- Bytes that are delivered are no longer buffered. -/
theorem Inv.takeBytes {bs rest : List JsBytes} (front : JsBytes) (ho : s.data.objectMode = false)
    (he : s.data.encoding = none) (hflat : contents bs = front.value ++ contents rest)
    (hc : ∀ more, s.content more = s.delivered ++ (contents bs ++ s.coming more).map .byte) :
    Inv { s with
      data := { s.data with chunks := rest.map .bytes, bufferedLength := (contents rest).length }
      delivered := s.delivered ++ items s.data.objectMode (.bytes front) } := by
  refine .bytes rest ho he rfl rfl fun more => ?_
  refine (hc more).trans ?_
  simp [hflat, items, ho, State.coming]

theorem Inv.takeStrings {ts rest : List Units} (front : Units)
    (ho : s.data.objectMode = false) (he : s.data.encoding = some enc) (hflat : ts.flatten = front ++ rest.flatten)
    (hr : Reachable enc ⟨enc, s.data.decoderPending⟩)
    (hend : s.data.eof = true → stringDecoderUnpack s.data.decoderPending = [])
    (hc : ∀ more, s.content more = s.delivered ++
      (ts.flatten ++ decodeBytes (stringDecoderUnpack s.data.decoderPending ++ s.coming more) enc).map .unit) :
    Inv { s with
      data := { s.data with chunks := rest.map .string, bufferedLength := rest.flatten.length }
      delivered := s.delivered ++ items s.data.objectMode (.string front) } := by
  refine .strings enc rest ho he rfl rfl hr hend fun more => ?_
  refine (hc more).trans ?_
  simp [hflat, items, ho, State.coming]

theorem Inv.takeObject {chunk : ReadableChunk} {rest : List ReadableChunk} (ho : s.data.objectMode = true)
    (he : s.data.encoding = none) (hb : s.data.chunks = chunk :: rest)
    (hc : ∀ more, s.content more = s.delivered ++ s.data.chunks.map .object) :
    Inv { s with
      data := { s.data with chunks := rest, bufferedLength := rest.length }
      delivered := s.delivered ++ items s.data.objectMode chunk } := by
  refine .objects ho he rfl fun more => ?_
  refine (hc more).trans ?_
  simp [hb, items, ho]

theorem Inv.takeNext (h : Inv s) (hf : Fair s.data .takeNext) {r : Option ReadableChunk × ReadableData}
    (hr : readableTakeNext s.data = some r) :
    Inv { s with data := r.2, delivered := s.delivered ++ itemsGiven s.data.objectMode r.1 } := by
  cases h with
  | objects ho he hl hc =>
    cases hb : s.data.chunks with
    | nil =>
      rw [readableTakeNext, hb] at hr
      cases hr
    | cons chunk rest =>
      have hlength : s.data.bufferedLength - 1 = rest.length := by
        rw [hl, hb, length_cons]
        rfl
      have hnext : readableTakeNext s.data =
          some (some chunk, { s.data with chunks := rest, bufferedLength := rest.length }) := by
        simp only [readableTakeNext, hb, ho, if_true, hlength]
      cases hnext.symm.trans hr
      exact .takeObject ho he hb hc
  | bytes bs ho he hb hl hc =>
    cases bs with
    | nil =>
      rw [readableTakeNext, hb] at hr
      cases hr
    | cons b bs =>
      have hjoin := hf ho
      rw [hb, takeBytes_map] at hjoin
      obtain ⟨joined, hjoined, hvalue⟩ := joinPieces_eq hjoin
      have hnext : readableTakeNext s.data = some (some (.bytes joined), { s.data with
          chunks := ([] : List JsBytes).map .bytes, bufferedLength := (contents []).length }) := by
        simp only [readableTakeNext, hb, ho, map_cons, Bool.false_eq_true, if_false, takeBytes_map, hjoined]
        rfl
      have hflat : contents (b :: bs) = joined.value ++ contents [] := by rw [hvalue, contents_nil, append_nil]
      cases hnext.symm.trans hr
      exact .takeBytes joined ho he hflat hc
  | strings enc ts ho he hb hl hreach hend hc =>
    cases ts with
    | nil =>
      rw [readableTakeNext, hb] at hr
      cases hr
    | cons t ts =>
      have hnext : readableTakeNext s.data = some (some (.string (t ++ ts.flatten)), { s.data with
          chunks := ([] : List Units).map .string, bufferedLength := ([] : List Units).flatten.length }) := by
        simp only [readableTakeNext, hb, ho, map_cons, Bool.false_eq_true, if_false, takeStrings_map]
        rfl
      have hflat : (t :: ts).flatten = t ++ ts.flatten ++ ([] : List Units).flatten := (append_nil _).symm
      cases hnext.symm.trans hr
      exact .takeStrings (t ++ ts.flatten) ho he hflat hreach hend hc

theorem Inv.pop (h : Inv s) (hf : Fair s.data .pop) {r : ReadableChunk × ReadableData}
    (hr : readablePop s.data = some r) :
    Inv { s with data := r.2, delivered := s.delivered ++ items s.data.objectMode r.1 } := by
  unfold readablePop at hr
  cases h with
  | objects ho he hl hc =>
    cases hb : s.data.chunks with
    | nil =>
      rw [hb] at hr
      cases hr
    | cons chunk rest =>
      have hone : chunk.length = 1 := hf ho chunk (by rw [hb]; rfl)
      have hlength : s.data.bufferedLength - chunk.length = rest.length := by
        rw [hl, hb, hone, length_cons]
        rfl
      simp only [hb, hlength] at hr
      cases hr
      exact .takeObject ho he hb hc
  | bytes bs ho he hb hl hc =>
    cases bs with
    | nil =>
      simp only [hb, map_nil] at hr
      cases hr
    | cons b bs =>
      have hlength : s.data.bufferedLength - b.value.length = (contents bs).length := by
        rw [hl, contents_cons, length_append, Nat.add_sub_cancel_left]
      simp only [hb, map_cons, ReadableChunk.length, hlength] at hr
      cases hr
      exact .takeBytes b ho he (contents_cons b bs) hc
  | strings enc ts ho he hb hl hreach hend hc =>
    cases ts with
    | nil =>
      simp only [hb, map_nil] at hr
      cases hr
    | cons t ts =>
      have hlength : s.data.bufferedLength - t.length = ts.flatten.length := by
        rw [hl, flatten_cons, length_append, Nat.add_sub_cancel_left]
      simp only [hb, map_cons, ReadableChunk.length, hlength] at hr
      cases hr
      exact .takeStrings t ho he flatten_cons hreach hend hc

theorem readBytes_zero (chunks : List ReadableChunk) : readBytes 0 chunks = some ([], chunks) := by
  cases chunks with
  | nil => rfl
  | cons chunk chunks => cases chunk <;> rfl

theorem readBytes_one {chunk : ReadableChunk} {rest : List ReadableChunk} {r : List JsBytes × List ReadableChunk}
    (hone : chunk.length = 1) (hr : readBytes 1 (chunk :: rest) = some r) :
    (joinPieces r.1).map .bytes = some chunk ∧ r.2 = rest := by
  cases chunk with
  | string t => cases hr
  | bytes b =>
    have hb : b.value.length = 1 := hone
    simp only [readBytes, hb, le_refl, if_true, Nat.sub_self, readBytes_zero, Option.map_some, Nat.one_ne_zero,
      if_false] at hr
    cases hr
    exact ⟨rfl, rfl⟩

/-- What `read` did if it gave something. -/
theorem readableRead_some {headChunk : Bool} {size : Option ℕ} {r : Option JsBytes × ReadableData}
    (hr : readableRead data headChunk size = some r) :
    data.encoding = none ∧ ∃ wanted, readWanted data headChunk size = some wanted ∧
      ∃ out, readBytes wanted data.chunks = some out ∧
        r = (joinPieces out.1, { data with chunks := out.2, bufferedLength := data.bufferedLength - wanted }) := by
  unfold readableRead at hr
  split at hr
  · cases hr
  · next hnone =>
    refine ⟨by simpa using hnone, ?_⟩
    split at hr
    · cases hr
    · next wanted hwanted =>
      refine ⟨wanted, hwanted, ?_⟩
      split at hr
      · cases hr
      · next out hread => exact ⟨out, hread, (Option.some.inj hr).symm⟩

theorem Inv.read (h : Inv s) {headChunk : Bool} {size : Option ℕ} (hf : Fair s.data (.read headChunk size))
    {r : Option JsBytes × ReadableData} (hr : readableRead s.data headChunk size = some r) :
    Inv { s with data := r.2, delivered := s.delivered ++ itemsGiven s.data.objectMode (r.1.map .bytes) } := by
  obtain ⟨he, wanted, hwanted, out, hread, rfl⟩ := readableRead_some hr
  cases h with
  | objects ho _ hl hc =>
    obtain ⟨hone, hhead⟩ := (if_pos ho).mp hf
    cases hwanted.symm.trans hone
    cases hb : s.data.chunks with
    | nil =>
      rw [hb] at hread
      cases hread
    | cons chunk rest =>
      rw [hb] at hread hhead
      obtain ⟨hchunk, hrest⟩ := readBytes_one (hhead chunk rfl) hread
      have hlength : s.data.bufferedLength - 1 = rest.length := by
        rw [hl, hb, length_cons]
        rfl
      rw [hrest, hlength, hchunk]
      exact .takeObject ho he hb hc
  | bytes bs ho _ hb hl hc =>
    obtain ⟨joined, hjoined, hvalue⟩ := joinPieces_eq ((if_neg (by simp [ho])).mp hf wanted hwanted out hread)
    rw [hb] at hread
    obtain ⟨hfront, rest, hrest, hflat⟩ := readBytes_map hread
    have hlength : s.data.bufferedLength - wanted = (contents rest).length := by rw [hl, hflat, length_drop]
    have hcut : contents bs = joined.value ++ contents rest := by rw [hvalue, hfront, hflat, take_append_drop]
    rw [hlength, hrest, hjoined]
    exact .takeBytes joined ho he hcut hc
  | strings enc ts ho hsome hb hl hreach hend hc => cases he.symm.trans hsome

theorem Inv.pushObjectString (h : Inv s) (chunk : Units) (hf : Fair s.data (.pushObjectString chunk)) :
    Inv { s with data := readablePushObjectString s.data chunk, content := s.pushedObject chunk } := by
  cases h with
  | objects ho he hl hc =>
    cases heof : s.data.eof with
    | true =>
      have hdata : readablePushObjectString s.data chunk = s.data := by rw [readablePushObjectString, if_pos heof]
      have hcontent : s.pushedObject chunk = s.content := by rw [State.pushedObject, if_pos heof]
      rw [hdata, hcontent]
      exact .objects ho he hl hc
    | false =>
      have hdata : readablePushObjectString s.data chunk = { s.data with
          bufferedLength := s.data.bufferedLength + 1, chunks := s.data.chunks ++ [.string chunk] } := by
        simp only [readablePushObjectString, heof, Bool.false_eq_true, if_false]
      have hcontent (more : Bytes) : s.pushedObject chunk more = s.content more ++ [.object (.string chunk)] := by
        rw [State.pushedObject, heof]
        rfl
      rw [hdata]
      refine .objects ho he ?_ fun more => ?_
      · simp [hl]
      · refine (hcontent more).trans ?_
        simp [hc]
  | bytes bs ho _ _ _ _ => cases ho.symm.trans hf
  | strings enc ts ho _ _ _ _ _ _ => cases ho.symm.trans hf

theorem Inv.step {s s' : State} {e : Event} (h : Inv s) (hs : Step e s s') (hf : Fair s.data e) : Inv s' := by
  cases hs with
  | push chunk => exact h.push chunk
  | pushObjectString chunk => exact h.pushObjectString chunk hf
  | pushNull => exact h.pushNull
  | unshift chunk => exact h.unshift chunk hf
  | setEncoding enc => exact h.setEncoding enc hf
  | takeNext hr => exact h.takeNext hf hr
  | pop hr => exact h.pop hf hr
  | read headChunk size hr => exact h.read hf hr

theorem Inv.run {s s' : State} (h : Inv s) (hr : Run Fair s s') : Inv s' := by
  induction hr with
  | nil => exact h
  | snoc _ hs hf ih => exact ih.step hs hf

/-! ### Results -/

/-- What the buffer holds: the chunks, and what the decoder keeps with what comes. -/
def State.buffered (s : State) (more : Bytes) : List Item :=
  s.data.chunks.flatMap (items s.data.objectMode) ++
    match s.data.encoding with
    | some enc => (decodeBytes (stringDecoderUnpack s.data.decoderPending ++ s.coming more) enc).map .unit
    | none => if s.data.objectMode then [] else (s.coming more).map .byte

/-- What holds of the buffer in every run. -/
structure Accounts (s : State) : Prop where
  length : s.data.bufferedLength =
    if s.data.objectMode then s.data.chunks.length else (s.data.chunks.map ReadableChunk.length).sum
  /-- What was delivered and what is buffered is what was pushed, in order. -/
  content (more : Bytes) : s.content more = s.delivered ++ s.buffered more

theorem items_objects (chunks : List ReadableChunk) : chunks.flatMap (items true) = chunks.map .object :=
  map_eq_flatMap.symm

theorem items_bytes (bs : List JsBytes) :
    (bs.map ReadableChunk.bytes).flatMap (items false) = (contents bs).map .byte := by
  induction bs with
  | nil => rfl
  | cons b bs ih =>
    rw [map_cons, flatMap_cons, ih, contents_cons, map_append]
    rfl

theorem items_strings (ts : List Units) : (ts.map ReadableChunk.string).flatMap (items false) = ts.flatten.map .unit := by
  induction ts with
  | nil => rfl
  | cons t ts ih =>
    rw [map_cons, flatMap_cons, ih, flatten_cons, map_append]
    rfl

theorem Inv.accounts (h : Inv s) : Accounts s := by
  cases h with
  | objects ho he hl hc =>
    refine ⟨by rw [hl, if_pos ho], fun more => ?_⟩
    rw [hc, State.buffered, he, ho, items_objects]
    simp
  | bytes bs ho he hb hl hc =>
    refine ⟨?_, fun more => ?_⟩
    · rw [hl, hb, ho]
      simp [contents, length_flatMap, comp_def, ReadableChunk.length]
    · rw [hc, State.buffered, he, hb, ho, items_bytes, map_append]
      rfl
  | strings enc ts ho he hb hl hr hend hc =>
    refine ⟨?_, fun more => ?_⟩
    · rw [hl, hb, ho]
      simp [length_flatten, comp_def, ReadableChunk.length]
    · rw [hc, State.buffered, he, hb, ho, items_strings, map_append]

/-- Whatever is pushed, unshifted, decoded and read, in whatever order. -/
theorem readable_accounts {objectMode : Bool} {highWaterMark : ℕ} {s : State}
    (h : Run Fair (.new objectMode highWaterMark) s) : Accounts s :=
  ((inv_new objectMode highWaterMark).run h).accounts

/-- A character that is not whole when the encoding is set, in a view. -/
theorem readable_accounts_cut :
    Accounts {
      data := readableSetEncoding (readablePush (.new false 16) ⟨[97, 0xc3], false⟩).1 .utf8
      delivered := []
      content := State.encoded ⟨(readablePush (.new false 16) ⟨[97, 0xc3], false⟩).1, [],
        (State.new false 16).pushed ⟨[97, 0xc3], false⟩⟩ .utf8 } :=
  readable_accounts (.snoc (.snoc .nil (.push ⟨[97, 0xc3], false⟩) trivial) (.setEncoding .utf8)
    ⟨rfl, fun hn => Bool.noConfusion hn⟩)

/-- An object of two bytes is counted as one when it is pushed, and as two when it is popped. -/
theorem not_readable_accounts :
    ¬ ∀ s, Run (fun _ _ => True) (.new true 16) s → Accounts s := by
  intro h
  have hpushed : Run (fun _ _ => True) (.new true 16) _ :=
    (Run.nil.snoc (.push ⟨[97, 98], true⟩) trivial).snoc (.push ⟨[99], true⟩) trivial
  have hpopped := hpushed.snoc (.pop rfl) trivial
  exact absurd (h _ hpopped).length (by decide)

end Scriptc.RuntimeRust.Readable
