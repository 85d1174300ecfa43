import Scriptc.RuntimeRust.StringDecoder

/-!
# Readable streams

The buffer of a Readable, as `readable.rs` keeps it: a queue of chunks and its length, in bytes, in
UTF-16 units or in objects. What waits for the next chunk, events and flags that do not touch the
buffer are left out, and so is the encoding of the strings that are pushed: they are bytes by then.
The length is a number without a bound. Where `buffer_concat` panics, the chunks are lost that were
taken out for it.
-/

namespace Scriptc.RuntimeRust.Readable

open Decoder

/-- A buffer of the program. -/
structure JsBytes where
  value : Bytes
  /-- The bytes are in the storage of their own, which a view over an ArrayBuffer leaves empty. -/
  stored : Bool
  deriving DecidableEq

/-- A chunk that is buffered. -/
inductive ReadableChunk where
  | bytes (value : JsBytes)
  | string (value : Units)
  deriving DecidableEq

def ReadableChunk.length : ReadableChunk → ℕ
  | .bytes value => value.value.length
  | .string value => value.length

/-- A stream, as far as its buffer goes. -/
structure ReadableData where
  chunks : List ReadableChunk
  bufferedLength : ℕ
  highWaterMark : ℕ
  objectMode : Bool
  encoding : Option Encoding
  decoderPending : ℕ
  eof : Bool
  deriving DecidableEq

def ReadableData.new (objectMode : Bool) (highWaterMark : ℕ) : ReadableData where
  chunks := []
  bufferedLength := 0
  highWaterMark := highWaterMark
  objectMode := objectMode
  encoding := none
  decoderPending := 0
  eof := false

/-- A text is buffered unless it is empty. -/
def ReadableData.pushText (data : ReadableData) (text : Units) : ReadableData :=
  if text.length > 0 then
    { data with bufferedLength := data.bufferedLength + text.length, chunks := data.chunks ++ [.string text] }
  else data

def readablePushObjectString (data : ReadableData) (chunk : Units) : ReadableData :=
  if data.eof then data
  else { data with bufferedLength := data.bufferedLength + 1, chunks := data.chunks ++ [.string chunk] }

/-- The stream, and whether it wants more. -/
def readablePush (data : ReadableData) (chunk : JsBytes) : ReadableData × Bool :=
  if data.eof then (data, false)
  else
    let data :=
      match data.encoding with
      | some encoding =>
        let r := stringDecoderStep encoding data.decoderPending chunk.value
        { data with decoderPending := r.2 }.pushText r.1
      | none =>
        { data with
          bufferedLength := data.bufferedLength + (if data.objectMode then 1 else chunk.value.length)
          chunks := data.chunks ++ [.bytes chunk] }
    (data, data.bufferedLength < data.highWaterMark)

def readablePushNull (data : ReadableData) : ReadableData :=
  match data.encoding with
  | some encoding =>
    { { data with decoderPending := 0 }.pushText (stringDecoderEnd encoding data.decoderPending) with eof := true }
  | none => { data with eof := true }

def readableUnshift (data : ReadableData) (chunk : JsBytes) : ReadableData :=
  match data.encoding with
  | some encoding =>
    let r := stringDecoderStep encoding 0 chunk.value
    let text := r.1 ++ stringDecoderEnd encoding r.2
    if text.length > 0 then
      { data with bufferedLength := data.bufferedLength + text.length, chunks := .string text :: data.chunks }
    else data
  | none =>
    { data with bufferedLength := data.bufferedLength + chunk.value.length, chunks := .bytes chunk :: data.chunks }

/-- The text of the chunks, and what the decoder keeps. -/
def decodeChunks (encoding : Encoding) (pending : ℕ) : List ReadableChunk → Units × ℕ
  | [] => ([], pending)
  | .bytes bytes :: chunks =>
    let r := stringDecoderStep encoding pending bytes.value
    let rest := decodeChunks encoding r.2 chunks
    (r.1 ++ rest.1, rest.2)
  | .string text :: chunks =>
    let rest := decodeChunks encoding pending chunks
    (text ++ rest.1, rest.2)

def readableSetEncoding (data : ReadableData) (encoding : Encoding) : ReadableData :=
  let r := decodeChunks encoding 0 data.chunks
  let tail :=
    match data.encoding with
    | some previous => stringDecoderEnd previous data.decoderPending
    | none => []
  { data with encoding := some encoding, decoderPending := r.2, bufferedLength := 0, chunks := [] }.pushText (r.1 ++ tail)

/-- It reads the storage itself, and panics on a view over an ArrayBuffer. -/
def bufferConcat (pieces : List JsBytes) : Option JsBytes :=
  if pieces.all JsBytes.stored then some ⟨pieces.flatMap JsBytes.value, true⟩ else none

/-- One piece is given as it is. -/
def joinPieces : List JsBytes → Option JsBytes
  | [piece] => some piece
  | pieces => bufferConcat pieces

/-- The byte chunks at the front, and the rest. -/
def takeBytes : List ReadableChunk → List JsBytes × List ReadableChunk
  | .bytes bytes :: chunks => (bytes :: (takeBytes chunks).1, (takeBytes chunks).2)
  | chunks => ([], chunks)

def takeStrings : List ReadableChunk → Units × List ReadableChunk
  | .string text :: chunks => (text ++ (takeStrings chunks).1, (takeStrings chunks).2)
  | chunks => ([], chunks)

/-- The next chunk, if the chunks can be joined, and the stream. -/
def readableTakeNext (data : ReadableData) : Option (Option ReadableChunk × ReadableData) :=
  match data.chunks with
  | [] => none
  | chunk :: chunks =>
    if data.objectMode then some (some chunk, { data with chunks := chunks, bufferedLength := data.bufferedLength - 1 })
    else
      match chunk with
      | .bytes first =>
        let r := takeBytes chunks
        match joinPieces (first :: r.1) with
        | none => some (none, { data with chunks := r.2 })
        | some joined =>
          some (some (.bytes joined), { data with chunks := r.2, bufferedLength := (r.2.map ReadableChunk.length).sum })
      | .string text =>
        let r := takeStrings chunks
        some (some (.string (text ++ r.1)), { data with chunks := r.2, bufferedLength := (r.2.map ReadableChunk.length).sum })

def readablePop (data : ReadableData) : Option (ReadableChunk × ReadableData) :=
  match data.chunks with
  | [] => none
  | chunk :: chunks => some (chunk, { data with chunks := chunks, bufferedLength := data.bufferedLength - chunk.length })

/-- The pieces of the first bytes of the chunks, and the rest; there are none if the chunks are no bytes or
too few. A chunk that is cut is copied. -/
def readBytes (remaining : ℕ) : List ReadableChunk → Option (List JsBytes × List ReadableChunk)
  | .bytes chunk :: chunks =>
    if remaining = 0 then some ([], .bytes chunk :: chunks)
    else if chunk.value.length ≤ remaining then
      (readBytes (remaining - chunk.value.length) chunks).map fun r => (chunk :: r.1, r.2)
    else some ([⟨chunk.value.take remaining, true⟩], .bytes ⟨chunk.value.drop remaining, true⟩ :: chunks)
  | chunks => if remaining = 0 then some ([], chunks) else none

/-- How many bytes `read` takes: the size that is asked for, or that of the head or of everything. -/
def readWanted (data : ReadableData) (headChunk : Bool) (size : Option ℕ) : Option ℕ :=
  if data.bufferedLength = 0 then none
  else
    let head := (data.chunks.head?.map ReadableChunk.length).getD 0
    let requested := size.getD (if headChunk then head else data.bufferedLength)
    if requested = 0 ∨ (requested > data.bufferedLength ∧ data.eof = false) then none
    else some (min requested data.bufferedLength)

/-- What `readable_read` gives; it throws on a stream with an encoding and panics if the chunks are
no bytes. -/
def readableRead (data : ReadableData) (headChunk : Bool) (size : Option ℕ) : Option (Option JsBytes × ReadableData) :=
  if data.encoding.isSome then none
  else
    match readWanted data headChunk size with
    | none => none
    | some wanted =>
      match readBytes wanted data.chunks with
      | none => none
      | some r => some (joinPieces r.1, { data with chunks := r.2, bufferedLength := data.bufferedLength - wanted })

/-! ### Runs -/

/-- What a stream carries. -/
inductive Item where
  | byte (b : UInt8)
  | unit (u : UInt16)
  | object (chunk : ReadableChunk)
  deriving DecidableEq

def items (objectMode : Bool) (chunk : ReadableChunk) : List Item :=
  if objectMode then [.object chunk]
  else
    match chunk with
    | .bytes bytes => bytes.value.map .byte
    | .string text => text.map .unit

/-- A panic delivers nothing. -/
def itemsGiven (objectMode : Bool) : Option ReadableChunk → List Item
  | some chunk => items objectMode chunk
  | none => []

/-- A stream with what it delivered, and what it should deliver in all if some bytes still come. -/
structure State where
  data : ReadableData
  delivered : List Item
  content : Bytes → List Item

/-- What bytes carry that are not decoded with others. -/
def ReadableData.itemsOf (data : ReadableData) (chunk : JsBytes) : List Item :=
  match data.encoding with
  | some encoding => (decodeBytes chunk.value encoding).map .unit
  | none => items data.objectMode (.bytes chunk)

def Item.byte? : Item → Option UInt8
  | .byte b => some b
  | _ => none

def Item.isUnit : Item → Bool
  | .unit _ => true
  | _ => false

namespace State

variable (s : State)

def new (objectMode : Bool) (highWaterMark : ℕ) : State where
  data := .new objectMode highWaterMark
  delivered := []
  content := fun more => if objectMode then [] else more.map .byte

/-- A stream that has ended takes no more; objects come one after the other. -/
def pushed (chunk : JsBytes) : Bytes → List Item :=
  if s.data.eof then s.content
  else if s.data.objectMode then fun more => s.content more ++ [.object (.bytes chunk)]
  else fun more => s.content (chunk.value ++ more)

def pushedObject (chunk : Units) : Bytes → List Item :=
  if s.data.eof then s.content else fun more => s.content more ++ [.object (.string chunk)]

/-- In front of what was not delivered. -/
def unshifted (chunk : JsBytes) (more : Bytes) : List Item :=
  (s.content more).take s.delivered.length ++ s.data.itemsOf chunk ++ (s.content more).drop s.delivered.length

/-- What was not delivered is decoded, with what comes. -/
def encoded (encoding : Encoding) (more : Bytes) : List Item :=
  let rest := (s.content []).drop s.delivered.length
  let more := if s.data.eof then [] else more
  s.delivered ++ rest.filter Item.isUnit ++ (decodeBytes (rest.filterMap Item.byte? ++ more) encoding).map .unit

end State

inductive Event where
  | push (chunk : JsBytes)
  | pushObjectString (chunk : Units)
  | pushNull
  | unshift (chunk : JsBytes)
  | setEncoding (encoding : Encoding)
  | takeNext
  | pop
  | read (headChunk : Bool) (size : Option ℕ)

/-- What it does to the stream, and to what should be delivered. -/
inductive Step : Event → State → State → Prop where
  | push {s : State} (chunk : JsBytes) :
    Step (.push chunk) s { s with data := (readablePush s.data chunk).1, content := s.pushed chunk }
  | pushObjectString {s : State} (chunk : Units) :
    Step (.pushObjectString chunk) s
      { s with data := readablePushObjectString s.data chunk, content := s.pushedObject chunk }
  | pushNull {s : State} : Step .pushNull s { s with data := readablePushNull s.data, content := fun _ => s.content [] }
  | unshift {s : State} (chunk : JsBytes) :
    Step (.unshift chunk) s { s with data := readableUnshift s.data chunk, content := s.unshifted chunk }
  | setEncoding {s : State} (encoding : Encoding) :
    Step (.setEncoding encoding) s { s with data := readableSetEncoding s.data encoding, content := s.encoded encoding }
  | takeNext {s : State} {r : Option ReadableChunk × ReadableData} (h : readableTakeNext s.data = some r) :
    Step .takeNext s { s with data := r.2, delivered := s.delivered ++ itemsGiven s.data.objectMode r.1 }
  | pop {s : State} {r : ReadableChunk × ReadableData} (h : readablePop s.data = some r) :
    Step .pop s { s with data := r.2, delivered := s.delivered ++ items s.data.objectMode r.1 }
  | read {s : State} (headChunk : Bool) (size : Option ℕ) {r : Option JsBytes × ReadableData}
    (h : readableRead s.data headChunk size = some r) :
    Step (.read headChunk size) s
      { s with data := r.2, delivered := s.delivered ++ itemsGiven s.data.objectMode (r.1.map .bytes) }

/-- A run whose steps are all allowed. -/
inductive Run (allowed : ReadableData → Event → Prop) (s : State) : State → Prop where
  | nil : Run allowed s s
  | snoc {s' s'' : State} {e : Event} (h : Run allowed s s') (hs : Step e s' s'') (ha : allowed s'.data e) :
    Run allowed s s''

end Scriptc.RuntimeRust.Readable
