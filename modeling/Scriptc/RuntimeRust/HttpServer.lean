import Mathlib.Tactic.Linarith
import Scriptc.Lib.Bytes

/-!
# HTTP/1.1 message framing

The framing of `http_framing.rs`: where a head ends, what a request head says, and the decoder of
the chunked transfer coding. Text is a list of characters. A `usize` is a natural number below
`2 ^ 64`.
-/

namespace Scriptc.RuntimeRust.Http

abbrev Text := List Char

/-! ### Text -/

/-- The first place where some bytes stand. -/
def position (pattern : Bytes) : Bytes → Option ℕ
  | [] => none
  | b :: bs => if pattern.isPrefixOf (b :: bs) then some 0 else (position pattern bs).map (· + 1)

/-- A byte that goes on a character. -/
def isTail (b : UInt8) : Bool := 0x80 ≤ b.toNat ∧ b.toNat ≤ 0xbf

/-- The characters that bytes spell in UTF-8: shortest form only, and no surrogate. -/
def fromUtf8 : Bytes → Option Text
  | [] => some []
  | a :: as =>
    if a.toNat < 0x80 then (fromUtf8 as).map (Char.ofNat a.toNat :: ·)
    else match as with
      | [] => none
      | b :: bs =>
        if 0xc2 ≤ a.toNat ∧ a.toNat ≤ 0xdf ∧ isTail b then
          (fromUtf8 bs).map (Char.ofNat ((a.toNat - 0xc0) * 64 + (b.toNat - 0x80)) :: ·)
        else match bs with
          | [] => none
          | c :: cs =>
            let v := ((a.toNat - 0xe0) * 64 + (b.toNat - 0x80)) * 64 + (c.toNat - 0x80)
            if 0xe0 ≤ a.toNat ∧ a.toNat ≤ 0xef ∧ isTail b ∧ isTail c ∧ 0x800 ≤ v ∧ ¬(0xd800 ≤ v ∧ v ≤ 0xdfff) then
              (fromUtf8 cs).map (Char.ofNat v :: ·)
            else match cs with
              | [] => none
              | d :: ds =>
                let v := (((a.toNat - 0xf0) * 64 + (b.toNat - 0x80)) * 64 + (c.toNat - 0x80)) * 64 + (d.toNat - 0x80)
                if 0xf0 ≤ a.toNat ∧ isTail b ∧ isTail c ∧ isTail d ∧ 0x10000 ≤ v ∧ v ≤ 0x10ffff then
                  (fromUtf8 ds).map (Char.ofNat v :: ·)
                else none

/-- The characters of Unicode's `White_Space`. -/
def isWhitespace (ch : Char) : Bool :=
  (0x9 ≤ ch.toNat ∧ ch.toNat ≤ 0xd) ∨ (0x2000 ≤ ch.toNat ∧ ch.toNat ≤ 0x200a) ∨
    ch.toNat ∈ [0x20, 0x85, 0xa0, 0x1680, 0x2028, 0x2029, 0x202f, 0x205f, 0x3000]

def trimStart (s : Text) : Text := s.dropWhile isWhitespace

def trim (s : Text) : Text := (trimStart (trimStart s).reverse).reverse

/-- The pieces between the characters that separate. -/
def splitBy (sep : Char → Bool) : Text → List Text
  | [] => [[]]
  | ch :: s =>
    match splitBy sep s with
    | [] => [[ch]]
    | piece :: pieces => if sep ch then [] :: piece :: pieces else (ch :: piece) :: pieces

def splitWhitespace (s : Text) : List Text := (splitBy isWhitespace s).filter (· ≠ [])

/-- The lines of a text, without the line ends. -/
def splitCrlf : Text → List Text
  | [] => [[]]
  | '\r' :: '\n' :: s => [] :: splitCrlf s
  | ch :: s =>
    match splitCrlf s with
    | [] => [[ch]]
    | line :: lines => (ch :: line) :: lines

/-- What stands before the first separator and what stands after it. -/
def splitOnce (sep : Char) : Text → Option (Text × Text)
  | [] => none
  | ch :: s => if ch = sep then some ([], s) else (splitOnce sep s).map fun p => (ch :: p.1, p.2)

def toAsciiLowercase (s : Text) : Text := s.map Char.toLower

def toDigit (radix : ℕ) (ch : Char) : Option ℕ :=
  let digit :=
    if '0' ≤ ch ∧ ch ≤ '9' then ch.toNat - '0'.toNat
    else if 'a' ≤ ch ∧ ch ≤ 'z' then ch.toNat - 'a'.toNat + 10
    else if 'A' ≤ ch ∧ ch ≤ 'Z' then ch.toNat - 'A'.toNat + 10
    else radix
  if digit < radix then some digit else none

/-- Digits read as a `usize`; one digit too many is an error. -/
def digitsToUsize (radix : ℕ) (acc : ℕ) : Text → Option ℕ
  | [] => some acc
  | ch :: s => do
    let digit ← toDigit radix ch
    let acc := acc * radix + digit
    if acc < 2 ^ 64 then digitsToUsize radix acc s else none

/-- `usize::from_str_radix`: at least one digit, and a plus sign may stand before them. -/
def fromStrRadix (radix : ℕ) (s : Text) : Option ℕ :=
  match s with
  | [] => none
  | ch :: digits => if ch = '+' then if digits = [] then none else digitsToUsize radix 0 digits else digitsToUsize radix 0 s

/-! ### Request heads -/

def crlf : Bytes := [13, 10]

def headEnd : Bytes := [13, 10, 13, 10]

def httpHeaderEnd (bytes : Bytes) : Option ℕ := (position headEnd bytes).map (· + 4)

def httpTokenPresent (value token : Text) : Bool :=
  (splitBy (· = ',') value).any fun part => toAsciiLowercase (trim part) = toAsciiLowercase token

/-- How a body is delimited. -/
inductive HttpBodyFraming where
  | length (n : ℕ)
  | chunked
  | invalid
  deriving DecidableEq

/-- A head that was parsed. -/
structure HttpRequestHead where
  method : Text
  url : Text
  http10 : Bool
  headers : List (Text × Text × Text)
  framing : HttpBodyFraming
  keepAlive : Bool
  deriving DecidableEq

/-- What the header lines have said so far. -/
structure HeadFields where
  headers : List (Text × Text × Text)
  contentLength : Option ℕ
  transferEncoding : Bool
  chunked : Bool
  keepAlive : Bool
  deriving DecidableEq

/-- One header line. -/
def headerLine (fields : HeadFields) (line : Text) : Option HeadFields := do
  let (rawName, rawValue) ← splitOnce ':' line
  let name := trim rawName
  let value := trim rawValue
  if name = [] then none
  let lower := toAsciiLowercase name
  let fields ←
    if lower = "content-length".toList then (fromStrRadix 10 value).map fun n => { fields with contentLength := some n }
    else if lower = "transfer-encoding".toList then
      some { fields with transferEncoding := true, chunked := httpTokenPresent value "chunked".toList }
    else if lower = "connection".toList then
      if httpTokenPresent value "close".toList then some { fields with keepAlive := false }
      else if httpTokenPresent value "keep-alive".toList then some { fields with keepAlive := true }
      else some fields
    else some fields
  return { fields with headers := fields.headers ++ [(name, lower, value)] }

/-- How the body is framed: the chunked coding and a length together are an error, and so is a
coding that is not chunked. -/
def bodyFraming (fields : HeadFields) : HttpBodyFraming :=
  if fields.transferEncoding then
    if fields.chunked ∧ fields.contentLength = none then .chunked else .invalid
  else .length (fields.contentLength.getD 0)

/-- The head that some bytes spell, which end with an empty line. -/
def httpParseRequestHead (bytes : Bytes) : Option HttpRequestHead := do
  let text ← fromUtf8 bytes
  match splitCrlf (text.take (text.length - 4)) with
  | [] => none
  | requestLine :: lines =>
    match splitWhitespace requestLine with
    | [method, url, version] =>
      if version ≠ "HTTP/1.0".toList ∧ version ≠ "HTTP/1.1".toList then none
      let fields ← lines.foldlM headerLine ⟨[], none, false, false, version = "HTTP/1.1".toList⟩
      return { method, url, http10 := version = "HTTP/1.0".toList, headers := fields.headers,
               framing := bodyFraming fields, keepAlive := fields.keepAlive }
    | _ => none

/-! ### The chunked coding -/

/-- What a step of the chunk decoder gives. -/
inductive HttpChunkStep where
  | needMore
  | data (body : Bytes)
  | done
  | bad
  deriving DecidableEq

/-- The size that a chunk's first line gives. What stands after a semicolon is left out. -/
def chunkSize (line : Bytes) : Option ℕ := do
  let text ← fromUtf8 line
  fromStrRadix 16 (trim (text.takeWhile (· ≠ ';')))

/-- The chunk itself, when its size is known: the step, what is left of the buffer, and the size
that is still to come. There is no result when the code panics. The sum `size + 2` wraps around;
a buffer never holds as many bytes as such a size says, so that `drain(..size)` is out of range. -/
def chunkBody (buffer : Bytes) (size : ℕ) : Option (HttpChunkStep × Bytes × Option ℕ) :=
  if buffer.length < (size + 2) % 2 ^ 64 then some (.needMore, buffer, some size)
  else if 2 ^ 64 ≤ size + 2 then none
  else some (.data (buffer.take size), buffer.drop (size + 2), none)

/-- One step of the decoder. The source's loop turns twice at most: once for the size line and once
for the chunk. -/
def httpChunkedStep (buffer : Bytes) (chunkRemaining : Option ℕ) (limit : ℕ) :
    Option (HttpChunkStep × Bytes × Option ℕ) :=
  match chunkRemaining with
  | some size => chunkBody buffer size
  | none =>
    match position crlf buffer with
    | none => some (if limit < buffer.length then .bad else .needMore, buffer, none)
    | some lineEnd =>
      match chunkSize (buffer.take lineEnd) with
      | none => some (.bad, buffer, none)
      | some 0 =>
        let rest := buffer.drop (lineEnd + 2)
        some (.done, if 2 ≤ rest.length then rest.drop 2 else rest, none)
      | some (size + 1) => chunkBody (buffer.drop (lineEnd + 2)) (size + 1)

/-!
## The HTTP/1 server connection

What `http_server.rs` does with the bytes of a connection. A read is appended to the buffer, and
then the connection is stepped until it has nothing to do: it parses heads, hands bodies to their
requests, and rejects what it cannot take. A request is named by how many came before it on the
connection. Listeners run between the steps and do not reach the connection's parsing state.
-/

/-! ### One step -/

/-- What a rejected client is told. -/
inductive Reply where
  | badRequest
  | headerFieldsTooLarge
  deriving DecidableEq

/-- A connection with its buffer and its request. -/
structure HttpServerConnection where
  buffer : Bytes
  request : Option ℕ
  bodyRemaining : ℕ
  chunked : Bool
  chunkRemaining : Option ℕ
  keepAlive : Bool
  stopped : Bool
  /-- The requests that were made so far. -/
  made : ℕ
  /-- The server's limit. -/
  maxHeaderSize : ℕ
  deriving DecidableEq

inductive HttpServerStep where
  | idle
  | dispatch (request : ℕ) (head : HttpRequestHead)
  | body (request : ℕ) (bytes : Bytes)
  | finish (request : ℕ)
  | reject (reply : Reply)
  | destroy
  deriving DecidableEq

/-- The steps after which the loop over the buffer returns. -/
def HttpServerStep.returns : HttpServerStep → Bool
  | .idle | .reject _ | .destroy => true
  | .dispatch .. | .body .. | .finish _ => false

def httpServerReject (c : HttpServerConnection) (reply : Reply) : HttpServerStep × HttpServerConnection :=
  (.reject reply, { c with
    stopped := true, buffer := [], request := none, chunkRemaining := none, chunked := false, bodyRemaining := 0 })

/-- Clear what belongs to one request. A connection that is to be closed stops reading. -/
def httpServerReset (c : HttpServerConnection) : HttpServerConnection :=
  let c := { c with request := none, chunked := false, chunkRemaining := none, bodyRemaining := 0 }
  if c.keepAlive then c else { c with stopped := true, buffer := [] }

/-- A head was parsed, and its bytes are off the buffer. -/
def openRequest (c : HttpServerConnection) (head : HttpRequestHead) : HttpServerStep × HttpServerConnection :=
  let opened := { c with keepAlive := head.keepAlive, request := some c.made, made := c.made + 1 }
  match head.framing with
  | .invalid => httpServerReject c .badRequest
  | .chunked => (.dispatch c.made head, { opened with chunked := true, chunkRemaining := none, bodyRemaining := 0 })
  | .length n => (.dispatch c.made head, { opened with chunked := false, bodyRemaining := n })

/-- One step over the chunked body of a request. -/
def chunkedNext (c : HttpServerConnection) (request : ℕ) : Option (HttpServerStep × HttpServerConnection) :=
  (httpChunkedStep c.buffer c.chunkRemaining c.maxHeaderSize).map fun (step, buffer, chunkRemaining) =>
    let c := { c with buffer, chunkRemaining }
    match step with
    | .needMore => (.idle, c)
    | .data body => (.body request body, c)
    | .done => (.finish request, httpServerReset c)
    | .bad => httpServerReject c .badRequest

/-- One step over the body of a request that gave its length. -/
def lengthNext (c : HttpServerConnection) (request : ℕ) : HttpServerStep × HttpServerConnection :=
  if c.bodyRemaining = 0 then (.finish request, httpServerReset c)
  else if c.buffer = [] then (.idle, c)
  else
    let take := min c.bodyRemaining c.buffer.length
    (.body request (c.buffer.take take),
      { c with buffer := c.buffer.drop take, bodyRemaining := c.bodyRemaining - take })

/-- One step where a head is to come. -/
def headNext (c : HttpServerConnection) : HttpServerStep × HttpServerConnection :=
  if c.buffer = [] then (.idle, c)
  else match httpHeaderEnd c.buffer with
    | none => if c.maxHeaderSize < c.buffer.length then httpServerReject c .headerFieldsTooLarge else (.idle, c)
    | some headLen =>
      if c.maxHeaderSize < headLen then httpServerReject c .headerFieldsTooLarge
      else match httpParseRequestHead (c.buffer.take headLen) with
        | none => (.destroy, { c with stopped := true, buffer := [] })
        | some head => openRequest { c with buffer := c.buffer.drop headLen } head

/-- One unit of progress over the buffer. There is no result when the code panics. -/
def httpServerNext (c : HttpServerConnection) : Option (HttpServerStep × HttpServerConnection) :=
  if c.stopped then some (.idle, { c with buffer := [] })
  else match c.request with
    | some request => if c.chunked then chunkedNext c request else some (lengthNext c request)
    | none => some (headNext c)

/-! ### Reads -/

/-- A request as its listeners see it. -/
structure HttpRequest where
  head : HttpRequestHead
  body : Bytes
  ended : Bool
  deriving DecidableEq

/-- How a connection ends that is refused. -/
inductive Refusal where
  | rejected (reply : Reply)
  | destroyed
  deriving DecidableEq

/-- A connection with what has come of it. There is no connection once the process has panicked. -/
structure Session where
  connection : Option HttpServerConnection
  requests : List HttpRequest
  refusal : Option Refusal
  deriving DecidableEq

/-- What a step hands out. -/
def Session.record (s : Session) : HttpServerStep → Session
  | .idle => s
  | .dispatch _ head => { s with requests := s.requests ++ [⟨head, [], false⟩] }
  | .body i bytes => { s with requests := s.requests.modify i fun r => { r with body := r.body ++ bytes } }
  | .finish i => { s with requests := s.requests.modify i fun r => { r with ended := true } }
  | .reject reply => { s with refusal := some (.rejected reply) }
  | .destroy => { s with refusal := some .destroyed }

/-- A step was made, and this is the connection after it. -/
def Session.move (s : Session) (r : HttpServerStep × HttpServerConnection) : Session :=
  { s with connection := some r.2 }.record r.1

/-- The loop over the buffer, for a number of turns. -/
def poll : ℕ → Session → Session
  | 0, s => s
  | n + 1, s =>
    match s.connection with
    | none => s
    | some c =>
      match httpServerNext c with
      | none => { s with connection := none }
      | some r => if r.1.returns then s.move r else poll n (s.move r)

def HttpServerConnection.extend (c : HttpServerConnection) (bytes : Bytes) : HttpServerConnection :=
  { c with buffer := c.buffer ++ bytes }

def Session.extend (s : Session) (bytes : Bytes) : Session :=
  { s with connection := s.connection.map fun c => c.extend bytes }

/-- No more steps than this are made before the loop returns. -/
def HttpServerConnection.work (c : HttpServerConnection) : ℕ := 2 * c.buffer.length + if c.request.isSome then 2 else 1

def Session.work (s : Session) : ℕ := (s.connection.map HttpServerConnection.work).getD 0

/-- The loop over the buffer, until it returns. -/
def settle (s : Session) : Session := poll s.work s

def httpServerFeed (s : Session) (bytes : Bytes) : Session := settle (s.extend bytes)

/-- A connection that has been accepted. -/
def httpServerAccept (maxHeaderSize : ℕ) : Session :=
  { connection := some { buffer := [], request := none, bodyRemaining := 0, chunked := false, chunkRemaining := none,
                         keepAlive := false, stopped := false, made := 0, maxHeaderSize }
    requests := [], refusal := none }

/-- How a connection stands. -/
inductive Outcome where
  | opened
  | closed
  | rejected (reply : Reply)
  | destroyed
  | panicked
  deriving DecidableEq

def Session.outcome (s : Session) : Outcome :=
  match s.connection, s.refusal with
  | none, _ => .panicked
  | some _, some (.rejected reply) => .rejected reply
  | some _, some .destroyed => .destroyed
  | some c, none => if c.stopped then .closed else .opened

end Scriptc.RuntimeRust.Http
