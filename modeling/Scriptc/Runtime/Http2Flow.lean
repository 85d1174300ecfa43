import Scriptc.Lib.Bytes
import Mathlib.Data.Int.Order.Basic

/-!
# HTTP/2 send-side flow control

The send side of an HTTP/2 session in `scr_http2.c`: what the application writes is buffered on
its stream, and goes out as DATA frames as far as the stream's window, the session's window and
the peer's largest frame allow. The peer opens the windows with WINDOW_UPDATE frames and moves
the initial window with SETTINGS.

A stream remembers what was accepted from the application (`accepted`), what the peer granted it
besides the initial window (`granted`), and the DATA frames that went out (`out`), each with what
the peer allowed at that moment. None of this is read by the code.

Streams stand in the session's vector and are named by their position there. A stream that has
settled is taken out of the vector, and the application can do nothing with it any more; it is
kept in `gone`. User code runs between the frames and calls, never inside a flush, so calls that a
listener makes are further events. The read side is kept as far as the send side depends on it.

The windows are integers. They are `int64_t` in the code: with less than `2 ^ 31` for each
WINDOW_UPDATE, they overflow after `2 ^ 32` of them at the earliest.
-/

namespace Scriptc.Runtime.Http2Flow

def SCR_H2_DEFAULT_WINDOW : ℕ := 65535

def SCR_H2_DEFAULT_MAX_FRAME : ℕ := 16384

inductive StreamState where
  | bothOpen
  | closedLocal
  | closedRemote
  | closed
  deriving DecidableEq

/-- A DATA frame that went out, with the peer's largest frame, the credit of the stream and of the
connection at that moment, and what the connection had sent by then, this frame included. -/
structure Frame where
  payload : Bytes
  endStream : Bool
  limit : ℕ
  credit : ℕ
  connectionCredit : ℕ
  connectionSent : ℕ
  deriving DecidableEq

/-- A stream with its window and what waits to be sent. -/
structure Stream where
  id : ℕ
  state : StreamState
  destroyed : Bool
  wantEnd : Bool
  endRecv : Bool
  endEmitted : Bool
  wbuf : Bytes
  sendWindow : ℤ
  accepted : Bytes
  granted : ℕ
  out : List Frame
  deriving DecidableEq

/-- A session with its streams; `gone` are those it has forgotten. -/
structure Session where
  streams : List Stream
  gone : List Stream
  sendWindow : ℤ
  peerMaxFrame : ℕ
  peerInitWindow : ℕ
  /-- How many more frames the socket takes, if there is an end to it. -/
  life : Option ℕ
  granted : ℕ
  sent : ℕ
  deriving DecidableEq

/-- The state when END_STREAM has been sent. -/
def StreamState.markLocalClosed (state : StreamState) : StreamState :=
  if state = .closedRemote || state = .closed then .closed else .closedLocal

namespace Stream

variable (st : Stream)

def localClosed : Bool := st.state = .closedLocal || st.state = .closed

/-- What went out. -/
def sent : Bytes := st.out.flatMap Frame.payload

end Stream

namespace Session

variable (s : Session)

def alive : Bool := s.life ≠ some 0

/-- The new session, whose socket takes so many frames. -/
def init (life : Option ℕ) : Session where
  streams := []
  gone := []
  sendWindow := SCR_H2_DEFAULT_WINDOW
  peerMaxFrame := SCR_H2_DEFAULT_MAX_FRAME
  peerInitWindow := SCR_H2_DEFAULT_WINDOW
  life
  granted := 0
  sent := 0

def maxFrame : ℕ := if s.peerMaxFrame ≠ 0 then s.peerMaxFrame else SCR_H2_DEFAULT_MAX_FRAME

def initWindow : ℕ := if s.peerInitWindow ≠ 0 then s.peerInitWindow else SCR_H2_DEFAULT_WINDOW

end Session

/-! ### Sending -/

/-- A DATA frame, as long as the socket lives. -/
def sendFrame (s : Session) (st : Stream) (payload : Bytes) (endStream : Bool) : Session × Stream :=
  if s.alive then
    ({ s with life := s.life.map (· - 1), sent := s.sent + payload.length },
      { st with out := st.out ++ [
        { payload, endStream, limit := s.peerMaxFrame, credit := s.peerInitWindow + st.granted,
          connectionCredit := SCR_H2_DEFAULT_WINDOW + s.granted, connectionSent := s.sent + payload.length }] })
  else (s, st)

/-- As many bytes as the windows and the peer take. -/
def frameLength (s : Session) (st : Stream) : ℕ :=
  let window := min st.sendWindow s.sendWindow
  min (min st.wbuf.length window.toNat) s.maxFrame

/-- END_STREAM rides the frame that empties the buffer. -/
def endsHere (s : Session) (st : Stream) : Bool := frameLength s st = st.wbuf.length && st.wantEnd

/-- One turn of the flush. -/
def flushOne (s : Session) (st : Stream) : Session × Stream :=
  let n := frameLength s st
  let r := sendFrame s st (st.wbuf.take n) (endsHere s st)
  ({ r.1 with sendWindow := r.1.sendWindow - n },
    { r.2 with
      sendWindow := r.2.sendWindow - n
      wbuf := r.2.wbuf.drop n
      state := if endsHere s st then r.2.state.markLocalClosed else r.2.state })

/-- Each turn sends a byte or more, so there are no more turns than bytes. -/
def flushLoop : ℕ → Session → Stream → Session × Stream
  | 0, s, st => (s, st)
  | k + 1, s, st =>
    if st.wbuf = [] ∨ min st.sendWindow s.sendWindow ≤ 0 then (s, st)
    else
      let r := flushOne s st
      flushLoop k r.1 r.2

/-- The bytes that the windows permit. END_STREAM rides the frame that empties the buffer, or an
empty one. -/
def flushStream (s : Session) (st : Stream) : Session × Stream :=
  let r := flushLoop st.wbuf.length s st
  if r.2.wbuf = [] && r.2.wantEnd && !r.2.localClosed then
    let r := sendFrame r.1 r.2 [] true
    (r.1, { r.2 with state := r.2.state.markLocalClosed })
  else r

/-- Take a stream out of the vector. -/
def settle (s : Session) (i : ℕ) : Session :=
  match s.streams[i]? with
  | none => s
  | some st => { s with streams := s.streams.eraseIdx i, gone := s.gone ++ [{ st with state := .closed }] }

def flush (s : Session) (i : ℕ) : Session :=
  match s.streams[i]? with
  | none => s
  | some st =>
    if st.destroyed || st.localClosed || !s.alive then s
    else
      let r := flushStream s st
      let s := { r.1 with streams := r.1.streams.set i r.2 }
      if r.2.state = .closed && (r.2.endEmitted || !r.2.endRecv) then settle s i else s

/-- Change a stream in its place. -/
def modify (s : Session) (i : ℕ) (f : Stream → Stream) : Session := { s with streams := s.streams.modify i f }

/-! ### The application -/

/-- Accept bytes. -/
def put (data : Bytes) (st : Stream) : Stream := { st with wbuf := st.wbuf ++ data, accepted := st.accepted ++ data }

def streamSend (s : Session) (i : ℕ) (data : Bytes) : Session :=
  match s.streams[i]? with
  | none => s
  | some st => if st.destroyed || st.localClosed then s else flush (modify s i (put data)) i

def streamEnd (s : Session) (i : ℕ) (data : Bytes) : Session :=
  match s.streams[i]? with
  | none => s
  | some st =>
    if st.destroyed || st.wantEnd || st.localClosed then s
    else flush (modify s i fun st => { put data st with wantEnd := true }) i

/-- The application closes or destroys a stream. -/
def streamDestroy (s : Session) (i : ℕ) : Session := settle (modify s i fun st => { st with destroyed := true }) i

/-! ### The peer -/

/-- A new stream, with one half of it closed or none. -/
def streamNew (s : Session) (id : ℕ) (state : StreamState) : Session :=
  { s with streams := s.streams ++ [
    { id, state, destroyed := false, wantEnd := false, endRecv := state = .closedRemote, endEmitted := false, wbuf := [],
      sendWindow := s.initWindow, accepted := [], granted := 0, out := [] }] }

def findStream (s : Session) (id : ℕ) : Option ℕ := s.streams.findIdx? fun st => st.id = id

/-- HEADERS that open a stream, and maybe end the peer's half of it. -/
def onHeaders (s : Session) (id : ℕ) (endStream : Bool) : Session :=
  match findStream s id with
  | none => streamNew s id (if endStream then .closedRemote else .bothOpen)
  | some _ => s

/-- A request of the application, maybe without a body. -/
def sessionRequest (s : Session) (id : ℕ) (endStream : Bool) : Session :=
  streamNew s id (if endStream then .closedLocal else .bothOpen)

/-- The loop over the vector, by position: move a stream's window, and flush it. -/
def sweep (delta : ℤ) (flushes : Bool) : ℕ → ℕ → Session → Session
  | 0, _, s => s
  | k + 1, i, s =>
    if s.streams.length ≤ i then s
    else
      let s := modify s i fun st => { st with sendWindow := st.sendWindow + delta }
      sweep delta flushes k (i + 1) (if flushes then flush s i else s)

/-- One entry of a SETTINGS frame; each is a step of a run. -/
def onSetting (s : Session) (id v : ℕ) : Session :=
  if id = 0x4 then
    let delta : ℤ := v - s.initWindow
    sweep delta (0 < delta) s.streams.length 0 { s with peerInitWindow := v }
  else if id = 0x5 then { s with peerMaxFrame := v }
  else s

def onWindowUpdate (s : Session) (id inc : ℕ) : Session :=
  if id = 0 then
    sweep 0 true s.streams.length 0 { s with sendWindow := s.sendWindow + inc, granted := s.granted + inc }
  else
    match findStream s id with
    | none => s
    | some i => flush (modify s i fun st => { st with sendWindow := st.sendWindow + inc, granted := st.granted + inc }) i

def onRstStream (s : Session) (id : ℕ) : Session :=
  match findStream s id with
  | none => s
  | some i => streamDestroy s i

/-- A DATA frame with END_STREAM. What it does to the read side comes after it. -/
def onDataEnd (s : Session) (id : ℕ) : Session :=
  match findStream s id with
  | none => s
  | some i => modify s i fun st =>
    if st.destroyed then st
    else { st with endRecv := true, state := if st.state = .closedLocal then .closed else .closedRemote }

/-- The HEADERS of a response, with END_STREAM. -/
def onHeadersEnd (s : Session) (id : ℕ) : Session :=
  match findStream s id with
  | none => s
  | some i => modify s i fun st =>
    if st.destroyed then st else { st with endRecv := true, state := if st.localClosed then .closed else .closedRemote }

/-! ### The read side and the end of a session -/

/-- The read side is done, and its listeners have been called. -/
def emitEnd (s : Session) (i : ℕ) : Session :=
  modify s i fun st => if st.endRecv && !st.destroyed then { st with endEmitted := true } else st

/-- Settle a stream whose halves are both done. -/
def settleRead (s : Session) (i : ℕ) : Session :=
  match s.streams[i]? with
  | none => s
  | some st =>
    if st.endEmitted && (st.state = .closed || (st.state = .closedRemote && st.wantEnd && st.wbuf = [])) then settle s i else s

/-- Settle every stream. -/
def abortStreams (s : Session) : Session :=
  { s with streams := [], gone := s.gone ++ s.streams.map fun st => { st with state := .closed } }

/-- What a peer sends or the program does. -/
inductive Event where
  | headers (id : ℕ) (endStream : Bool)
  | request (id : ℕ) (endStream : Bool)
  | write (i : ℕ) (data : Bytes)
  | ends (i : ℕ) (data : Bytes)
  | destroy (i : ℕ)
  | setting (id v : ℕ)
  | windowUpdate (id inc : ℕ)
  | rstStream (id : ℕ)
  | dataEnd (id : ℕ)
  | headersEnd (id : ℕ)
  | emitEnd (i : ℕ)
  | settleRead (i : ℕ)
  | abort
  | socketClosed

def step (s : Session) : Event → Session
  | .headers id endStream => onHeaders s id endStream
  | .request id endStream => sessionRequest s id endStream
  | .write i data => streamSend s i data
  | .ends i data => streamEnd s i data
  | .destroy i => streamDestroy s i
  | .setting id v => onSetting s id v
  | .windowUpdate id inc => onWindowUpdate s id inc
  | .rstStream id => onRstStream s id
  | .dataEnd id => onDataEnd s id
  | .headersEnd id => onHeadersEnd s id
  | .emitEnd i => emitEnd s i
  | .settleRead i => settleRead s i
  | .abort => abortStreams s
  | .socketClosed => { s with life := some 0 }

def run (s : Session) (events : List Event) : Session := events.foldl step s

end Scriptc.Runtime.Http2Flow
