import Mathlib.Data.List.Basic
import Mathlib.Data.List.Induction
import Scriptc.Lib.Bytes

/-!
# What an HTTP/2 session receives

The receiving side of `scr_http2.c`: the bytes of the socket come in pieces, are collected until a
frame is complete, and each frame goes to `scr_h2_on_frame`. What is done with the headers, the data
and the other frames is not looked into: the streams, the tables and the settings are one state, and
the handlers are arbitrary functions on it, which also say whether a listener destroyed the session.
No listener throws.
-/

namespace Scriptc.Runtime.Http2Receive

open List

def SCR_H2_F_DATA : ℕ := 0x0

def SCR_H2_F_HEADERS : ℕ := 0x1

def SCR_H2_F_RST_STREAM : ℕ := 0x3

def SCR_H2_F_PUSH_PROMISE : ℕ := 0x5

def SCR_H2_F_GOAWAY : ℕ := 0x7

def SCR_H2_F_WINDOW_UPDATE : ℕ := 0x8

def SCR_H2_F_CONTINUATION : ℕ := 0x9

def SCR_H2_FLAG_END_HEADERS : UInt8 := 0x4

def SCR_H2_FLAG_PADDED : UInt8 := 0x8

def SCR_H2_FLAG_PRIORITY : UInt8 := 0x20

/-- `PRI * HTTP/2.0\r\n\r\nSM\r\n\r\n` -/
def SCR_H2_PREFACE : Bytes :=
  [80, 82, 73, 32, 42, 32, 72, 84, 84, 80, 47, 50, 46, 48, 13, 10, 13, 10, 83, 77, 13, 10, 13, 10]

structure Frame where
  type : ℕ
  flags : UInt8
  streamId : ℕ
  payload : Bytes
  deriving DecidableEq

def Frame.has (f : Frame) (flag : UInt8) : Bool := f.flags &&& flag != 0

structure WindowUpdate where
  streamId : ℕ
  inc : ℕ
  deriving DecidableEq

/-- A frame that was no protocol error, and the windows that were opened for it. -/
structure Accepted where
  frame : Frame
  updates : List WindowUpdate
  deriving DecidableEq

/-- What the session does with what it receives. -/
structure Handlers (A H : Type) where
  hpackDecode : A → Bytes → A × Option H
  dispatchHeaders : A → ℕ → UInt8 → H → A × Bool
  data : A → Frame → Bytes → A × Bool
  /-- The frames that are neither headers nor data. -/
  control : A → Frame → A × Bool
  /-- The GOAWAY and the error event of a protocol error, and what else goes with the session. -/
  fail : A → A

/-- A session that receives, with what it has accepted. -/
structure Session (A : Type) where
  client : Bool
  prefaceDone : Bool
  destroyed : Bool
  lastRecvStreamId : ℕ
  hblock : Bytes
  hblockStream : ℕ
  hblockFlags : UInt8
  hblockActive : Bool
  app : A
  /-- The frames that were handed to `scr_h2_on_frame`. -/
  handed : List Frame
  accepted : List Accepted
  deriving DecidableEq

variable {A H : Type}

def Session.new (client : Bool) (app : A) : Session A where
  client := client
  prefaceDone := client
  destroyed := false
  lastRecvStreamId := 0
  hblock := []
  hblockStream := 0
  hblockFlags := 0
  hblockActive := false
  app := app
  handed := []
  accepted := []

/-- The payload without its padding. -/
def Frame.unpadded (f : Frame) : Option Bytes :=
  if f.has SCR_H2_FLAG_PADDED then
    match f.payload with
    | [] => none
    | pad :: p => if pad.toNat > p.length then none else some (p.take (p.length - pad.toNat))
  else some f.payload

def be32 (p : Bytes) : ℕ := p.foldl (fun v b => 256 * v + b.toNat) 0

/-- The state after a frame, whether the reader goes on, and the windows that are opened. -/
structure Handled (A : Type) where
  session : Session A
  continues : Bool
  updates : List WindowUpdate

def Session.ran (s : Session A) (r : A × Bool) : Session A := { s with app := r.1, destroyed := s.destroyed || r.2 }

def goOn (s : Session A) : Except (Session A) (Handled A) := .ok ⟨s, true, []⟩

/-- The end of a header block. -/
def decodeHeaders (h : Handlers A H) (s : Session A) (streamId : ℕ) : Except (Session A) (Handled A) :=
  match h.hpackDecode s.app s.hblock with
  | (app, none) => .error { s with app := app, hblock := [] }
  | (app, some headers) =>
    goOn ({ s with app := app, hblock := [] }.ran (h.dispatchHeaders app streamId s.hblockFlags headers))

def onHeaders (h : Handlers A H) (s : Session A) (f : Frame) : Except (Session A) (Handled A) :=
  match f.unpadded with
  | none => .error s
  | some p =>
    if f.has SCR_H2_FLAG_PRIORITY && p.length < 5 then .error s
    else
      let p := if f.has SCR_H2_FLAG_PRIORITY then p.drop 5 else p
      let s := { s with hblock := p, hblockStream := f.streamId, hblockFlags := f.flags }
      if f.has SCR_H2_FLAG_END_HEADERS then decodeHeaders h s f.streamId else goOn { s with hblockActive := true }

def onContinuation (h : Handlers A H) (s : Session A) (f : Frame) : Except (Session A) (Handled A) :=
  if !s.hblockActive || f.streamId != s.hblockStream then .error s
  else
    let s := { s with hblock := s.hblock ++ f.payload }
    if f.has SCR_H2_FLAG_END_HEADERS then decodeHeaders h { s with hblockActive := false } f.streamId else goOn s

/-- `scr_h2_send_window_update` for the connection and for the stream. -/
def windowUpdates (streamId : ℕ) (p : Bytes) : List WindowUpdate :=
  if p.length > 0 then [⟨0, p.length⟩, ⟨streamId, p.length⟩] else []

def onDataFrame (h : Handlers A H) (s : Session A) (f : Frame) : Except (Session A) (Handled A) :=
  match f.unpadded with
  | none => .error s
  | some p => .ok ⟨s.ran (h.data s.app f p), true, windowUpdates f.streamId p⟩

def onGoaway (h : Handlers A H) (s : Session A) (f : Frame) : Except (Session A) (Handled A) :=
  if f.payload.length < 8 then .error s
  else
    let s := s.ran (h.control s.app f)
    if be32 ((f.payload.drop 4).take 4) != 0 then .ok ⟨{ s with destroyed := true }, false, []⟩ else goOn s

/-- A promise is decoded and refused. -/
def onPushPromise (h : Handlers A H) (s : Session A) (f : Frame) : Except (Session A) (Handled A) :=
  match f.unpadded with
  | none => .error s
  | some p =>
    if p.length < 4 || !f.has SCR_H2_FLAG_END_HEADERS then .error s
    else
      match h.hpackDecode s.app (p.drop 4) with
      | (app, none) => .error { s with app := app }
      | (app, some _) => goOn ({ s with app := app }.ran (h.control app f))

/-- The cases of `scr_h2_on_frame`; an error is its `goto proto_err`. -/
def onFrameCase (h : Handlers A H) (s : Session A) (f : Frame) : Except (Session A) (Handled A) :=
  if s.hblockActive && f.type != SCR_H2_F_CONTINUATION then .error s
  else if f.type = SCR_H2_F_HEADERS then onHeaders h s f
  else if f.type = SCR_H2_F_CONTINUATION then onContinuation h s f
  else if f.type = SCR_H2_F_DATA then onDataFrame h s f
  else if f.type = SCR_H2_F_WINDOW_UPDATE ∨ f.type = SCR_H2_F_RST_STREAM then
    if f.payload.length ≠ 4 then .error s else goOn (s.ran (h.control s.app f))
  else if f.type = SCR_H2_F_GOAWAY then onGoaway h s f
  else if f.type = SCR_H2_F_PUSH_PROMISE then onPushPromise h s f
  else goOn (s.ran (h.control s.app f))

/-- `scr_h2_session_fail` and `scr_http2_session_destroy` -/
def failSession (h : Handlers A H) (s : Session A) : Session A := { s with app := h.fail s.app, destroyed := true }

def scrH2OnFrame (h : Handlers A H) (s : Session A) (f : Frame) : Session A × Bool :=
  match onFrameCase h { s with handed := s.handed ++ [f] } f with
  | .error s => (failSession h s, false)
  | .ok r => ({ r.session with accepted := r.session.accepted ++ [⟨f, r.updates⟩] }, r.continues)

/-- The first frame of a buffer, if it is complete, and the rest. -/
def readFrame : Bytes → Option (Frame × Bytes)
  | l0 :: l1 :: l2 :: type :: flags :: i0 :: i1 :: i2 :: i3 :: rest =>
    let len := be32 [l0, l1, l2]
    if rest.length < len then none
    else some (⟨type.toNat, flags, be32 [i0, i1, i2, i3] % 2 ^ 31, rest.take len⟩, rest.drop len)
  | _ => none

variable {f : Frame}

theorem readFrame_length {buf rest : Bytes} (h : readFrame buf = some (f, rest)) :
    rest.length < buf.length := by
  unfold readFrame at h
  split at h
  · dsimp only at h
    split at h
    · cases h
    · cases h
      simp only [length_drop, length_cons]
      omega
  · cases h

/-- Whether the peer opens a stream. -/
def Session.opens (s : Session A) (f : Frame) : Bool :=
  f.streamId > s.lastRecvStreamId && f.streamId % 2 == (if s.client then 0 else 1)

def Session.receive (s : Session A) (f : Frame) : Session A :=
  if s.opens f then { s with lastRecvStreamId := f.streamId } else s

/-- The loop of `scr_h2_on_data`. -/
def readFrames (h : Handlers A H) (s : Session A) (rbuf : Bytes) : Session A × Bytes :=
  if s.destroyed then (s, rbuf)
  else
    match _ : readFrame rbuf with
    | none => (s, rbuf)
    | some (f, rest) =>
      let r := scrH2OnFrame h (s.receive f) f
      if r.2 then readFrames h r.1 rest else (r.1, rest)
termination_by rbuf.length
decreasing_by exact readFrame_length ‹_›

/-- The session with its buffer. -/
structure Reader (A : Type) where
  session : Session A
  rbuf : Bytes

def Reader.of (r : Session A × Bytes) : Reader A := ⟨r.1, r.2⟩

def scrH2OnData (h : Handlers A H) (x : Reader A) (buf : Bytes) : Reader A :=
  if x.session.destroyed then x
  else
    let rbuf := x.rbuf ++ buf
    if !x.session.client && !x.session.prefaceDone then
      if rbuf.length < 24 then ⟨x.session, rbuf⟩
      else if rbuf.take 24 ≠ SCR_H2_PREFACE then ⟨failSession h x.session, rbuf⟩
      else .of (readFrames h { x.session with prefaceDone := true } (rbuf.drop 24))
    else .of (readFrames h x.session rbuf)

def Reader.new (client : Bool) (app : A) : Reader A := ⟨.new client app, []⟩

/-!
## HTTP/2: however the stream is cut

The frames of a session and what becomes of it depend on the stream only. The connection window is
given back for the data of a frame, which is less than what the frame took of it if it is padded.
-/

variable {A H : Type} {h : Handlers A H}

/-! ### What a frame leaves alone -/

/-- The windows that are opened for a frame. -/
def Frame.Credited (f : Frame) (updates : List WindowUpdate) : Prop :=
  if f.type = SCR_H2_F_DATA then ∃ p, f.unpadded = some p ∧ updates = windowUpdates f.streamId p else updates = []

/-- Of a case of a frame: who the session is and what was logged stays, and the reader stops only
when the session is destroyed. -/
def Keeps (s : Session A) (credited : List WindowUpdate → Prop) : Except (Session A) (Handled A) → Prop
  | .error s' => s'.client = s.client ∧ s'.prefaceDone = s.prefaceDone ∧ s'.accepted = s.accepted
  | .ok r => r.session.client = s.client ∧ r.session.prefaceDone = s.prefaceDone ∧ r.session.accepted = s.accepted ∧
      (r.continues = false → r.session.destroyed = true) ∧ credited r.updates

theorem keeps_goOn (s : Session A) {s' : Session A} (hc : s'.client = s.client) (hp : s'.prefaceDone = s.prefaceDone)
    (ha : s'.accepted = s.accepted) : Keeps s (· = []) (goOn s') :=
  ⟨hc, hp, ha, fun hn => Bool.noConfusion hn, rfl⟩

theorem keeps_decodeHeaders (s s' : Session A) (streamId : ℕ) (hc : s'.client = s.client)
    (hp : s'.prefaceDone = s.prefaceDone) (ha : s'.accepted = s.accepted) :
    Keeps s (· = []) (decodeHeaders h s' streamId) := by
  unfold decodeHeaders
  split
  · exact ⟨hc, hp, ha⟩
  · exact keeps_goOn s hc hp ha

theorem keeps_onHeaders (s : Session A) (f : Frame) : Keeps s (· = []) (onHeaders h s f) := by
  unfold onHeaders
  split
  · exact ⟨rfl, rfl, rfl⟩
  · split
    · exact ⟨rfl, rfl, rfl⟩
    · dsimp only
      cases f.has SCR_H2_FLAG_END_HEADERS with
      | true => exact keeps_decodeHeaders s _ _ rfl rfl rfl
      | false => exact keeps_goOn s rfl rfl rfl

theorem keeps_onContinuation (s : Session A) (f : Frame) : Keeps s (· = []) (onContinuation h s f) := by
  unfold onContinuation
  split
  · exact ⟨rfl, rfl, rfl⟩
  · dsimp only
    split
    · exact keeps_decodeHeaders s _ _ rfl rfl rfl
    · exact keeps_goOn s rfl rfl rfl

theorem keeps_onDataFrame (s : Session A) (f : Frame) :
    Keeps s (fun updates => ∃ p, f.unpadded = some p ∧ updates = windowUpdates f.streamId p) (onDataFrame h s f) := by
  unfold onDataFrame
  cases f.unpadded with
  | none => exact ⟨rfl, rfl, rfl⟩
  | some p => exact ⟨rfl, rfl, rfl, fun hn => Bool.noConfusion hn, p, rfl, rfl⟩

theorem keeps_onGoaway (s : Session A) (f : Frame) : Keeps s (· = []) (onGoaway h s f) := by
  unfold onGoaway
  split
  · exact ⟨rfl, rfl, rfl⟩
  · dsimp only
    split
    · exact ⟨rfl, rfl, rfl, fun _ => rfl, rfl⟩
    · exact keeps_goOn s rfl rfl rfl

theorem keeps_onPushPromise (s : Session A) (f : Frame) : Keeps s (· = []) (onPushPromise h s f) := by
  unfold onPushPromise
  split
  · exact ⟨rfl, rfl, rfl⟩
  · split
    · exact ⟨rfl, rfl, rfl⟩
    · split
      · exact ⟨rfl, rfl, rfl⟩
      · exact keeps_goOn s rfl rfl rfl

theorem keeps_onFrameCase (s : Session A) (f : Frame) : Keeps s f.Credited (onFrameCase h s f) := by
  unfold onFrameCase
  by_cases hd : f.type = SCR_H2_F_DATA
  · have hcredited : f.Credited = fun updates => ∃ p, f.unpadded = some p ∧ updates = windowUpdates f.streamId p := by
      funext updates
      exact if_pos hd
    rw [hcredited]
    split
    · exact ⟨rfl, rfl, rfl⟩
    · have hheaders : ¬f.type = SCR_H2_F_HEADERS := by
        rw [hd]
        decide
      have hcontinuation : ¬f.type = SCR_H2_F_CONTINUATION := by
        rw [hd]
        decide
      rw [if_neg hheaders, if_neg hcontinuation]
      exact keeps_onDataFrame s f
  · have hcredited : f.Credited = (· = []) := by
      funext updates
      exact if_neg hd
    rw [hcredited, if_neg hd]
    split
    · exact ⟨rfl, rfl, rfl⟩
    split
    · exact keeps_onHeaders s f
    split
    · exact keeps_onContinuation s f
    split
    · split
      · exact ⟨rfl, rfl, rfl⟩
      · exact keeps_goOn s rfl rfl rfl
    split
    · exact keeps_onGoaway s f
    split
    · exact keeps_onPushPromise s f
    · exact keeps_goOn s rfl rfl rfl

/-- What a frame does to the session, for the reader. -/
structure FrameKeeps (s : Session A) (f : Frame) (r : Session A × Bool) : Prop where
  client : r.1.client = s.client
  prefaceDone : r.1.prefaceDone = s.prefaceDone
  stops : r.2 = false → r.1.destroyed = true
  accepted : r.1.accepted = s.accepted ∨ ∃ updates, f.Credited updates ∧ r.1.accepted = s.accepted ++ [⟨f, updates⟩]

theorem scrH2OnFrame_keeps (s : Session A) (f : Frame) : FrameKeeps s f (scrH2OnFrame h s f) := by
  have hkeeps := keeps_onFrameCase (h := h) { s with handed := s.handed ++ [f] } f
  unfold scrH2OnFrame
  cases hcase : onFrameCase h { s with handed := s.handed ++ [f] } f with
  | error s' =>
    rw [hcase] at hkeeps
    obtain ⟨hclient, hpreface, haccepted⟩ := hkeeps
    exact ⟨hclient, hpreface, fun _ => rfl, .inl haccepted⟩
  | ok r =>
    rw [hcase] at hkeeps
    obtain ⟨hclient, hpreface, haccepted, hstops, hcredited⟩ := hkeeps
    refine ⟨hclient, hpreface, hstops, .inr ⟨r.updates, hcredited, ?_⟩⟩
    dsimp only
    rw [haccepted]

@[simp] theorem receive_client (s : Session A) (f : Frame) : (s.receive f).client = s.client := by
  unfold Session.receive
  split <;> rfl

@[simp] theorem receive_prefaceDone (s : Session A) (f : Frame) : (s.receive f).prefaceDone = s.prefaceDone := by
  unfold Session.receive
  split <;> rfl

@[simp] theorem receive_accepted (s : Session A) (f : Frame) : (s.receive f).accepted = s.accepted := by
  unfold Session.receive
  split <;> rfl

/-! ### The loop -/

theorem readFrame_append {a rest : Bytes} (hf : readFrame a = some (f, rest)) (b : Bytes) :
    readFrame (a ++ b) = some (f, rest ++ b) := by
  unfold readFrame at hf
  split at hf
  · dsimp only at hf
    split at hf
    · cases hf
    · next hlen =>
      cases hf
      simp only [cons_append, readFrame]
      rw [if_neg (by rw [length_append]; omega), take_append_of_le_length (by omega),
        drop_append_of_le_length (by omega)]
  · cases hf

variable {s : Session A}

theorem readFrames_destroyed (hd : s.destroyed = true) (rbuf : Bytes) :
    readFrames h s rbuf = (s, rbuf) := by
  rw [readFrames, if_pos hd]

theorem readFrames_none {rbuf : Bytes} (hf : readFrame rbuf = none) : readFrames h s rbuf = (s, rbuf) := by
  rw [readFrames]
  split
  · rfl
  · split
    · rfl
    · next hf' => cases hf.symm.trans hf'

theorem readFrames_some {rbuf rest : Bytes} (hd : ¬s.destroyed = true)
    (hf : readFrame rbuf = some (f, rest)) :
    readFrames h s rbuf =
      if (scrH2OnFrame h (s.receive f) f).2 then readFrames h (scrH2OnFrame h (s.receive f) f).1 rest
      else ((scrH2OnFrame h (s.receive f) f).1, rest) := by
  rw [readFrames, if_neg hd]
  split
  · next hf' => cases hf.symm.trans hf'
  · next hf' =>
    cases hf.symm.trans hf'
    rfl

/-- The same session, and the same buffer while it lives. -/
def Reader.Same (x y : Reader A) : Prop := x.session = y.session ∧ (x.session.destroyed = false → x.rbuf = y.rbuf)

theorem Reader.Same.trans {x y z : Reader A} (hxy : x.Same y) (hyz : y.Same z) : x.Same z :=
  ⟨hxy.1.trans hyz.1, fun hd => (hxy.2 hd).trans (hyz.2 (hxy.1 ▸ hd))⟩

/-- The loop with more bytes. -/
def resume (h : Handlers A H) (r : Session A × Bytes) (b : Bytes) : Reader A :=
  if r.1.destroyed then .of r else .of (readFrames h r.1 (r.2 ++ b))

theorem readFrames_append (s : Session A) (a b : Bytes) :
    (Reader.of (readFrames h s (a ++ b))).Same (resume h (readFrames h s a) b) := by
  fun_induction readFrames h s a with
  | case1 s a hd =>
    rw [readFrames_destroyed hd, resume, if_pos hd]
    exact ⟨rfl, fun hn => absurd (hd.symm.trans hn) (by decide)⟩
  | case2 s a hd hf =>
    rw [resume, if_neg hd]
    exact ⟨rfl, fun _ => rfl⟩
  | case3 s a hd f rest hf r hr ih =>
    rw [readFrames_some hd (readFrame_append hf b), if_pos hr]
    exact ih
  | case4 s a hd f rest hf r hr =>
    have hdestroyed := (scrH2OnFrame_keeps (h := h) (s.receive f) f).stops (Bool.eq_false_of_not_eq_true hr)
    rw [readFrames_some hd (readFrame_append hf b), if_neg hr, resume, if_pos hdestroyed]
    exact ⟨rfl, fun hn => absurd (hdestroyed.symm.trans hn) (by decide)⟩

/-- What the loop keeps of a session. -/
structure LoopKeeps (s s' : Session A) : Prop where
  client : s'.client = s.client
  prefaceDone : s'.prefaceDone = s.prefaceDone
  credited (hs : ∀ entry ∈ s.accepted, entry.frame.Credited entry.updates) :
    ∀ entry ∈ s'.accepted, entry.frame.Credited entry.updates

theorem loopKeeps_frame (s : Session A) (f : Frame) : LoopKeeps s (scrH2OnFrame h (s.receive f) f).1 := by
  have hkeeps := scrH2OnFrame_keeps (h := h) (s.receive f) f
  refine ⟨hkeeps.client.trans (receive_client s f), hkeeps.prefaceDone.trans (receive_prefaceDone s f),
    fun hs entry he => ?_⟩
  rcases hkeeps.accepted with haccepted | ⟨updates, hcredited, haccepted⟩
  · rw [haccepted, receive_accepted] at he
    exact hs entry he
  · rw [haccepted, receive_accepted] at he
    rcases mem_append.mp he with he | he
    · exact hs entry he
    · rw [mem_singleton.mp he]
      exact hcredited

theorem loopKeeps_readFrames (s : Session A) (rbuf : Bytes) : LoopKeeps s (readFrames h s rbuf).1 := by
  fun_induction readFrames h s rbuf with
  | case1 s a hd => exact ⟨rfl, rfl, id⟩
  | case2 s a hd hf => exact ⟨rfl, rfl, id⟩
  | case3 s a hd f rest hf r hr ih =>
    have hframe := loopKeeps_frame (h := h) s f
    exact ⟨ih.client.trans hframe.client, ih.prefaceDone.trans hframe.prefaceDone,
      fun hs => ih.credited (hframe.credited hs)⟩
  | case4 s a hd f rest hf r hr => exact loopKeeps_frame s f

/-! ### Pieces -/

theorem scrH2OnData_destroyed {x : Reader A} (hd : x.session.destroyed = true) (buf : Bytes) :
    scrH2OnData h x buf = x := by
  rw [scrH2OnData, if_pos hd]

theorem Reader.Same.refl (x : Reader A) : x.Same x := ⟨rfl, fun _ => rfl⟩

theorem Reader.Same.onData {x y : Reader A} (hs : x.Same y) (buf : Bytes) :
    (scrH2OnData h x buf).Same (scrH2OnData h y buf) := by
  cases hd : x.session.destroyed with
  | true =>
    rw [scrH2OnData_destroyed hd, scrH2OnData_destroyed (hs.1 ▸ hd)]
    exact hs
  | false =>
    have heq : x = y := by
      cases x
      cases y
      obtain ⟨hsession, hrbuf⟩ := hs
      simp only at hsession hd hrbuf
      rw [hsession, hrbuf hd]
    rw [heq]
    exact .refl _

/-- The loop goes on with the next piece. -/
theorem onData_readFrames (hp : (!s.client && !s.prefaceDone) = false) (a b : Bytes) :
    scrH2OnData h (.of (readFrames h s a)) b = resume h (readFrames h s a) b := by
  have hkeeps := loopKeeps_readFrames (h := h) s a
  unfold scrH2OnData resume
  rw [Reader.of]
  dsimp only
  rw [hkeeps.client, hkeeps.prefaceDone, hp]
  rfl

theorem onData_append (x : Reader A) (a b : Bytes) :
    (scrH2OnData h x (a ++ b)).Same (scrH2OnData h (scrH2OnData h x a) b) := by
  by_cases hd : x.session.destroyed = true
  · rw [scrH2OnData_destroyed hd, scrH2OnData_destroyed hd, scrH2OnData_destroyed hd]
    exact .refl x
  have happend : x.rbuf ++ (a ++ b) = x.rbuf ++ a ++ b := (append_assoc ..).symm
  cases hp : !x.session.client && !x.session.prefaceDone with
  | false =>
    have hnow (buf : Bytes) : scrH2OnData h x buf = .of (readFrames h x.session (x.rbuf ++ buf)) := by
      simp only [scrH2OnData, if_neg hd, hp, Bool.false_eq_true, if_false]
    rw [hnow, hnow, onData_readFrames hp, happend]
    exact readFrames_append ..
  | true =>
    by_cases hshort : (x.rbuf ++ a).length < 24
    · have hwait : scrH2OnData h x a = ⟨x.session, x.rbuf ++ a⟩ := by
        simp only [scrH2OnData, if_neg hd, hp, if_pos hshort, if_true]
      have hsame : scrH2OnData h x (a ++ b) = scrH2OnData h ⟨x.session, x.rbuf ++ a⟩ b := by
        simp only [scrH2OnData, happend, if_neg hd]
      rw [hwait, hsame]
      exact .refl _
    · have hlong : ¬(x.rbuf ++ a ++ b).length < 24 := by
        rw [length_append]
        omega
      have htake : (x.rbuf ++ a ++ b).take 24 = (x.rbuf ++ a).take 24 := take_append_of_le_length (by omega)
      have hdrop : (x.rbuf ++ a ++ b).drop 24 = (x.rbuf ++ a).drop 24 ++ b := drop_append_of_le_length (by omega)
      by_cases hpreface : (x.rbuf ++ a).take 24 ≠ SCR_H2_PREFACE
      · have hfirst : scrH2OnData h x a = ⟨failSession h x.session, x.rbuf ++ a⟩ := by
          simp only [scrH2OnData, if_neg hd, hp, if_true, if_neg hshort, if_pos hpreface]
        have hwhole : scrH2OnData h x (a ++ b) = ⟨failSession h x.session, x.rbuf ++ a ++ b⟩ := by
          simp only [scrH2OnData, if_neg hd, hp, if_true, happend, if_neg hlong, htake, if_pos hpreface]
        rw [hfirst, hwhole, scrH2OnData_destroyed rfl]
        exact ⟨rfl, fun hn => absurd hn (by simp [failSession])⟩
      · have hfirst : scrH2OnData h x a =
            .of (readFrames h { x.session with prefaceDone := true } ((x.rbuf ++ a).drop 24)) := by
          simp only [scrH2OnData, if_neg hd, hp, if_true, if_neg hshort, if_neg hpreface]
        have hwhole : scrH2OnData h x (a ++ b) =
            .of (readFrames h { x.session with prefaceDone := true } ((x.rbuf ++ a).drop 24 ++ b)) := by
          simp only [scrH2OnData, if_neg hd, hp, if_true, happend, if_neg hlong, htake, if_neg hpreface, hdrop]
        rw [hfirst, hwhole, onData_readFrames (by simp)]
        exact readFrames_append ..

/-- A session that gets its stream in pieces. -/
def receive (h : Handlers A H) (client : Bool) (app : A) (pieces : List Bytes) : Session A :=
  (pieces.foldl (scrH2OnData h) (.new client app)).session

theorem onData_new (client : Bool) (app : A) : scrH2OnData h (.new client app) [] = .new client app := by
  cases client with
  | true =>
    simp only [scrH2OnData, Reader.new, Session.new, Bool.not_true, Bool.false_and, Bool.false_eq_true, if_false,
      append_nil]
    rw [readFrames_none rfl]
    rfl
  | false => rfl

theorem onData_pieces (client : Bool) (app : A) (pieces : List Bytes) :
    (scrH2OnData h (.new client app) pieces.flatten).Same (pieces.foldl (scrH2OnData h) (.new client app)) := by
  induction pieces using reverseRecOn with
  | nil =>
    rw [flatten_nil, onData_new]
    exact .refl _
  | append_singleton pieces piece ih =>
    rw [flatten_concat, foldl_concat]
    exact (onData_append ..).trans (ih.onData piece)

theorem credited_onData (x : Reader A) (buf : Bytes)
    (hx : ∀ entry ∈ x.session.accepted, entry.frame.Credited entry.updates) :
    ∀ entry ∈ (scrH2OnData h x buf).session.accepted, entry.frame.Credited entry.updates := by
  unfold scrH2OnData
  split
  · exact hx
  · dsimp only
    split
    · split
      · exact hx
      split
      · exact hx
      · exact (loopKeeps_readFrames _ _).credited hx
    · exact (loopKeeps_readFrames _ _).credited hx

theorem credited_receive (client : Bool) (app : A) (pieces : List Bytes) :
    ∀ entry ∈ (receive h client app pieces).accepted, entry.frame.Credited entry.updates := by
  unfold receive
  induction pieces using reverseRecOn with
  | nil =>
    intro entry he
    cases he
  | append_singleton pieces piece ih =>
    rw [foldl_concat]
    exact credited_onData _ piece ih

/-! ### Credit -/

/-- What the peer gets back of the connection window. -/
def credit (entries : List Accepted) : ℕ :=
  (((entries.flatMap Accepted.updates).filter fun update => update.streamId = 0).map WindowUpdate.inc).sum

/-- What the peer used of it. -/
def flowControlled (entries : List Accepted) : ℕ :=
  ((entries.filter fun entry => entry.frame.type = SCR_H2_F_DATA).map fun entry => entry.frame.payload.length).sum

/-- A frame on stream 0 counts twice, so half of it must be padding. -/
def Frame.Balanced (f : Frame) : Prop :=
  if f.streamId = 0 then
    if f.has SCR_H2_FLAG_PADDED then ∃ pad p, f.payload = pad :: p ∧ f.payload.length = 2 * (pad.toNat + 1)
    else f.payload = []
  else f.has SCR_H2_FLAG_PADDED = false

theorem credit_cons (entry : Accepted) (entries : List Accepted) :
    credit (entry :: entries) = credit [entry] + credit entries := by
  simp [credit]

theorem flowControlled_cons (entry : Accepted) (entries : List Accepted) :
    flowControlled (entry :: entries) = flowControlled [entry] + flowControlled entries := by
  by_cases hd : entry.frame.type = SCR_H2_F_DATA <;> simp [flowControlled, hd]

theorem credit_take_iff (entries : List Accepted) :
    (∀ k, credit (entries.take k) = flowControlled (entries.take k)) ↔
      ∀ entry ∈ entries, credit [entry] = flowControlled [entry] := by
  induction entries with
  | nil => simp [credit, flowControlled]
  | cons entry entries ih =>
    rw [forall_mem_cons, ← ih]
    constructor
    · intro hk
      have hfirst := hk 1
      rw [take_succ_cons, take_zero] at hfirst
      refine ⟨hfirst, fun k => ?_⟩
      have hnext := hk (k + 1)
      rw [take_succ_cons, credit_cons, flowControlled_cons, hfirst] at hnext
      exact Nat.add_left_cancel hnext
    · rintro ⟨hfirst, hrest⟩ k
      cases k with
      | zero => rfl
      | succ k => rw [take_succ_cons, credit_cons, flowControlled_cons, hfirst, hrest k]

theorem credit_windowUpdates (f : Frame) (p : Bytes) :
    credit [⟨f, windowUpdates f.streamId p⟩] = if f.streamId = 0 then 2 * p.length else p.length := by
  unfold windowUpdates
  by_cases hp : p.length > 0
  · by_cases hid : f.streamId = 0 <;> simp [credit, hp, hid, Nat.two_mul]
  · have hzero : p.length = 0 := by omega
    simp [credit, hzero]

/-- Of a frame whose padding is right. -/
theorem balanced_iff {p : Bytes} (hp : f.unpadded = some p) :
    (if f.streamId = 0 then 2 * p.length else p.length) = f.payload.length ↔ f.Balanced := by
  unfold Frame.unpadded at hp
  unfold Frame.Balanced
  cases hpad : f.has SCR_H2_FLAG_PADDED with
  | false =>
    simp only [hpad, Bool.false_eq_true, if_false, Option.some.injEq] at hp
    subst hp
    by_cases hid : f.streamId = 0
    · simp only [if_pos hid, Bool.false_eq_true, if_false, ← length_eq_zero_iff]
      omega
    · simp only [if_neg hid]
  | true =>
    simp only [hpad, if_true] at hp
    cases hpayload : f.payload with
    | nil =>
      rw [hpayload] at hp
      cases hp
    | cons pad q =>
      rw [hpayload] at hp
      simp only at hp
      split at hp
      · cases hp
      · next hle =>
        cases hp
        simp only [length_take, length_cons]
        by_cases hid : f.streamId = 0
        · simp only [if_pos hid, if_true]
          constructor
          · intro hlen
            exact ⟨pad, q, rfl, by omega⟩
          · rintro ⟨pad', q', heq, hlen⟩
            cases heq
            omega
        · simp only [if_neg hid, Bool.true_eq_false, iff_false]
          omega

theorem credit_entry_iff {entry : Accepted} (hc : entry.frame.Credited entry.updates) :
    credit [entry] = flowControlled [entry] ↔ (entry.frame.type = SCR_H2_F_DATA → entry.frame.Balanced) := by
  obtain ⟨f, updates⟩ := entry
  by_cases hd : f.type = SCR_H2_F_DATA
  · have hdata : ∃ p, f.unpadded = some p ∧ updates = windowUpdates f.streamId p := cast (if_pos hd) hc
    obtain ⟨p, hp, rfl⟩ := hdata
    have hflow : flowControlled [⟨f, windowUpdates f.streamId p⟩] = f.payload.length := by
      simp [flowControlled, hd]
    rw [hflow, credit_windowUpdates, balanced_iff hp]
    simp [hd]
  · obtain rfl : updates = [] := cast (if_neg hd) hc
    simp [credit, flowControlled, hd]

/-! ### Results -/

/-- A stream is served the same however it is cut, and its credit returns. -/
structure Serves (h : Handlers A H) (client : Bool) (app : A) (pieces : List Bytes) : Prop where
  /-- The frames and the session are those of the stream in one piece. -/
  cut : receive h client app pieces = receive h client app [pieces.flatten]
  /-- After each accepted frame the peer has its connection window back. -/
  credited (k : ℕ) : credit ((receive h client app pieces).accepted.take k) =
    flowControlled ((receive h client app pieces).accepted.take k)

/-- The cuts never matter; the window is full as long as the DATA frames are not padded. -/
theorem receive_serves_iff (h : Handlers A H) (client : Bool) (app : A) (pieces : List Bytes) :
    Serves h client app pieces ↔
      ∀ entry ∈ (receive h client app pieces).accepted, entry.frame.type = SCR_H2_F_DATA → entry.frame.Balanced := by
  have hcredited := credited_receive (h := h) client app pieces
  have hcut : receive h client app pieces = receive h client app [pieces.flatten] :=
    (onData_pieces client app pieces).1.symm
  constructor
  · intro hs entry he
    exact (credit_entry_iff (hcredited entry he)).mp ((credit_take_iff _).mp hs.credited entry he)
  · intro hb
    refine ⟨hcut, (credit_take_iff _).mpr fun entry he => ?_⟩
    exact (credit_entry_iff (hcredited entry he)).mpr (hb entry he)

/-- Handlers that do nothing. -/
def idle : Handlers Unit Unit where
  hpackDecode _ _ := ((), some ())
  dispatchHeaders _ _ _ _ := ((), false)
  data _ _ _ := ((), false)
  control _ _ := ((), false)
  fail _ := ()

/-- One byte of data and one of padding: the peer gets one byte back for three. -/
theorem not_receive_serves : ¬ ∀ pieces, Serves idle true () pieces := by
  intro hs
  have hcredited := (hs [[0, 0, 3, 0, 8, 0, 0, 0, 1, 1, 97, 0]]).credited 1
  have hreceive : (receive idle true () [[0, 0, 3, 0, 8, 0, 0, 0, 1, 1, 97, 0]]).accepted =
      [⟨⟨0, 8, 1, [1, 97, 0]⟩, [⟨0, 1⟩, ⟨1, 1⟩]⟩] := by
    simp only [receive, foldl_cons, foldl_nil, scrH2OnData, Reader.new, Session.new, Bool.not_true,
      Bool.false_and, Bool.false_eq_true, if_false, nil_append, Reader.of]
    rw [readFrames_some (by decide) rfl, if_pos (by decide), readFrames_none rfl]
    decide
  rw [hreceive] at hcredited
  exact absurd hcredited (by decide)

end Scriptc.Runtime.Http2Receive
