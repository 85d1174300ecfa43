import Scriptc.Runtime.Http2Flow
import Mathlib.Data.List.Basic

/-!
# Flow control is kept

On every stream the DATA frames carry, in order, what the application wrote, each frame is one
that the peer allowed when it went out, and END_STREAM comes once and last; and no stream is left
with bytes and credit. This holds in every run that keeps clear of four things: an initial window
or a largest frame of zero, which the code takes for one that was not set; a loop over the
streams in which a stream that is not the last one settles, so that the next one is passed over;
and a second END_STREAM of the peer on a stream that both sides have ended, which opens our half
again.
-/

namespace Scriptc.Runtime.Http2Flow

open List

/-! ### In order, within the credit, none left unused -/

/-- Each frame was allowed when it went out: it is no longer than the peer's largest frame, and
with a payload it exceeds neither the credit of its stream nor that of the connection. -/
def Within (out : List Frame) : Prop :=
  ∀ pre f post, out = pre ++ f :: post → f.payload.length ≤ f.limit ∧
    (f.payload ≠ [] → (pre.flatMap Frame.payload).length + f.payload.length ≤ f.credit ∧
      f.connectionSent ≤ f.connectionCredit)

/-- END_STREAM comes on the last frame, and then everything that was accepted is out. -/
def EndsLast (st : Stream) : Prop :=
  ∀ pre f post, st.out = pre ++ f :: post → f.endStream = true → post = [] ∧ st.sent = st.accepted

/-- What holds of a stream for good. -/
structure Past (st : Stream) : Prop where
  inOrder : st.sent <+: st.accepted
  within : Within st.out
  endsLast : EndsLast st

/-- What was written is sent in order, within the credit, and none is left unused. -/
structure Correct (s : Session) : Prop where
  past : ∀ st ∈ s.streams ++ s.gone, Past st
  sent : ((s.streams ++ s.gone).map fun st => st.sent.length).sum = s.sent
  /-- No stream that can send has bytes and credit. -/
  flushed : s.alive = true → ∀ st ∈ s.streams, st.destroyed = false → st.localClosed = false → st.wbuf ≠ [] →
    s.peerInitWindow + st.granted ≤ st.sent.length ∨ SCR_H2_DEFAULT_WINDOW + s.granted ≤ s.sent

/-! ### The condition -/

/-- What the windows leave to a stream. -/
def room (conn : ℤ) (st : Stream) : ℕ := (min st.sendWindow conn).toNat

/-- What a flush of a stream takes. -/
def takes (conn : ℤ) (st : Stream) : ℕ := if st.destroyed || st.localClosed then 0 else min st.wbuf.length (room conn st)

/-- The peer has ended the stream, the application has ended it, and all that is left fits. -/
def finishes (conn : ℤ) (st : Stream) : Bool :=
  !st.destroyed && st.state = .closedRemote && st.wantEnd && (st.endEmitted || !st.endRecv) && st.wbuf.length ≤ room conn st

/-- Of the streams that are flushed one after the other, only the last may settle. -/
def calm (conn : ℤ) : List Stream → Bool
  | [] => true
  | [_] => true
  | st :: st' :: sts => !finishes conn st && calm (conn - takes conn st) (st' :: sts)

def shift (delta : ℤ) (st : Stream) : Stream := { st with sendWindow := st.sendWindow + delta }

/-- An event that the code handles. -/
def fits (s : Session) : Event → Bool
  | .setting id v =>
    (id ≠ 4 || (v ≠ 0 && (v ≤ s.initWindow || calm s.sendWindow (s.streams.map (shift (v - s.initWindow)))))) &&
      (id ≠ 5 || v ≠ 0)
  | .windowUpdate id inc => id ≠ 0 || calm (s.sendWindow + inc) s.streams
  | .dataEnd id => (findStream s id).all fun i => s.streams[i]?.all fun st => st.state ≠ .closed
  | _ => true

/-- Events that are handled one after the other. -/
def fitsAll : Session → List Event → Bool
  | _, [] => true
  | s, e :: es => fits s e && fitsAll (step s e) es

/-! ### Frames -/

theorem snoc_split {α : Type} {out pre post : List α} {f x : α} (h : out ++ [f] = pre ++ x :: post) :
    (post = [] ∧ pre = out ∧ x = f) ∨ ∃ post', post = post' ++ [f] ∧ out = pre ++ x :: post' := by
  obtain rfl | ⟨post', y, rfl⟩ := post.eq_nil_or_concat'
  · obtain ⟨h1, h2⟩ := append_inj' h rfl
    exact .inl ⟨rfl, h1.symm, (List.cons.inj h2).1.symm⟩
  · rw [← cons_append, ← append_assoc] at h
    obtain ⟨h1, h2⟩ := append_inj' h rfl
    obtain rfl := (List.cons.inj h2).1
    exact .inr ⟨post', rfl, h1⟩

theorem Within.snoc {out : List Frame} {f : Frame} (w : Within out) (hl : f.payload.length ≤ f.limit)
    (hc : f.payload ≠ [] → (out.flatMap Frame.payload).length + f.payload.length ≤ f.credit ∧
      f.connectionSent ≤ f.connectionCredit) : Within (out ++ [f]) := by
  intro pre x post h
  rcases snoc_split h with ⟨-, rfl, rfl⟩ | ⟨post', -, h'⟩
  · exact ⟨hl, hc⟩
  · exact w pre x post' h'

theorem within_nil : Within [] := by
  intro pre f post h
  simp at h

/-! ### A stream in its session -/

/-- A stream and its session agree on what was sent, as long as the socket lives. -/
structure Link (s : Session) (init : ℕ) (st : Stream) : Prop where
  past : Past st
  exact : s.alive = true → st.sent ++ st.wbuf = st.accepted
  window : s.alive = true → st.sendWindow + st.sent.length = init + st.granted
  closes : ∀ f ∈ st.out, f.endStream = true → st.localClosed = true

/-- So do the session and its streams. -/
def Conn (s : Session) : Prop := s.alive = true → s.sendWindow + s.sent = SCR_H2_DEFAULT_WINDOW + s.granted

/-- A stream with bytes or an end to send cannot send them. -/
def Quiet (s : Session) (st : Stream) : Prop :=
  s.alive = true → st.destroyed = false → st.localClosed = false →
    (st.wbuf = [] ∧ st.wantEnd = false) ∨ (st.wbuf ≠ [] ∧ (st.sendWindow ≤ 0 ∨ s.sendWindow ≤ 0))

theorem alive_of_sendFrame {s : Session} {st : Stream} {p : Bytes} {e : Bool} (h : (sendFrame s st p e).1.alive = true) :
    s.alive = true := by
  by_contra hd
  rw [sendFrame, if_neg hd] at h
  exact hd h

variable {s' : Session} {st' : Stream}

/-- One frame: as many bytes of the buffer as the windows allow, and END_STREAM only with the last
of them. -/
theorem Link.frame {s : Session} {st : Stream} (w : Link s s.peerInitWindow st) (hconn : Conn s)
    (hopen : st.localClosed = false) {n : ℕ} {last : Bool} (hn : n ≤ st.wbuf.length) (hmax : n ≤ s.peerMaxFrame)
    (hroom : n ≠ 0 → (n : ℤ) ≤ st.sendWindow ∧ (n : ℤ) ≤ s.sendWindow) (hlast : last = true → n = st.wbuf.length)
   
    (hs : s' = { (sendFrame s st (st.wbuf.take n) last).1 with
      sendWindow := (sendFrame s st (st.wbuf.take n) last).1.sendWindow - n })
    (hout : st'.out = (sendFrame s st (st.wbuf.take n) last).2.out) (hacc : st'.accepted = st.accepted)
    (hbuf : st'.wbuf = st.wbuf.drop n) (hwin : st'.sendWindow = st.sendWindow - n) (hgr : st'.granted = st.granted)
    (hmark : last = true → st'.localClosed = true) : Link s' s'.peerInitWindow st' := by
  have hno : ∀ f ∈ st.out, ¬f.endStream = true := by
    intro f hf he
    rw [w.closes f hf he] at hopen
    cases hopen
  by_cases ha : s.alive = true
  · rw [sendFrame, if_pos ha] at hs hout
    dsimp only at hs hout
    have hexact := w.exact ha
    have hwindow := w.window ha
    have hlen : (st.wbuf.take n).length = n := by rw [length_take, min_eq_left hn]
    have hsent : st'.sent = st.sent ++ st.wbuf.take n := by
      rw [Stream.sent, hout, flatMap_append, flatMap_singleton]
      rfl
    have hall : st'.sent ++ st'.wbuf = st'.accepted := by
      rw [hsent, hbuf, hacc, append_assoc, take_append_drop, hexact]
    refine ⟨⟨⟨st'.wbuf, hall⟩, ?_, ?_⟩, fun _ => hall, fun _ => ?_, ?_⟩
    · rw [hout]
      refine w.past.within.snoc (by rw [hlen]; exact hmax) fun hne => ?_
      have hn0 : n ≠ 0 := by
        rintro rfl
        exact hne (by simp)
      obtain ⟨h1, h2⟩ := hroom hn0
      have h3 := hconn ha
      have h4 : (st.out.flatMap Frame.payload).length = st.sent.length := rfl
      simp only [hlen, h4]
      omega
    · intro pre f post hsplit he
      rw [hout] at hsplit
      rcases snoc_split hsplit with ⟨rfl, -, rfl⟩ | ⟨post', -, h'⟩
      · refine ⟨rfl, ?_⟩
        rw [hlast he, drop_length] at hbuf
        rwa [hbuf, append_nil] at hall
      · exact absurd he (hno f (by rw [h']; simp))
    · rw [hwin, hsent, length_append, hlen, hgr, hs]
      push_cast
      omega
    · intro f hf he
      rw [hout, mem_append, mem_singleton] at hf
      rcases hf with hf | rfl
      · exact absurd he (hno f hf)
      · exact hmark he
  · rw [sendFrame, if_neg ha] at hs hout
    dsimp only at hs hout
    have hsent : st'.sent = st.sent := by rw [Stream.sent, hout]; rfl
    have ha' : ¬s'.alive = true := by rw [hs]; exact ha
    refine ⟨⟨?_, ?_, ?_⟩, fun h => absurd h ha', fun h => absurd h ha', ?_⟩
    · rw [hsent, hacc]
      exact w.past.inOrder
    · rw [hout]
      exact w.past.within
    · intro pre f post hsplit he
      rw [hout] at hsplit
      exact absurd he (hno f (by rw [hsplit]; simp))
    · intro f hf he
      rw [hout] at hf
      exact absurd he (hno f hf)

theorem Conn.frame {s : Session} {st : Stream} (hconn : Conn s) {n : ℕ} (hn : n ≤ st.wbuf.length) (last : Bool) :
    Conn { (sendFrame s st (st.wbuf.take n) last).1 with
      sendWindow := (sendFrame s st (st.wbuf.take n) last).1.sendWindow - n } := by
  intro ha
  have ha : s.alive = true := alive_of_sendFrame ha
  have hlen : (st.wbuf.take n).length = n := by rw [length_take, min_eq_left hn]
  have h := hconn ha
  rw [sendFrame, if_pos ha]
  push_cast
  rw [hlen]
  omega

/-! ### A flush -/

/-- What a flush does to a stream and its session: it takes so many bytes. -/
structure Flow (s : Session) (st : Stream) (s' : Session) (st' : Stream) (d : ℕ) : Prop where
  link : Link s' s'.peerInitWindow st'
  conn : Conn s'
  alive : s'.alive = true → s.alive = true
  session : s' = { s with sendWindow := s.sendWindow - d, life := s'.life, sent := s'.sent }
  stream : st' = { st with state := st'.state, wbuf := st.wbuf.drop d, sendWindow := st.sendWindow - d, out := st'.out }
  sent : s'.sent + st.sent.length = s.sent + st'.sent.length

theorem Flow.trans {s s₁ s₂ : Session} {st st₁ st₂ : Stream} {d e : ℕ} (f : Flow s st s₁ st₁ d) (g : Flow s₁ st₁ s₂ st₂ e) :
    Flow s st s₂ st₂ (d + e) where
  link := g.link
  conn := g.conn
  alive h := f.alive (g.alive h)
  session := by
    rw [g.session, f.session]
    simp only [Session.mk.injEq, true_and, and_true]
    push_cast
    omega
  stream := by
    rw [g.stream, f.stream]
    simp only [drop_drop, Stream.mk.injEq, true_and, and_true]
    push_cast
    omega
  sent := by
    have h1 := f.sent
    have h2 := g.sent
    omega

theorem sendFrame_session (s : Session) (st : Stream) (p : Bytes) (e : Bool) : (sendFrame s st p e).1 =
    { s with life := (sendFrame s st p e).1.life, sent := (sendFrame s st p e).1.sent } := by
  rw [sendFrame]
  split_ifs <;> rfl

theorem sendFrame_stream (s : Session) (st : Stream) (p : Bytes) (e : Bool) :
    (sendFrame s st p e).2 = { st with out := (sendFrame s st p e).2.out } := by
  rw [sendFrame]
  split_ifs <;> rfl

theorem sendFrame_sent (s : Session) (st : Stream) (p : Bytes) (e : Bool) :
    (sendFrame s st p e).1.sent + st.sent.length = s.sent + (sendFrame s st p e).2.sent.length := by
  rw [sendFrame]
  split_ifs
  · simp only [Stream.sent, flatMap_append, flatMap_singleton, length_append]
    omega
  · rfl

variable {s : Session} {st : Stream}

theorem localClosed_mark {state : StreamState} (h : st.state = state.markLocalClosed) : st.localClosed = true := by
  rw [Stream.localClosed, h]
  cases state <;> rfl

/-- One frame of a flush. -/
theorem flow_frame (w : Link s s.peerInitWindow st) (hconn : Conn s) (hopen : st.localClosed = false) {n : ℕ} {last : Bool}
    (hn : n ≤ st.wbuf.length) (hmax : n ≤ s.peerMaxFrame)
    (hroom : n ≠ 0 → (n : ℤ) ≤ st.sendWindow ∧ (n : ℤ) ≤ s.sendWindow) (hlast : last = true → n = st.wbuf.length) :
    Flow s st
      { (sendFrame s st (st.wbuf.take n) last).1 with
        sendWindow := (sendFrame s st (st.wbuf.take n) last).1.sendWindow - n }
      { (sendFrame s st (st.wbuf.take n) last).2 with
        sendWindow := (sendFrame s st (st.wbuf.take n) last).2.sendWindow - n
        wbuf := (sendFrame s st (st.wbuf.take n) last).2.wbuf.drop n
        state := if last then (sendFrame s st (st.wbuf.take n) last).2.state.markLocalClosed
          else (sendFrame s st (st.wbuf.take n) last).2.state } n := by
  have hst := sendFrame_stream s st (st.wbuf.take n) last
  have hse := sendFrame_session s st (st.wbuf.take n) last
  refine ⟨w.frame hconn hopen hn hmax hroom hlast rfl rfl ?_ ?_ ?_ ?_ ?_, hconn.frame hn last, fun h => ?_, ?_, ?_, ?_⟩
  · rw [hst]
  · rw [hst]
  · rw [hst]
  · rw [hst]
  · intro hl
    exact localClosed_mark (if_pos hl)
  · exact alive_of_sendFrame h
  · rw [hse]
  · rw [hst]
  · exact sendFrame_sent s st (st.wbuf.take n) last

theorem flow_refl (w : Link s s.peerInitWindow st) (hconn : Conn s) : Flow s st s st 0 :=
  ⟨w, hconn, id, by simp, by simp, rfl⟩

/-- One turn. -/
theorem flow_flushOne (w : Link s s.peerInitWindow st) (hconn : Conn s) (hopen : st.localClosed = false)
    (hmax : s.peerMaxFrame ≠ 0) : Flow s st (flushOne s st).1 (flushOne s st).2 (frameLength s st) := by
  have hlim : s.maxFrame = s.peerMaxFrame := if_pos hmax
  have hle : frameLength s st ≤ room s.sendWindow st := (min_le_left _ _).trans (min_le_right _ _)
  refine flow_frame w hconn hopen ((min_le_left _ _).trans (min_le_left _ _)) ((min_le_right _ _).trans_eq hlim) ?_ ?_
  · intro h0
    rw [room] at hle
    omega
  · intro hl
    rw [endsHere, Bool.and_eq_true, decide_eq_true_eq] at hl
    exact hl.1

theorem state_flushOne (s : Session) (st : Stream) :
    (flushOne s st).2.state = if endsHere s st then st.state.markLocalClosed else st.state := by
  have hst := sendFrame_stream s st (st.wbuf.take (frameLength s st)) (endsHere s st)
  rw [flushOne]
  dsimp only
  rw [hst]

theorem flushLoop_nil {k : ℕ} (h : st.wbuf = []) : flushLoop k s st = (s, st) := by
  cases k with
  | zero => rfl
  | succ k => rw [flushLoop, if_pos (.inl h)]

/-- The turns of a flush take what there is, up to what the windows leave. -/
theorem flow_flushLoop {k : ℕ} (hk : st.wbuf.length ≤ k) (w : Link s s.peerInitWindow st) (hconn : Conn s)
    (hopen : st.localClosed = false) (hmax : s.peerMaxFrame ≠ 0) :
    Flow s st (flushLoop k s st).1 (flushLoop k s st).2 (min st.wbuf.length (room s.sendWindow st)) ∧
      (flushLoop k s st).2.state =
        if st.wbuf ≠ [] ∧ st.wbuf.length ≤ room s.sendWindow st ∧ st.wantEnd = true then st.state.markLocalClosed
        else st.state := by
  induction k generalizing s st with
  | zero =>
    have h0 : st.wbuf = [] := length_eq_zero_iff.mp (Nat.le_zero.mp hk)
    rw [flushLoop_nil h0, h0, if_neg (fun h => h.1 rfl), length_nil, Nat.zero_min]
    exact ⟨flow_refl w hconn, rfl⟩
  | succ k ih =>
    rw [flushLoop]
    by_cases hstop : st.wbuf = [] ∨ min st.sendWindow s.sendWindow ≤ 0
    · have hnone : st.wbuf = [] ∨ room s.sendWindow st = 0 := hstop.imp_right fun h => by rw [room]; omega
      have hzero : min st.wbuf.length (room s.sendWindow st) = 0 := by
        rcases hnone with h | h
        · rw [h, length_nil, Nat.zero_min]
        · rw [h, Nat.min_zero]
      have hgo : ¬(st.wbuf ≠ [] ∧ st.wbuf.length ≤ room s.sendWindow st ∧ st.wantEnd = true) := by
        rintro ⟨h1, h2, -⟩
        rcases hnone with h | h
        · exact h1 h
        · exact h1 (length_eq_zero_iff.mp (by omega))
      rw [if_pos hstop, if_neg hgo, hzero]
      exact ⟨flow_refl w hconn, rfl⟩
    · rw [if_neg hstop]
      rw [not_or, not_le] at hstop
      obtain ⟨hne, hpos⟩ := hstop
      have hlen : 0 < st.wbuf.length := length_pos_iff.mpr hne
      have hlim : s.maxFrame = s.peerMaxFrame := if_pos hmax
      have hn : frameLength s st = min (min st.wbuf.length (room s.sendWindow st)) s.maxFrame := rfl
      have hroom : 0 < room s.sendWindow st := by rw [room]; omega
      have f := flow_flushOne w hconn hopen hmax
      have hstate := state_flushOne s st
      have hbuf : (flushOne s st).2.wbuf = st.wbuf.drop (frameLength s st) := by rw [f.stream]
      by_cases hall : frameLength s st = st.wbuf.length
      · -- this turn sends all there is
        rw [hall, drop_length] at hbuf
        have hle : st.wbuf.length ≤ room s.sendWindow st := by omega
        rw [flushLoop_nil hbuf, min_eq_left hle, hstate]
        refine ⟨hall ▸ f, ?_⟩
        simp only [endsHere, hall, hne, hle, decide_true, Bool.true_and, ne_eq, not_false_eq_true, true_and]
      · have hends : endsHere s st = false := by simp [endsHere, hall]
        rw [hends, if_neg (by decide)] at hstate
        have hopen' : (flushOne s st).2.localClosed = false := by rw [Stream.localClosed, hstate]; exact hopen
        have hw : (flushOne s st).2.sendWindow = st.sendWindow - frameLength s st := by rw [f.stream]
        have hc : (flushOne s st).1.sendWindow = s.sendWindow - frameLength s st := by rw [f.session]
        have hm : (flushOne s st).1.peerMaxFrame = s.peerMaxFrame := by rw [f.session]
        have hwant : (flushOne s st).2.wantEnd = st.wantEnd := by rw [f.stream]
        have hlen' : (flushOne s st).2.wbuf.length = st.wbuf.length - frameLength s st := by rw [hbuf, length_drop]
        have hroom' : room (flushOne s st).1.sendWindow (flushOne s st).2 = room s.sendWindow st - frameLength s st := by
          have hmin (a b c : ℤ) : min (a - c) (b - c) = min a b - c := by omega
          rw [room, room, hw, hc, hmin]
          generalize min st.sendWindow s.sendWindow = window
          omega
        obtain ⟨g, hg⟩ := ih (by omega) f.link f.conn hopen' (by rw [hm]; exact hmax)
        rw [hlen', hroom'] at g hg
        have hsum : frameLength s st + min (st.wbuf.length - frameLength s st) (room s.sendWindow st - frameLength s st) =
            min st.wbuf.length (room s.sendWindow st) := by omega
        rw [← hsum]
        refine ⟨f.trans g, hg.trans ?_⟩
        have hne' : (flushOne s st).2.wbuf ≠ [] := length_pos_iff.mp (by omega)
        have hiff : st.wbuf.length - frameLength s st ≤ room s.sendWindow st - frameLength s st ↔
            st.wbuf.length ≤ room s.sendWindow st := by omega
        simp only [hne', hne, hwant, hstate, hiff, ne_eq, not_false_eq_true, true_and]

/-- **A flush of a stream**: it takes what there is, up to what the windows leave, and ends the
stream when nothing is left and the application has ended it. -/
theorem flow_flushStream (w : Link s s.peerInitWindow st) (hconn : Conn s) (hopen : st.localClosed = false)
    (hmax : s.peerMaxFrame ≠ 0) :
    Flow s st (flushStream s st).1 (flushStream s st).2 (min st.wbuf.length (room s.sendWindow st)) ∧
      (flushStream s st).2.state =
        if st.wbuf.length ≤ room s.sendWindow st ∧ st.wantEnd = true then st.state.markLocalClosed else st.state := by
  obtain ⟨f, hf⟩ := flow_flushLoop (le_refl _) w hconn hopen hmax
  rw [flushStream]
  dsimp only
  have hbuf : (flushLoop st.wbuf.length s st).2.wbuf = st.wbuf.drop (min st.wbuf.length (room s.sendWindow st)) := by
    rw [f.stream]
  have hwant : (flushLoop st.wbuf.length s st).2.wantEnd = st.wantEnd := by rw [f.stream]
  have hnil : (flushLoop st.wbuf.length s st).2.wbuf = [] ↔ st.wbuf.length ≤ room s.sendWindow st := by
    rw [hbuf, drop_eq_nil_iff]
    omega
  have hclosed : (flushLoop st.wbuf.length s st).2.localClosed = true ↔
      st.wbuf ≠ [] ∧ st.wbuf.length ≤ room s.sendWindow st ∧ st.wantEnd = true := by
    by_cases hc : st.wbuf ≠ [] ∧ st.wbuf.length ≤ room s.sendWindow st ∧ st.wantEnd = true
    · rw [if_pos hc] at hf
      exact iff_of_true (localClosed_mark hf) hc
    · rw [if_neg hc] at hf
      refine iff_of_false (fun h => ?_) hc
      rw [Stream.localClosed, hf] at h
      rw [Stream.localClosed, h] at hopen
      cases hopen
  by_cases hend : ((flushLoop st.wbuf.length s st).2.wbuf = [] && (flushLoop st.wbuf.length s st).2.wantEnd &&
      !(flushLoop st.wbuf.length s st).2.localClosed : Bool) = true
  · rw [if_pos hend]
    simp only [Bool.and_eq_true, decide_eq_true_eq, Bool.not_eq_true', hnil, hwant] at hend
    obtain ⟨⟨hle, hwe⟩, hopen'⟩ := hend
    have g := flow_frame (n := 0) f.link f.conn hopen' (Nat.zero_le _) (Nat.zero_le _) (fun h => absurd rfl h)
      fun _ : true = true => by rw [hnil.mpr hle]; rfl
    simp only [take_zero, Nat.cast_zero, sub_zero, drop_zero, if_true] at g
    refine ⟨f.trans g, ?_⟩
    have hst := sendFrame_stream (flushLoop st.wbuf.length s st).1 (flushLoop st.wbuf.length s st).2 [] true
    have hstay : (flushLoop st.wbuf.length s st).2.state = st.state := by
      rw [hf, if_neg]
      intro h
      rw [hclosed.mpr h] at hopen'
      cases hopen'
    rw [if_pos ⟨hle, hwe⟩]
    dsimp only
    rw [hst, hstay]
  · rw [if_neg hend]
    refine ⟨f, hf.trans ?_⟩
    simp only [Bool.and_eq_true, decide_eq_true_eq, Bool.not_eq_true', hnil, hwant, not_and, Bool.not_eq_false] at hend
    by_cases hgo : st.wbuf.length ≤ room s.sendWindow st ∧ st.wantEnd = true
    · have := hclosed.mp (hend hgo)
      rw [if_pos this, if_pos hgo]
    · rw [if_neg hgo, if_neg (fun h => hgo h.2)]

/-! ### Flushing a stream of the vector -/

/-- The accounts of the session. -/
structure Books (s : Session) : Prop where
  gone : ∀ st ∈ s.gone, Past st
  conn : Conn s
  sent : ((s.streams ++ s.gone).map fun st => st.sent.length).sum = s.sent
  limit : s.peerMaxFrame ≠ 0
  init : s.peerInitWindow ≠ 0

theorem Link.mono {init : ℕ} (w : Link s init st) (ha : s'.alive = true → s.alive = true) : Link s' init st :=
  ⟨w.past, fun h => w.exact (ha h), fun h => w.window (ha h), w.closes⟩

theorem Quiet.mono (q : Quiet s st) (ha : s'.alive = true → s.alive = true) (hw : s'.sendWindow ≤ s.sendWindow) :
    Quiet s' st := by
  intro h hd hl
  rcases q (ha h) hd hl with h' | ⟨hne, h' | h'⟩
  · exact .inl h'
  · exact .inr ⟨hne, .inl h'⟩
  · exact .inr ⟨hne, .inr (hw.trans h')⟩

/-- What a flush does to the session. -/
structure FlushAt (s : Session) (pre : List Stream) (st : Stream) (post : List Stream) (s' : Session) (st' : Stream) :
    Prop where
  books : Books s'
  link : Link s' s'.peerInitWindow st'
  quiet : Quiet s' st'
  alive : s'.alive = true → s.alive = true
  window : s.alive = true → s'.sendWindow = s.sendWindow - takes s.sendWindow st
  window_le : s'.sendWindow ≤ s.sendWindow
  init : s'.peerInitWindow = s.peerInitWindow
  /-- The stream stays, or it settles. -/
  vector : s'.streams = pre ++ st' :: post ∨ (s.alive = true ∧ finishes s.sendWindow st = true ∧ s'.streams = pre ++ post)

theorem state_open (h : st.localClosed = false) : st.state = .bothOpen ∨ st.state = .closedRemote := by
  rw [Stream.localClosed] at h
  cases hs : st.state <;> simp [hs] at h ⊢

variable {pre post : List Stream}

theorem split_at (hs : s.streams = pre ++ st :: post) : s.streams[pre.length]? = some st := by
  rw [hs, getElem?_append_right (le_refl _), Nat.sub_self]
  rfl

theorem exists_split {i : ℕ} (hi : s.streams[i]? = some st) :
    ∃ pre post, s.streams = pre ++ st :: post ∧ pre.length = i := by
  obtain ⟨hlt, rfl⟩ := List.getElem?_eq_some_iff.mp hi
  exact ⟨s.streams.take i, s.streams.drop (i + 1), by rw [getElem_cons_drop, take_append_drop],
    by rw [length_take, min_eq_left hlt.le]⟩

theorem set_split (st' : Stream) : (pre ++ st :: post).set pre.length st' = pre ++ st' :: post := by
  rw [set_append_right _ _ (le_refl _), Nat.sub_self]
  rfl

theorem eraseIdx_split : (pre ++ st :: post).eraseIdx pre.length = pre ++ post := by
  rw [eraseIdx_append_of_length_le (le_refl _), Nat.sub_self]
  rfl

variable {f : Stream → Stream}

theorem modify_split :
    (pre ++ st :: post).modify pre.length f = pre ++ f st :: post := by
  induction pre with
  | nil => rfl
  | cons a pre ih => rw [cons_append, length_cons, modify_succ_cons, ih, cons_append]

/-- With so many bytes taken, the stream stands still. -/
theorem quiet_of_flow
    (f : Flow s st s' st' (min st.wbuf.length (room s.sendWindow st)))
    (hstate : st'.state = if st.wbuf.length ≤ room s.sendWindow st ∧ st.wantEnd = true then st.state.markLocalClosed
      else st.state) : Quiet s' st' := by
  intro _ _ hl
  have hbuf : st'.wbuf = st.wbuf.drop (min st.wbuf.length (room s.sendWindow st)) := by rw [f.stream]
  by_cases hle : st.wbuf.length ≤ room s.sendWindow st
  · rw [min_eq_left hle, drop_length] at hbuf
    refine .inl ⟨hbuf, ?_⟩
    have hwant : st'.wantEnd = st.wantEnd := by rw [f.stream]
    by_contra hw
    rw [hwant, Bool.not_eq_false] at hw
    rw [if_pos ⟨hle, hw⟩] at hstate
    rw [localClosed_mark hstate] at hl
    cases hl
  · have hne : st'.wbuf ≠ [] := by
      rw [hbuf, ne_eq, drop_eq_nil_iff]
      omega
    have hw : st'.sendWindow = st.sendWindow - min st.wbuf.length (room s.sendWindow st) := by rw [f.stream]
    have hc : s'.sendWindow = s.sendWindow - min st.wbuf.length (room s.sendWindow st) := by rw [f.session]
    refine .inr ⟨hne, ?_⟩
    rw [hw, hc]
    rw [room] at hle ⊢
    omega

/-- A stream that closes in a flush was ended by the peer before, and now by us. -/
theorem finishes_of_closed {conn : ℤ} (hlive : st.destroyed = false) (hopen : st.localClosed = false)
    (hclosed : (if st.wbuf.length ≤ room conn st ∧ st.wantEnd = true then st.state.markLocalClosed else st.state) = .closed)
    (hread : (st.endEmitted || !st.endRecv) = true) : finishes conn st = true := by
  by_cases hend : st.wbuf.length ≤ room conn st ∧ st.wantEnd = true
  · rw [if_pos hend] at hclosed
    have hstate : st.state = .closedRemote := by
      rcases state_open hopen with h | h
      · rw [h] at hclosed
        cases hclosed
      · exact h
    simp [finishes, hlive, hstate, hend, hread]
  · rw [if_neg hend] at hclosed
    rcases state_open hopen with h | h <;> rw [h] at hclosed <;> cases hclosed

theorem sent_closed : ({ st with state := .closed } : Stream).sent = st.sent := rfl

theorem Past.closed (p : Past st) : Past { st with state := .closed } := ⟨p.inOrder, p.within, p.endsLast⟩

/-- A flush of a stream that is linked to its session. -/
theorem flushAt (b : Books s) (hs : s.streams = pre ++ st :: post)
    (w : Link s s.peerInitWindow st) : ∃ st', FlushAt s pre st post (flush s pre.length) st' := by
  rw [flush, split_at hs]
  dsimp only
  by_cases hguard : (st.destroyed || st.localClosed || !s.alive) = true
  · rw [if_pos hguard]
    simp only [Bool.or_eq_true, Bool.not_eq_true'] at hguard
    refine ⟨st, b, w, fun ha hd hl => ?_, id, fun ha => ?_, le_refl _, rfl, .inl hs⟩
    · simp [ha, hd, hl] at hguard
    · rw [takes, if_pos (by simpa [ha] using hguard), Nat.cast_zero, sub_zero]
  · rw [if_neg hguard]
    simp only [Bool.or_eq_true, Bool.not_eq_true', not_or, Bool.not_eq_true, Bool.not_eq_false] at hguard
    obtain ⟨⟨hlive, hopen⟩, ha⟩ := hguard
    obtain ⟨f, hstate⟩ := flow_flushStream w b.conn hopen b.limit
    obtain ⟨⟨s₁, st'⟩, hr⟩ : ∃ r, flushStream s st = r := ⟨_, rfl⟩
    rw [hr] at f hstate
    rw [hr]
    dsimp only at f hstate ⊢
    have htakes : takes s.sendWindow st = min st.wbuf.length (room s.sendWindow st) := by
      rw [takes, if_neg (by simp [hlive, hopen])]
    have hstreams : s₁.streams = pre ++ st :: post := by rw [f.session, ← hs]
    have hgone : s₁.gone = s.gone := by rw [f.session]
    have hsum := b.sent
    rw [hs] at hsum
    have hflow := f.sent
    rw [hstreams, set_split]
    have hsent : (((pre ++ st' :: post) ++ s.gone).map fun st => st.sent.length).sum = s₁.sent := by
      simp only [map_append, map_cons, sum_append, sum_cons] at hsum ⊢
      omega
    have hinit : s₁.peerInitWindow = s.peerInitWindow := by rw [f.session]
    have hlimit : s₁.peerMaxFrame = s.peerMaxFrame := by rw [f.session]
    have hwindow : s₁.sendWindow = s.sendWindow - takes s.sendWindow st := by rw [f.session, htakes]
    have hquiet : Quiet s₁ st' := quiet_of_flow f hstate
    have hle : s₁.sendWindow ≤ s.sendWindow := by omega
    by_cases hdone : (decide (st'.state = .closed) && (st'.endEmitted || !st'.endRecv)) = true
    · rw [if_pos hdone, settle]
      dsimp only
      rw [split_at (s := { s₁ with streams := pre ++ st' :: post }) rfl]
      dsimp only
      rw [eraseIdx_split]
      refine ⟨st', ⟨?_, f.conn, ?_, hlimit ▸ b.limit, hinit ▸ b.init⟩, f.link.mono (fun h => h), hquiet, f.alive, fun _ => hwindow, hle,
        hinit, .inr ⟨ha, ?_, rfl⟩⟩
      · rw [hgone]
        intro x hx
        rcases mem_append.mp hx with hx | hx
        · exact b.gone x hx
        · rw [mem_singleton] at hx
          subst hx
          exact f.link.past.closed
      · rw [hgone, ← hsent]
        simp only [map_append, map_cons, map_nil, sum_append, sum_cons, sum_nil, sent_closed]
        omega
      · have hemit : st'.endEmitted = st.endEmitted := by rw [f.stream]
        have hrecv : st'.endRecv = st.endRecv := by rw [f.stream]
        rw [Bool.and_eq_true, decide_eq_true_eq, hemit, hrecv] at hdone
        exact finishes_of_closed hlive hopen (hstate.symm.trans hdone.1) hdone.2
    · rw [if_neg hdone]
      exact ⟨st', ⟨hgone ▸ b.gone, f.conn, hgone ▸ hsent, hlimit ▸ b.limit, hinit ▸ b.init⟩, f.link.mono (fun h => h), hquiet, f.alive,
        fun _ => hwindow, hle, hinit, .inl rfl⟩

/-! ### The invariant -/

/-- The books of a session whose streams have their credit. -/
structure Inv (s : Session) : Prop extends Books s where
  link : ∀ st ∈ s.streams, Link s s.peerInitWindow st
  quiet : ∀ st ∈ s.streams, Quiet s st

/-- The sum over the streams does not see a change of one that sends nothing. -/
theorem Books.change (b : Books s) (hs : s.streams = pre ++ st :: post)
    (hsent : st'.sent = st.sent) : Books { s with streams := pre ++ st' :: post } := by
  refine ⟨b.gone, b.conn, ?_, b.limit, b.init⟩
  have h := b.sent
  rw [hs] at h
  simpa only [map_append, map_cons, hsent] using h

theorem modify_at (hs : s.streams = pre ++ st :: post) :
    modify s pre.length f = { s with streams := pre ++ f st :: post } := by
  rw [modify, hs, modify_split]

theorem modify_none {i : ℕ} (hi : s.streams[i]? = none) : modify s i f = s := by
  rw [modify, modify_eq_self (List.getElem?_eq_none_iff.mp hi)]

/-- A change of one stream. -/
theorem Inv.modify (h : Inv s) (i : ℕ)
    (hf : ∀ st, s.streams[i]? = some st → Link s s.peerInitWindow (f st) ∧ Quiet s (f st) ∧ (f st).sent = st.sent) :
    Inv (modify s i f) := by
  cases hi : s.streams[i]? with
  | none => rwa [modify_none hi]
  | some st =>
    obtain ⟨hl, hq, hsent⟩ := hf st hi
    obtain ⟨pre, post, hs, rfl⟩ := exists_split hi
    rw [modify_at hs]
    have hlink := h.link
    have hquiet := h.quiet
    rw [hs, forall_mem_append, forall_mem_cons] at hlink hquiet
    refine ⟨h.toBooks.change hs hsent, ?_, ?_⟩
    · rw [forall_mem_append, forall_mem_cons]
      exact ⟨fun x hx => (hlink.1 x hx).mono id, hl.mono id, fun x hx => (hlink.2.2 x hx).mono id⟩
    · rw [forall_mem_append, forall_mem_cons]
      exact ⟨hquiet.1, hq, hquiet.2.2⟩

/-- A flush of one stream, where the others stand still. -/
theorem inv_flush (b : Books s) (hs : s.streams = pre ++ st :: post)
    (w : Link s s.peerInitWindow st) (hl : ∀ x ∈ pre ++ post, Link s s.peerInitWindow x)
    (hq : ∀ x ∈ pre ++ post, Quiet s x) : Inv (flush s pre.length) := by
  obtain ⟨st', f⟩ := flushAt b hs w
  have hl' : ∀ x ∈ pre ++ post, Link (flush s pre.length) (flush s pre.length).peerInitWindow x := by
    intro x hx
    rw [f.init]
    exact (hl x hx).mono f.alive
  have hq' : ∀ x ∈ pre ++ post, Quiet (flush s pre.length) x := fun x hx => (hq x hx).mono f.alive f.window_le
  rcases f.vector with hv | ⟨-, -, hv⟩
  · refine ⟨f.books, ?_, ?_⟩
    · rw [forall_mem_append] at hl'
      rw [hv, forall_mem_append, forall_mem_cons]
      exact ⟨hl'.1, f.link, hl'.2⟩
    · rw [forall_mem_append] at hq'
      rw [hv, forall_mem_append, forall_mem_cons]
      exact ⟨hq'.1, f.quiet, hq'.2⟩
  · exact ⟨f.books, hv ▸ hl', hv ▸ hq'⟩

/-- A change of one stream, and a flush of it. -/
theorem Inv.flush_modify (h : Inv s) {i : ℕ} (hi : s.streams[i]? = some st)
    (w : Link s s.peerInitWindow (f st)) (hsent : (f st).sent = st.sent) : Inv (flush (Http2Flow.modify s i f) i) := by
  obtain ⟨pre, post, hs, rfl⟩ := exists_split hi
  have hlink := h.link
  have hquiet := h.quiet
  rw [hs, forall_mem_append, forall_mem_cons] at hlink hquiet
  rw [modify_at hs]
  refine inv_flush (h.toBooks.change hs hsent) rfl (w.mono id) ?_ ?_
  · rw [forall_mem_append]
    exact ⟨fun x hx => (hlink.1 x hx).mono id, fun x hx => (hlink.2.2 x hx).mono id⟩
  · rw [forall_mem_append]
    exact ⟨hquiet.1, hquiet.2.2⟩

/-- A stream that settles takes nothing with it. -/
theorem Inv.settle (h : Inv s) (i : ℕ) : Inv (settle s i) := by
  rw [Http2Flow.settle]
  split
  · exact h
  · next st hi =>
    obtain ⟨pre, post, hs, rfl⟩ := exists_split hi
    have hlink := h.link
    have hquiet := h.quiet
    have hsent := h.sent
    rw [hs] at hsent
    rw [hs, forall_mem_append, forall_mem_cons] at hlink hquiet
    rw [hs, eraseIdx_split]
    refine ⟨⟨?_, h.conn, ?_, h.limit, h.init⟩, ?_, ?_⟩
    · rw [forall_mem_append, forall_mem_singleton]
      exact ⟨h.gone, hlink.2.1.past.closed⟩
    · rw [← hsent]
      simp only [map_append, map_cons, map_nil, sum_append, sum_cons, sum_nil, sent_closed]
      omega
    · rw [forall_mem_append]
      exact ⟨fun x hx => (hlink.1 x hx).mono id, fun x hx => (hlink.2.2 x hx).mono id⟩
    · rw [forall_mem_append]
      exact ⟨hquiet.1, hquiet.2.2⟩

/-! ### The loops over the vector -/

variable {delta : ℤ}

theorem Link.shift {old new : ℕ} (w : Link s old st) (h : (new : ℤ) = old + delta) : Link s new (shift delta st) := by
  refine ⟨⟨w.past.inOrder, w.past.within, w.past.endsLast⟩, w.exact, fun ha => ?_, w.closes⟩
  have hw := w.window ha
  show st.sendWindow + delta + st.sent.length = new + st.granted
  omega

theorem Quiet.shift (q : Quiet s st) (h : delta ≤ 0) : Quiet s (shift delta st) := by
  intro ha hd hl
  rcases q ha hd hl with h' | ⟨hne, h' | h'⟩
  · exact .inl h'
  · exact .inr ⟨hne, .inl (show st.sendWindow + delta ≤ 0 by omega)⟩
  · exact .inr ⟨hne, .inr h'⟩

theorem calm_cons {conn : ℤ} {sts : List Stream} (h : calm conn (st :: sts) = true) :
    (finishes conn st = true → sts = []) ∧ calm (conn - takes conn st) sts = true := by
  cases sts with
  | nil => exact ⟨fun _ => rfl, rfl⟩
  | cons st' sts =>
    rw [calm, Bool.and_eq_true, Bool.not_eq_true'] at h
    refine ⟨fun hf => ?_, h.2⟩
    rw [hf] at h
    cases h.1

variable {flushes : Bool}

theorem sweep_done {k i : ℕ} (h : s.streams.length ≤ i) : sweep delta flushes k i s = s := by
  cases k with
  | zero => rfl
  | succ k => rw [sweep, if_pos h]

/-- **The loop over the streams.** The streams before the position are linked to the new initial
window and stand still, and those from it on are linked to the old one. -/
theorem inv_sweep {old k : ℕ} {pre rest : List Stream} (b : Books s) (hs : s.streams = pre ++ rest)
    (hk : rest.length ≤ k) (hdelta : (s.peerInitWindow : ℤ) = old + delta)
    (hl : ∀ x ∈ pre, Link s s.peerInitWindow x) (hq : ∀ x ∈ pre, Quiet s x) (hrest : ∀ x ∈ rest, Link s old x)
    (hcalm : flushes = true → s.alive = true → calm s.sendWindow (rest.map (shift delta)) = true)
    (hstay : flushes = false → delta ≤ 0 ∧ ∀ x ∈ rest, Quiet s x) : Inv (sweep delta flushes k pre.length s) := by
  induction rest generalizing k s pre with
  | nil =>
    rw [append_nil] at hs
    rw [sweep_done (by rw [hs])]
    exact ⟨b, hs ▸ hl, hs ▸ hq⟩
  | cons st rest ih =>
    obtain ⟨k, rfl⟩ : ∃ k', k = k' + 1 := ⟨k - 1, by rw [length_cons] at hk; omega⟩
    rw [forall_mem_cons] at hrest
    have hin : ¬s.streams.length ≤ pre.length := by
      rw [hs, length_append, length_cons]
      omega
    have hmod : modify s pre.length (shift delta) = { s with streams := pre ++ shift delta st :: rest } := modify_at hs
    have hbook : Books { s with streams := pre ++ shift delta st :: rest } := b.change hs rfl
    have hlen : ∀ x, pre.length + 1 = (pre ++ [x]).length := fun x => by rw [length_append, length_singleton]
    have hlink : Link s s.peerInitWindow (shift delta st) := hrest.1.shift hdelta
    rw [sweep, if_neg hin]
    dsimp only
    change Inv (sweep delta flushes k (pre.length + 1)
      (if flushes = true then flush (modify s pre.length (shift delta)) pre.length else modify s pre.length (shift delta)))
    rw [hmod]
    cases flushes with
    | true =>
      rw [if_pos rfl]
      obtain ⟨st', f⟩ := flushAt hbook rfl (hlink.mono id)
      obtain ⟨s', hs'⟩ : ∃ s', flush { s with streams := pre ++ shift delta st :: rest } pre.length = s' := ⟨_, rfl⟩
      rw [hs'] at f ⊢
      have hl' : ∀ x ∈ pre, Link s' s'.peerInitWindow x := by
        intro x hx
        rw [f.init]
        exact (hl x hx).mono f.alive
      have hq' : ∀ x ∈ pre, Quiet s' x := fun x hx => (hq x hx).mono f.alive f.window_le
      have hc := fun ha => calm_cons (hcalm rfl ha)
      rcases f.vector with hv | ⟨ha, hfin, hv⟩
      · rw [hlen st']
        refine ih f.books (by rw [hv, append_assoc]; rfl) (Nat.le_of_succ_le_succ hk) (by rw [f.init]; exact hdelta)
          ?_ ?_ (fun x hx => (hrest.2 x hx).mono f.alive) (fun _ ha' => ?_) (fun h => by cases h)
        · rw [forall_mem_append, forall_mem_singleton]
          exact ⟨hl', f.link⟩
        · rw [forall_mem_append, forall_mem_singleton]
          exact ⟨hq', f.quiet⟩
        · rw [f.window (f.alive ha')]
          exact (hc (f.alive ha')).2
      · -- the stream that settles is the last one
        have hnil : rest = [] := map_eq_nil_iff.mp ((hc ha).1 hfin)
        rw [hnil, append_nil] at hv
        rw [sweep_done (by rw [hv]; omega)]
        exact ⟨f.books, hv ▸ hl', hv ▸ hq'⟩
    | false =>
      obtain ⟨hneg, hquiet⟩ := hstay rfl
      rw [forall_mem_cons] at hquiet
      rw [if_neg (by decide), hlen (shift delta st)]
      refine ih hbook (by rw [append_assoc]; rfl) (Nat.le_of_succ_le_succ hk) hdelta ?_ ?_
        (fun x hx => (hrest.2 x hx).mono id) (fun h => by cases h) (fun _ => ⟨hneg, hquiet.2⟩)
      · rw [forall_mem_append, forall_mem_singleton]
        exact ⟨fun x hx => (hl x hx).mono id, hlink.mono id⟩
      · rw [forall_mem_append, forall_mem_singleton]
        exact ⟨hq, hquiet.1.shift hneg⟩

/-- The whole loop. -/
theorem inv_sweep_all {old : ℕ} (b : Books s) (hdelta : (s.peerInitWindow : ℤ) = old + delta)
    (hrest : ∀ x ∈ s.streams, Link s old x)
    (hcalm : flushes = true → s.alive = true → calm s.sendWindow (s.streams.map (shift delta)) = true)
    (hstay : flushes = false → delta ≤ 0 ∧ ∀ x ∈ s.streams, Quiet s x) :
    Inv (sweep delta flushes s.streams.length 0 s) := by
  have h := inv_sweep b (nil_append _).symm (le_refl _) hdelta (fun x hx => by cases hx) (fun x hx => by cases hx) hrest
    hcalm hstay
  exact h

/-! ### Every event keeps the invariant -/

theorem inv_init (life : Option ℕ) : Inv (.init life) where
  gone x hx := by cases hx
  conn _ := rfl
  sent := rfl
  limit := show SCR_H2_DEFAULT_MAX_FRAME ≠ 0 by decide
  init := show SCR_H2_DEFAULT_WINDOW ≠ 0 by decide
  link x hx := by cases hx
  quiet x hx := by cases hx

/-- What the application adds comes after what it added before. -/
theorem Link.put {init : ℕ} (w : Link s init st) (hopen : st.localClosed = false) (data : Bytes) : Link s init (put data st) := by
  refine ⟨⟨?_, w.past.within, ?_⟩, fun ha => ?_, w.window, w.closes⟩
  · exact w.past.inOrder.trans ⟨data, rfl⟩
  · intro pre f post hsplit he
    rw [w.closes f (by rw [show st.out = pre ++ f :: post from hsplit]; simp) he] at hopen
    cases hopen
  · show st.sent ++ (st.wbuf ++ data) = st.accepted ++ data
    rw [← append_assoc, w.exact ha]

theorem Inv.streamNew (h : Inv s) (id : ℕ) (state : StreamState) : Inv (streamNew s id state) := by
  have hwin : s.initWindow = s.peerInitWindow := if_pos h.init
  refine ⟨⟨h.gone, h.conn, ?_, h.limit, h.init⟩, ?_, ?_⟩
  · refine Eq.trans ?_ h.sent
    simp [Http2Flow.streamNew, Stream.sent]
  · rw [Http2Flow.streamNew, forall_mem_append, forall_mem_singleton]
    refine ⟨fun x hx => (h.link x hx).mono fun ha => ha, ⟨⟨prefix_rfl, within_nil, ?_⟩, fun _ => rfl, fun _ => ?_, ?_⟩⟩
    · intro pre f post hsplit
      simp at hsplit
    · simp [hwin, Stream.sent]
    · intro f hf
      cases hf
  · rw [Http2Flow.streamNew, forall_mem_append, forall_mem_singleton]
    exact ⟨h.quiet, fun _ _ _ => .inl ⟨rfl, rfl⟩⟩

theorem Inv.streamSend (h : Inv s) (i : ℕ) (data : Bytes) : Inv (streamSend s i data) := by
  rw [Http2Flow.streamSend]
  split
  · exact h
  · next st hi =>
    split_ifs with hguard
    · exact h
    · rw [Bool.or_eq_true, not_or, Bool.not_eq_true, Bool.not_eq_true] at hguard
      exact h.flush_modify hi ((h.link st (mem_of_getElem? hi)).put hguard.2 data) rfl

theorem Inv.streamEnd (h : Inv s) (i : ℕ) (data : Bytes) : Inv (streamEnd s i data) := by
  rw [Http2Flow.streamEnd]
  split
  · exact h
  · next st hi =>
    split_ifs with hguard
    · exact h
    · rw [Bool.or_eq_true, not_or, Bool.not_eq_true, Bool.not_eq_true] at hguard
      have w := (h.link st (mem_of_getElem? hi)).put hguard.2 data
      exact h.flush_modify hi ⟨⟨w.past.inOrder, w.past.within, w.past.endsLast⟩, w.exact, w.window, w.closes⟩ rfl

/-- A change of what the links do not look at. -/
theorem Inv.modify_state (h : Inv s) (i : ℕ)
    (hf : ∀ st, s.streams[i]? = some st → ∃ state destroyed endRecv endEmitted,
      f st = { st with state, destroyed, endRecv, endEmitted } ∧ (f st).localClosed = st.localClosed ∧
        ((f st).destroyed = false → st.destroyed = false)) : Inv (Http2Flow.modify s i f) := by
  refine h.modify i fun st hi => ?_
  obtain ⟨state, destroyed, endRecv, endEmitted, heq, hclosed, hdestroyed⟩ := hf st hi
  have w := h.link st (mem_of_getElem? hi)
  have q := h.quiet st (mem_of_getElem? hi)
  rw [heq] at hclosed hdestroyed ⊢
  refine ⟨⟨⟨w.past.inOrder, w.past.within, w.past.endsLast⟩, w.exact, w.window, ?_⟩, ?_, rfl⟩
  · rw [hclosed]
    exact w.closes
  · intro ha hd hl
    rw [hclosed] at hl
    exact q ha (hdestroyed hd) hl

theorem Inv.streamDestroy (h : Inv s) (i : ℕ) : Inv (streamDestroy s i) := by
  refine Inv.settle (h.modify_state i fun st _ => ?_) i
  exact ⟨st.state, true, st.endRecv, st.endEmitted, rfl, rfl, fun hd => by cases hd⟩

theorem Inv.emitEnd (h : Inv s) (i : ℕ) : Inv (emitEnd s i) := by
  refine h.modify_state i fun st _ => ?_
  split_ifs
  · exact ⟨st.state, st.destroyed, st.endRecv, true, rfl, rfl, id⟩
  · exact ⟨st.state, st.destroyed, st.endRecv, st.endEmitted, rfl, rfl, id⟩

theorem Inv.onHeadersEnd (h : Inv s) (id : ℕ) : Inv (onHeadersEnd s id) := by
  rw [Http2Flow.onHeadersEnd]
  split
  · exact h
  · next i _ =>
    refine h.modify_state i fun st _ => ?_
    split_ifs with hd hl
    · exact ⟨st.state, st.destroyed, st.endRecv, st.endEmitted, rfl, rfl, fun h => h⟩
    · exact ⟨.closed, st.destroyed, true, st.endEmitted, rfl, hl.symm, fun h => h⟩
    · exact ⟨.closedRemote, st.destroyed, true, st.endEmitted, rfl, (Bool.not_eq_true _ ▸ hl).symm, fun h => h⟩

theorem Inv.onDataEnd (h : Inv s) {id : ℕ} (hfit : fits s (.dataEnd id) = true) : Inv (onDataEnd s id) := by
  rw [Http2Flow.onDataEnd]
  split
  · exact h
  · next i hi =>
    refine h.modify_state i fun st hst => ?_
    have hopen : st.state ≠ .closed := by simpa [fits, hi, hst] using hfit
    split_ifs with hd hl
    · exact ⟨st.state, st.destroyed, st.endRecv, st.endEmitted, rfl, rfl, fun h => h⟩
    · exact ⟨.closed, st.destroyed, true, st.endEmitted, rfl, by simp [Stream.localClosed, hl], fun h => h⟩
    · exact ⟨.closedRemote, st.destroyed, true, st.endEmitted, rfl, by simp [Stream.localClosed, hl, hopen], fun h => h⟩

theorem Inv.onWindowUpdate (h : Inv s) {id inc : ℕ} (hfit : fits s (.windowUpdate id inc) = true) :
    Inv (onWindowUpdate s id inc) := by
  rw [Http2Flow.onWindowUpdate]
  split_ifs with hid
  · have hcalm : calm (s.sendWindow + inc) s.streams = true := by simpa [fits, hid] using hfit
    have hshift : Http2Flow.shift 0 = fun st => st := by
      funext st
      rw [Http2Flow.shift, add_zero]
    have b : Books { s with sendWindow := s.sendWindow + inc, granted := s.granted + inc } := by
      refine ⟨h.gone, fun ha => ?_, h.sent, h.limit, h.init⟩
      have := h.conn ha
      push_cast
      omega
    refine inv_sweep_all b (add_zero _).symm (fun x hx => (h.link x hx).mono fun ha => ha) (fun _ _ => ?_)
      (fun hf => absurd hf (by decide))
    rw [hshift, map_id']
    exact hcalm
  · split
    · exact h
    · next i hi =>
      cases hst : s.streams[i]? with
      | none =>
        rw [modify_none hst, flush, hst]
        exact h
      | some st =>
        have w := h.link st (mem_of_getElem? hst)
        refine h.flush_modify hst ⟨⟨w.past.inOrder, w.past.within, w.past.endsLast⟩, w.exact, fun ha => ?_, w.closes⟩ rfl
        have := w.window ha
        show st.sendWindow + inc + st.sent.length = s.peerInitWindow + (st.granted + inc : ℕ)
        push_cast
        omega

theorem Inv.onSetting (h : Inv s) {id v : ℕ} (hfit : fits s (.setting id v) = true) : Inv (onSetting s id v) := by
  have hwin : s.initWindow = s.peerInitWindow := if_pos h.init
  rw [fits, Bool.and_eq_true] at hfit
  rw [Http2Flow.onSetting]
  split_ifs with h4 h5
  · obtain ⟨hv, hgo⟩ : v ≠ 0 ∧ (v ≤ s.initWindow ∨ calm s.sendWindow (s.streams.map (Http2Flow.shift (v - s.initWindow))) = true) := by
      simpa [h4] using hfit.1
    have b : Books { s with peerInitWindow := v } := ⟨h.gone, h.conn, h.sent, h.limit, hv⟩
    have hdelta : (v : ℤ) = s.peerInitWindow + (v - s.initWindow) := by omega
    refine inv_sweep_all b hdelta (fun x hx => (h.link x hx).mono fun ha => ha) (fun hpos _ => ?_) (fun hneg => ⟨?_, h.quiet⟩)
    · rw [decide_eq_true_eq] at hpos
      exact hgo.resolve_left (by omega)
    · rw [decide_eq_false_iff_not] at hneg
      omega
  · have hv : v ≠ 0 := by simpa [h5] using hfit.2
    exact ⟨⟨h.gone, h.conn, h.sent, hv, h.init⟩, fun x hx => (h.link x hx).mono fun ha => ha, h.quiet⟩
  · exact h

theorem Inv.settleRead (h : Inv s) (i : ℕ) : Inv (settleRead s i) := by
  rw [Http2Flow.settleRead]
  split
  · exact h
  · split_ifs
    · exact h.settle i
    · exact h

theorem Inv.abortStreams (h : Inv s) : Inv (abortStreams s) := by
  refine ⟨⟨?_, h.conn, ?_, h.limit, h.init⟩, forall_mem_nil _, forall_mem_nil _⟩
  · rw [Http2Flow.abortStreams, forall_mem_append, forall_mem_map]
    exact ⟨h.gone, fun st hst => (h.link st hst).past.closed⟩
  · refine Eq.trans ?_ h.sent
    simp only [Http2Flow.abortStreams, nil_append, map_append, map_map, sum_append]
    rw [add_comm]
    rfl

theorem Inv.socketClosed (h : Inv s) : Inv { s with life := some 0 } := by
  have hdead : ¬({ s with life := some 0 } : Session).alive = true := by simp [Session.alive]
  exact ⟨⟨h.gone, fun ha => absurd ha hdead, h.sent, h.limit, h.init⟩, fun x hx => (h.link x hx).mono fun ha => absurd ha hdead,
    fun _ _ ha => absurd ha hdead⟩

/-- One event. -/
theorem Inv.step (h : Inv s) {e : Event} (hfit : fits s e = true) : Inv (step s e) := by
  cases e with
  | headers id endStream =>
    rw [Http2Flow.step, onHeaders]
    split
    · exact h.streamNew id _
    · exact h
  | request id endStream => exact h.streamNew id _
  | write i data => exact h.streamSend i data
  | ends i data => exact h.streamEnd i data
  | destroy i => exact h.streamDestroy i
  | setting id v => exact h.onSetting hfit
  | windowUpdate id inc => exact h.onWindowUpdate hfit
  | rstStream id =>
    rw [Http2Flow.step, onRstStream]
    split
    · exact h
    · exact h.streamDestroy _
  | dataEnd id => exact h.onDataEnd hfit
  | headersEnd id => exact h.onHeadersEnd id
  | emitEnd i => exact h.emitEnd i
  | settleRead i => exact h.settleRead i
  | abort => exact h.abortStreams
  | socketClosed => exact h.socketClosed

/-- A run. -/
theorem Inv.run (h : Inv s) {events : List Event} (hfit : fitsAll s events = true) : Inv (run s events) := by
  induction events generalizing s with
  | nil => exact h
  | cons e events ih =>
    rw [fitsAll, Bool.and_eq_true] at hfit
    exact ih (h.step hfit.1) hfit.2

theorem Inv.correct (h : Inv s) : Correct s where
  past := by
    rw [forall_mem_append]
    exact ⟨fun st hst => (h.link st hst).past, h.gone⟩
  sent := h.sent
  flushed ha st hst hd hl hne := by
    have hwin := (h.link st hst).window ha
    have hconn := h.conn ha
    rcases h.quiet st hst ha hd hl with h' | ⟨-, h' | h'⟩
    · exact absurd h'.1 hne
    · left
      omega
    · right
      omega

/-- **Every run of a session keeps to flow control**, as long as each event is one that the code
handles. -/
theorem correct_run (life : Option ℕ) {events : List Event} (hfit : fitsAll (.init life) events = true) :
    Correct (run (.init life) events) :=
  ((inv_init life).run hfit).correct

/-- Two streams under a window of one byte, which then grows; the second one ends and settles. -/
theorem correct_run_two_streams :
    fitsAll (.init none) [.request 1 false, .headers 2 true, .setting 4 1, .setting 5 2, .write 0 [7, 8], .ends 1 [9, 10],
      .emitEnd 1, .windowUpdate 1 1, .windowUpdate 0 3, .setting 4 2] = true ∧
    Correct (run (.init none) [.request 1 false, .headers 2 true, .setting 4 1, .setting 5 2, .write 0 [7, 8], .ends 1 [9, 10],
      .emitEnd 1, .windowUpdate 1 1, .windowUpdate 0 3, .setting 4 2]) :=
  ⟨by decide, correct_run none (by decide)⟩

theorem Past.allowed (p : Past st) : ∀ f ∈ st.out, f.payload.length ≤ f.limit ∧ (f.payload = [] ∨ f.payload.length ≤ f.credit) := by
  intro f hf
  obtain ⟨pre, post, hsplit⟩ := append_of_mem hf
  obtain ⟨hl, hc⟩ := p.within pre f post hsplit
  refine ⟨hl, or_iff_not_imp_left.mpr fun hne => ?_⟩
  have := (hc hne).1
  omega

theorem Past.endsOnce (p : Past st) : ∀ f ∈ st.out.dropLast, f.endStream = false := by
  intro f hf
  obtain ⟨pre, post, hsplit⟩ := append_of_mem hf
  have hne : st.out ≠ [] := by
    intro h
    rw [h] at hf
    cases hf
  by_contra he
  rw [Bool.not_eq_false] at he
  have hout : st.out = pre ++ f :: (post ++ [st.out.getLast hne]) := by
    conv_lhs => rw [← dropLast_concat_getLast hne, hsplit]
    rw [append_assoc, cons_append]
  have := (p.endsLast pre f _ hout he).1
  simp at this

/-- Each part of the condition is needed: an initial window and a largest frame of zero; a window that grows, where the
stream that settles makes the loop pass over the next one; and a second END_STREAM of the peer. -/
theorem not_correct_run :
    (∀ id ∈ [4, 5], ¬Correct (run (.init none) [.setting id 0, .request 1 false, .write 0 [7]])) ∧
    ¬Correct (run (.init none) [.setting 4 1, .headers 1 true, .emitEnd 0, .request 2 false, .ends 0 [7, 8], .write 1 [9, 10],
      .setting 4 2]) ∧
    ¬Correct (run (.init none) [.request 1 false, .ends 0 [7], .dataEnd 1, .dataEnd 1, .write 0 [8]]) := by
  refine ⟨fun id hid h => ?_, fun h => ?_, fun h => ?_⟩
  · have hall := fun st hst => (h.past st hst).allowed
    clear h
    revert id
    decide
  · exact absurd (h.flushed rfl) (by decide)
  · exact absurd (fun st hst => (h.past st hst).endsOnce) (by decide)

end Scriptc.Runtime.Http2Flow
