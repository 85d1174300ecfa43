import Scriptc.RuntimeRust.ChildIpc

/-!
# What the channel to a child process delivers

The sends under way form one line: those whose event is not dispatched yet, the one that is being
written, and those that wait. The callbacks follow that line, and the bytes on the wire are the
frames of the sends that left it at its other end. A write that finds the socket full breaks this:
the worker takes it for the end of the channel.
-/

namespace Scriptc.RuntimeRust.Ipc

open List

/-! ### Frames -/

theorem length_beBytes (n : ℕ) : (beBytes n).length = 4 := by
  rw [beBytes, length_reverse, Bytes.length_leBytes]

theorem beNat_beBytes {n : ℕ} (h : n < 2 ^ 32) : beNat (beBytes n) = n := by
  rw [beNat, beBytes, reverse_reverse]
  exact Bytes.leNat_leBytes_of_lt h

/-- A frame at the front is taken. -/
theorem takeFrames_frame {payload : Bytes} (h : payload.length < 2 ^ 32) (rest : Bytes) :
    takeFrames (childIpcFrame payload ++ rest) = (payload :: (takeFrames rest).1, (takeFrames rest).2) := by
  have hb := length_beBytes payload.length
  have hlen : (childIpcFrame payload ++ rest).length = 4 + payload.length + rest.length := by
    rw [childIpcFrame, length_append, length_append, hb]
  have htake : (childIpcFrame payload ++ rest).take 4 = beBytes payload.length := by
    rw [childIpcFrame, append_assoc, ← hb, take_left]
  have hdrop : (childIpcFrame payload ++ rest).drop 4 = payload ++ rest := by
    rw [childIpcFrame, append_assoc, ← hb, drop_left]
  rw [takeFrames, dif_neg (by omega), htake, beNat_beBytes h, dif_neg (by omega), ← drop_drop, hdrop,
    take_left, drop_left]

theorem takeFrames_frames {ps : List Bytes} (h : ∀ p ∈ ps, p.length < 2 ^ 32) (rest : Bytes) :
    takeFrames (ps.flatMap childIpcFrame ++ rest) = (ps ++ (takeFrames rest).1, (takeFrames rest).2) := by
  induction ps with
  | nil => rfl
  | cons p ps ih =>
    rw [flatMap_cons, append_assoc, takeFrames_frame (h p mem_cons_self),
      ih fun q hq => h q (mem_cons_of_mem _ hq)]
    rfl

/-- A frame that is not whole is left. -/
theorem takeFrames_part {payload part rest : Bytes} (h : payload.length < 2 ^ 32)
    (hp : part ++ rest = childIpcFrame payload) (hrest : rest ≠ []) : takeFrames part = ([], part) := by
  have hb := length_beBytes payload.length
  have hlen : part.length + rest.length = 4 + payload.length := by
    rw [← length_append, hp, childIpcFrame, length_append, hb]
  have hpos : 0 < rest.length := length_pos_iff.mpr hrest
  rw [takeFrames]
  split
  · rfl
  next h4 =>
    have htake : part.take 4 = beBytes payload.length := by
      have happ : (part ++ rest).take 4 = part.take 4 := take_append_of_le_length (Nat.not_lt.mp h4)
      rw [← happ, hp, childIpcFrame, ← hb, take_left]
    rw [htake, beNat_beBytes h, dif_pos (by omega)]

theorem childIpcFrame_ne_nil (payload : Bytes) : childIpcFrame payload ≠ [] := by
  intro h
  have := congrArg List.length h
  rw [childIpcFrame, length_append, length_beBytes, length_nil] at this
  omega

theorem takeFrames_nil : takeFrames [] = ([], []) := by
  rw [takeFrames, dif_pos (by decide)]

/-- Nothing is taken from what was left. -/
theorem takeFrames_append (bs more : Bytes) :
    (takeFrames (bs ++ more)).1 = (takeFrames bs).1 ++ (takeFrames ((takeFrames bs).2 ++ more)).1 ∧
      (takeFrames (bs ++ more)).2 = (takeFrames ((takeFrames bs).2 ++ more)).2 := by
  induction bs using takeFrames.induct with
  | case1 bs h4 => rw [takeFrames.eq_def bs, dif_pos h4]; exact ⟨rfl, rfl⟩
  | case2 bs h4 length h => rw [takeFrames.eq_def bs, dif_neg h4]; dsimp only; rw [dif_pos h]; exact ⟨rfl, rfl⟩
  | case3 bs h4 length h ih =>
    have htake : (bs ++ more).take 4 = bs.take 4 := take_append_of_le_length (Nat.not_lt.mp h4)
    have hbs : takeFrames bs = ((bs.drop 4).take length :: (takeFrames (bs.drop (4 + length))).1,
        (takeFrames (bs.drop (4 + length))).2) := by
      rw [takeFrames.eq_def bs, dif_neg h4]
      exact dif_neg h
    have hmore : takeFrames (bs ++ more) = ((bs.drop 4).take length :: (takeFrames (bs.drop (4 + length) ++ more)).1,
        (takeFrames (bs.drop (4 + length) ++ more)).2) := by
      have hdrop : (bs ++ more).drop (4 + length) = bs.drop (4 + length) ++ more :=
        drop_append_of_le_length (Nat.not_lt.mp h)
      have hpayload : ((bs ++ more).drop 4).take length = (bs.drop 4).take length := by
        rw [drop_append_of_le_length (Nat.not_lt.mp h4), take_append_of_le_length]
        rw [length_drop]
        omega
      rw [takeFrames.eq_def (bs ++ more), dif_neg (by rw [length_append]; omega), htake]
      dsimp only
      rw [dif_neg (by rw [length_append]; omega), hdrop, hpayload]
    rw [hmore, hbs]
    exact ⟨congrArg (List.cons _) ih.1, ih.2⟩

/-- The reader over its buffer. -/
theorem decodes_receive :
    Chunks.Decodes receive (fun bs => (takeFrames bs).1) id fun incoming => takeFrames incoming = ([], incoming) where
  inv incoming chunk _ := by
    have h := takeFrames_append (incoming ++ chunk) []
    rw [append_nil, append_nil] at h
    exact Prod.ext (append_right_eq_self.mp h.1.symm) h.2.symm
  out incoming chunk more _ := by
    show (takeFrames (incoming ++ (chunk ++ more))).1 = _
    rw [← append_assoc]
    exact (takeFrames_append (incoming ++ chunk) more).1

/-- The frames of some payloads, cut in any way, are read back. -/
theorem receive_frames {ps : List Bytes} (h : ∀ p ∈ ps, p.length < 2 ^ 32) {chunks : List Bytes}
    (hc : chunks.flatten = ps.flatMap childIpcFrame) : (Chunks.feed receive [] chunks).1 = ps := by
  have hout := decodes_receive.feed_out takeFrames_nil chunks []
  have hinv := decodes_receive.feed_inv takeFrames_nil chunks
  have hall := takeFrames_frames h []
  rw [takeFrames_nil, append_nil, append_nil] at hall
  simp only [id, nil_append, append_nil, hc, hall, hinv] at hout
  exact hout.symm

/-! ### The line of sends -/

def sends : List Command → List (ℕ × Bytes)
  | [] => []
  | .send id payload :: cs => (id, payload) :: sends cs
  | .disconnect :: cs => sends cs

def sentIds : List Event → List ℕ
  | [] => []
  | .sent id _ :: es => id :: sentIds es
  | _ :: es => sentIds es

@[simp] theorem sends_append (xs ys : List Command) : sends (xs ++ ys) = sends xs ++ sends ys := by
  induction xs with
  | nil => rfl
  | cons x xs ih => cases x <;> simp [sends, ih]

@[simp] theorem sentIds_append (xs ys : List Event) : sentIds (xs ++ ys) = sentIds xs ++ sentIds ys := by
  induction xs with
  | nil => rfl
  | cons x xs ih => cases x <;> simp [sentIds, ih]

@[simp] theorem sentIds_messages (ps : List Bytes) : sentIds (ps.map .message) = [] := by
  induction ps with
  | nil => rfl
  | cons p ps ih => exact ih

/-- The sends that the worker has or will have. -/
def Worker.flight : Worker → List Command → List (ℕ × Bytes)
  | .listening pending, cs => pending ++ sends cs
  | .idle pending, cs => pending ++ sends cs
  | .writing id payload _ pending, cs => (id, payload) :: (pending ++ sends cs)
  | .ended, _ => []

namespace Channel

/-- The sends under way, by their numbers. -/
def line (c : Channel) : List ℕ := sentIds c.events ++ (c.worker.flight c.commands).map Prod.fst

end Channel

/-- The callbacks follow the line: what was invoked is before it, what waits is on it, or behind it
if the worker is gone. -/
structure Follows (line : List ℕ) (gone : Prop) (next : ℕ) (callbacks invoked asked : List ℕ) : Prop where
  sorted : line.Pairwise (· < ·)
  lt : ∀ i ∈ line, i < next
  invoked_sorted : invoked.Pairwise (· < ·)
  invoked_lt : ∀ i ∈ invoked, i < next ∧ (∀ e ∈ line, i < e) ∧ ∀ k ∈ callbacks, i < k
  nodup : callbacks.Nodup
  waits : ∀ k ∈ callbacks, k < next ∧ (k ∈ line ∨ gone ∧ ∀ e ∈ line, e < k)
  asked : ∀ k ∈ asked, k ∈ invoked ∨ k ∈ callbacks

namespace Follows

variable {line callbacks invoked asked : List ℕ} {gone : Prop} {next : ℕ}

/-- A number more, for a send whose callback may wait. -/
theorem callback (h : Follows line gone next callbacks invoked asked) {k : ℕ} (hk : k ∈ callbacks ++ [next]) :
    k < next + 1 ∧ ∀ i ∈ invoked, i < k := by
  rcases mem_append.mp hk with hk | hk
  · exact ⟨(h.waits k hk).1.trans (Nat.lt_succ_self next), fun i hi => (h.invoked_lt i hi).2.2 k hk⟩
  · rw [mem_singleton.mp hk]
    exact ⟨Nat.lt_succ_self next, fun i hi => (h.invoked_lt i hi).1⟩

theorem nodup_callback (h : Follows line gone next callbacks invoked asked) : (callbacks ++ [next]).Nodup :=
  nodup_append.mpr ⟨h.nodup, pairwise_singleton _ _, fun k hk _ hj =>
    mem_singleton.mp hj ▸ (h.waits k hk).1.ne⟩

theorem push (h : Follows line gone next callbacks invoked asked) (hg : ¬gone) (callback : Bool) :
    Follows (line ++ [next]) gone (next + 1) (if callback then callbacks ++ [next] else callbacks) invoked
      (if callback then asked ++ [next] else asked) := by
  have hline : ∀ k ∈ callbacks, k ∈ line := fun k hk => (h.waits k hk).2.resolve_right fun hr => hg hr.1
  have hsub : ∀ k ∈ if callback then callbacks ++ [next] else callbacks, k ∈ callbacks ++ [next] := by
    intro k hk
    cases callback with
    | true => exact hk
    | false => exact mem_append_left _ hk
  refine ⟨?_, ?_, h.invoked_sorted, ?_, ?_, ?_, ?_⟩
  · exact pairwise_append.mpr
      ⟨h.sorted, pairwise_singleton _ _, fun i hi j hj => mem_singleton.mp hj ▸ h.lt i hi⟩
  · intro i hi
    rcases mem_append.mp hi with hi | hi
    · exact (h.lt i hi).trans (Nat.lt_succ_self next)
    · rw [mem_singleton.mp hi]
      exact Nat.lt_succ_self next
  · intro i hi
    refine ⟨(h.invoked_lt i hi).1.trans (Nat.lt_succ_self next), fun e he => ?_, fun k hk => (h.callback (hsub k hk)).2 i hi⟩
    rcases mem_append.mp he with he | he
    · exact (h.invoked_lt i hi).2.1 e he
    · rw [mem_singleton.mp he]
      exact (h.invoked_lt i hi).1
  · cases callback with
    | true => exact h.nodup_callback
    | false => exact h.nodup
  · intro k hk
    refine ⟨(h.callback (hsub k hk)).1, .inl ?_⟩
    rcases mem_append.mp (hsub k hk) with hk | hk
    · exact mem_append_left _ (hline k hk)
    · exact mem_append_right _ hk
  · intro k hk
    cases callback with
    | false => exact h.asked k hk
    | true =>
      rcases mem_append.mp hk with hk | hk
      · exact (h.asked k hk).imp_right (mem_append_left _)
      · exact .inr (mem_append_right _ hk)

/-- A send for which there is no worker any more. -/
theorem refuse (h : Follows line gone next callbacks invoked asked) (hg : gone) (callback : Bool) :
    Follows line gone (next + 1) (if callback then callbacks ++ [next] else callbacks) invoked asked := by
  have hsub : ∀ k ∈ if callback then callbacks ++ [next] else callbacks, k ∈ callbacks ++ [next] := by
    intro k hk
    cases callback with
    | true => exact hk
    | false => exact mem_append_left _ hk
  refine ⟨h.sorted, fun i hi => (h.lt i hi).trans (Nat.lt_succ_self next), h.invoked_sorted, ?_, ?_, ?_, ?_⟩
  · intro i hi
    have hi' := h.invoked_lt i hi
    exact ⟨hi'.1.trans (Nat.lt_succ_self next), hi'.2.1, fun k hk => (h.callback (hsub k hk)).2 i hi⟩
  · cases callback with
    | true => exact h.nodup_callback
    | false => exact h.nodup
  · intro k hk
    refine ⟨(h.callback (hsub k hk)).1, ?_⟩
    rcases mem_append.mp (hsub k hk) with hk | hk
    · exact (h.waits k hk).2
    · rw [mem_singleton.mp hk]
      exact .inr ⟨hg, h.lt⟩
  · intro k hk
    refine (h.asked k hk).imp_right fun hk => ?_
    cases callback with
    | true => exact mem_append_left _ hk
    | false => exact hk

/-- The first of the line is dispatched. -/
theorem pop {id : ℕ} (h : Follows (id :: line) gone next callbacks invoked asked) :
    Follows line gone next (if id ∈ callbacks then callbacks.erase id else callbacks)
      (if id ∈ callbacks then invoked ++ [id] else invoked) asked := by
  have hfirst := pairwise_cons.mp h.sorted
  have hwaits : ∀ k ∈ callbacks, k ≠ id → id < k ∧ k < next ∧ (k ∈ line ∨ gone ∧ ∀ e ∈ line, e < k) := by
    intro k hk hne
    obtain ⟨hlt, hin | ⟨hg, hall⟩⟩ := h.waits k hk
    · have hmem := (mem_cons.mp hin).resolve_left hne
      exact ⟨hfirst.1 k hmem, hlt, .inl hmem⟩
    · exact ⟨hall id mem_cons_self, hlt, .inr ⟨hg, fun e he => hall e (mem_cons_of_mem _ he)⟩⟩
  have hinv : ∀ i ∈ invoked, i < next ∧ ∀ e ∈ line, i < e := fun i hi =>
    ⟨(h.invoked_lt i hi).1, fun e he => (h.invoked_lt i hi).2.1 e (mem_cons_of_mem _ he)⟩
  by_cases hid : id ∈ callbacks
  · rw [if_pos hid, if_pos hid]
    have herase : ∀ k ∈ callbacks.erase id, k ∈ callbacks ∧ k ≠ id := fun k hk =>
      have := h.nodup.mem_erase_iff.mp hk
      ⟨this.2, this.1⟩
    refine ⟨hfirst.2, fun i hi => h.lt i (mem_cons_of_mem _ hi), ?_, ?_, h.nodup.erase _, ?_, ?_⟩
    · exact pairwise_append.mpr ⟨h.invoked_sorted, pairwise_singleton _ _, fun i hi j hj =>
        mem_singleton.mp hj ▸ (h.invoked_lt i hi).2.1 id mem_cons_self⟩
    · intro i hi
      rcases mem_append.mp hi with hi | hi
      · exact ⟨(hinv i hi).1, (hinv i hi).2, fun k hk => (h.invoked_lt i hi).2.2 k (herase k hk).1⟩
      · rw [mem_singleton.mp hi]
        exact ⟨h.lt id mem_cons_self, hfirst.1, fun k hk => (hwaits k (herase k hk).1 (herase k hk).2).1⟩
    · exact fun k hk => (hwaits k (herase k hk).1 (herase k hk).2).2
    · intro k hk
      by_cases hkid : k = id
      · exact .inl (mem_append_right _ (mem_singleton.mpr hkid))
      · exact (h.asked k hk).imp (mem_append_left _) fun hk => h.nodup.mem_erase_iff.mpr ⟨hkid, hk⟩
  · rw [if_neg hid, if_neg hid]
    refine ⟨hfirst.2, fun i hi => h.lt i (mem_cons_of_mem _ hi), h.invoked_sorted, ?_, h.nodup, ?_, h.asked⟩
    · exact fun i hi => ⟨(hinv i hi).1, (hinv i hi).2, (h.invoked_lt i hi).2.2⟩
    · exact fun k hk => (hwaits k hk fun e => hid (e ▸ hk)).2

/-- The worker is gone, and with it the end of the line. -/
theorem cut {rest : List ℕ} (h : Follows (line ++ rest) gone next callbacks invoked asked) :
    Follows line True next callbacks invoked asked := by
  have hsplit := pairwise_append.mp h.sorted
  refine ⟨hsplit.1, fun i hi => h.lt i (mem_append_left _ hi), h.invoked_sorted, fun i hi => ?_, h.nodup,
    fun k hk => ⟨(h.waits k hk).1, ?_⟩, h.asked⟩
  · have hi' := h.invoked_lt i hi
    exact ⟨hi'.1, fun e he => hi'.2.1 e (mem_append_left _ he), hi'.2.2⟩
  · rcases (h.waits k hk).2 with hin | ⟨-, hall⟩
    · rcases mem_append.mp hin with hin | hin
      · exact .inl hin
      · exact .inr ⟨trivial, fun e he => hsplit.2.2 e he k hin⟩
    · exact .inr ⟨trivial, fun e he => hall e (mem_append_left _ he)⟩

/-- At the end the last callback is invoked. -/
theorem finish (h : Follows line gone next callbacks invoked asked) (hone : callbacks.length ≤ 1) {order : List ℕ}
    (hp : order.Perm callbacks) : Follows [] gone next [] (invoked ++ order) asked := by
  have hmem : ∀ k ∈ order, k ∈ callbacks := fun k hk => hp.mem_iff.mp hk
  have hsorted : order.Pairwise (· < ·) := by
    have hlen : order.length ≤ 1 := hp.length_eq ▸ hone
    rcases order with _ | ⟨k, _ | ⟨j, order⟩⟩
    · exact .nil
    · exact pairwise_singleton _ _
    · simp at hlen
  refine ⟨.nil, by simp, ?_, ?_, nodup_nil, by simp, fun k hk => ?_⟩
  · exact pairwise_append.mpr ⟨h.invoked_sorted, hsorted, fun i hi j hj => (h.invoked_lt i hi).2.2 j (hmem j hj)⟩
  · intro i hi
    rcases mem_append.mp hi with hi | hi
    · exact ⟨(h.invoked_lt i hi).1, by simp, by simp⟩
    · exact ⟨(h.waits i (hmem i hi)).1, by simp, by simp⟩
  · rcases h.asked k hk with hk | hk
    · exact .inl (mem_append_left _ hk)
    · exact .inl (mem_append_right _ (hp.mem_iff.mpr hk))

end Follows

/-! ### The invariant -/

/-- What stands on the wire after the whole frames. -/
def Part (peer : Peer) (part : Bytes) : Worker → Prop
  | .writing _ payload rest _ => rest ≠ [] ∧ part ++ rest = childIpcFrame payload
  | .ended => part = [] ∨ peer ≠ .connected ∧ ∃ payload rest : Bytes,
      payload.length < 2 ^ 32 ∧ rest ≠ [] ∧ part ++ rest = childIpcFrame payload
  | _ => part = []

/-- The frames of some sends. -/
def frames (xs : List (ℕ × Bytes)) : Bytes := (xs.map Prod.snd).flatMap childIpcFrame

theorem frames_append (xs ys : List (ℕ × Bytes)) : frames (xs ++ ys) = frames xs ++ frames ys := by
  rw [frames, map_append, flatMap_append]
  rfl

/-- The accepted sends are the written ones and those in flight. -/
structure Flows (c : Channel) : Prop where
  small : ∀ x ∈ c.accepted, x.2.length < 2 ^ 32
  written : c.written <+: c.accepted
  running : c.worker ≠ .ended → c.accepted = c.written ++ c.worker.flight c.commands
  wire : ∃ part, c.wire = frames c.written ++ part ∧ Part c.peer part c.worker
  done : c.worker = .ended → c.peer = .connected → c.accepted = c.written

/-- Sends, and at the end perhaps the command to disconnect. -/
def Closing (cs : List Command) (last : Prop) : Prop :=
  ∃ xs : List (ℕ × Bytes), cs = xs.map (fun x => .send x.1 x.2) ∨ last ∧ cs = xs.map (fun x => .send x.1 x.2) ++ [.disconnect]

/-- How a channel ends: with one event, the last one, and only after the peer or the program did. -/
structure Ends (c : Channel) : Prop where
  closing : Closing c.commands (c.connected = false ∧ c.parted = true)
  alive : c.worker ≠ .ended → c.isOpen = true ∧ c.sender = true ∧ .disconnected ∉ c.events
  last : c.worker = .ended → c.isOpen = true → ∃ es, c.events = es ++ [.disconnected] ∧ .disconnected ∉ es
  closed : c.isOpen = false → c.worker = .ended ∧ c.connected = false ∧ c.sendCallbacks = [] ∧ c.events = []
  failing : ∀ id, .sent id false ∈ c.events → c.worker = .ended
  failed : ∀ id, (id, false) ∈ c.invoked → c.worker = .ended
  refused : c.refused = true → c.connected = false
  unconnected : c.connected = false → c.parted = true ∨ c.worker = .ended
  gone : c.worker = .ended → c.peer ≠ .connected ∨ c.parted = true
  waiting : ∀ pending, c.worker = .listening pending → c.peer = .waiting

def Job.ids : Job → List ℕ
  | .refusal => []
  | .listeners ls => ls

/-- Every disconnect listener is in one place. -/
structure Listens (c : Channel) : Prop where
  nodup : (c.listened ++ c.ticks.flatMap Job.ids ++ c.disconnectListeners).Nodup
  lt : ∀ l ∈ c.listened ++ c.ticks.flatMap Job.ids ++ c.disconnectListeners, l < c.nextListener

/-- Sends, messages, the end and its listeners are in order. -/
structure Inv (c : Channel) : Prop where
  follows : Follows c.line (c.worker = .ended) c.nextSendId c.sendCallbacks (c.invoked.map Prod.fst) c.asked
  flows : Flows c
  ends : Ends c
  listens : Listens c

variable {c : Channel}

theorem inv_of_starts (h : Starts c) : Inv c := by
  cases h
  all_goals exact {
    follows := ⟨.nil, by simp [Channel.new, Channel.line, sentIds, Worker.flight, sends], .nil, by simp [Channel.new], .nil,
      by simp [Channel.new], by simp [Channel.new]⟩
    flows := ⟨by simp [Channel.new], nil_prefix, fun _ => rfl, ⟨[], rfl, rfl⟩, by simp [Channel.new]⟩
    ends := ⟨⟨[], .inl rfl⟩, by simp [Channel.new], by simp [Channel.new], by simp [Channel.new], by simp [Channel.new],
      by simp [Channel.new], by simp [Channel.new], by simp [Channel.new], by simp [Channel.new], by simp [Channel.new]⟩
    listens := ⟨by simp [Channel.new], by simp [Channel.new]⟩ }

/-! ### Steps -/

/-- What a run has to spare for the channel to be right: payloads of a `u32` of bytes, sockets that
are not full, and no more than one callback at the end of the channel. -/
def Spares (c : Channel) : Act → Prop
  | .send payload _ => payload.length < 2 ^ 32
  | .wouldBlock => False
  | .dispatch _ => c.events.head? = some .disconnected → c.sendCallbacks.length ≤ 1
  | _ => True

/-- The line is that of the events and of the flight. -/
theorem line_eq (c : Channel) : c.line = sentIds c.events ++ (c.worker.flight c.commands).map Prod.fst := rfl

theorem flight_push {w : Worker} (h : w ≠ .ended) (cs : List Command) (id : ℕ) (payload : Bytes) :
    w.flight (cs ++ [.send id payload]) = w.flight cs ++ [(id, payload)] := by
  cases w with
  | ended => exact (h rfl).elim
  | _ => simp [Worker.flight, sends]

theorem flight_disconnect (w : Worker) (cs : List Command) : w.flight (cs ++ [.disconnect]) = w.flight cs := by
  cases w <;> simp [Worker.flight, sends]

theorem Flows.small_of_flight (h : Flows c) (hw : c.worker ≠ .ended) {x : ℕ × Bytes}
    (hx : x ∈ c.worker.flight c.commands) : x.2.length < 2 ^ 32 :=
  h.small x (h.running hw ▸ mem_append_right _ hx)

theorem startWrite_of_small {payload : Bytes} (h : payload.length < 2 ^ 32) (c : Channel) (id : ℕ) (pending : List (ℕ × Bytes)) :
    startWrite c id payload pending = { c with worker := .writing id payload (childIpcFrame payload) pending } := if_pos h

/-- The first event is the last one. -/
theorem Ends.no_more (h : Ends c) {es : List Event} (he : c.events = .disconnected :: es)
    (ho : c.isOpen = true) : c.worker = .ended ∧ es = [] := by
  have hended : c.worker = .ended := by
    by_contra hw
    exact (h.alive hw).2.2 (he ▸ mem_cons_self)
  obtain ⟨xs, hxs, hnot⟩ := h.last hended ho
  rw [he] at hxs
  cases xs with
  | nil => exact ⟨hended, (List.cons.inj hxs).2⟩
  | cons x xs => exact (hnot ((List.cons.inj hxs).1 ▸ mem_cons_self)).elim

/-- The end of the worker cuts the line after the sends it reports. -/
theorem follows_endWorker (h : Inv c) {last : List Event} {rest : List ℕ}
    (hl : (c.worker.flight c.commands).map Prod.fst = sentIds last ++ rest) :
    Follows (endWorker c last).line ((endWorker c last).worker = .ended) c.nextSendId c.sendCallbacks
      (c.invoked.map Prod.fst) c.asked := by
  have hf := h.follows
  rw [line_eq, hl, ← append_assoc] at hf
  have hline : (endWorker c last).line = sentIds c.events ++ sentIds last := by
    rw [line_eq, endWorker]
    simp [Worker.flight, sentIds]
  have hgone : ((endWorker c last).worker = .ended) = True := eq_true rfl
  rw [hline, hgone]
  exact hf.cut

theorem Follows.congr_gone {line callbacks invoked asked : List ℕ} {gone gone' : Prop} {next : ℕ}
    (h : Follows line gone next callbacks invoked asked) (hg : gone → gone') :
    Follows line gone' next callbacks invoked asked :=
  { h with waits := fun k hk => ⟨(h.waits k hk).1, (h.waits k hk).2.imp_right fun hr => ⟨hg hr.1, hr.2⟩⟩ }

variable {c c' : Channel}

/-- A step that leaves the line where it is. -/
theorem follows_of_line (h : Inv c) (hl : c'.line = c.line) (hw : c.worker ≠ .ended)
    (hn : c'.nextSendId = c.nextSendId) (hc : c'.sendCallbacks = c.sendCallbacks) (hi : c'.invoked = c.invoked)
    (hq : c'.asked = c.asked) :
    Follows c'.line (c'.worker = .ended) c'.nextSendId c'.sendCallbacks (c'.invoked.map Prod.fst) c'.asked := by
  rw [hl, hn, hc, hi, hq]
  exact h.follows.congr_gone fun hg => (hw hg).elim

variable {a : Act}

theorem follows_step (h : Inv c) (hs : Step c a c') (ha : Spares c a) :
    Follows c'.line (c'.worker = .ended) c'.nextSendId c'.sendCallbacks (c'.invoked.map Prod.fst) c'.asked := by
  have hf := h.follows
  cases hs with
  | send payload callback =>
    unfold childIpcSendInner
    split
    · exact hf
    · dsimp only
      split
      next hq =>
        have := hf.push hq.2 callback
        rw [line_eq, append_assoc] at this
        rw [line_eq]
        dsimp only
        rw [flight_push hq.2, map_append]
        exact this
      next hq =>
        refine hf.refuse ?_ callback
        by_contra hw
        exact hq ⟨(h.ends.alive hw).2.1, hw⟩
  | disconnect =>
    unfold childIpcDisconnectInner
    split
    · exact hf
    · rw [line_eq] at hf ⊢
      dsimp only
      split
      · rw [flight_disconnect]
        exact hf
      · exact hf
  | onDisconnect => exact hf
  | @dispatch e es order he horder =>
    rw [line_eq, he] at hf
    cases e with
    | sent id success =>
      have := hf.pop
      rw [childIpcDispatch]
      split
      next hid =>
        rw [if_pos hid, if_pos hid] at this
        rw [map_append]
        exact this
      next hid =>
        rw [if_neg hid, if_neg hid] at this
        exact this
    | message payload => exact hf
    | disconnected =>
      rw [childIpcDispatch]
      split
      · exact hf
      · have hone := ha (by rw [he]; rfl)
        have hfin := hf.finish hone horder
        obtain ⟨hended, rfl⟩ := h.ends.no_more he (Bool.eq_true_of_not_eq_false ‹_›)
        rw [line_eq]
        dsimp only
        rw [hended, map_append, map_map]
        rw [hended] at hfin
        simpa [sentIds, Worker.flight, Function.comp_def] using hfin
  | @tick job jobs hj => cases job <;> exact hf
  | accept hw => exact follows_of_line h (by rw [line_eq, line_eq, hw]; rfl) (by simp [hw]) rfl rfl rfl rfl
  | acceptError hw => exact follows_endWorker h (nil_append _).symm
  | recvListening hw hc =>
    refine follows_of_line h ?_ (by simp [hw]) rfl rfl rfl rfl
    rw [line_eq, line_eq, hw, hc]
    simp [Worker.flight, sends]
  | @recvDisconnect pending cs hw hc =>
    have hflight : c.worker.flight cs = c.worker.flight c.commands := by
      rw [hc]
      cases c.worker <;> rfl
    have hi : Follows (Channel.line { c with commands := cs }) (c.worker = .ended) c.nextSendId c.sendCallbacks
        (c.invoked.map Prod.fst) c.asked := by
      rw [line_eq]
      dsimp only
      rw [hflight]
      exact hf
    rw [line_eq] at hi
    have hline : (endWorker { c with commands := cs } []).line = sentIds c.events := by
      rw [line_eq, endWorker]
      simp [Worker.flight, sentIds]
    rw [hline]
    exact (hi.cut).congr_gone fun _ => rfl
  | @recvPending id payload pending hw =>
    have hx : (id, payload) ∈ c.worker.flight c.commands := by
      rw [hw]
      exact mem_cons_self
    rw [startWrite_of_small (h.flows.small_of_flight (by simp [hw]) hx)]
    exact follows_of_line h (by rw [line_eq, line_eq, hw]; rfl) (by simp [hw]) rfl rfl rfl rfl
  | @recvSend id payload cs hw hc =>
    have hx : (id, payload) ∈ c.worker.flight c.commands := by
      rw [hw, hc]
      exact mem_cons_self
    rw [startWrite_of_small (h.flows.small_of_flight (by simp [hw]) hx)]
    refine follows_of_line h ?_ (by simp [hw]) rfl rfl rfl rfl
    rw [line_eq, line_eq, hw, hc]
    simp [Worker.flight, sends]
  | write hn hw =>
    unfold wrote
    split
    · refine follows_of_line h ?_ (by simp [hw]) rfl rfl rfl rfl
      rw [line_eq, line_eq, hw]
      simp [Worker.flight, sentIds]
    · exact follows_of_line h (by rw [line_eq, line_eq, hw]; rfl) (by simp [hw]) rfl rfl rfl rfl
  | wouldBlock hw => exact ha.elim
  | writeError hw hp => exact follows_endWorker h (by rw [hw]; rfl)
  | read hw chunk =>
    refine follows_of_line h ?_ (by simp [hw]) rfl rfl rfl rfl
    rw [line_eq, line_eq, hw, gotBytes]
    simp [hw, sentIds_messages]
  | readEnd hw hp => exact follows_endWorker h (nil_append _).symm
  | peerCloses hp => exact hf

/-! The bytes. -/

/-- What stands after the whole frames is no frame. -/
theorem Part.takeFrames {peer : Peer} {part : Bytes} {w : Worker} (cs : List Command) (h : Part peer part w)
    (hsmall : ∀ x ∈ w.flight cs, x.2.length < 2 ^ 32) : takeFrames part = ([], part) := by
  cases w with
  | writing id payload rest pending => exact takeFrames_part (hsmall _ mem_cons_self) h.2 h.1
  | ended =>
    rcases h with rfl | ⟨-, payload, rest, hp, hr, hf⟩
    · exact takeFrames_nil
    · exact takeFrames_part hp hf hr
  | listening pending => rw [show part = [] from h]; exact takeFrames_nil
  | idle pending => rw [show part = [] from h]; exact takeFrames_nil

/-- The worker ends where it does not write. -/
theorem flows_endWorker (h : Flows c) (cs : List Command) (hc : c' = endWorker { c with commands := cs } [])
    (hpart : ∀ part, Part c.peer part c.worker → part = [])
    (hdone : c.peer = .connected → c.accepted = c.written) : Flows c' := by
  subst hc
  obtain ⟨part, hwire, hp⟩ := h.wire
  exact ⟨h.small, h.written, fun hw => (hw rfl).elim, ⟨part, hwire, .inl (hpart part hp)⟩, fun _ => hdone⟩

theorem flows_step (h : Inv c) (hs : Step c a c') (ha : Spares c a) : Flows c' := by
  have hf := h.flows
  cases hs with
  | send payload callback =>
    unfold childIpcSendInner
    split
    · exact { hf with }
    · dsimp only
      split
      next hq =>
        refine ⟨?_, hf.written.trans (prefix_append ..), fun hw => ?_, hf.wire, fun hw => (hq.2 hw).elim⟩
        · intro x hx
          rcases mem_append.mp hx with hx | hx
          · exact hf.small x hx
          · rw [mem_singleton.mp hx]
            exact ha
        · dsimp only
          rw [flight_push hq.2, hf.running hw, append_assoc]
      next hq => exact { hf with }
  | disconnect =>
    unfold childIpcDisconnectInner
    split
    · exact hf
    · refine ⟨hf.small, hf.written, fun hw => ?_, hf.wire, hf.done⟩
      dsimp only
      split
      · rw [flight_disconnect]
        exact hf.running hw
      · exact hf.running hw
  | onDisconnect => exact { hf with }
  | @dispatch e es order he horder =>
    cases e with
    | sent id success =>
      rw [childIpcDispatch]
      split <;> exact { hf with }
    | message payload => exact { hf with }
    | disconnected =>
      rw [childIpcDispatch]
      split <;> exact { hf with }
  | @tick job jobs hj => cases job <;> exact { hf with }
  | accept hw =>
    refine ⟨hf.small, hf.written, fun _ => ?_, ?_, fun hw => by cases hw⟩
    · have := hf.running (by simp [hw])
      rw [hw] at this
      exact this
    · have := hf.wire
      rw [hw] at this
      exact this
  | acceptError hw =>
    have hp := h.ends.waiting _ hw
    exact flows_endWorker hf c.commands rfl (fun part hpart => by rw [hw] at hpart; exact hpart) (by simp [hp])
  | recvListening hw hc =>
    refine ⟨hf.small, hf.written, fun _ => ?_, ?_, fun hw => by cases hw⟩
    · have := hf.running (by simp [hw])
      rw [hw, hc] at this
      simpa [Worker.flight, sends] using this
    · have := hf.wire
      rw [hw] at this
      exact this
  | @recvDisconnect pending cs hw hc =>
    refine flows_endWorker hf _ rfl (fun part hpart => ?_) fun hconn => ?_
    · rcases hw with hw | hw
      · rw [hw] at hpart
        exact hpart
      · rw [hw] at hpart
        exact hpart
    · rcases hw with hw | hw
      · rw [h.ends.waiting _ hw] at hconn
        cases hconn
      · -- the command to disconnect is the last one
        have hrun := hf.running (by simp [hw])
        obtain ⟨xs, hxs | ⟨-, hxs⟩⟩ := h.ends.closing
        · rw [hc] at hxs
          cases xs <;> cases hxs
        · rw [hc] at hxs
          cases xs with
          | nil =>
            rw [hw, hc, (List.cons.inj hxs).2] at hrun
            simpa [Worker.flight, sends] using hrun
          | cons x xs => cases hxs
  | @recvPending id payload pending hw =>
    have hx : (id, payload) ∈ c.worker.flight c.commands := by
      rw [hw]
      exact mem_cons_self
    rw [startWrite_of_small (hf.small_of_flight (by simp [hw]) hx)]
    refine ⟨hf.small, hf.written, fun _ => ?_, ?_, fun hw => by cases hw⟩
    · have := hf.running (by simp [hw])
      rw [hw] at this
      exact this
    · obtain ⟨part, hwire, hp⟩ := hf.wire
      rw [hw] at hp
      exact ⟨part, hwire, childIpcFrame_ne_nil payload, by rw [show part = [] from hp]; rfl⟩
  | @recvSend id payload cs hw hc =>
    have hx : (id, payload) ∈ c.worker.flight c.commands := by
      rw [hw, hc]
      exact mem_cons_self
    rw [startWrite_of_small (hf.small_of_flight (by simp [hw]) hx)]
    refine ⟨hf.small, hf.written, fun _ => ?_, ?_, fun hw => by cases hw⟩
    · have := hf.running (by simp [hw])
      rw [hw, hc] at this
      exact this
    · obtain ⟨part, hwire, hp⟩ := hf.wire
      rw [hw] at hp
      exact ⟨part, hwire, childIpcFrame_ne_nil payload, by rw [show part = [] from hp]; rfl⟩
  | @write n id payload rest pending hn hw =>
    have hrun := hf.running (by simp [hw])
    obtain ⟨part, hwire, hp⟩ := hf.wire
    rw [hw] at hrun hp
    have hwire' : c.wire ++ rest.take n = frames c.written ++ (part ++ rest.take n) := by
      rw [hwire, append_assoc]
    unfold wrote
    split
    next hall =>
      have htake : rest.take n = rest := by
        have := take_append_drop n rest
        rwa [hall, append_nil] at this
      refine ⟨hf.small, ⟨pending ++ sends c.commands, ?_⟩, fun _ => ?_, ⟨[], ?_, rfl⟩, fun hw => by cases hw⟩
      · rw [hrun]
        simp [Worker.flight]
      · rw [hrun]
        simp [Worker.flight]
      · rw [hwire', htake, hp.2, frames_append, append_nil]
        simp [frames]
    next hmore =>
      refine ⟨hf.small, hf.written, fun _ => hrun, ⟨part ++ rest.take n, hwire', hmore, ?_⟩, fun hw => by cases hw⟩
      rw [append_assoc, take_append_drop]
      exact hp.2
  | wouldBlock hw => exact ha.elim
  | @writeError id payload rest pending hw hp =>
    obtain ⟨part, hwire, hpart⟩ := hf.wire
    have hx : (id, payload) ∈ c.worker.flight c.commands := by
      rw [hw]
      exact mem_cons_self
    have hsmall := hf.small_of_flight (by simp [hw]) hx
    rw [hw] at hpart
    have hpeer : c.peer ≠ .connected := by simp [hp]
    exact ⟨hf.small, hf.written, fun hw => (hw rfl).elim,
      ⟨part, hwire, .inr ⟨hpeer, payload, rest, hsmall, hpart.1, hpart.2⟩⟩, fun _ hconn => (hpeer hconn).elim⟩
  | read hw chunk => exact ⟨hf.small, hf.written, hf.running, hf.wire, hf.done⟩
  | readEnd hw hp =>
    exact flows_endWorker hf c.commands rfl (fun part hpart => by rw [hw] at hpart; exact hpart) (by simp [hp])
  | peerCloses hp =>
    obtain ⟨part, hwire, hpart⟩ := hf.wire
    refine ⟨hf.small, hf.written, hf.running, ⟨part, hwire, ?_⟩, fun _ hconn => by cases hconn⟩
    dsimp only
    cases hw : c.worker with
    | ended =>
      rw [hw] at hpart
      rcases hpart with hpart | hpart
      · exact .inl hpart
      · exact (hpart.1 hp).elim
    | _ =>
      rw [hw] at hpart
      exact hpart

/-! The end. -/

variable {cs : List Command}

theorem Closing.imp {last last' : Prop} (h : Closing cs last) (hl : last → last') : Closing cs last' := by
  obtain ⟨xs, hxs | ⟨h1, hxs⟩⟩ := h
  · exact ⟨xs, .inl hxs⟩
  · exact ⟨xs, .inr ⟨hl h1, hxs⟩⟩

theorem Closing.tail {cmd : Command} {last : Prop} (h : Closing (cmd :: cs) last) : Closing cs last := by
  obtain ⟨xs, hxs | ⟨h1, hxs⟩⟩ := h
  · cases xs with
    | nil => cases hxs
    | cons x xs => exact ⟨xs, .inl (List.cons.inj hxs).2⟩
  · cases xs with
    | nil => exact ⟨[], .inl (List.cons.inj hxs).2⟩
    | cons x xs => exact ⟨xs, .inr ⟨h1, (List.cons.inj hxs).2⟩⟩

theorem Closing.push {last : Prop} (h : Closing cs last) (hl : ¬last) (id : ℕ) (payload : Bytes) :
    Closing (cs ++ [.send id payload]) last := by
  obtain ⟨xs, hxs | ⟨h1, -⟩⟩ := h
  · exact ⟨xs ++ [(id, payload)], .inl (by rw [hxs, map_append]; rfl)⟩
  · exact (hl h1).elim

theorem Closing.close {last last' : Prop} (h : Closing cs last) (hl : ¬last) (hl' : last') :
    Closing (cs ++ [.disconnect]) last' := by
  obtain ⟨xs, hxs | ⟨h1, -⟩⟩ := h
  · exact ⟨xs, .inr ⟨hl', by rw [hxs]⟩⟩
  · exact (hl h1).elim

/-- The worker ends, and the peer or the program did so before. -/
theorem ends_endWorker (h : Ends c) (hcs : Closing cs (c.connected = false ∧ c.parted = true))
    {last : List Event} (hw : c.worker ≠ .ended) (hlast : .disconnected ∉ last)
    (hgone : c.peer ≠ .connected ∨ c.parted = true) : Ends (endWorker { c with commands := cs } last) where
  closing := hcs
  alive hne := (hne rfl).elim
  last _ _ := ⟨c.events ++ last, rfl, by simp [(h.alive hw).2.2, hlast]⟩
  closed ho := (hw (h.closed ho).1).elim
  failing _ _ := rfl
  failed _ _ := rfl
  refused := h.refused
  unconnected _ := .inr rfl
  gone _ := hgone
  waiting _ hl := by cases hl

/-- A step of the worker that leaves the channel to the program as it is. -/
theorem ends_worker (h : Ends c) (hw : c.worker ≠ .ended) (hw' : c'.worker ≠ .ended)
    (hcs : Closing c'.commands (c.connected = false ∧ c.parted = true)) (hconn : c'.connected = c.connected)
    (hparted : c'.parted = c.parted) (hopen : c'.isOpen = c.isOpen) (hsender : c'.sender = c.sender)
    (hinvoked : c'.invoked = c.invoked) (hrefused : c'.refused = c.refused)
    (hevents : ∃ es, c'.events = c.events ++ es ∧ .disconnected ∉ es ∧ ∀ id, .sent id false ∉ es)
    (hwait : ∀ pending, c'.worker = .listening pending → c'.peer = .waiting) : Ends c' := by
  obtain ⟨es, hes, hnot, hfail⟩ := hevents
  have halive := h.alive hw
  refine ⟨by rw [hconn, hparted]; exact hcs, fun _ => ?_, fun he => (hw' he).elim, fun ho => ?_, fun id hid => ?_,
    fun id hid => ?_, by rw [hrefused, hconn]; exact h.refused, ?_, fun he => (hw' he).elim, hwait⟩
  · rw [hopen, hsender, hes]
    exact ⟨halive.1, halive.2.1, by simp [halive.2.2, hnot]⟩
  · rw [hopen] at ho
    exact (hw (h.closed ho).1).elim
  · rw [hes] at hid
    rcases mem_append.mp hid with hid | hid
    · exact (hw (h.failing id hid)).elim
    · exact (hfail id hid).elim
  · rw [hinvoked] at hid
    exact (hw (h.failed id hid)).elim
  · rw [hconn, hparted]
    exact fun hc => (h.unconnected hc).imp_right fun he => (hw he).elim

theorem ends_step (h : Inv c) (hs : Step c a c') (ha : Spares c a) : Ends c' := by
  have hf := h.ends
  cases hs with
  | send payload callback =>
    unfold childIpcSendInner
    split
    next hc => exact { hf with refused := fun _ => hc }
    next hc =>
      have hconn : ¬(c.connected = false ∧ c.parted = true) := fun hr => hc hr.1
      dsimp only
      split
      next hq =>
        exact { hf with
          closing := hf.closing.push hconn _ _
          closed := fun ho => (hq.2 (hf.closed ho).1).elim }
      next hq =>
        have hended : c.worker = .ended := by
          by_contra hw
          exact hq ⟨(hf.alive hw).2.1, hw⟩
        exact { hf with
          closing := hf.closing.imp fun hr => ⟨rfl, hr.2⟩
          closed := fun ho => (hc (hf.closed ho).2.1).elim
          refused := fun _ => rfl
          unconnected := fun _ => .inr hended }
  | disconnect =>
    unfold childIpcDisconnectInner
    split
    · exact hf
    next hc =>
      have hconn : ¬(c.connected = false ∧ c.parted = true) := fun hr => hc hr.1
      exact { hf with
        closing := by
          dsimp only
          split
          · exact hf.closing.close hconn ⟨rfl, rfl⟩
          · exact hf.closing.imp fun _ => ⟨rfl, rfl⟩
        closed := fun ho => (hc (hf.closed ho).2.1).elim
        refused := fun _ => rfl
        unconnected := fun _ => .inl rfl
        gone := fun _ => .inr rfl }
  | onDisconnect => exact { hf with }
  | @dispatch e es order he horder =>
    have hmem : ∀ x ∈ es, x ∈ c.events := fun x hx => he ▸ mem_cons_of_mem _ hx
    have hopen : ∀ {P : Prop}, c.isOpen = false → P := fun ho => by
      have := (hf.closed ho).2.2.2
      rw [he] at this
      cases this
    have hlast : e ≠ .disconnected → c.worker = .ended → c.isOpen = true →
        ∃ xs, es = xs ++ [Event.disconnected] ∧ Event.disconnected ∉ xs := by
      intro hne hw ho
      obtain ⟨xs, hxs, hnot⟩ := hf.last hw ho
      rw [he] at hxs
      cases xs with
      | nil => exact (hne (List.cons.inj hxs).1).elim
      | cons x xs => exact ⟨xs, (List.cons.inj hxs).2, fun hx => hnot (mem_cons_of_mem _ hx)⟩
    cases e with
    | sent id success =>
      rw [childIpcDispatch]
      split
      · exact { hf with
          alive := fun hw => ⟨(hf.alive hw).1, (hf.alive hw).2.1, fun hx => (hf.alive hw).2.2 (hmem _ hx)⟩
          last := hlast (by simp)
          closed := fun ho => hopen ho
          failing := fun i hi => hf.failing i (hmem _ hi)
          failed := fun i hi => by
            rcases mem_append.mp hi with hi | hi
            · exact hf.failed i hi
            · refine hf.failing id ?_
              rw [he, (Prod.mk.inj (mem_singleton.mp hi)).2]
              exact mem_cons_self }
      · exact { hf with
          alive := fun hw => ⟨(hf.alive hw).1, (hf.alive hw).2.1, fun hx => (hf.alive hw).2.2 (hmem _ hx)⟩
          last := hlast (by simp)
          closed := fun ho => hopen ho
          failing := fun i hi => hf.failing i (hmem _ hi) }
    | message payload =>
      exact { hf with
        alive := fun hw => ⟨(hf.alive hw).1, (hf.alive hw).2.1, fun hx => (hf.alive hw).2.2 (hmem _ hx)⟩
        last := hlast (by simp)
        closed := fun ho => hopen ho
        failing := fun i hi => hf.failing i (hmem _ hi) }
    | disconnected =>
      rw [childIpcDispatch]
      split
      next ho => exact hopen ho
      next ho =>
        obtain ⟨hended, hnil⟩ := hf.no_more he (Bool.eq_true_of_not_eq_false ho)
        exact { hf with
          closing := hf.closing.imp fun hr => ⟨rfl, hr.2⟩
          alive := fun hw => (hw hended).elim
          last := fun _ hc => by cases hc
          closed := fun _ => ⟨hended, rfl, rfl, hnil⟩
          failing := fun i hi => hf.failing i (hmem _ hi)
          failed := fun _ _ => hended
          refused := fun _ => rfl
          unconnected := fun _ => .inr hended }
  | @tick job jobs hj => cases job <;> exact { hf with }
  | accept hw =>
    exact ends_worker hf (by simp [hw]) (by simp) hf.closing rfl rfl rfl rfl rfl rfl ⟨[], by simp⟩ (by simp)
  | acceptError hw =>
    exact ends_endWorker hf hf.closing (by simp [hw]) (by simp) (.inl (by simp [hf.waiting _ hw]))
  | recvListening hw hc =>
    have htail := hf.closing
    rw [hc] at htail
    exact ends_worker hf (by simp [hw]) (by simp) htail.tail rfl rfl rfl rfl rfl rfl ⟨[], by simp⟩
      fun _ _ => hf.waiting _ hw
  | recvDisconnect hw hc =>
    have htail := hf.closing
    rw [hc] at htail
    have hparted : c.parted = true := by
      obtain ⟨xs, hxs | ⟨hr, -⟩⟩ := htail
      · cases xs <;> cases hxs
      · exact hr.2
    exact ends_endWorker hf htail.tail (by rcases hw with hw | hw <;> simp [hw]) (by simp) (.inr hparted)
  | @recvPending id payload pending hw =>
    have hx : (id, payload) ∈ c.worker.flight c.commands := by
      rw [hw]
      exact mem_cons_self
    rw [startWrite_of_small (h.flows.small_of_flight (by simp [hw]) hx)]
    exact ends_worker hf (by simp [hw]) (by simp) hf.closing rfl rfl rfl rfl rfl rfl ⟨[], by simp⟩ (by simp)
  | @recvSend id payload cs hw hc =>
    have hx : (id, payload) ∈ c.worker.flight c.commands := by
      rw [hw, hc]
      exact mem_cons_self
    rw [startWrite_of_small (h.flows.small_of_flight (by simp [hw]) hx)]
    have htail := hf.closing
    rw [hc] at htail
    exact ends_worker hf (by simp [hw]) (by simp) htail.tail rfl rfl rfl rfl rfl rfl ⟨[], by simp⟩ (by simp)
  | write hn hw =>
    unfold wrote
    split
    · exact ends_worker hf (by simp [hw]) (by simp) hf.closing rfl rfl rfl rfl rfl rfl ⟨[_], rfl, by simp, by simp⟩ (by simp)
    · exact ends_worker hf (by simp [hw]) (by simp) hf.closing rfl rfl rfl rfl rfl rfl ⟨[], by simp⟩ (by simp)
  | wouldBlock hw => exact ha.elim
  | writeError hw hp => exact ends_endWorker hf hf.closing (by simp [hw]) (by simp) (.inl (by simp [hp]))
  | read hw chunk =>
    exact ends_worker hf (by simp [hw]) (by simp [gotBytes, hw]) hf.closing rfl rfl rfl rfl rfl rfl
      ⟨_, rfl, by simp, by simp⟩ (by simp [gotBytes, hw])
  | readEnd hw hp => exact ends_endWorker hf hf.closing (by simp [hw]) (by simp) (.inl (by simp [hp]))
  | peerCloses hp =>
    exact { hf with
      gone := fun _ => .inl (by simp)
      waiting := fun pending hw => by simp [hf.waiting pending hw] at hp }

theorem listens_step (h : Listens c) (hs : Step c a c') : Listens c' := by
  cases hs with
  | send payload callback =>
    unfold childIpcSendInner
    split
    · cases callback with
      | false => exact ⟨h.nodup, h.lt⟩
      | true =>
        refine ⟨?_, ?_⟩
        · simpa [Job.ids] using h.nodup
        · simpa [Job.ids] using h.lt
    · dsimp only
      split <;> exact ⟨h.nodup, h.lt⟩
  | disconnect =>
    unfold childIpcDisconnectInner
    split
    · exact h
    · have hids : (if c.disconnectListeners ≠ [] then c.ticks ++ [Job.listeners c.disconnectListeners] else c.ticks).flatMap
          Job.ids = c.ticks.flatMap Job.ids ++ c.disconnectListeners := by
        split
        · rw [flatMap_append, flatMap_singleton]
          rfl
        next hnil => rw [not_not.mp hnil, append_nil]
      have heq : c.listened ++ (if c.disconnectListeners ≠ [] then c.ticks ++ [Job.listeners c.disconnectListeners]
          else c.ticks).flatMap Job.ids ++ [] = c.listened ++ c.ticks.flatMap Job.ids ++ c.disconnectListeners := by
        rw [hids, append_nil, append_assoc]
      exact ⟨heq ▸ h.nodup, heq ▸ h.lt⟩
  | onDisconnect =>
    refine ⟨?_, fun l hl => ?_⟩
    · rw [childIpcOnDisconnectInner, ← append_assoc]
      refine nodup_append.mpr ⟨h.nodup, pairwise_singleton _ _, fun l hl k hk => ?_⟩
      rw [mem_singleton.mp hk]
      exact (h.lt l hl).ne
    · rw [childIpcOnDisconnectInner, ← append_assoc] at hl
      rcases mem_append.mp hl with hl | hl
      · exact (h.lt l hl).trans (Nat.lt_succ_self _)
      · rw [mem_singleton.mp hl]
        exact Nat.lt_succ_self _
  | @dispatch e es order he horder =>
    cases e with
    | sent id success =>
      rw [childIpcDispatch]
      split <;> exact ⟨h.nodup, h.lt⟩
    | message payload => exact ⟨h.nodup, h.lt⟩
    | disconnected =>
      rw [childIpcDispatch]
      split
      · exact ⟨h.nodup, h.lt⟩
      · have hperm : (c.listened ++ c.disconnectListeners ++ c.ticks.flatMap Job.ids ++ []).Perm
            (c.listened ++ c.ticks.flatMap Job.ids ++ c.disconnectListeners) := by
          rw [append_nil, append_assoc, append_assoc]
          exact List.Perm.append_left _ perm_append_comm
        exact ⟨hperm.nodup_iff.mpr h.nodup, fun l hl => h.lt l (hperm.mem_iff.mp hl)⟩
  | @tick job jobs hj =>
    have hnodup := h.nodup
    have hlt := h.lt
    rw [hj] at hnodup hlt
    cases job with
    | refusal =>
      refine ⟨?_, ?_⟩
      · simpa [Job.ids, runTick] using hnodup
      · simpa [Job.ids, runTick] using hlt
    | listeners ls =>
      refine ⟨?_, ?_⟩
      · simpa [Job.ids, runTick] using hnodup
      · simpa [Job.ids, runTick] using hlt
  | recvPending hw =>
    unfold startWrite
    split <;> exact ⟨h.nodup, h.lt⟩
  | recvSend hw hc =>
    unfold startWrite
    split <;> exact ⟨h.nodup, h.lt⟩
  | write hn hw =>
    unfold wrote
    split <;> exact ⟨h.nodup, h.lt⟩
  | _ => exact ⟨h.nodup, h.lt⟩

/-! ### Runs -/

theorem inv_step (h : Inv c) (hs : Step c a c') (ha : Spares c a) : Inv c' :=
  ⟨follows_step h hs ha, flows_step h hs ha, ends_step h hs ha, listens_step h.listens hs⟩

theorem inv_run {acts : List Act} (hc : Starts c) (h : Run Spares c acts c') : Inv c' := by
  induction h with
  | nil => exact inv_of_starts hc
  | snoc _ hs ha ih => exact inv_step ih hs ha

/-- What the peer makes of the bytes on the wire. -/
def Channel.received (c : Channel) : List Bytes := (takeFrames c.wire).1

/-- No command waits, no event, and the worker writes nothing. -/
def Channel.Quiet (c : Channel) : Prop := c.commands = [] ∧ c.events = [] ∧ (c.worker = .idle [] ∨ c.worker = .ended)

/-- What a channel is for: messages arrive whole, once and in order, callbacks are invoked once and in
order, and nothing fails before the channel ends. -/
structure Delivers (c : Channel) : Prop where
  received_prefix : c.received <+: c.accepted.map Prod.snd
  received_all : c.peer = .connected → c.Quiet → c.received = c.accepted.map Prod.snd ∧ (takeFrames c.wire).2 = []
  invoked_in_order : (c.invoked.map Prod.fst).Pairwise (· < ·)
  invoked_or_waits : ∀ k ∈ c.asked, k ∈ c.invoked.map Prod.fst ∨ k ∈ c.sendCallbacks
  invoked_once : ∀ k ∈ c.sendCallbacks, k ∉ c.invoked.map Prod.fst
  none_waits : c.Quiet → c.sendCallbacks = []
  no_failure : c.peer = .connected → c.parted = false → c.refused = false ∧ ∀ x ∈ c.invoked, x.2 = true
  listened_once : c.listened.Nodup

theorem received_eq (h : Flows c) : c.received = c.written.map Prod.snd ∧
    ∃ part, c.wire = frames c.written ++ part ∧ (takeFrames c.wire).2 = part ∧ Part c.peer part c.worker := by
  obtain ⟨part, hwire, hpart⟩ := h.wire
  have hsmall : ∀ p ∈ c.written.map Prod.snd, p.length < 2 ^ 32 := by
    intro p hp
    obtain ⟨x, hx, rfl⟩ := mem_map.mp hp
    exact h.small x (h.written.subset hx)
  have hnone : takeFrames part = ([], part) := by
    by_cases hw : c.worker = .ended
    · rw [hw] at hpart
      exact Part.takeFrames [] hpart (by simp [Worker.flight])
    · exact hpart.takeFrames _ fun x hx => h.small_of_flight hw hx
  have hall := takeFrames_frames hsmall part
  rw [hnone, append_nil] at hall
  have heq : takeFrames c.wire = (c.written.map Prod.snd, part) := by rw [hwire, frames, hall]
  exact ⟨by rw [Channel.received, heq], part, hwire, by rw [heq], hpart⟩

theorem delivers_of_inv (h : Inv c) : Delivers c := by
  obtain ⟨hrec, part, hwire, hleft, hpart⟩ := received_eq h.flows
  refine ⟨?_, ?_, h.follows.invoked_sorted, h.follows.asked, ?_, ?_, ?_, ?_⟩
  · rw [hrec]
    exact h.flows.written.map _
  · rintro hpeer ⟨hcs, -, hw⟩
    have hall : c.accepted = c.written := by
      rcases hw with hw | hw
      · have hrun := h.flows.running (by simp [hw])
        rw [hw, hcs] at hrun
        simpa [Worker.flight, sends] using hrun
      · exact h.flows.done hw hpeer
    refine ⟨by rw [hrec, hall], ?_⟩
    rw [hleft]
    rcases hw with hw | hw
    · rw [hw] at hpart
      exact hpart
    · rw [hw] at hpart
      exact hpart.resolve_right fun hr => hr.1 hpeer
  · exact fun k hk hi => lt_irrefl k ((h.follows.invoked_lt k hi).2.2 k hk)
  · rintro ⟨hcs, hes, hw⟩
    by_cases ho : c.isOpen = false
    · exact (h.ends.closed ho).2.2.1
    · rcases hw with hw | hw
      · refine eq_nil_iff_forall_not_mem.mpr fun k hk => ?_
        rcases (h.follows.waits k hk).2 with hline | ⟨hgone, -⟩
        · rw [line_eq, hes, hw, hcs] at hline
          simp [sentIds, Worker.flight, sends] at hline
        · rw [hw] at hgone
          cases hgone
      · obtain ⟨xs, hxs, -⟩ := h.ends.last hw (Bool.eq_true_of_not_eq_false ho)
        rw [hes] at hxs
        simp at hxs
  · intro hpeer hparted
    have hw : c.worker ≠ .ended := by
      intro hw
      rcases h.ends.gone hw with hg | hg
      · exact hg hpeer
      · rw [hparted] at hg
        cases hg
    refine ⟨?_, fun x hx => ?_⟩
    · by_contra hr
      have hc := h.ends.refused (Bool.eq_true_of_not_eq_false hr)
      rcases h.ends.unconnected hc with hp | hp
      · rw [hparted] at hp
        cases hp
      · exact hw hp
    · by_contra hr
      refine hw (h.ends.failed x.1 ?_)
      rw [← Bool.eq_false_of_not_eq_true hr]
      exact hx
  · have := h.listens.nodup
    rw [append_assoc] at this
    exact (nodup_append.mp this).1

/-- **A channel delivers exactly once**, as long as the socket has room, and what was cut on the way is
put together again. -/
theorem channel_delivers {c c' : Channel} {acts : List Act} (hc : Starts c) (h : Run Spares c acts c') :
    Delivers c' ∧ ∀ ps : List Bytes, (∀ p ∈ ps, p.length < 2 ^ 32) → ∀ chunks : List Bytes,
      chunks.flatten = ps.flatMap childIpcFrame → (Chunks.feed receive [] chunks).1 = ps :=
  ⟨delivers_of_inv (inv_run hc h), fun _ hps _ hchunks => receive_frames hps hchunks⟩

/-- A message to a child that connects after it was sent. -/
theorem channel_delivers_one :
    Delivers { childIpcSendInner (.new (.listening []) .waiting) [7] true with worker := .idle [], peer := .connected } :=
  (channel_delivers .fork (.snoc (.snoc .nil (.send [7] true) (show ([7] : Bytes).length < 2 ^ 32 by decide)) (.accept rfl) trivial)).1

/-- The socket is full: the callback gets an error, while the parent is still there. -/
theorem not_channel_delivers : ¬∀ (c c' : Channel) (acts : List Act), Starts c → Run (fun _ _ => True) c acts c' → Delivers c' := by
  intro h
  have hsend : Run (fun _ _ => True) (.new (.idle []) .connected) [.send [7] true]
      (childIpcSendInner (.new (.idle []) .connected) [7] true) := .snoc .nil (.send [7] true) trivial
  have hfull := (hsend.snoc (.recvSend rfl rfl) trivial).snoc (.wouldBlock rfl) trivial
  have hdispatch := hfull.snoc (.dispatch rfl (List.Perm.refl [1])) trivial
  have hok := ((h _ _ _ .process hdispatch).no_failure rfl rfl).2 (1, false) (mem_singleton.mpr rfl)
  cases hok

end Scriptc.RuntimeRust.Ipc
