import Scriptc.RuntimeRust.ChildWriter
import Mathlib.Data.List.Basic

/-!
# What the writer of a child's stdin keeps

While nothing fails, what was accepted is what the pipe took, followed by what the worker is writing
and what its commands hold. The program writes to the pipe itself only when nothing is queued, and
then the worker has no byte left.
-/

namespace Scriptc.RuntimeRust.ChildWriter

open List

/-! ### What is under way -/

/-- The bytes that commands hold. -/
def bytesOf : List Command → Bytes
  | [] => []
  | .write data _ :: cs => data ++ bytesOf cs
  | _ :: cs => bytesOf cs

@[simp] theorem bytesOf_append (xs ys : List Command) : bytesOf (xs ++ ys) = bytesOf xs ++ bytesOf ys := by
  induction xs with
  | nil => rfl
  | cons x xs ih => cases x <;> simp [bytesOf, ih]

@[simp] theorem lengths_append (xs ys : List Command) : lengths (xs ++ ys) = lengths xs + lengths ys := by
  induction xs with
  | nil => simp [lengths]
  | cons x xs ih => cases x <;> simp [lengths, ih, Nat.add_assoc]

/-- The bytes that the worker has or will have. -/
def Worker.bytes : Worker → List Command → Bytes
  | .idle, cs => bytesOf cs
  | .writing rest _, cs => rest ++ bytesOf cs
  | .ended, _ => []

/-- The lengths that the worker has or will have. -/
def Worker.length : Worker → List Command → ℕ
  | .idle, cs => lengths cs
  | .writing _ length, cs => length + lengths cs
  | .ended, _ => 0

/-- The lengths that were reported and not dispatched. -/
def reported : List Event → ℕ
  | [] => 0
  | .wrote length :: es => length + reported es
  | _ :: es => reported es

@[simp] theorem reported_append (xs ys : List Event) : reported (xs ++ ys) = reported xs + reported ys := by
  induction xs with
  | nil => simp [reported]
  | cons x xs ih => cases x <;> simp [reported, ih, Nat.add_assoc]

/-- A write never has more bytes than it counts. -/
def Sized (cs : List Command) : Prop := ∀ data length, .write data length ∈ cs → data.length ≤ length

def Worker.Sized : Worker → Prop
  | .writing rest length => rest.length ≤ length
  | _ => True

variable {cs : List Command}

theorem length_bytesOf_le (h : Sized cs) : (bytesOf cs).length ≤ lengths cs := by
  induction cs with
  | nil => exact le_rfl
  | cons c cs ih =>
    have htail := ih fun data length hm => h data length (mem_cons_of_mem _ hm)
    cases c with
    | write data length =>
      have := h data length mem_cons_self
      rw [bytesOf, lengths, length_append]
      omega
    | done => exact htail
    | destroy => exact htail

theorem Worker.length_bytes_le {w : Worker} (hw : w.Sized) (h : ChildWriter.Sized cs) :
    (w.bytes cs).length ≤ w.length cs := by
  have := length_bytesOf_le h
  cases w with
  | idle => exact this
  | writing rest length =>
    rw [Worker.bytes, Worker.length, length_append]
    exact Nat.add_le_add hw this
  | ended => exact le_rfl

/-! ### The invariant -/

/-- Writes, and at the end perhaps the end of the stream. -/
def Closing (cs : List Command) (last : Prop) : Prop :=
  ∃ xs : List (Bytes × ℕ), cs = xs.map (fun x => .write x.1 x.2) ∨ last ∧ cs = xs.map (fun x => .write x.1 x.2) ++ [.done]

/-- Reports of writes. -/
def Reports (es : List Event) : Prop := ∀ e ∈ es, ∃ length, e = .wrote length

/-- Nothing failed, and the end was not dispatched. -/
structure Running (w : Writer) : Prop where
  failed : w.failed = false
  finished : w.finished = false
  sender : w.sender = true
  receiver : w.receiver = true
  accounts : w.accepted.length = w.acked + w.queued
  queued : w.queued = reported w.events + w.worker.length w.commands
  bytes : w.accepted = w.pipe ++ w.worker.bytes w.commands
  needs : w.needsDrain = w.owed
  owed : w.owed = true → w.writable = true → w.queued ≠ 0
  closing : Closing w.commands (w.writable = false)
  events : w.worker ≠ .ended → Reports w.events
  ended : w.worker = .ended → w.commands = [] ∧ w.writable = false ∧ ∃ es, w.events = es ++ [.finished] ∧ Reports es
  finishes : w.finishes = []

/-- Everything was written, and the end was dispatched. -/
structure Finished (w : Writer) : Prop where
  failed : w.failed = false
  sender : w.sender = false
  receiver : w.receiver = false
  writable : w.writable = false
  worker : w.worker = .ended
  bytes : w.accepted = w.pipe
  accounts : w.accepted.length = w.acked + w.queued
  queued : w.queued = 0
  finishes : w.finishes = [0]

/-- A write of the worker failed, which is not dispatched yet. -/
structure Broken (w : Writer) : Prop where
  failed : w.failed = true
  sender : w.sender = true
  receiver : w.receiver = true
  worker : w.worker = .ended
  accounts : w.accepted.length = w.acked + w.queued
  queued : w.queued = reported w.events + w.broken
  broken : 0 < w.broken
  events : .finished ∉ w.events
  bytes : w.pipe <+: w.accepted
  finishes : w.finishes = []

/-- Something failed. The worker may still write what it has. -/
structure Dead (w : Writer) : Prop where
  failed : w.failed = true
  sender : w.sender = false
  receiver : w.receiver = false
  writable : w.writable = false
  bytes : w.pipe ++ w.worker.bytes w.commands <+: w.accepted
  finishes : w.finishes = [] ∨ w.finishes = [0]

/-- The phase of a writer, and the sizes it was told. -/
structure Inv (w : Writer) : Prop where
  phase : Running w ∨ Finished w ∨ Broken w ∨ Dead w
  sized : Sized w.commands
  worker : w.worker.Sized
  drains : ∀ d ∈ w.drains, d = (true, 0)

theorem inv_new (syncStdin : Bool) : Inv (childWriterNew syncStdin) where
  phase := .inl
    { failed := rfl
      finished := rfl
      sender := rfl
      receiver := rfl
      accounts := rfl
      queued := rfl
      bytes := rfl
      needs := rfl
      owed := by simp [childWriterNew]
      closing := ⟨[], .inl rfl⟩
      events := fun _ => by simp [childWriterNew, Reports]
      ended := by simp [childWriterNew]
      finishes := rfl }
  sized := by simp [childWriterNew, Sized]
  worker := trivial
  drains := by simp [childWriterNew]

variable {w : Writer}

/-- While the program may write, the worker is there. -/
theorem Running.alive (h : Running w) (hw : w.writable = true) : w.worker ≠ .ended := by
  intro he
  have := (h.ended he).2.1
  rw [hw] at this
  cases this

/-- Where nothing is queued the worker has no byte. -/
theorem Inv.no_bytes (h : Inv w) (hr : Running w) (hq : w.queued = 0) : w.worker.bytes w.commands = [] := by
  have hle := Worker.length_bytes_le h.worker h.sized
  have := hr.queued
  exact length_eq_zero_iff.mp (by omega)

/-- A failure ends everything, whatever was reported, and loses no byte of what the pipe has. -/
theorem inv_fail (h : Inv w) (es : List Event) : Inv (childWriterFail { w with events := es }) where
  phase := by
    refine .inr (.inr (.inr ⟨rfl, rfl, rfl, rfl, ?_, ?_⟩))
    · show w.pipe ++ w.worker.bytes w.commands <+: w.accepted
      rcases h.phase with hp | hp | hp | hp
      · exact hp.bytes ▸ prefix_rfl
      · have hall : w.accepted = w.pipe ++ w.worker.bytes w.commands := by
          rw [hp.worker, Worker.bytes, append_nil, hp.bytes]
        exact hall ▸ prefix_rfl
      · rw [hp.worker, Worker.bytes, append_nil]
        exact hp.bytes
      · exact hp.bytes
    · show w.finishes = [] ∨ w.finishes = [0]
      rcases h.phase with hp | hp | hp | hp
      · exact .inl hp.finishes
      · exact .inr hp.finishes
      · exact .inl hp.finishes
      · exact hp.finishes
  sized := h.sized
  worker := h.worker
  drains := h.drains

/-! ### Writes -/

theorem Worker.bytes_append {w : Worker} (h : w ≠ .ended) (xs ys : List Command) :
    w.bytes (xs ++ ys) = w.bytes xs ++ bytesOf ys := by
  cases w with
  | idle => exact bytesOf_append xs ys
  | writing rest length => simp [Worker.bytes]
  | ended => exact absurd rfl h

theorem Worker.length_append {w : Worker} (h : w ≠ .ended) (xs ys : List Command) :
    w.length (xs ++ ys) = w.length xs + lengths ys := by
  cases w with
  | idle => exact lengths_append xs ys
  | writing rest length => simp [Worker.length, Nat.add_assoc]
  | ended => exact absurd rfl h

variable {length : ℕ}

theorem Sized.snoc (h : Sized cs) {data : Bytes} (hl : data.length ≤ length) :
    Sized (cs ++ [.write data length]) := by
  intro data' length' hm
  rcases mem_append.mp hm with hm | hm
  · exact h data' length' hm
  · simp only [mem_singleton, Command.write.injEq] at hm
    rw [hm.1, hm.2]
    exact hl

theorem Closing.snoc {last : Prop} (h : Closing cs last) (hlast : ¬ last) (data : Bytes) (length : ℕ) :
    Closing (cs ++ [.write data length]) last := by
  obtain ⟨xs, hc | ⟨hl, -⟩⟩ := h
  · exact ⟨xs ++ [(data, length)], .inl (by simp [hc])⟩
  · exact absurd hl hlast

/-- What is queued comes after what the worker has; the part that the pipe took at once came after
nothing. -/
theorem inv_queueWrite (h : Inv w) (hr : Running w) (hw : w.writable = true) (taken rest : Bytes)
    (hb : w.worker.bytes w.commands ++ taken = taken ++ w.worker.bytes w.commands) :
    Inv (queueWrite { w with pipe := w.pipe ++ taken, accepted := w.accepted ++ (taken ++ rest) } rest
      (taken.length + rest.length)) := by
  have halive := hr.alive hw
  rw [queueWrite, if_neg halive]
  refine ⟨.inl ?_, h.sized.snoc (Nat.le_add_left _ _), h.worker, h.drains⟩
  exact
    { failed := hr.failed
      finished := hr.finished
      sender := hr.sender
      receiver := hr.receiver
      accounts := by
        have := hr.accounts
        simp only [length_append]
        omega
      queued := by
        have := hr.queued
        simp only [Worker.length_append halive, lengths]
        omega
      bytes := by
        simp only [Worker.bytes_append halive, bytesOf, append_nil]
        rw [hr.bytes, append_assoc, ← append_assoc _ taken, hb]
        simp only [append_assoc]
      needs := by simp only [hr.needs]
      owed := by
        intro howed _
        simp only [Bool.or_eq_true, Bool.not_eq_true', CHILD_WRITER_HIGH_WATER_MARK] at howed ⊢
        rcases howed with ho | ho
        · have := hr.owed ho hw
          omega
        · have := of_decide_eq_false ho
          omega
      closing := hr.closing.snoc (by simp [hw]) _ _
      events := hr.events
      ended := fun he => absurd he halive
      finishes := hr.finishes }

theorem inv_write (h : Inv w) (data : Bytes) (now : Option ℕ) : Inv (childWriterWrite w data now) := by
  unfold childWriterWrite
  split
  · exact inv_fail h w.events
  next hw =>
  split
  · exact inv_fail h w.events
  next hs =>
  rw [Bool.not_eq_false] at hw hs
  rcases h.phase with hr | hp | hp | hp
  · split
    next hq =>
      have hnone := h.no_bytes hr hq.1
      cases now with
      | none => exact inv_fail h w.events
      | some n =>
        dsimp only
        split
        next hn =>
          -- The pipe takes everything, and nothing else is under way.
          refine ⟨.inl { hr with accounts := ?_, bytes := ?_ }, h.sized, h.worker, h.drains⟩
          · have := hr.accounts
            simp only [length_append]
            omega
          · have hbytes := hr.bytes
            simp only [hnone, append_nil, take_of_length_le hn] at hbytes ⊢
            rw [hbytes]
        next hn =>
          have := inv_queueWrite h hr hw (data.take n) (data.drop n) (by simp [hnone])
          rwa [take_append_drop, ← length_append, take_append_drop] at this
    · split
      · exact inv_fail h w.events
      · have := inv_queueWrite h hr hw [] data (by simp)
        simpa using this
  · rw [hp.writable] at hw
    cases hw
  · have hbroken := hp.broken
    have hqueued := hp.queued
    rw [if_neg fun hq => by omega, if_pos hp.worker]
    exact inv_fail h w.events
  · rw [hp.writable] at hw
    cases hw

theorem inv_end (h : Inv w) : Inv (childWriterEnd w) := by
  rw [childWriterEnd]
  split
  · exact h
  next hw =>
  rw [Bool.not_eq_false] at hw
  split
  next hs =>
    rcases h.phase with hr | hp | hp | hp
    · refine ⟨.inl { hr with queued := ?_, bytes := ?_, owed := ?_, closing := ?_, ended := ?_ }, ?_, h.worker, h.drains⟩
      · simp only [Worker.length_append hs.2, lengths, Nat.add_zero]
        exact hr.queued
      · simp only [Worker.bytes_append hs.2, bytesOf, append_nil]
        exact hr.bytes
      · intro _ hfalse
        cases hfalse
      · obtain ⟨xs, hc | ⟨hl, -⟩⟩ := hr.closing
        · exact ⟨xs, .inr ⟨rfl, by simp [hc]⟩⟩
        · rw [hw] at hl
          cases hl
      · exact fun he => absurd he hs.2
      · intro data length hm
        simp only [mem_append, mem_singleton, reduceCtorEq, or_false] at hm
        exact h.sized data length hm
    · exact absurd hp.worker hs.2
    · exact absurd hp.worker hs.2
    · rw [hp.writable] at hw
      cases hw
  · exact inv_fail h w.events

theorem inv_destroy (h : Inv w) : Inv (childWriterDestroy w) := by
  have hfail := inv_fail h w.events
  have hdead : Dead (childWriterFail w) := by
    rcases hfail.phase with hp | hp | hp | hp
    · cases hp.failed
    · cases hp.failed
    · cases hp.sender
    · exact hp
  rw [childWriterDestroy]
  split
  next hs =>
    refine ⟨.inr (.inr (.inr { hdead with bytes := ?_ })), ?_, h.worker, h.drains⟩
    · simp only [Worker.bytes_append hs.2, bytesOf, append_nil]
      exact hdead.bytes
    · intro data length hm
      simp only [mem_append, mem_singleton, reduceCtorEq, or_false] at hm
      exact h.sized data length hm
  · exact ⟨.inr (.inr (.inr { hdead with })), h.sized, h.worker, h.drains⟩

/-! ### Events -/

variable {es : List Event}

theorem Reports.tail {e : Event} (h : Reports (e :: es)) : Reports es :=
  fun e' he => h e' (mem_cons_of_mem _ he)

theorem inv_dispatch_wrote (h : Inv w) (hrec : w.receiver = true)
    (he : w.events = .wrote length :: es) : Inv (childWriterDispatch { w with events := es } (.wrote length)) := by
  rw [childWriterDispatch]
  rcases h.phase with hr | hp | hp | hp
  · have hqueued := hr.queued
    have haccounts := hr.accounts
    rw [he, reported] at hqueued
    have hevents : w.worker ≠ .ended → Reports es := fun hw => by
      have := hr.events hw
      rw [he] at this
      exact this.tail
    have hended : w.worker = .ended → w.commands = [] ∧ w.writable = false ∧ ∃ es', es = es' ++ [.finished] ∧ Reports es' := by
      intro hw
      obtain ⟨hc, hwr, es', hes, hrep⟩ := hr.ended hw
      rw [he] at hes
      cases es' with
      | nil => cases hes
      | cons e es'' =>
        cases hes
        exact ⟨hc, hwr, es'', rfl, hrep.tail⟩
    dsimp only
    split
    next hq =>
      refine ⟨.inl { hr with accounts := ?_, queued := ?_, owed := ?_, events := hevents, ended := hended },
        h.sized, h.worker, h.drains⟩
      · show w.accepted.length = _
        dsimp only
        omega
      · dsimp only
        omega
      · intro howed hw
        rcases hq with hq | hq | hq
        · rw [hr.needs] at hq
          rw [hq] at howed
          cases howed
        · exact hq
        · rw [hq] at hw
          cases hw
    next hq =>
      push Not at hq
      refine ⟨.inl { hr with accounts := ?_, queued := ?_, needs := rfl, owed := ?_, events := hevents, ended := hended },
        h.sized, h.worker, ?_⟩
      · show w.accepted.length = _
        dsimp only
        omega
      · dsimp only
        omega
      · intro howed
        cases howed
      · intro d hd
        simp only [mem_append, mem_singleton] at hd
        rcases hd with hd | hd
        · exact h.drains d hd
        · have hneeds := hq.1
          rw [hr.needs, ne_eq, Bool.not_eq_false] at hneeds
          rw [hd, hq.2.1, hneeds]
  · rw [hp.receiver] at hrec
    cases hrec
  · have hqueued := hp.queued
    have haccounts := hp.accounts
    have hbroken := hp.broken
    rw [he, reported] at hqueued
    rw [if_pos (.inr (.inl (by dsimp only; omega)))]
    refine ⟨.inr (.inr (.inl { hp with accounts := ?_, queued := ?_, events := ?_ })), h.sized, h.worker, h.drains⟩
    · dsimp only
      omega
    · dsimp only
      omega
    · intro hm
      exact hp.events (he ▸ mem_cons_of_mem _ hm)
  · rw [hp.receiver] at hrec
    cases hrec

/-- The end is dispatched after everything else. -/
theorem inv_dispatch_finished (h : Inv w) (hrec : w.receiver = true)
    (he : w.events = .finished :: es) : Inv (childWriterDispatch { w with events := es } .finished) := by
  rw [childWriterDispatch]
  rcases h.phase with hr | hp | hp | hp
  · have hw : w.worker = .ended := by
      by_contra hw
      obtain ⟨length, hl⟩ := hr.events hw .finished (he ▸ mem_cons_self)
      cases hl
    obtain ⟨hc, hwr, es', hes, hrep⟩ := hr.ended hw
    have hnil : es' = [] := by
      cases es' with
      | nil => rfl
      | cons e es'' =>
        rw [he] at hes
        cases hes
        obtain ⟨length, hl⟩ := hrep .finished mem_cons_self
        cases hl
    have hqueued : w.queued = 0 := by
      rw [hr.queued, hes, hnil, hw]
      rfl
    have hbytes : w.accepted = w.pipe := by
      rw [hr.bytes, hw, Worker.bytes, append_nil]
    refine ⟨.inr (.inl ?_), h.sized, h.worker, h.drains⟩
    exact
      { failed := hr.failed
        sender := rfl
        receiver := rfl
        writable := hwr
        worker := hw
        bytes := hbytes
        accounts := by
          have := hr.accounts
          rw [hqueued] at this
          exact this
        queued := rfl
        finishes := by simp [hr.finishes, hbytes] }
  · rw [hp.receiver] at hrec
    cases hrec
  · exact absurd (he ▸ mem_cons_self) hp.events
  · rw [hp.receiver] at hrec
    cases hrec

/-! ### The worker -/

theorem inv_recvWrite (h : Inv w) {data : Bytes} (hw : w.worker = .idle)
    (hc : w.commands = .write data length :: cs) : Inv { w with commands := cs, worker := .writing data length } := by
  have hbytes : w.worker.bytes w.commands = data ++ bytesOf cs := by rw [hw, hc]; rfl
  have hlength : w.worker.length w.commands = length + lengths cs := by rw [hw, hc]; rfl
  refine ⟨?_, fun d l hm => h.sized d l (hc ▸ mem_cons_of_mem _ hm), h.sized data length (hc ▸ mem_cons_self), h.drains⟩
  rcases h.phase with hr | hp | hp | hp
  · refine .inl { hr with queued := ?_, bytes := ?_, closing := ?_, events := ?_, ended := ?_ }
    · rw [hr.queued, hlength]
      rfl
    · rw [hr.bytes, hbytes]
      rfl
    · obtain ⟨xs, hxs⟩ := hr.closing
      rw [hc] at hxs
      cases xs with
      | nil => simp at hxs
      | cons x xs =>
        rcases hxs with hxs | ⟨hlast, hxs⟩
        · exact ⟨xs, .inl (List.cons.inj hxs).2⟩
        · exact ⟨xs, .inr ⟨hlast, (List.cons.inj hxs).2⟩⟩
    · exact fun _ => hr.events (by simp [hw])
    · intro he
      cases he
  · rw [hp.worker] at hw
    cases hw
  · rw [hp.worker] at hw
    cases hw
  · refine .inr (.inr (.inr { hp with bytes := ?_ }))
    have := hp.bytes
    rw [hbytes] at this
    exact this

theorem inv_recvEnd (h : Inv w) (hw : w.worker = .idle) (hc : w.commands = .done :: cs) :
    Inv { w with commands := cs, worker := .ended, events := w.events ++ [.finished] } := by
  refine ⟨?_, fun d l hm => h.sized d l (hc ▸ mem_cons_of_mem _ hm), trivial, h.drains⟩
  rcases h.phase with hr | hp | hp | hp
  · obtain ⟨hcs, hwr⟩ : cs = [] ∧ w.writable = false := by
      obtain ⟨xs, hxs⟩ := hr.closing
      rw [hc] at hxs
      cases xs with
      | nil => simpa [and_comm] using hxs
      | cons x xs => simp at hxs
    refine .inl { hr with queued := ?_, bytes := ?_, closing := ⟨[], .inl hcs⟩, events := ?_, ended := ?_ }
    · rw [hr.queued, hw, hc, hcs]
      simp [Worker.length, lengths, reported]
    · rw [hr.bytes, hw, hc, hcs]
      rfl
    · exact fun he => absurd rfl he
    · exact fun _ => ⟨hcs, hwr, w.events, rfl, hr.events (by simp [hw])⟩
  · rw [hp.worker] at hw
    cases hw
  · rw [hp.worker] at hw
    cases hw
  · exact .inr (.inr (.inr { hp with bytes := by simpa [Worker.bytes] using (prefix_append _ _).trans hp.bytes }))

theorem inv_recvEnded (h : Inv w) (hw : w.worker = .idle) (hs : w.sender = false)
    (hc : ∀ c ∈ cs, c ∈ w.commands) : Inv { w with commands := cs, worker := .ended } := by
  refine ⟨?_, fun d l hm => h.sized d l (hc _ hm), trivial, h.drains⟩
  rcases h.phase with hr | hp | hp | hp
  · rw [hr.sender] at hs
    cases hs
  · rw [hp.worker] at hw
    cases hw
  · rw [hp.worker] at hw
    cases hw
  · exact .inr (.inr (.inr { hp with bytes := by simpa [Worker.bytes] using (prefix_append _ _).trans hp.bytes }))

/-- Only a writer that was destroyed gives the worker the command. -/
theorem Inv.destroyed (h : Inv w) (hw : w.worker = .idle) (hc : w.commands = .destroy :: cs) :
    w.sender = false := by
  rcases h.phase with hr | hp | hp | hp
  · obtain ⟨xs, hxs⟩ := hr.closing
    rw [hc] at hxs
    cases xs <;> simp at hxs
  · exact hp.sender
  · rw [hp.worker] at hw
    cases hw
  · exact hp.sender

theorem inv_took (h : Inv w) {rest : Bytes} (hw : w.worker = .writing rest length) (n : ℕ) :
    Inv { w with pipe := w.pipe ++ rest.take n, worker := .writing (rest.drop n) length } := by
  have hbytes : w.pipe ++ rest.take n ++ (Worker.writing (rest.drop n) length).bytes w.commands =
      w.pipe ++ w.worker.bytes w.commands := by
    rw [hw, Worker.bytes, Worker.bytes, ← append_assoc, append_assoc w.pipe, take_append_drop,
      append_assoc]
  have hsized : rest.length ≤ length := by
    have := h.worker
    rwa [hw] at this
  refine ⟨?_, h.sized, ?_, h.drains⟩
  · rcases h.phase with hr | hp | hp | hp
    · refine .inl { hr with queued := ?_, bytes := hr.bytes.trans hbytes.symm, events := ?_, ended := ?_ }
      · rw [hr.queued, hw]
        rfl
      · exact fun _ => hr.events (by simp [hw])
      · intro he
        cases he
    · rw [hp.worker] at hw
      cases hw
    · rw [hp.worker] at hw
      cases hw
    · exact .inr (.inr (.inr { hp with bytes := hbytes ▸ hp.bytes }))
  · exact (length_drop ▸ Nat.sub_le _ _).trans hsized

theorem inv_report (h : Inv w) (hw : w.worker = .writing [] length) (hrec : w.receiver = true) :
    Inv { w with worker := .idle, events := w.events ++ [.wrote length] } := by
  refine ⟨?_, h.sized, trivial, h.drains⟩
  rcases h.phase with hr | hp | hp | hp
  · refine .inl { hr with queued := ?_, bytes := ?_, events := ?_, ended := ?_ }
    · rw [hr.queued, hw, reported_append]
      simp only [Worker.length, reported]
      omega
    · rw [hr.bytes, hw]
      rfl
    · intro _ e he
      rcases mem_append.mp he with he | he
      · exact hr.events (by simp [hw]) e he
      · exact ⟨length, mem_singleton.mp he⟩
    · intro he
      cases he
  · rw [hp.worker] at hw
    cases hw
  · rw [hp.worker] at hw
    cases hw
  · rw [hp.receiver] at hrec
    cases hrec

theorem inv_reportOver (h : Inv w) (hw : w.worker = .writing [] length) (hrec : w.receiver = false) :
    Inv { w with worker := .ended } := by
  refine ⟨?_, h.sized, trivial, h.drains⟩
  rcases h.phase with hr | hp | hp | hp
  · rw [hr.receiver] at hrec
    cases hrec
  · rw [hp.worker] at hw
    cases hw
  · rw [hp.worker] at hw
    cases hw
  · exact .inr (.inr (.inr { hp with bytes := by simpa [Worker.bytes] using (prefix_append _ _).trans hp.bytes }))

theorem inv_writeError (h : Inv w) {rest : Bytes} (hw : w.worker = .writing rest length)
    (hne : rest ≠ []) :
    Inv { w with worker := .ended, events := w.events ++ [.error], failed := true, broken := length + lengths w.commands } := by
  have hsized : rest.length ≤ length := by
    have := h.worker
    rwa [hw] at this
  refine ⟨?_, h.sized, trivial, h.drains⟩
  rcases h.phase with hr | hp | hp | hp
  · refine .inr (.inr (.inl ?_))
    exact
      { failed := rfl
        sender := hr.sender
        receiver := hr.receiver
        worker := rfl
        accounts := hr.accounts
        queued := by
          rw [hr.queued, hw, reported_append]
          rfl
        broken := by
          have := length_pos_iff.mpr hne
          dsimp only
          omega
        events := by
          intro hm
          rcases mem_append.mp hm with hm | hm
          · obtain ⟨length', hl⟩ := hr.events (by simp [hw]) _ hm
            cases hl
          · cases mem_singleton.mp hm
        bytes := by
          rw [hr.bytes]
          exact prefix_append _ _
        finishes := hr.finishes }
  · rw [hp.worker] at hw
    cases hw
  · rw [hp.worker] at hw
    cases hw
  · refine .inr (.inr (.inr { hp with failed := rfl, bytes := ?_ }))
    simpa [Worker.bytes] using (prefix_append _ _).trans hp.bytes

/-! ### Runs -/

theorem inv_step {w w' : Writer} {a : Act} (h : Inv w) (hs : Step w a w') : Inv w' := by
  cases hs with
  | write data now => exact inv_write h data now
  | done => exact inv_end h
  | destroy => exact inv_destroy h
  | @dispatch e es hr he =>
    cases e with
    | wrote length => exact inv_dispatch_wrote h hr he
    | finished => exact inv_dispatch_finished h hr he
    | error => exact inv_fail h es
  | dispatchOver hr he hw => exact inv_fail h w.events
  | recvWrite hw hc => exact inv_recvWrite h hw hc
  | recvEnd hw hc => exact inv_recvEnd h hw hc
  | recvDestroy hw hc => exact inv_recvEnded h hw (h.destroyed hw hc) fun c hm => hc ▸ mem_cons_of_mem _ hm
  | recvOver hw hc hs => exact inv_recvEnded h hw hs fun c hm => hm
  | took hw => exact inv_took h hw _
  | report hw hr => exact inv_report h hw hr
  | reportOver hw hr => exact inv_reportOver h hw hr
  | writeError hw hne => exact inv_writeError h hw hne

theorem inv_run {w w' : Writer} {acts : List Act} (h : Inv w) (hr : Run w acts w') : Inv w' := by
  induction hr with
  | nil => exact h
  | snoc _ hs ih => exact inv_step ih hs

/-- What every state of a run keeps. -/
structure Kept (w : Writer) : Prop where
  /-- The pipe took a beginning of what was accepted. -/
  taken : w.pipe <+: w.accepted
  /-- It took everything when nothing failed and nothing is queued. -/
  all : w.failed = false → w.queued = 0 → w.pipe = w.accepted
  /-- What is queued is what is not acknowledged, until a failure is dispatched. -/
  accounts : w.failed = false ∨ w.receiver = true → w.accepted.length = w.acked + w.queued
  /-- A drain is emitted only where one is owed and nothing is queued. -/
  drains : ∀ d ∈ w.drains, d = (true, 0)
  /-- None is owed there, unless the stream was ended or failed. -/
  drained : w.failed = false → w.writable = true → w.queued = 0 → w.owed = false
  /-- The end is reported at most once, with every byte in the pipe. -/
  finishes : w.finishes = [] ∨ w.finishes = [0]
  /-- It is reported once the worker has ended and its events are dispatched. -/
  finished : w.failed = false → w.worker = .ended → w.events = [] → w.finishes = [0]

theorem Running.kept (h : Inv w) (hr : Running w) : Kept w where
  taken := by
    rw [hr.bytes]
    exact prefix_append _ _
  all := by
    intro _ hq
    rw [hr.bytes, h.no_bytes hr hq, append_nil]
  accounts := fun _ => hr.accounts
  drains := h.drains
  drained := by
    intro _ hw hq
    by_contra howed
    rw [Bool.not_eq_false] at howed
    exact hr.owed howed hw hq
  finishes := .inl hr.finishes
  finished := by
    intro _ hw he
    obtain ⟨-, -, es, hes, -⟩ := hr.ended hw
    rw [he] at hes
    simp at hes

theorem Inv.kept (h : Inv w) : Kept w := by
  rcases h.phase with hr | hp | hp | hp
  · exact hr.kept h
  · exact
      { taken := hp.bytes ▸ prefix_rfl
        all := fun _ _ => hp.bytes.symm
        accounts := fun _ => hp.accounts
        drains := h.drains
        drained := by
          intro _ hw
          rw [hp.writable] at hw
          cases hw
        finishes := .inr hp.finishes
        finished := fun _ _ _ => hp.finishes }
  · have hfailed : ¬ w.failed = false := by simp [hp.failed]
    exact
      { taken := hp.bytes
        all := fun hf => absurd hf hfailed
        accounts := fun _ => hp.accounts
        drains := h.drains
        drained := fun hf => absurd hf hfailed
        finishes := .inl hp.finishes
        finished := fun hf => absurd hf hfailed }
  · have hfailed : ¬ w.failed = false := by simp [hp.failed]
    exact
      { taken := (prefix_append _ _).trans hp.bytes
        all := fun hf => absurd hf hfailed
        accounts := by simp [hp.failed, hp.receiver]
        drains := h.drains
        drained := fun hf => absurd hf hfailed
        finishes := hp.finishes
        finished := fun hf => absurd hf hfailed }

/-- The stream that the pipe gets, the counters and the events, in every run of a new writer. -/
theorem childWriter_keeps {syncStdin : Bool} {acts : List Act} {w : Writer} (h : Run (childWriterNew syncStdin) acts w) :
    Kept w :=
  (inv_run (inv_new syncStdin) h).kept

theorem childWriter_keeps_write : Kept (childWriterWrite (childWriterNew true) [104, 105, 10] (some 2)) :=
  childWriter_keeps (.snoc .nil (.write [104, 105, 10] (some 2)))

/-- A write that the program was told to wait for, and the end of the stream before it is written. -/
theorem run_end_owed (data : Bytes) (h : CHILD_WRITER_HIGH_WATER_MARK ≤ data.length) :
    ∃ acts w, Run (childWriterNew true) acts w ∧ w.failed = false ∧ w.owed = true ∧ w.queued = 0 := by
  have hpos : 0 < data.length := lt_of_lt_of_le (by decide) h
  have hwrite : childWriterWrite (childWriterNew true) data (some 0) =
      { childWriterNew true with
        commands := [.write data data.length]
        queued := data.length
        needsDrain := true
        accepted := data
        owed := true } := by
    simp [childWriterWrite, queueWrite, childWriterNew, h, hpos.ne']
  have hwritten := Run.snoc .nil (Step.write (w := childWriterNew true) data (some 0))
  rw [hwrite] at hwritten
  have hended := hwritten.snoc .done
  have htaken := ((hended.snoc (.recvWrite rfl rfl)).snoc (.took (n := data.length) rfl))
  rw [drop_length] at htaken
  have hdone := (htaken.snoc (.report rfl rfl)).snoc (.dispatch rfl rfl)
  refine ⟨_, _, hdone, ?_⟩
  simp [childWriterDispatch, childWriterEnd, childWriterNew]

/-- No drain follows where the stream was ended. -/
theorem not_drained_after_end : ¬ ∀ (acts : List Act) (w : Writer), Run (childWriterNew true) acts w → w.failed = false →
    w.queued = 0 → w.owed = false := by
  intro h
  obtain ⟨acts, w, hr, hf, howed, hq⟩ :=
    run_end_owed (replicate CHILD_WRITER_HIGH_WATER_MARK 0) (length_replicate ▸ le_rfl)
  rw [h acts w hr hf hq] at howed
  cases howed

end Scriptc.RuntimeRust.ChildWriter
