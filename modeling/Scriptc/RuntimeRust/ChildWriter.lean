import Scriptc.Lib.Bytes

/-!
# The writer of a child's stdin

`child_writer.rs`: the program writes to a pipe. A write that finds nothing queued tries the pipe at
once, without waiting; what the pipe does not take goes to a thread of its own, the worker, over a
queue of commands. The worker reports each write over a queue of events, which the event loop
dispatches, and only then is the write no longer counted as queued.

How many bytes a write to the pipe takes is not known, and any number is a step. The flags of the
descriptor can be restored where they could be set. Lengths do not reach `2 ^ 64`. Which listeners
there are is left out: each time the drain or the finish listeners are invoked is listed.
-/

namespace Scriptc.RuntimeRust.ChildWriter

def CHILD_WRITER_HIGH_WATER_MARK : ℕ := 64 * 1024

inductive Command where
  | write (data : Bytes) (length : ℕ)
  | done
  | destroy
  deriving DecidableEq

/-- What the thread reports. -/
inductive Event where
  | wrote (length : ℕ)
  | finished
  | error
  deriving DecidableEq

/-- Where the worker is. -/
inductive Worker where
  | idle
  /-- In `write_all`, with the bytes that are not written yet. -/
  | writing (rest : Bytes) (length : ℕ)
  | ended
  deriving DecidableEq

/-- A writer with its thread, and what became of the bytes. -/
structure Writer where
  sender : Bool
  receiver : Bool
  syncStdin : Bool
  queued : ℕ
  needsDrain : Bool
  writable : Bool
  finished : Bool
  commands : List Command
  events : List Event
  worker : Worker
  /-- The bytes the pipe took. -/
  pipe : Bytes
  /-- The data of the writes that were accepted. -/
  accepted : Bytes
  /-- How much of it is acknowledged. -/
  acked : ℕ
  /-- Whether a write returned false since the last drain. -/
  owed : Bool
  /-- Whether a write failed or the writer was destroyed. -/
  failed : Bool
  /-- The writes that the worker did not report when a write of its own failed. -/
  broken : ℕ
  /-- The emissions of `drain`: whether one was owed, and what was queued. -/
  drains : List (Bool × ℕ)
  /-- The emissions of `finish`: what was not in the pipe then. -/
  finishes : List ℕ
  deriving DecidableEq

/-- `child_writer_new`; the descriptor may not have been duplicated. -/
def childWriterNew (syncStdin : Bool) : Writer where
  sender := true
  receiver := true
  syncStdin := syncStdin
  queued := 0
  needsDrain := false
  writable := true
  finished := false
  commands := []
  events := []
  worker := .idle
  pipe := []
  accepted := []
  acked := 0
  owed := false
  failed := false
  broken := 0
  drains := []
  finishes := []

def childWriterFail (w : Writer) : Writer :=
  { w with
    sender := false
    receiver := false
    syncStdin := false
    queued := 0
    needsDrain := false
    writable := false
    failed := true }

/-- The command goes to the worker, if there is one. -/
def queueWrite (w : Writer) (data : Bytes) (length : ℕ) : Writer :=
  if w.worker = .ended then childWriterFail w
  else
    let queued := w.queued + length
    let ready := decide (queued < CHILD_WRITER_HIGH_WATER_MARK)
    { w with
      commands := w.commands ++ [.write data length]
      queued := queued
      needsDrain := w.needsDrain || !ready
      owed := w.owed || !ready }

/-- A write, of which the pipe takes `now` bytes at once, or none and an error. -/
def childWriterWrite (w : Writer) (data : Bytes) (now : Option ℕ) : Writer :=
  if w.writable = false then childWriterFail w
  else if w.sender = false then childWriterFail w
  else if w.queued = 0 ∧ w.syncStdin = true then
    match now with
    | none => childWriterFail w
    | some n =>
      let written := { w with pipe := w.pipe ++ data.take n, accepted := w.accepted ++ data }
      if data.length ≤ n then { written with acked := w.acked + data.length }
      else queueWrite written (data.drop n) data.length
  else if w.worker = .ended then childWriterFail w
  else queueWrite { w with accepted := w.accepted ++ data } data data.length

def childWriterEnd (w : Writer) : Writer :=
  if w.writable = false then w
  else if w.sender = true ∧ w.worker ≠ .ended then { w with writable := false, commands := w.commands ++ [.done] }
  else childWriterFail w

def childWriterDestroy (w : Writer) : Writer :=
  { w with
    commands := if w.sender = true ∧ w.worker ≠ .ended then w.commands ++ [.destroy] else w.commands
    sender := false
    receiver := false
    syncStdin := false
    queued := 0
    needsDrain := false
    writable := false
    failed := true }

/-- `child_writers_dispatch_one`, for the event that was polled. -/
def childWriterDispatch (w : Writer) : Event → Writer
  | .wrote length =>
    let queued := w.queued - length
    if w.needsDrain = false ∨ queued ≠ 0 ∨ w.writable = false then
      { w with queued := queued, acked := w.acked + length }
    else
      { w with
        queued := queued
        acked := w.acked + length
        needsDrain := false
        owed := false
        drains := w.drains ++ [(w.owed, queued)] }
  | .finished =>
    { w with
      sender := false
      receiver := false
      syncStdin := false
      queued := 0
      needsDrain := false
      finished := true
      finishes := w.finishes ++ [w.accepted.length - w.pipe.length] }
  | .error => childWriterFail w

/-! ### Runs -/

/-- What the program, the loop or the thread do. -/
inductive Act where
  | write (data : Bytes) (now : Option ℕ)
  | done
  | destroy
  | dispatch
  | recv
  | took (n : ℕ)
  | report
  | writeError
  deriving DecidableEq

/-- The length of the writes that have a command or are being written. -/
def lengths : List Command → ℕ
  | [] => 0
  | .write _ length :: cs => length + lengths cs
  | _ :: cs => lengths cs

inductive Step : Writer → Act → Writer → Prop where
  | write {w : Writer} (data : Bytes) (now : Option ℕ) : Step w (.write data now) (childWriterWrite w data now)
  | done {w : Writer} : Step w .done (childWriterEnd w)
  | destroy {w : Writer} : Step w .destroy (childWriterDestroy w)
  | dispatch {w : Writer} {e : Event} {es : List Event} (hr : w.receiver = true) (h : w.events = e :: es) :
    Step w .dispatch (childWriterDispatch { w with events := es } e)
  /-- The queue of events is over. -/
  | dispatchOver {w : Writer} (hr : w.receiver = true) (h : w.events = []) (hw : w.worker = .ended) :
    Step w .dispatch (childWriterDispatch w .error)
  | recvWrite {w : Writer} {data : Bytes} {length : ℕ} {cs : List Command} (hw : w.worker = .idle)
    (hc : w.commands = .write data length :: cs) :
    Step w .recv { w with commands := cs, worker := .writing data length }
  | recvEnd {w : Writer} {cs : List Command} (hw : w.worker = .idle) (hc : w.commands = .done :: cs) :
    Step w .recv { w with commands := cs, worker := .ended, events := w.events ++ [.finished] }
  | recvDestroy {w : Writer} {cs : List Command} (hw : w.worker = .idle) (hc : w.commands = .destroy :: cs) :
    Step w .recv { w with commands := cs, worker := .ended }
  /-- The queue of commands is over. -/
  | recvOver {w : Writer} (hw : w.worker = .idle) (hc : w.commands = []) (hs : w.sender = false) :
    Step w .recv { w with worker := .ended }
  | took {w : Writer} {rest : Bytes} {length n : ℕ} (hw : w.worker = .writing rest length) :
    Step w (.took n) { w with pipe := w.pipe ++ rest.take n, worker := .writing (rest.drop n) length }
  | report {w : Writer} {length : ℕ} (hw : w.worker = .writing [] length) (hr : w.receiver = true) :
    Step w .report { w with worker := .idle, events := w.events ++ [.wrote length] }
  /-- Nobody takes the report. -/
  | reportOver {w : Writer} {length : ℕ} (hw : w.worker = .writing [] length) (hr : w.receiver = false) :
    Step w .report { w with worker := .ended }
  | writeError {w : Writer} {rest : Bytes} {length : ℕ} (hw : w.worker = .writing rest length) (hne : rest ≠ []) :
    Step w .writeError
      { w with worker := .ended, events := w.events ++ [.error], failed := true, broken := length + lengths w.commands }

inductive Run (w : Writer) : List Act → Writer → Prop where
  | nil : Run w [] w
  | snoc {acts : List Act} {a : Act} {w' w'' : Writer} (h : Run w acts w') (hs : Step w' a w'') : Run w (acts ++ [a]) w''

end Scriptc.RuntimeRust.ChildWriter
