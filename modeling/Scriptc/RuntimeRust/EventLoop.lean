import Mathlib.Data.List.Nodup
import Mathlib.Data.Nat.Notation

/-!
# The event loop's queues

`event_loop.rs`: each iteration of the loop takes a callback of `nextTick`, or else all microtasks,
or else the checks of rejected promises, and only then one macrotask: a timer, an immediate, or an
event of some source. Such an event can have many listeners (`children_dispatch_one` runs those of the
streams, of `exit` and of `close`), which run one after the other, with no look at the queues between
them. What callbacks do is not known: while one runs, the program can queue jobs, run a loop of its own
or throw. Jobs are numbers, in the order in which they are queued. In every run a macrotask begins with
empty queues, and each queue is first in, first out.
-/

namespace Scriptc.RuntimeRust.EventLoop

open List

/-- What a macrotask is of: one callback, or the listeners of an event. -/
inductive Macrotask where
  | timer
  | immediate
  /-- A job of a native module, a rename, a watched file or a foreign call. -/
  | callback
  /-- A child, a socket, a stream, a message or a signal. -/
  | event
  deriving DecidableEq

/-- A loop, or a callback that runs in one. -/
inductive Frame where
  /-- The head of an iteration; the first one of a loop may skip the ticks. -/
  | head (skipTicks : Bool)
  /-- The queues were looked at, and macrotasks are next. -/
  | ready
  | tick
  | microtask
  | check
  | macrotask (kind : Macrotask)
  deriving DecidableEq

/-- A callback starts, with what is queued then. -/
inductive Start where
  | tick (job : ℕ)
  /-- `drained` says that another microtask ran just before, `skipTicks` that the ticks were skipped. -/
  | microtask (job : ℕ) (drained skipTicks : Bool) (ticks : ℕ)
  | check (job : ℕ)
  | macrotask (kind : Macrotask) (ticks microtasks : ℕ)
  /-- One more listener of the event. -/
  | listener (ticks microtasks : ℕ)
  deriving DecidableEq

/-- The queues, the stack of loops and callbacks, and what was queued and started. -/
structure Loop where
  nextTicks : List ℕ
  microtasks : List ℕ
  promiseChecks : List ℕ
  /-- The innermost first. -/
  stack : List Frame
  jobs : ℕ
  queuedTicks : List ℕ
  queuedMicrotasks : List ℕ
  started : List Start
  deriving DecidableEq

def Loop.new : Loop where
  nextTicks := []
  microtasks := []
  promiseChecks := []
  stack := []
  jobs := 0
  queuedTicks := []
  queuedMicrotasks := []
  started := []

/-- Whether code of the program runs. -/
def Loop.running (l : Loop) : Bool :=
  match l.stack with
  | .head _ :: _ => false
  | .ready :: _ => false
  | _ => true

def processNextTick (l : Loop) : Loop :=
  { l with nextTicks := l.nextTicks ++ [l.jobs], jobs := l.jobs + 1, queuedTicks := l.queuedTicks ++ [l.jobs] }

def timerQueueMicrotask (l : Loop) : Loop :=
  { l with microtasks := l.microtasks ++ [l.jobs], jobs := l.jobs + 1, queuedMicrotasks := l.queuedMicrotasks ++ [l.jobs] }

def queueCheck (l : Loop) : Loop := { l with promiseChecks := l.promiseChecks ++ [l.jobs], jobs := l.jobs + 1 }

def Loop.start (l : Loop) (s : Start) : Loop := { l with started := l.started ++ [s] }

def startMacrotask (l : Loop) (kind : Macrotask) (outer : List Frame) : Loop :=
  { l.start (.macrotask kind l.nextTicks.length l.microtasks.length) with stack := .macrotask kind :: .head false :: outer }

/-- The queues when neither a tick nor a microtask is taken. -/
def loopChecks (l : Loop) (skipTicks nativeModule : Bool) (outer : List Frame) : Loop :=
  if skipTicks = true ∧ l.nextTicks ≠ [] then { l with stack := .head false :: outer }
  else if nativeModule = true then startMacrotask l .callback outer
  else
    match l.promiseChecks with
    | check :: checks => { l.start (.check check) with promiseChecks := checks, stack := .check :: .head false :: outer }
    | [] => { l with stack := .ready :: outer }

def loopMicrotasks (l : Loop) (skipTicks nativeModule : Bool) (outer : List Frame) : Loop :=
  match l.microtasks with
  | job :: jobs =>
    { l.start (.microtask job false skipTicks l.nextTicks.length) with
      microtasks := jobs
      stack := .microtask :: .head false :: outer }
  | [] => loopChecks l skipTicks nativeModule outer

/-- The first part of an iteration. `nativeModule` says whether a job of a native module waits. -/
def loopHead (l : Loop) (skipTicks nativeModule : Bool) (outer : List Frame) : Loop :=
  if skipTicks = true then loopMicrotasks l skipTicks nativeModule outer
  else
    match l.nextTicks with
    | job :: jobs => { l.start (.tick job) with nextTicks := jobs, stack := .tick :: .head false :: outer }
    | [] => loopMicrotasks l skipTicks nativeModule outer

/-- A microtask returned to its loop, which goes on with the next one. -/
def microtaskReturned (l : Loop) (entryFailed : Bool) (outer : List Frame) : Loop :=
  match l.microtasks with
  | job :: jobs =>
    { l.start (.microtask job true false l.nextTicks.length) with
      microtasks := jobs
      stack := .microtask :: .head false :: outer }
  | [] => { l with stack := if entryFailed then outer else .head false :: outer }

/-- A check returned. -/
def checkReturned (l : Loop) (hadUnhandledRejection : Bool) (outer : List Frame) : Loop :=
  match l.promiseChecks with
  | check :: checks => { l.start (.check check) with promiseChecks := checks, stack := .check :: .head false :: outer }
  | [] => { l with stack := if hadUnhandledRejection then outer else .head false :: outer }

inductive Step : Loop → Loop → Prop where
  | nextTick {l : Loop} (hr : l.running = true) : Step l (processNextTick l)
  | microtask {l : Loop} (hr : l.running = true) : Step l (timerQueueMicrotask l)
  | check {l : Loop} (hr : l.running = true) : Step l (queueCheck l)
  /-- The program, or a callback of it, runs a loop. -/
  | runEventLoop {l : Loop} (hr : l.running = true) (skipTicks : Bool) : Step l { l with stack := .head skipTicks :: l.stack }
  | stop {l : Loop} {skipTicks : Bool} {outer : List Frame} (hs : l.stack = .head skipTicks :: outer) :
    Step l { l with stack := outer }
  | head {l : Loop} {skipTicks : Bool} {outer : List Frame} (hs : l.stack = .head skipTicks :: outer) (nativeModule : Bool) :
    Step l (loopHead l skipTicks nativeModule outer)
  | macrotask {l : Loop} {outer : List Frame} (hs : l.stack = .ready :: outer) (kind : Macrotask) :
    Step l (startMacrotask l kind outer)
  /-- A listener returned, and the next one of the event starts. -/
  | listener {l : Loop} {outer : List Frame} (hs : l.stack = .macrotask .event :: outer) :
    Step l (l.start (.listener l.nextTicks.length l.microtasks.length))
  /-- A turn ends, or the loop waits. -/
  | turn {l : Loop} {outer : List Frame} (hs : l.stack = .ready :: outer) : Step l { l with stack := .head false :: outer }
  | exit {l : Loop} {outer : List Frame} (hs : l.stack = .ready :: outer) : Step l { l with stack := outer }
  | tickReturned {l : Loop} {skipTicks : Bool} {outer : List Frame} (hs : l.stack = .tick :: .head skipTicks :: outer) :
    Step l { l with stack := .head skipTicks :: outer }
  | macrotaskReturned {l : Loop} {kind : Macrotask} {skipTicks : Bool} {outer : List Frame}
    (hs : l.stack = .macrotask kind :: .head skipTicks :: outer) : Step l { l with stack := .head skipTicks :: outer }
  | microtaskReturned {l : Loop} {skipTicks : Bool} {outer : List Frame} (hs : l.stack = .microtask :: .head skipTicks :: outer)
    (entryFailed : Bool) : Step l (microtaskReturned l entryFailed outer)
  | checkReturned {l : Loop} {skipTicks : Bool} {outer : List Frame} (hs : l.stack = .check :: .head skipTicks :: outer)
    (hadUnhandledRejection : Bool) : Step l (checkReturned l hadUnhandledRejection outer)
  /-- A callback throws, which ends its loop. -/
  | throw {l : Loop} {callback : Frame} {skipTicks : Bool} {outer : List Frame}
    (hs : l.stack = callback :: .head skipTicks :: outer) (hr : l.running = true) : Step l { l with stack := outer }

inductive Run (l : Loop) : Loop → Prop where
  | nil : Run l l
  | snoc {l' l'' : Loop} (h : Run l l') (hs : Step l' l'') : Run l l''

/-!
## The order of jobs and macrotasks

A loop comes to its macrotasks only through the empty queues, and nothing of the program runs between
that and the macrotask. Jobs leave a queue at its front, as they start, so what has started and what
is queued are always the queued jobs in their order, also after a throw.
-/

/-! ### What started -/

def Start.tick? : Start → Option ℕ
  | .tick job => some job
  | _ => none

def Start.microtask? : Start → Option ℕ
  | .microtask job _ _ _ => some job
  | _ => none

/-- The ticks that started, in their order. -/
def Loop.ticksStarted (l : Loop) : List ℕ := l.started.filterMap Start.tick?

def Loop.microtasksStarted (l : Loop) : List ℕ := l.started.filterMap Start.microtask?

/-- A macrotask starts with empty queues, and only an event that did so has further listeners; a microtask
starts before a tick only in a drain that was begun, or where the ticks are skipped. -/
def Start.Ordered (before : List Start) : Start → Prop
  | .macrotask _ ticks microtasks => ticks = 0 ∧ microtasks = 0
  | .listener _ _ => .macrotask .event 0 0 ∈ before
  | .microtask _ drained skipTicks ticks => drained = false → skipTicks = false → ticks = 0
  | _ => True

/-! ### The invariant -/

/-- What does not depend on the stack. -/
structure Core (l : Loop) : Prop where
  ordered : ∀ before s after, l.started = before ++ s :: after → s.Ordered before
  ticks : l.ticksStarted ++ l.nextTicks = l.queuedTicks
  microtasks : l.microtasksStarted ++ l.microtasks = l.queuedMicrotasks
  nodupTicks : l.queuedTicks.Nodup
  nodupMicrotasks : l.queuedMicrotasks.Nodup
  boundTicks : ∀ job ∈ l.queuedTicks, job < l.jobs
  boundMicrotasks : ∀ job ∈ l.queuedMicrotasks, job < l.jobs

/-- The frames below a callback: a loop whose callback runs is at its head, and an event has started. -/
structure Below (started : List Start) (outer : List Frame) : Prop where
  ready : .ready ∉ outer
  event : .macrotask .event ∈ outer → .macrotask .event 0 0 ∈ started

/-- A loop that is ready has empty queues, and it is the innermost. -/
structure Inv (l : Loop) : Prop where
  core : Core l
  below : .ready ∉ l.stack.tail
  event : .macrotask .event ∈ l.stack → .macrotask .event 0 0 ∈ l.started
  ready : ∀ outer, l.stack = .ready :: outer → l.nextTicks = [] ∧ l.microtasks = []

theorem inv_new : Inv .new where
  core := by constructor <;> simp [Loop.new, Loop.ticksStarted, Loop.microtasksStarted]
  below := by simp [Loop.new]
  event := by simp [Loop.new]
  ready := by simp [Loop.new]

variable {outer : List Frame} {started : List Start} {frame : Frame}

theorem Below.push (h : Below started outer) (hr : frame ≠ .ready)
    (he : frame ≠ .macrotask .event) : Below started (frame :: outer) where
  ready := by simpa [Ne.symm hr] using h.ready
  event := by simpa [Ne.symm he] using h.event

theorem Below.start (h : Below started outer) (s : Start) :
    Below (started ++ [s]) outer :=
  ⟨h.ready, fun hm => mem_append_left _ (h.event hm)⟩

/-- A callback that starts at the head of a loop. -/
theorem Below.callback (h : Below started outer)
    (hr : frame ≠ .ready) (he : frame ≠ .macrotask .event) (s : Start) :
    Below (started ++ [s]) (frame :: .head false :: outer) :=
  ((h.push (by simp) (by simp)).push hr he).start s

variable {l : Loop}

theorem Core.stack (h : Core l) (stack : List Frame) : Core { l with stack := stack } :=
  ⟨h.ordered, h.ticks, h.microtasks, h.nodupTicks, h.nodupMicrotasks, h.boundTicks, h.boundMicrotasks⟩

theorem ordered_start (h : ∀ before s after, l.started = before ++ s :: after → s.Ordered before) {s : Start}
    (hs : s.Ordered l.started) : ∀ before s' after, l.started ++ [s] = before ++ s' :: after → s'.Ordered before := by
  intro before s' after heq
  rcases eq_nil_or_concat after with rfl | ⟨after, last, rfl⟩
  · obtain ⟨rfl, hlast⟩ := append_inj' heq rfl
    cases hlast
    exact hs
  · rw [concat_eq_append, ← cons_append, ← append_assoc] at heq
    exact h before s' after (append_inj' heq rfl).1

variable {jobs : List ℕ}

theorem nodup_snoc {n : ℕ} (h : jobs.Nodup) (hb : ∀ job ∈ jobs, job < n) : (jobs ++ [n]).Nodup := by
  rw [nodup_append]
  refine ⟨h, nodup_singleton n, ?_⟩
  intro a ha b hb' hab
  rw [mem_singleton.mp hb'] at hab
  exact absurd (hb a ha) (by omega)

theorem bound_snoc {n : ℕ} (hb : ∀ job ∈ jobs, job < n) : ∀ job ∈ jobs ++ [n], job < n + 1 := by
  intro job hm
  rcases mem_append.mp hm with hm | hm
  · exact Nat.lt_succ_of_lt (hb job hm)
  · rw [mem_singleton.mp hm]
    exact Nat.lt_succ_self n

/-! ### Jobs start -/

theorem Core.startTick (h : Core l) {job : ℕ} (hj : l.nextTicks = job :: jobs) :
    Core { l.start (.tick job) with nextTicks := jobs } where
  ordered := ordered_start h.ordered trivial
  ticks := by
    have := h.ticks
    rw [hj] at this
    simpa [Loop.ticksStarted, Loop.start, filterMap_cons, Start.tick?] using this
  microtasks := by
    have := h.microtasks
    simpa [Loop.microtasksStarted, Loop.start, filterMap_cons, Start.microtask?] using this
  nodupTicks := h.nodupTicks
  nodupMicrotasks := h.nodupMicrotasks
  boundTicks := h.boundTicks
  boundMicrotasks := h.boundMicrotasks

theorem Core.startMicrotask (h : Core l) {job : ℕ} (hj : l.microtasks = job :: jobs)
    (drained skipTicks : Bool) (ho : drained = false → skipTicks = false → l.nextTicks.length = 0) :
    Core { l.start (.microtask job drained skipTicks l.nextTicks.length) with microtasks := jobs } where
  ordered := ordered_start h.ordered ho
  ticks := by
    have := h.ticks
    simpa [Loop.ticksStarted, Loop.start, filterMap_cons, Start.tick?] using this
  microtasks := by
    have := h.microtasks
    rw [hj] at this
    simpa [Loop.microtasksStarted, Loop.start, filterMap_cons, Start.microtask?] using this
  nodupTicks := h.nodupTicks
  nodupMicrotasks := h.nodupMicrotasks
  boundTicks := h.boundTicks
  boundMicrotasks := h.boundMicrotasks

/-- Checks and macrotasks are in neither queue. -/
theorem Core.start (h : Core l) {s : Start} (ht : s.tick? = none) (hm : s.microtask? = none)
    (hs : s.Ordered l.started) : Core (l.start s) where
  ordered := ordered_start h.ordered hs
  ticks := by
    have := h.ticks
    simpa [Loop.ticksStarted, Loop.start, ht] using this
  microtasks := by
    have := h.microtasks
    simpa [Loop.microtasksStarted, Loop.start, hm] using this
  nodupTicks := h.nodupTicks
  nodupMicrotasks := h.nodupMicrotasks
  boundTicks := h.boundTicks
  boundMicrotasks := h.boundMicrotasks

theorem Core.checks (h : Core l) (checks : List ℕ) : Core { l with promiseChecks := checks } :=
  ⟨h.ordered, h.ticks, h.microtasks, h.nodupTicks, h.nodupMicrotasks, h.boundTicks, h.boundMicrotasks⟩

/-- Where no loop is ready, the core is all. -/
theorem Core.inv (h : Core l) (hs : Below l.started l.stack) : Inv l where
  core := h
  below := fun hm => hs.ready (mem_of_mem_tail hm)
  event := hs.event
  ready := by
    intro outer ho
    have hr := hs.ready
    rw [ho] at hr
    exact absurd mem_cons_self hr

/-! ### An iteration -/

theorem inv_startMacrotask (h : Core l) (ht : l.nextTicks = []) (hm : l.microtasks = []) (kind : Macrotask)
    (ho : Below l.started outer) : Inv (startMacrotask l kind outer) := by
  have hstart := h.start (s := .macrotask kind l.nextTicks.length l.microtasks.length) rfl rfl (by simp [Start.Ordered, ht, hm])
  refine (hstart.stack _).inv ⟨by simpa using ho.ready, fun hmem => ?_⟩
  rcases mem_cons.mp hmem with hk | hmem
  · cases hk
    simp [Loop.start, ht, hm]
  · exact mem_append_left _ (ho.event (by simpa using hmem))

theorem inv_loopChecks (h : Core l) {skipTicks : Bool} (ht : skipTicks = false → l.nextTicks = [])
    (hm : l.microtasks = []) (nativeModule : Bool) (ho : Below l.started outer) :
    Inv (loopChecks l skipTicks nativeModule outer) := by
  rw [loopChecks]
  split
  · exact (h.stack _).inv (ho.push (by simp) (by simp))
  next hskip =>
  have hticks : l.nextTicks = [] := by
    cases skipTicks with
    | false => exact ht rfl
    | true => simpa using hskip
  split
  · exact inv_startMacrotask h hticks hm .callback ho
  · split
    next check checks _ =>
      have hstart := h.start (s := .check check) rfl rfl trivial
      exact ((hstart.checks checks).stack _).inv (ho.callback (by simp) (by simp) _)
    next => exact ⟨h.stack _, ho.ready, by simpa using ho.event, fun _ _ => ⟨hticks, hm⟩⟩

theorem inv_loopMicrotasks (h : Core l) {skipTicks : Bool} (ht : skipTicks = false → l.nextTicks = [])
    (nativeModule : Bool) (ho : Below l.started outer) :
    Inv (loopMicrotasks l skipTicks nativeModule outer) := by
  rw [loopMicrotasks]
  split
  next job jobs hj =>
    have hstart := h.startMicrotask hj false skipTicks (fun _ hs => by rw [ht hs]; rfl)
    exact (hstart.stack _).inv (ho.callback (by simp) (by simp) _)
  next hj => exact inv_loopChecks h ht hj nativeModule ho

theorem inv_loopHead (h : Core l) (skipTicks nativeModule : Bool) (ho : Below l.started outer) :
    Inv (loopHead l skipTicks nativeModule outer) := by
  rw [loopHead]
  split
  next hs => exact inv_loopMicrotasks h (by simp [hs]) nativeModule ho
  next hs =>
    split
    next job jobs hj => exact ((h.startTick hj).stack _).inv (ho.callback (by simp) (by simp) _)
    next hj => exact inv_loopMicrotasks h (fun _ => hj) nativeModule ho

/-- Before a loop goes on, its frame is on the stack. -/
theorem inv_microtaskReturned (h : Core l) (entryFailed : Bool)
    (ho : Below l.started outer) : Inv (microtaskReturned l entryFailed outer) := by
  rw [microtaskReturned]
  split
  next job jobs hj =>
    have hstart := h.startMicrotask hj true false (by simp)
    exact (hstart.stack _).inv (ho.callback (by simp) (by simp) _)
  next =>
    refine (h.stack _).inv ?_
    cases entryFailed with
    | true => exact ho
    | false => exact ho.push (by simp) (by simp)

theorem inv_checkReturned (h : Core l) (hadUnhandledRejection : Bool)
    (ho : Below l.started outer) : Inv (checkReturned l hadUnhandledRejection outer) := by
  rw [checkReturned]
  split
  next check checks _ =>
    have hstart := h.start (s := .check check) rfl rfl trivial
    exact ((hstart.checks checks).stack _).inv (ho.callback (by simp) (by simp) _)
  next =>
    refine (h.stack _).inv ?_
    cases hadUnhandledRejection with
    | true => exact ho
    | false => exact ho.push (by simp) (by simp)

/-! ### Runs -/

/-- While code of the program runs, no loop is ready for a macrotask. -/
theorem Inv.whole (h : Inv l) (hr : l.running = true) : Below l.started l.stack := by
  refine ⟨?_, h.event⟩
  have hbelow := h.below
  rw [Loop.running] at hr
  cases hs : l.stack with
  | nil => simp
  | cons frame outer =>
    rw [hs] at hr hbelow
    cases frame with
    | head skipTicks => cases hr
    | ready => cases hr
    | _ => simpa using hbelow

theorem Inv.frames (h : Inv l) (hs : l.stack = frame :: outer) :
    Below l.started outer where
  ready := by
    have := h.below
    rwa [hs] at this
  event := fun hm => h.event (hs ▸ mem_cons_of_mem _ hm)

theorem Core.nextTick (h : Core l) : Core (processNextTick l) :=
  { h with
    ticks := by
      show l.ticksStarted ++ (l.nextTicks ++ [l.jobs]) = l.queuedTicks ++ [l.jobs]
      rw [← append_assoc, h.ticks]
    nodupTicks := nodup_snoc h.nodupTicks h.boundTicks
    boundTicks := bound_snoc h.boundTicks
    boundMicrotasks := fun job hm => Nat.lt_succ_of_lt (h.boundMicrotasks job hm) }

theorem Core.queueMicrotask (h : Core l) : Core (timerQueueMicrotask l) :=
  { h with
    microtasks := by
      show l.microtasksStarted ++ (l.microtasks ++ [l.jobs]) = l.queuedMicrotasks ++ [l.jobs]
      rw [← append_assoc, h.microtasks]
    nodupMicrotasks := nodup_snoc h.nodupMicrotasks h.boundMicrotasks
    boundTicks := fun job hm => Nat.lt_succ_of_lt (h.boundTicks job hm)
    boundMicrotasks := bound_snoc h.boundMicrotasks }

theorem Core.queueCheck (h : Core l) : Core (queueCheck l) :=
  { h with
    boundTicks := fun job hm => Nat.lt_succ_of_lt (h.boundTicks job hm)
    boundMicrotasks := fun job hm => Nat.lt_succ_of_lt (h.boundMicrotasks job hm) }

theorem inv_step {l l' : Loop} (h : Inv l) (hs : Step l l') : Inv l' := by
  have hcore := h.core
  have hloop : ∀ {callback : Frame} {skipTicks : Bool} {outer : List Frame}, l.stack = callback :: .head skipTicks :: outer →
      Below l.started (.head skipTicks :: outer) ∧ Below l.started outer := by
    intro callback skipTicks outer heq
    have hhead := h.frames heq
    exact ⟨hhead, fun hm => hhead.ready (mem_cons_of_mem _ hm), fun hm => hhead.event (mem_cons_of_mem _ hm)⟩
  cases hs with
  | nextTick hr => exact hcore.nextTick.inv (h.whole hr)
  | microtask hr => exact hcore.queueMicrotask.inv (h.whole hr)
  | check hr => exact hcore.queueCheck.inv (h.whole hr)
  | runEventLoop hr skipTicks => exact (hcore.stack _).inv ((h.whole hr).push (by simp) (by simp))
  | stop heq => exact (hcore.stack _).inv (h.frames heq)
  | head heq nativeModule => exact inv_loopHead hcore _ nativeModule (h.frames heq)
  | macrotask heq kind =>
    obtain ⟨ht, hm⟩ := h.ready _ heq
    exact inv_startMacrotask hcore ht hm kind (h.frames heq)
  | listener heq =>
    have hevent := h.event (heq ▸ mem_cons_self)
    have hstart := hcore.start (s := .listener l.nextTicks.length l.microtasks.length) rfl rfl hevent
    exact hstart.inv ((h.whole (by rw [Loop.running, heq])).start _)
  | turn heq => exact (hcore.stack _).inv ((h.frames heq).push (by simp) (by simp))
  | exit heq => exact (hcore.stack _).inv (h.frames heq)
  | tickReturned heq => exact (hcore.stack _).inv (hloop heq).1
  | macrotaskReturned heq => exact (hcore.stack _).inv (hloop heq).1
  | microtaskReturned heq entryFailed => exact inv_microtaskReturned hcore entryFailed (hloop heq).2
  | checkReturned heq hadUnhandledRejection => exact inv_checkReturned hcore hadUnhandledRejection (hloop heq).2
  | throw heq hr => exact (hcore.stack _).inv (hloop heq).2

theorem inv_run {l l' : Loop} (h : Inv l) (hr : Run l l') : Inv l' := by
  induction hr with
  | nil => exact h
  | snoc _ hs ih => exact inv_step ih hs

/-! ### Priorities -/

/-- What holds of the jobs and the macrotasks in every run. -/
structure Prioritised (l : Loop) : Prop where
  /-- Macrotasks start with empty queues, and a drain of microtasks where no tick is queued, unless it
  is the first of a loop that skips them. Only the further listeners of an event find what was queued. -/
  ordered : ∀ before s after, l.started = before ++ s :: after → s.Ordered before
  /-- Each queue is first in, first out, and nothing is lost. -/
  ticks : l.ticksStarted ++ l.nextTicks = l.queuedTicks
  microtasks : l.microtasksStarted ++ l.microtasks = l.queuedMicrotasks
  /-- No job starts twice. -/
  nodupTicks : l.queuedTicks.Nodup
  nodupMicrotasks : l.queuedMicrotasks.Nodup
  /-- A loop that has no more work has run every job. -/
  ready : ∀ outer, l.stack = .ready :: outer → l.ticksStarted = l.queuedTicks ∧ l.microtasksStarted = l.queuedMicrotasks

theorem Inv.prioritised (h : Inv l) : Prioritised l where
  ordered := h.core.ordered
  ticks := h.core.ticks
  microtasks := h.core.microtasks
  nodupTicks := h.core.nodupTicks
  nodupMicrotasks := h.core.nodupMicrotasks
  ready := by
    intro outer ho
    obtain ⟨ht, hm⟩ := h.ready outer ho
    have hticks := h.core.ticks
    have hmicrotasks := h.core.microtasks
    rw [ht, append_nil] at hticks
    rw [hm, append_nil] at hmicrotasks
    exact ⟨hticks, hmicrotasks⟩

end Scriptc.RuntimeRust.EventLoop
