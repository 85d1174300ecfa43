import Mathlib.Data.Nat.Notation

/-!
# Timers and immediates

`event_loop.rs`: armed timers and immediates are kept in two lists, and one is taken out before its
callback runs. The identity of the timer that fires and what its callback does to it are global, so
that a timer that fires inside the callback of another one overwrites them.

Times are numbers, and the clock may say anything. The order of the lists is not observed, so taking
a task out is a filter. Whether a task keeps the loop alive is left out, and so is what else the loop
runs: it is a callback that can use timers. The logs list what happened, and with each firing the
tasks among which it was chosen.
-/

namespace Scriptc.RuntimeRust.Timers

/-- A timer, which the loop may fire from its turn on, once it is due. -/
structure TimerTask where
  id : ℕ
  turn : ℕ
  due : ℕ
  delay : ℕ
  repeats : Bool
  deriving DecidableEq

/-- An immediate, which the loop may run from its turn on. -/
structure ImmediateTask where
  id : ℕ
  turn : ℕ
  deriving DecidableEq

/-- What happens to timers; one is fired out of some candidates. -/
inductive Event where
  | fired (timer : TimerTask) (candidates : List TimerTask)
  /-- A handle that was given out is cleared. -/
  | cleared (id : ℕ)
  /-- The timer that fires is refreshed by its callback. -/
  | refreshing (id : ℕ)
  | rearmed (timer : TimerTask) (refreshed : Bool)
  deriving DecidableEq

/-- What happens to immediates. -/
inductive ImmediateEvent where
  | ran (immediate : ImmediateTask) (candidates : List ImmediateTask)
  | cleared (id : ℕ)
  deriving DecidableEq

inductive Frame where
  | loop (turn : ℕ)
  /-- The callback of a timer, which the loop fired in a turn, or else a pump. -/
  | timer (timer : TimerTask) (turn : Option ℕ)
  | callback
  deriving DecidableEq

/-- The timers and immediates with the fields of the loop, and a log. -/
structure State where
  timerTasks : List TimerTask
  immediateTasks : List ImmediateTask
  nextTimerId : ℕ
  nextImmediateId : ℕ
  eventTurn : ℕ
  eventPhase : ℕ
  firingTimerId : ℕ
  firingTimerCleared : Bool
  firingTimerRefreshed : Bool
  /-- The innermost first. -/
  stack : List Frame
  log : List Event
  immediateLog : List ImmediateEvent
  deriving DecidableEq

def State.new : State where
  timerTasks := []
  immediateTasks := []
  nextTimerId := 1
  nextImmediateId := 1
  eventTurn := 0
  eventPhase := 0
  firingTimerId := 0
  firingTimerCleared := false
  firingTimerRefreshed := false
  stack := []
  log := []
  immediateLog := []

/-- Whether code of the program runs. -/
def State.running (s : State) : Bool :=
  match s.stack with
  | .loop _ :: _ => false
  | _ => true

def timerSchedule (s : State) (now delay : ℕ) (repeats : Bool) : State :=
  let turn := if s.eventPhase = 1 ∨ s.eventPhase = 2 then s.eventTurn + 1 else s.eventTurn
  { s with
    timerTasks := s.timerTasks ++ [⟨s.nextTimerId, turn, now + delay, delay, repeats⟩]
    nextTimerId := s.nextTimerId + 1 }

def timerClear (s : State) (id : ℕ) : State :=
  if id = 0 then s
  else
    { s with
      timerTasks := s.timerTasks.filter fun task => task.id ≠ id
      firingTimerCleared := s.firingTimerCleared || decide (s.firingTimerId = id)
      log := if id < s.nextTimerId then s.log ++ [.cleared id] else s.log }

def timerRefresh (s : State) (now id : ℕ) : State :=
  if id = 0 then s
  else if s.timerTasks.any fun task => task.id = id then
    { s with timerTasks := s.timerTasks.map fun task => if task.id = id then { task with due := now + task.delay } else task }
  else if s.firingTimerId = id then { s with firingTimerRefreshed := true, log := s.log ++ [.refreshing id] }
  else s

def timerSetImmediate (s : State) : State :=
  let turn := if s.eventPhase = 2 then s.eventTurn + 1 else s.eventTurn
  { s with
    immediateTasks := s.immediateTasks ++ [⟨s.nextImmediateId, turn⟩]
    nextImmediateId := s.nextImmediateId + 1 }

def timerClearImmediate (s : State) (id : ℕ) : State :=
  if id = 0 then s
  else
    { s with
      immediateTasks := s.immediateTasks.filter fun task => task.id ≠ id
      immediateLog := if id < s.nextImmediateId then s.immediateLog ++ [.cleared id] else s.immediateLog }

/-- Whether a timer goes before another one: the key is the due time and the id. -/
def TimerTask.before (a b : TimerTask) : Prop := a.due < b.due ∨ a.due = b.due ∧ a.id ≤ b.id

instance (a b : TimerTask) : Decidable (a.before b) := inferInstanceAs (Decidable (_ ∨ _))

def ImmediateTask.before (a b : ImmediateTask) : Prop := a.id ≤ b.id

instance (a b : ImmediateTask) : Decidable (a.before b) := inferInstanceAs (Decidable (_ ≤ _))

/-- `min_by_key`: the first of the least elements. -/
def minByKey {α : Type} (before : α → α → Prop) [∀ a b, Decidable (before a b)] : List α → Option α
  | [] => none
  | task :: tasks =>
    match minByKey before tasks with
    | none => some task
    | some other => if before task other then some task else some other

/-- The timer is taken and its callback starts; `candidates` are the tasks among which it was found. -/
def fire (s : State) (timer : TimerTask) (candidates : List TimerTask) (turn : Option ℕ) : State :=
  { s with
    timerTasks := s.timerTasks.filter fun task => task.id ≠ timer.id
    firingTimerId := timer.id
    firingTimerCleared := false
    firingTimerRefreshed := false
    stack := .timer timer turn :: s.stack
    log := s.log ++ [.fired timer candidates] }

/-- `timers_pump_once`, up to the callback. -/
def timersPumpOnce (s : State) (now : ℕ) : State :=
  let candidates := s.timerTasks.filter fun task => task.due ≤ now
  match minByKey TimerTask.before candidates with
  | some timer => fire s timer candidates none
  | none => s

/-- The timer phase of the loop, up to the callback. -/
def loopTimer (s : State) (turn now : ℕ) : State :=
  let candidates := s.timerTasks.filter fun task => task.turn ≤ turn
  match minByKey TimerTask.before candidates with
  | some timer =>
    if timer.due ≤ now then fire { s with eventTurn := turn, eventPhase := 1 } timer candidates (some turn) else s
  | none => s

/-- The timer that is armed again; the loop puts it into its next turn. -/
def rearm (timer : TimerTask) (turn : Option ℕ) (now : ℕ) : TimerTask :=
  { timer with
    turn := match turn with
      | some turn => turn + 1
      | none => timer.turn
    due := now + timer.delay }

/-- The callback of a timer returned. -/
def timerReturned (s : State) (timer : TimerTask) (turn : Option ℕ) (outer : List Frame) (now : ℕ) : State :=
  let s' : State := { s with firingTimerId := 0, stack := outer }
  if s.firingTimerCleared = false ∧ (timer.repeats = true ∨ s.firingTimerRefreshed = true) then
    { s' with
      timerTasks := s.timerTasks ++ [rearm timer turn now]
      log := s.log ++ [.rearmed (rearm timer turn now) s.firingTimerRefreshed] }
  else s'

/-- The phase of the immediates. -/
def loopImmediate (s : State) (turn : ℕ) : State :=
  let candidates := s.immediateTasks.filter fun task => task.turn ≤ turn
  match minByKey ImmediateTask.before candidates with
  | some task =>
    { s with
      immediateTasks := s.immediateTasks.filter fun other => other.id ≠ task.id
      eventTurn := turn
      eventPhase := 2
      stack := .callback :: s.stack
      immediateLog := s.immediateLog ++ [.ran task candidates] }
  | none => s

/-! ### Runs -/

/-- What a step does, as far as runs are told apart. -/
inductive Act where
  | use
  /-- A timer may fire. -/
  | firing
  | returned
  deriving DecidableEq

inductive Step : State → Act → State → Prop where
  | set {s : State} (hr : s.running = true) (now delay : ℕ) (repeats : Bool) : Step s .use (timerSchedule s now delay repeats)
  | clear {s : State} (hr : s.running = true) (id : ℕ) : Step s .use (timerClear s id)
  | refresh {s : State} (hr : s.running = true) (now id : ℕ) : Step s .use (timerRefresh s now id)
  | setImmediate {s : State} (hr : s.running = true) : Step s .use (timerSetImmediate s)
  | clearImmediate {s : State} (hr : s.running = true) (id : ℕ) : Step s .use (timerClearImmediate s id)
  | runEventLoop {s : State} (hr : s.running = true) : Step s .use { s with stack := .loop 0 :: s.stack }
  | pump {s : State} (hr : s.running = true) (now : ℕ) : Step s .firing (timersPumpOnce s now)
  | loopTimer {s : State} {turn : ℕ} {outer : List Frame} (hs : s.stack = .loop turn :: outer) (now : ℕ) :
    Step s .firing (loopTimer s turn now)
  | loopImmediate {s : State} {turn : ℕ} {outer : List Frame} (hs : s.stack = .loop turn :: outer) :
    Step s .use (loopImmediate s turn)
  /-- Something else that the loop runs. -/
  | callback {s : State} {turn : ℕ} {outer : List Frame} (hs : s.stack = .loop turn :: outer) (phase : ℕ) :
    Step s .use { s with eventTurn := turn, eventPhase := phase, stack := .callback :: s.stack }
  | turn {s : State} {turn : ℕ} {outer : List Frame} (hs : s.stack = .loop turn :: outer) :
    Step s .use { s with eventPhase := 0, stack := .loop (turn + 1) :: outer }
  | exit {s : State} {turn : ℕ} {outer : List Frame} (hs : s.stack = .loop turn :: outer) :
    Step s .use { s with eventTurn := 0, eventPhase := 0, stack := outer }
  | timerReturned {s : State} {timer : TimerTask} {turn : Option ℕ} {outer : List Frame}
    (hs : s.stack = .timer timer turn :: outer) (now : ℕ) : Step s .returned (timerReturned s timer turn outer now)
  | callbackReturned {s : State} {outer : List Frame} (hs : s.stack = .callback :: outer) :
    Step s .use { s with stack := outer }
  /-- What runs throws. -/
  | throw {s : State} {frame : Frame} {outer : List Frame} (hs : s.stack = frame :: outer) : Step s .use { s with stack := outer }

/-- A run whose steps all meet a condition. -/
inductive Run (P : State → Act → Prop) (s : State) : State → Prop where
  | nil : Run P s s
  | snoc {s' s'' : State} {a : Act} (h : Run P s s') (hs : Step s' a s'') (hp : P s' a) : Run P s s''

/-- No timer fires while the callback of another one runs. -/
def Single (s : State) : Act → Prop
  | .firing => ∀ timer turn, .timer timer turn ∉ s.stack
  | _ => True

end Scriptc.RuntimeRust.Timers
