import Mathlib.Data.Nat.Notation

/-!
# Generators

`generators.rs`: a generator stores the rest of its body as a continuation, which is taken while the
body runs; an async generator queues its requests and runs its body for one at a time. What a body
does is not known: while it runs, any operation of it is a step. A compiled body stores its
continuation as the last thing before it hands over a value, so both are one step here.

A failed assertion is recorded. `active` says whether code of the body is on the stack, and the
events list when the body is entered and how it is left.
-/

namespace Scriptc.RuntimeRust.Generators

/-- What a generator is at. -/
inductive GeneratorState where
  | unstarted
  | suspended
  | executing
  | done
  deriving DecidableEq

/-- What is thrown: a type error of the runtime, or a value. -/
inductive Caught (E : Type) where
  | typeError (message : String)
  | value (e : E)
  deriving DecidableEq

/-- What a body is resumed with. -/
inductive GeneratorCommand (N R E : Type) where
  | next (value : N)
  | ret (value : Option R)
  | throw (reason : Caught E)
  deriving DecidableEq

/-- What a body hands over. -/
inductive GeneratorStep (Y R : Type) where
  | yielded (value : Y)
  | returned (value : Option R)
  deriving DecidableEq

abbrev Outcome (Y R E : Type) := Except (Caught E) (GeneratorStep Y R)

/-- A generator: its state and the rest of its body. -/
structure GeneratorData (K H : Type) where
  state : GeneratorState
  continuation : Option K
  /-- The innermost first. -/
  panicHandlers : List H
  deriving DecidableEq

/-- What a call of `generator_resume` comes to, before the body runs. -/
inductive Resumed (K N R E Y : Type) where
  | answer (outcome : Outcome Y R E)
  | run (continuation : K) (command : GeneratorCommand N R E)
  | panicked

/-- What `generator_finish_resume` comes to, before a handler runs. -/
inductive Finished (H R E Y : Type) where
  | answer (outcome : Outcome Y R E)
  | handle (handler : H) (reason : Caught E)
  | panicked

variable {K H N R E Y : Type}

def generatorNew (start : K) : GeneratorData K H where
  state := .unstarted
  continuation := some start
  panicHandlers := []

/-- What a generator that is done answers. -/
def doneAnswer : GeneratorCommand N R E → Outcome Y R E
  | .next _ => .ok (.returned none)
  | .ret value => .ok (.returned value)
  | .throw reason => .error reason

def generatorClosed (data : GeneratorData K H) : GeneratorData K H :=
  { data with state := .done, continuation := none, panicHandlers := [] }

/-- The continuation is taken. -/
def generatorRun (data : GeneratorData K H) (command : GeneratorCommand N R E) : GeneratorData K H × Resumed K N R E Y :=
  match data.continuation with
  | some continuation => ({ data with state := .executing, continuation := none }, .run continuation command)
  | none => ({ data with state := .executing }, .panicked)

def generatorResume (data : GeneratorData K H) (command : GeneratorCommand N R E) : GeneratorData K H × Resumed K N R E Y :=
  match data.state with
  | .done => (data, .answer (doneAnswer command))
  | .executing => (data, .answer (.error (.typeError "Generator is already running")))
  | .unstarted =>
    match command with
    | .ret value => (generatorClosed data, .answer (.ok (.returned value)))
    | .throw reason => (generatorClosed data, .answer (.error reason))
    | .next value => generatorRun data (.next value)
  | .suspended => generatorRun data command

def generatorFinishResume (data : GeneratorData K H) (outcome : Outcome Y R E) : GeneratorData K H × Finished H R E Y :=
  match outcome with
  | .ok (.yielded value) =>
    if data.state = .suspended ∧ data.continuation.isSome then (data, .answer (.ok (.yielded value))) else (data, .panicked)
  | .ok (.returned value) => (generatorClosed data, .answer (.ok (.returned value)))
  | .error reason =>
    match data.panicHandlers with
    | [] => ({ data with state := .done, continuation := none }, .answer (.error reason))
    | handler :: handlers =>
      ({ state := .executing, continuation := none, panicHandlers := handlers }, .handle handler reason)

/-- `generator_suspend`, unless an assertion fails. -/
def generatorSuspend (data : GeneratorData K H) (continuation : K) : Option (GeneratorData K H) :=
  if data.state = .executing ∧ data.continuation.isNone then
    some { data with state := .suspended, continuation := some continuation }
  else none

/-! ### A body and what happens to it -/

inductive BodyEvent where
  /-- The body is entered, with what it awaited or for a request. -/
  | enter (awaited : Bool)
  /-- The body hands over an await or a value. -/
  | suspended (awaiting : Bool)
  | completed
  deriving DecidableEq

/-- A generator with what happened to its body. -/
structure Body (K H : Type) where
  data : GeneratorData K H
  active : Bool
  failed : Bool
  events : List BodyEvent
  deriving DecidableEq

def Body.new (start : K) : Body K H where
  data := generatorNew start
  active := false
  failed := false
  events := []

/-- The body after a call, which found it in state `before`. -/
def Body.resumed (b : Body K H) (awaited : Bool) (before : GeneratorState) : Resumed K N R E Y → Body K H
  | .run _ _ => { b with active := true, events := b.events ++ [.enter awaited] }
  | .answer _ => if before = .unstarted then { b with events := b.events ++ [.completed] } else b
  | .panicked => { b with failed := true }

def Body.resume (b : Body K H) (awaited : Bool) (command : GeneratorCommand N R E) : Body K H × Resumed K N R E Y :=
  let r := generatorResume b.data command
  (Body.resumed { b with data := r.1 } awaited b.data.state r.2, r.2)

/-- The body after its code ended. -/
def Body.finished (b : Body K H) (awaiting : Bool) : Finished H R E Y → Body K H
  | .answer (.ok (.yielded _)) => { b with active := false, events := b.events ++ [.suspended awaiting] }
  | .answer _ => { b with active := false, events := b.events ++ [.completed] }
  | .handle _ _ => b
  | .panicked => { b with failed := true }

def Body.finish (b : Body K H) (awaiting : Bool) (outcome : Outcome Y R E) : Body K H × Finished H R E Y :=
  let r := generatorFinishResume b.data outcome
  (Body.finished { b with data := r.1 } awaiting r.2, r.2)

/-- The code ends with `yield`, or with `await`. -/
def Body.suspend (b : Body K H) (awaiting : Bool) (continuation : K) (value : Y) : Body K H × Finished H R E Y :=
  match generatorSuspend b.data continuation with
  | some data => Body.finish { b with data := data } awaiting (.ok (.yielded value))
  | none => ({ b with failed := true }, .panicked)

/-- `generator_push_panic_handler` -/
def Body.pushPanicHandler (b : Body K H) (handler : H) : Body K H :=
  if b.data.state = .executing then { b with data := { b.data with panicHandlers := handler :: b.data.panicHandlers } }
  else { b with failed := true }

/-- `generator_pop_panic_handler` -/
def Body.popPanicHandler (b : Body K H) : Body K H :=
  if b.data.state = .executing then
    match b.data.panicHandlers with
    | _ :: handlers => { b with data := { b.data with panicHandlers := handlers } }
    | [] => { b with failed := true }
  else { b with failed := true }

/-! ### Runs of a synchronous generator -/

/-- A call from anywhere, also from the body, or an operation of the body while its code runs. -/
inductive Step (N R E Y : Type) : Body K H → Body K H → Prop where
  | call {b : Body K H} (command : GeneratorCommand N R E) : Step N R E Y b (b.resume (Y := Y) false command).1
  | push {b : Body K H} (ha : b.active = true) (handler : H) : Step N R E Y b (b.pushPanicHandler handler)
  /-- Where nothing was pushed this panics, which is a throw. -/
  | pop {b : Body K H} (ha : b.active = true) (hne : b.data.panicHandlers ≠ []) : Step N R E Y b b.popPanicHandler
  | suspend {b : Body K H} (ha : b.active = true) (continuation : K) (value : Y) :
    Step N R E Y b (b.suspend (R := R) (E := E) false continuation value).1
  | ret {b : Body K H} (ha : b.active = true) (value : Option R) :
    Step N R E Y b (b.finish (Y := Y) (E := E) false (.ok (.returned value))).1
  | throw {b : Body K H} (ha : b.active = true) (reason : Caught E) :
    Step N R E Y b (b.finish (Y := Y) (R := R) false (.error reason)).1

inductive Run (N R E Y : Type) (b : Body K H) : Body K H → Prop where
  | nil : Run N R E Y b b
  | snoc {b' b'' : Body K H} (h : Run N R E Y b b') (hs : Step N R E Y b' b'') : Run N R E Y b b''

/-! ### Async generators -/

/-- What the body hands over. The awaited promise is not modelled: when it settles is a step. -/
inductive AsyncGeneratorYield (Y : Type) where
  | value (value : Y)
  | await
  deriving DecidableEq

/-- What the body gets: the value of a request, or what it awaited. -/
inductive AsyncGeneratorInput (N V : Type) where
  | request (value : N)
  | awaited (value : V)
  deriving DecidableEq

/-- The promises are numbered as they are made. -/
structure AsyncGenerator (K H N R E Y : Type) where
  body : Body K H
  queue : List (GeneratorCommand N R E × ℕ)
  running : Bool
  done : Bool
  /-- The promise of the request that the body runs for. -/
  current : Option ℕ
  /-- Whether the body is left at an await. -/
  parked : Bool
  promises : ℕ
  settled : List (ℕ × Outcome Y R E)

def asyncGeneratorNew (start : K) : AsyncGenerator K H N R E Y where
  body := .new start
  queue := []
  running := false
  done := false
  current := none
  parked := false
  promises := 0
  settled := []

variable {V : Type}

def AsyncGenerator.settle (g : AsyncGenerator K H N R E Y) (promise : ℕ) (outcome : Outcome Y R E) :
    AsyncGenerator K H N R E Y :=
  { g with settled := g.settled ++ [(promise, outcome)] }

def bodyCommand : GeneratorCommand N R E → GeneratorCommand (AsyncGeneratorInput N V) R E
  | .next value => .next (.request value)
  | .ret value => .ret value
  | .throw reason => .throw reason

/-- The end of `async_generator_resume`. -/
def asyncGeneratorFinish (g : AsyncGenerator K H N R E Y) (promise : ℕ) :
    Outcome (AsyncGeneratorYield Y) R E → AsyncGenerator K H N R E Y
  | .ok (.yielded .await) => { g with parked := true }
  | .ok (.yielded (.value value)) => { g.settle promise (.ok (.yielded value)) with running := false, current := none }
  | .ok (.returned value) =>
    { g.settle promise (.ok (.returned value)) with running := false, current := none, done := true }
  | .error reason => { g.settle promise (.error reason) with running := false, current := none, done := true }

/-- What follows the call of the body. -/
def asyncGeneratorResumed (g : AsyncGenerator K H N R E Y) (promise : ℕ) :
    Resumed K (AsyncGeneratorInput N V) R E (AsyncGeneratorYield Y) → AsyncGenerator K H N R E Y
  | .answer outcome => asyncGeneratorFinish g promise outcome
  | .run _ _ => g
  | .panicked => g

/-- The beginning of `async_generator_resume`. -/
def asyncGeneratorResume (g : AsyncGenerator K H N R E Y) (awaited : Bool)
    (command : GeneratorCommand (AsyncGeneratorInput N V) R E) (promise : ℕ) : AsyncGenerator K H N R E Y :=
  let r := g.body.resume (Y := AsyncGeneratorYield Y) awaited command
  asyncGeneratorResumed { g with body := r.1, current := some promise, parked := false } promise r.2

/-- The loop of `async_generator_drain`, over the requests that are queued. -/
def asyncGeneratorDrainLoop (V : Type) :
    List (GeneratorCommand N R E × ℕ) → AsyncGenerator K H N R E Y → AsyncGenerator K H N R E Y
  | [], g => { g with queue := [] }
  | (request, promise) :: rest, g =>
    if g.running = true then { g with queue := (request, promise) :: rest }
    else if g.done = true then asyncGeneratorDrainLoop V rest (g.settle promise (doneAnswer request))
    else
      asyncGeneratorDrainLoop V rest
        (asyncGeneratorResume { g with running := true } false (bodyCommand (V := V) request) promise)

def asyncGeneratorDrain (V : Type) (g : AsyncGenerator K H N R E Y) : AsyncGenerator K H N R E Y :=
  asyncGeneratorDrainLoop V g.queue g

def asyncGeneratorEnqueue (V : Type) (g : AsyncGenerator K H N R E Y) (request : GeneratorCommand N R E) :
    AsyncGenerator K H N R E Y :=
  asyncGeneratorDrain V { g with promises := g.promises + 1, queue := g.queue ++ [(request, g.promises)] }

/-- The code of the body ended; the caller settles the promise and goes on with the queue. -/
def asyncGeneratorLeft (V : Type) (g : AsyncGenerator K H N R E Y) (promise : ℕ) :
    Finished H R E (AsyncGeneratorYield Y) → AsyncGenerator K H N R E Y
  | .answer outcome => asyncGeneratorDrain V (asyncGeneratorFinish g promise outcome)
  | .handle _ _ => g
  | .panicked => g

def asyncGeneratorLeave (V : Type) (g : AsyncGenerator K H N R E Y) (promise : ℕ)
    (r : Body K H × Finished H R E (AsyncGeneratorYield Y)) : AsyncGenerator K H N R E Y :=
  asyncGeneratorLeft V { g with body := r.1 } promise r.2

def isAwait : AsyncGeneratorYield Y → Bool
  | .await => true
  | .value _ => false

/-- The command for a body that awaited. -/
def awaitedCommand : Except (Caught E) V → GeneratorCommand (AsyncGeneratorInput N V) R E
  | .ok value => .next (.awaited value)
  | .error reason => .throw reason

/-- A request from anywhere, also from the body, an operation of the body while its code runs, or the
microtask of what it awaits. -/
inductive AsyncStep (V : Type) : AsyncGenerator K H N R E Y → AsyncGenerator K H N R E Y → Prop where
  | request {g : AsyncGenerator K H N R E Y} (request : GeneratorCommand N R E) :
    AsyncStep V g (asyncGeneratorEnqueue V g request)
  | push {g : AsyncGenerator K H N R E Y} (ha : g.body.active = true) (handler : H) :
    AsyncStep V g { g with body := g.body.pushPanicHandler handler }
  | pop {g : AsyncGenerator K H N R E Y} (ha : g.body.active = true) (hne : g.body.data.panicHandlers ≠ []) :
    AsyncStep V g { g with body := g.body.popPanicHandler }
  | suspend {g : AsyncGenerator K H N R E Y} {promise : ℕ} (ha : g.body.active = true) (hp : g.current = some promise)
    (continuation : K) (value : AsyncGeneratorYield Y) :
    AsyncStep V g (asyncGeneratorLeave V g promise (g.body.suspend (isAwait value) continuation value))
  | ret {g : AsyncGenerator K H N R E Y} {promise : ℕ} (ha : g.body.active = true) (hp : g.current = some promise)
    (value : Option R) : AsyncStep V g (asyncGeneratorLeave V g promise (g.body.finish false (.ok (.returned value))))
  | throw {g : AsyncGenerator K H N R E Y} {promise : ℕ} (ha : g.body.active = true) (hp : g.current = some promise)
    (reason : Caught E) : AsyncStep V g (asyncGeneratorLeave V g promise (g.body.finish false (.error reason)))
  | settled {g : AsyncGenerator K H N R E Y} {promise : ℕ} (hk : g.parked = true) (hp : g.current = some promise)
    (outcome : Except (Caught E) V) :
    AsyncStep V g (asyncGeneratorDrain V (asyncGeneratorResume g true (awaitedCommand outcome) promise))

inductive AsyncRun (V : Type) (g : AsyncGenerator K H N R E Y) : AsyncGenerator K H N R E Y → Prop where
  | nil : AsyncRun V g g
  | snoc {g' g'' : AsyncGenerator K H N R E Y} (h : AsyncRun V g g') (hs : AsyncStep V g' g'') : AsyncRun V g g''

end Scriptc.RuntimeRust.Generators
