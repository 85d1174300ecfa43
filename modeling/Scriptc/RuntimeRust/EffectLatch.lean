import Mathlib.Algebra.Order.Field.Rat
import Mathlib.Algebra.BigOperators.Group.List.Basic

/-!
# Latches

`effect_latch.rs`, with the deferreds and semaphores of `effect_state.rs` over it. Weights are exact. A
request is a number, and the fibers that wait with it know it.
-/

namespace Scriptc.RuntimeRust.EffectLatch

/-- A request with the permits it needs. -/
structure Waiter where
  permits : ℚ
  operation : ℕ
  deriving DecidableEq

variable {O : Type}

/-- The latch below deferreds and semaphores. -/
structure Latch (O : Type) where
  settled : Option O
  permits : ℚ
  taken : ℚ
  waiters : List Waiter
  deriving DecidableEq

def Latch.new (permits : ℚ) : Latch O where
  settled := none
  permits := permits
  taken := 0
  waiters := []

def Latch.free (l : Latch O) : ℚ := l.permits - l.taken

/-- The latch, those that are resumed with the outcome, and whether this call settled it. -/
def Latch.settle (l : Latch O) (outcome : O) : Latch O × List Waiter × Bool :=
  match l.settled with
  | some _ => (l, [], false)
  | none => ({ l with settled := some outcome, waiters := [] }, l.waiters, true)

/-- What a request is answered with. -/
inductive Ready (O : Type) where
  | settled (outcome : O)
  | granted
  deriving DecidableEq

/-- `latch_park`, without an answer if the request waits. -/
def latchPark (l : Latch O) (w : Waiter) : Latch O × Option (Ready O) :=
  match l.settled with
  | some outcome => (l, some (.settled outcome))
  | none =>
    if ¬ l.free < w.permits then ({ l with taken := l.taken + w.permits }, some .granted)
    else ({ l with waiters := l.waiters ++ [w] }, none)

/-- One round of the loop of `effect_semaphore_release`. -/
def Latch.grant (l : Latch O) : Option (Waiter × Latch O) :=
  if 0 < l.free then
    (l.waiters.find? fun w => w.permits ≤ l.free).map fun w =>
      (w, { l with
        waiters := l.waiters.eraseP fun w => w.permits ≤ l.free
        taken := l.taken + w.permits })
  else none

/-! ### Deferreds -/

/-- A deferred with the calls on it. -/
structure Deferred (O : Type) where
  latch : Latch O
  awaits : List ℕ
  /-- The fibers that are being resumed. -/
  waking : List (ℕ × O)
  /-- What awaits were answered with. -/
  received : List (ℕ × O)
  /-- What settle calls answered. -/
  answers : List Bool
  deriving DecidableEq

/-- `effect_deferred_make` -/
def Deferred.new : Deferred O where
  latch := .new 0
  awaits := []
  waking := []
  received := []
  answers := []

/-- `effect_deferred_settle` -/
def Deferred.settle (d : Deferred O) (outcome : O) : Deferred O where
  latch := (d.latch.settle outcome).1
  awaits := d.awaits
  waking := d.waking ++ (d.latch.settle outcome).2.1.map fun w => (w.operation, outcome)
  received := d.received
  answers := d.answers ++ [(d.latch.settle outcome).2.2]

inductive Deferred.Step : Deferred O → Deferred O → Prop where
  | settle {d : Deferred O} (outcome : O) : Step d (d.settle outcome)
  | park {d : Deferred O} (operation : ℕ) (ho : operation ∉ d.awaits) {latch : Latch O}
    (h : latchPark d.latch ⟨1, operation⟩ = (latch, none)) :
    Step d { d with latch := latch, awaits := d.awaits ++ [operation] }
  | ready {d : Deferred O} (operation : ℕ) (ho : operation ∉ d.awaits) {latch : Latch O} {outcome : O}
    (h : latchPark d.latch ⟨1, operation⟩ = (latch, some (.settled outcome))) :
    Step d { d with
      latch := latch, awaits := d.awaits ++ [operation], received := d.received ++ [(operation, outcome)] }
  | resume {d : Deferred O} (before after : List (ℕ × O)) (fiber : ℕ × O) (h : d.waking = before ++ fiber :: after) :
    Step d { d with waking := before ++ after, received := d.received ++ [fiber] }

inductive Deferred.Run (d : Deferred O) : Deferred O → Prop where
  | nil : Run d d
  | snoc {d' d'' : Deferred O} (h : Run d d') (hs : Step d' d'') : Run d d''

/-! ### Semaphores -/

/-- How an effect ends. -/
inductive Exit where
  | success
  | failure
  | defect
  | interrupt
  deriving DecidableEq

/-- The effects on one semaphore; `other` is any other effect. -/
inductive Effect where
  | take (permits : ℚ)
  | release (permits : ℚ)
  | withPermits (permits : ℚ) (body : Effect)
  | other
  deriving DecidableEq

/--
What a fiber goes on with. `effect_semaphore_with_permits` is a `ZipRight` of the take and an `Ensuring`
of the body and the release: `body` is the frame of the one, and `held` of the other.
-/
inductive Frame where
  | body (w : Waiter) (body : Effect)
  | held (w : Waiter)
  | restore (exit : Exit)
  | other
  deriving DecidableEq

/-- What a fiber is at. -/
inductive Control where
  | eval (effect : Effect)
  | request (w : Waiter)
  | parked (w : Waiter)
  /-- The release of a call of `withPermits`. -/
  | giveBack (w : Waiter)
  /-- In the loop of a release. -/
  | releasing
  | give (exit : Exit)
  | ended (exit : Exit)
  deriving DecidableEq

/-- A fiber, with what it goes on with. -/
structure Fiber where
  control : Control
  frames : List Frame
  deriving DecidableEq

/--
What a fiber does without the semaphore. Another effect, or a callback of its frame, may end in any way,
or go on with any effect.
-/
inductive Fiber.Moves : Fiber → Fiber → Prop where
  | body {w : Waiter} {body : Effect} {frames : List Frame} :
    Moves ⟨.give .success, .body w body :: frames⟩ ⟨.eval body, .held w :: frames⟩
  | skip {w : Waiter} {body : Effect} {frames : List Frame} {exit : Exit} (h : exit ≠ .success) :
    Moves ⟨.give exit, .body w body :: frames⟩ ⟨.give exit, frames⟩
  | finish {w : Waiter} {frames : List Frame} {exit : Exit} :
    Moves ⟨.give exit, .held w :: frames⟩ ⟨.giveBack w, .restore exit :: frames⟩
  | restore {frames : List Frame} {exit : Exit} :
    Moves ⟨.give .success, .restore exit :: frames⟩ ⟨.give exit, frames⟩
  | fail {frames : List Frame} {exit exit' : Exit} (h : exit' ≠ .success) :
    Moves ⟨.give exit', .restore exit :: frames⟩ ⟨.give exit', frames⟩
  | give {frames : List Frame} (exit : Exit) : Moves ⟨.eval .other, frames⟩ ⟨.give exit, frames⟩
  | eval {frames : List Frame} (others : ℕ) (effect : Effect) :
    Moves ⟨.eval .other, frames⟩ ⟨.eval effect, List.replicate others .other ++ frames⟩
  | pop {frames : List Frame} {exit : Exit} (exit' : Exit) : Moves ⟨.give exit, .other :: frames⟩ ⟨.give exit', frames⟩
  | call {frames : List Frame} {exit : Exit} (others : ℕ) (effect : Effect) :
    Moves ⟨.give exit, .other :: frames⟩ ⟨.eval effect, List.replicate others .other ++ frames⟩
  | finished {exit : Exit} : Moves ⟨.give exit, []⟩ ⟨.ended exit, []⟩

/-- A semaphore with the fibers that use it. -/
structure Semaphore where
  latch : Latch Exit
  fibers : List Fiber
  requested : List Waiter
  granted : List Waiter
  /-- The calls of `withPermits`. -/
  entered : List Waiter
  /-- The calls that returned their permits. -/
  returned : List Waiter
  released : List ℚ
  deriving DecidableEq

/-- `effect_semaphore_make_unsafe` -/
def Semaphore.new (permits : ℚ) : Semaphore where
  latch := .new permits
  fibers := []
  requested := []
  granted := []
  entered := []
  returned := []
  released := []

/-- The steps of all fibers, one at a time: between two rounds of a release any fiber may go on. -/
inductive Semaphore.Step : Semaphore → Semaphore → Prop where
  | spawn {s : Semaphore} (effect : Effect) : Step s { s with fibers := s.fibers ++ [⟨.eval effect, []⟩] }
  | move {s : Semaphore} {before after : List Fiber} {f f' : Fiber} (hf : s.fibers = before ++ f :: after)
    (h : f.Moves f') : Step s { s with fibers := before ++ f' :: after }
  | take {s : Semaphore} {before after : List Fiber} {frames : List Frame} {w : Waiter}
    (hf : s.fibers = before ++ ⟨.eval (.take w.permits), frames⟩ :: after) (hw : 0 < w.permits)
    (ho : w.operation ∉ s.requested.map Waiter.operation) :
    Step s { s with fibers := before ++ ⟨.request w, frames⟩ :: after, requested := s.requested ++ [w] }
  | withPermits {s : Semaphore} {before after : List Fiber} {frames : List Frame} {w : Waiter} {body : Effect}
    (hf : s.fibers = before ++ ⟨.eval (.withPermits w.permits body), frames⟩ :: after) (hw : 0 < w.permits)
    (ho : w.operation ∉ s.requested.map Waiter.operation) :
    Step s { s with
      fibers := before ++ ⟨.request w, .body w body :: frames⟩ :: after
      requested := s.requested ++ [w], entered := s.entered ++ [w] }
  | park {s : Semaphore} {before after : List Fiber} {frames : List Frame} {w : Waiter} {latch : Latch Exit}
    (hf : s.fibers = before ++ ⟨.request w, frames⟩ :: after) (h : latchPark s.latch w = (latch, none)) :
    Step s { s with latch := latch, fibers := before ++ ⟨.parked w, frames⟩ :: after }
  | ready {s : Semaphore} {before after : List Fiber} {frames : List Frame} {w : Waiter} {latch : Latch Exit}
    (hf : s.fibers = before ++ ⟨.request w, frames⟩ :: after) (h : latchPark s.latch w = (latch, some .granted)) :
    Step s { s with
      latch := latch, fibers := before ++ ⟨.give .success, frames⟩ :: after, granted := s.granted ++ [w] }
  | release {s : Semaphore} {before after : List Fiber} {frames : List Frame} {permits : ℚ}
    (hf : s.fibers = before ++ ⟨.eval (.release permits), frames⟩ :: after) (hp : 0 < permits) :
    Step s { s with
      latch := { s.latch with taken := s.latch.taken - permits }
      fibers := before ++ ⟨.releasing, frames⟩ :: after, released := s.released ++ [permits] }
  | giveBack {s : Semaphore} {before after : List Fiber} {frames : List Frame} {w : Waiter}
    (hf : s.fibers = before ++ ⟨.giveBack w, frames⟩ :: after) :
    Step s { s with
      latch := { s.latch with taken := s.latch.taken - w.permits }
      fibers := before ++ ⟨.releasing, frames⟩ :: after
      released := s.released ++ [w.permits], returned := s.returned ++ [w] }
  | grant {s : Semaphore} {before after : List Fiber} {f : Fiber} {frames : List Frame} {w : Waiter} {latch : Latch Exit}
    (hr : f ∈ s.fibers) (hc : f.control = .releasing) (h : s.latch.grant = some (w, latch))
    (hf : s.fibers = before ++ ⟨.parked w, frames⟩ :: after) :
    Step s { s with
      latch := latch, fibers := before ++ ⟨.give .success, frames⟩ :: after, granted := s.granted ++ [w] }
  | done {s : Semaphore} {before after : List Fiber} {frames : List Frame}
    (hf : s.fibers = before ++ ⟨.releasing, frames⟩ :: after) (h : s.latch.grant = none) :
    Step s { s with fibers := before ++ ⟨.give .success, frames⟩ :: after }

inductive Semaphore.Run (s : Semaphore) : Semaphore → Prop where
  | nil : Run s s
  | snoc {s' s'' : Semaphore} (h : Run s s') (hs : Step s' s'') : Run s s''

end Scriptc.RuntimeRust.EffectLatch
