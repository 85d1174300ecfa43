import Scriptc.RuntimeRust.Generators
import Mathlib.Data.List.Induction

/-!
# The protocol of generators

The invariant is about the state: where the continuation is, whether code of the body is on the
stack, and how the body was left. A body is entered only where it was not started or after it handed
over a value or an await. An async generator that is not running has no request waiting, so that what
was settled, what runs and what is queued are always the requests in their order.
-/

namespace Scriptc.RuntimeRust.Generators

open List

variable {K H N R E Y V : Type}

/-! ### The events of a body -/

/-- The body is entered at first for a request, and later with what it handed over. -/
def Enters (events : List BodyEvent) : Prop :=
  ∀ before after awaited, events = before ++ .enter awaited :: after →
    before = [] ∧ awaited = false ∨ ∃ front, before = front ++ [.suspended awaited]

theorem enters_nil : Enters [] := by
  intro before after awaited h
  cases before <;> cases h

theorem Enters.snoc {events : List BodyEvent} (h : Enters events) (e : BodyEvent)
    (he : ∀ awaited, e = .enter awaited → events = [] ∧ awaited = false ∨ ∃ front, events = front ++ [.suspended awaited]) :
    Enters (events ++ [e]) := by
  intro before after awaited heq
  cases after using reverseRecOn with
  | nil =>
    obtain ⟨hevents, hlast⟩ := append_inj' heq rfl
    rw [← hevents]
    exact he awaited (List.cons.inj hlast).1
  | append_singleton after last =>
    rw [← cons_append, ← append_assoc] at heq
    exact h before after awaited (append_inj' heq rfl).1

/-! ### The invariant of a body -/

/-- `parked` says whether the body, if it is suspended, is left at an await. -/
structure BodyInv (b : Body K H) (parked : Bool) : Prop where
  failed : b.failed = false
  active : b.active = true ↔ b.data.state = .executing
  stored : b.data.continuation.isSome = true ↔ b.data.state = .unstarted ∨ b.data.state = .suspended
  unstarted : b.data.state = .unstarted → b.events = [] ∧ parked = false
  suspended : b.data.state = .suspended → ∃ front, b.events = front ++ [.suspended parked]
  completed : .completed ∈ b.events → b.data.state = .done
  enters : Enters b.events

theorem bodyInv_new (start : K) : BodyInv (.new start : Body K H) false where
  failed := rfl
  active := by simp [Body.new, generatorNew]
  stored := by simp [Body.new, generatorNew]
  unstarted := fun _ => ⟨rfl, rfl⟩
  suspended := by simp [Body.new, generatorNew]
  completed := by simp [Body.new]
  enters := enters_nil

/-- What a call can come to: the generator is done or running and stays as it is, it is closed before
its start, or its body is entered. -/
inductive Call (b : Body K H) (command : GeneratorCommand N R E) : Body K H → Resumed K N R E Y → Prop where
  | done (hs : b.data.state = .done) : Call b command b (.answer (doneAnswer command))
  | executing (hs : b.data.state = .executing) :
    Call b command b (.answer (.error (.typeError "Generator is already running")))
  | closed {b' : Body K H} {outcome : Outcome Y R E} (hs : b.data.state = .unstarted) (hd : b'.data.state = .done)
    (ho : ∀ value, outcome ≠ .ok (.yielded value)) (h : BodyInv b' false) : Call b command b' (.answer outcome)
  | run {b' : Body K H} {continuation : K} {command' : GeneratorCommand N R E}
    (hs : b.data.state = .unstarted ∨ b.data.state = .suspended) (ha : b'.active = true) (h : BodyInv b' false) :
    Call b command b' (.run continuation command')

variable {b : Body K H} {parked : Bool}

theorem BodyInv.run (h : BodyInv b parked)
    (hs : b.data.state = .unstarted ∨ b.data.state = .suspended) :
    BodyInv
      { b with
        data := { b.data with state := .executing, continuation := (none : Option K) }
        active := true
        events := b.events ++ [.enter parked] } false where
  failed := h.failed
  active := by simp
  stored := by simp
  unstarted := by simp
  suspended := by simp
  completed := by
    intro hm
    simp only [mem_append, mem_singleton, reduceCtorEq, or_false] at hm
    have hdone := h.completed hm
    rw [hdone] at hs
    simp at hs
  enters := h.enters.snoc _ (by
    intro awaited he
    cases he
    rcases hs with hs | hs
    · exact .inl (h.unstarted hs)
    · exact .inr (h.suspended hs))

theorem BodyInv.closed (h : BodyInv b parked) (hs : b.data.state ≠ .executing) :
    BodyInv { b with data := generatorClosed b.data, events := b.events ++ [.completed] } false where
  failed := h.failed
  active := by
    have := h.active
    simpa [generatorClosed, hs] using this
  stored := by simp [generatorClosed]
  unstarted := by simp [generatorClosed]
  suspended := by simp [generatorClosed]
  completed := fun _ => rfl
  enters := h.enters.snoc _ (by simp)

/-- The specification of `generator_resume`. -/
theorem BodyInv.call (h : BodyInv b parked) (command : GeneratorCommand N R E) :
    Call b command (b.resume (Y := Y) parked command).1 (b.resume (Y := Y) parked command).2 := by
  have hrun : b.data.state = .unstarted ∨ b.data.state = .suspended → ∃ continuation, ∀ command' : GeneratorCommand N R E,
      generatorRun (Y := Y) b.data command' =
        ({ b.data with state := .executing, continuation := none }, .run continuation command') := by
    intro hs
    obtain ⟨continuation, hc⟩ := Option.isSome_iff_exists.mp (h.stored.mpr hs)
    exact ⟨continuation, fun command' => by rw [generatorRun, hc]⟩
  unfold Body.resume generatorResume
  cases hstate : b.data.state with
  | done => exact .done hstate
  | executing => exact .executing hstate
  | suspended =>
    obtain ⟨continuation, hrun⟩ := hrun (.inr hstate)
    rw [hrun]
    exact .run (.inr hstate) rfl (h.run (.inr hstate))
  | unstarted =>
    cases command with
    | ret value => exact .closed hstate rfl (by simp) (h.closed (by simp [hstate]))
    | throw reason => exact .closed hstate rfl (by simp) (h.closed (by simp [hstate]))
    | next value =>
      obtain ⟨continuation, hrun⟩ := hrun (.inl hstate)
      dsimp only
      rw [hrun]
      exact .run (.inl hstate) rfl (h.run (.inl hstate))

/-- How the code of a body can end: in a handler, for good, or with a value that it hands over. -/
inductive Left (Y : Type) (awaiting : Y → Bool) : Body K H → Finished H R E Y → Prop where
  | handler {b' : Body K H} {handler : H} {reason : Caught E} (ha : b'.active = true) (h : BodyInv b' false) :
    Left Y awaiting b' (.handle handler reason)
  | completed {b' : Body K H} {outcome : Outcome Y R E} (hd : b'.data.state = .done) (ho : ∀ value, outcome ≠ .ok (.yielded value))
    (h : BodyInv b' false) : Left Y awaiting b' (.answer outcome)
  | suspended {b' : Body K H} {value : Y} (hs : b'.data.state = .suspended) (h : BodyInv b' (awaiting value)) :
    Left Y awaiting b' (.answer (.ok (.yielded value)))

theorem BodyInv.return (h : BodyInv b false) (awaiting : Y → Bool) (value : Option R) :
    Left Y awaiting (b.finish (Y := Y) (E := E) false (.ok (.returned value))).1
      (b.finish (Y := Y) (E := E) false (.ok (.returned value))).2 := by
  refine .completed rfl (by simp) ?_
  exact
    { failed := h.failed
      active := by simp [Body.finish, Body.finished, generatorFinishResume, generatorClosed]
      stored := by simp [Body.finish, Body.finished, generatorFinishResume, generatorClosed]
      unstarted := by simp [Body.finish, Body.finished, generatorFinishResume, generatorClosed]
      suspended := by simp [Body.finish, Body.finished, generatorFinishResume, generatorClosed]
      completed := fun _ => rfl
      enters := h.enters.snoc _ (by simp) }

/-- A throw of the body goes to its innermost handler. -/
theorem BodyInv.throw (h : BodyInv b false) (ha : b.active = true) (awaiting : Y → Bool) (reason : Caught E) :
    Left Y awaiting (b.finish (Y := Y) (R := R) false (.error reason)).1 (b.finish (Y := Y) (R := R) false (.error reason)).2 := by
  have hstate := h.active.mp ha
  cases hh : b.data.panicHandlers with
  | nil =>
    have heq : b.finish (Y := Y) (R := R) false (.error reason) =
        ({ b with
            data := { b.data with state := .done, continuation := none }
            active := false
            events := b.events ++ [.completed] }, .answer (.error reason)) := by
      simp [Body.finish, generatorFinishResume, hh, Body.finished]
    rw [heq]
    refine .completed rfl (by simp) ?_
    exact
      { failed := h.failed
        active := by simp
        stored := by simp
        unstarted := by simp
        suspended := by simp
        completed := fun _ => rfl
        enters := h.enters.snoc _ (by simp) }
  | cons handler handlers =>
    have heq : b.finish (Y := Y) (R := R) false (.error reason) =
        ({ b with data := { state := .executing, continuation := none, panicHandlers := handlers } }, .handle handler reason) := by
      simp [Body.finish, generatorFinishResume, hh, Body.finished]
    rw [heq]
    refine .handler ha ?_
    exact
      { failed := h.failed
        active := by simp [ha]
        stored := by simp
        unstarted := by simp
        suspended := by simp
        completed := fun hm => absurd (h.completed hm) (by simp [hstate])
        enters := h.enters }

/-- While the body runs, its continuation is not there: it can store the next one. -/
theorem BodyInv.suspend (h : BodyInv b false) (ha : b.active = true) (awaiting : Y → Bool) (continuation : K)
    (value : Y) :
    Left Y awaiting (b.suspend (R := R) (E := E) (awaiting value) continuation value).1
      (b.suspend (R := R) (E := E) (awaiting value) continuation value).2 := by
  have hstate := h.active.mp ha
  have hnone : b.data.continuation = none := by
    have := h.stored.not.mpr (by simp [hstate])
    simpa using this
  have heq : b.suspend (R := R) (E := E) (awaiting value) continuation value =
      ({ b with
          data := { b.data with state := .suspended, continuation := some continuation }
          active := false
          events := b.events ++ [.suspended (awaiting value)] }, .answer (.ok (.yielded value))) := by
    simp [Body.suspend, generatorSuspend, hstate, hnone, Body.finish, generatorFinishResume, Body.finished]
  rw [heq]
  refine .suspended rfl ?_
  exact
    { failed := h.failed
      active := by simp
      stored := by simp
      unstarted := by simp
      suspended := fun _ => ⟨b.events, rfl⟩
      completed := by
        intro hm
        simp only [mem_append, mem_singleton, reduceCtorEq, or_false] at hm
        exact absurd (h.completed hm) (by simp [hstate])
      enters := h.enters.snoc _ (by simp) }

/-- Pushing and popping handlers touches nothing else. -/
theorem BodyInv.handlers (h : BodyInv b parked) (handlers : List H) :
    BodyInv { b with data := { b.data with panicHandlers := handlers } } parked where
  failed := h.failed
  active := h.active
  stored := h.stored
  unstarted := h.unstarted
  suspended := h.suspended
  completed := h.completed
  enters := h.enters

theorem BodyInv.push (h : BodyInv b parked) (ha : b.active = true) (handler : H) :
    BodyInv (b.pushPanicHandler handler) parked := by
  rw [Body.pushPanicHandler, if_pos (h.active.mp ha)]
  exact h.handlers _

theorem BodyInv.pop (h : BodyInv b parked) (ha : b.active = true)
    (hne : b.data.panicHandlers ≠ []) : BodyInv b.popPanicHandler parked := by
  rw [Body.popPanicHandler, if_pos (h.active.mp ha)]
  obtain ⟨handler, handlers, hh⟩ := exists_cons_of_ne_nil hne
  rw [hh]
  exact h.handlers _

/-! ### Synchronous generators -/

theorem Left.inv {f : Finished H R E Y} (h : Left Y (fun _ => false) b f) : BodyInv b false := by
  cases h with
  | handler _ h => exact h
  | completed _ _ h => exact h
  | suspended _ h => exact h

variable {b b' : Body K H}

theorem Call.inv {command : GeneratorCommand N R E} {r : Resumed K N R E Y} (h : BodyInv b false)
    (hc : Call b command b' r) : BodyInv b' false := by
  cases hc with
  | done => exact h
  | executing => exact h
  | closed _ _ _ h => exact h
  | run _ _ h => exact h

theorem inv_step (h : BodyInv b false) (hs : Step N R E Y b b') : BodyInv b' false := by
  cases hs with
  | call command => exact (h.call command).inv h
  | push ha handler => exact h.push ha handler
  | pop ha hne => exact h.pop ha hne
  | suspend ha continuation value => exact (h.suspend ha (fun _ => false) continuation value).inv
  | ret ha value => exact (h.return (fun _ => false) value).inv
  | throw ha reason => exact (h.throw ha (fun _ => false) reason).inv

theorem inv_run (h : BodyInv b false) (hr : Run N R E Y b b') : BodyInv b' false := by
  induction hr with
  | nil => exact h
  | snoc _ hs ih => exact inv_step ih hs

/-! ### Async generators -/

/-- The requests in their order: the settled ones, the one that the body runs for, and the others. -/
structure Core (g : AsyncGenerator K H N R E Y) (queue : List (GeneratorCommand N R E × ℕ)) : Prop where
  body : BodyInv g.body g.parked
  order : g.settled.map Prod.fst ++ g.current.toList ++ queue.map Prod.snd = List.range g.promises
  idle : g.running = false →
    g.current = none ∧ g.parked = false ∧ g.body.active = false ∧ (g.done = true ↔ g.body.data.state = .done)
  running : g.running = true →
    g.done = false ∧ g.current.isSome = true ∧ (g.parked = true → g.body.data.state = .suspended) ∧
      (g.parked = false → g.body.active = true)

/-- Where nothing runs nothing is queued. -/
structure AsyncInv (g : AsyncGenerator K H N R E Y) : Prop where
  core : Core g g.queue
  idle : g.running = false → g.queue = []

theorem asyncInv_new (start : K) : AsyncInv (asyncGeneratorNew start : AsyncGenerator K H N R E Y) where
  core :=
    { body := bodyInv_new start
      order := rfl
      idle := fun _ => ⟨rfl, rfl, rfl, by simp [asyncGeneratorNew, Body.new, generatorNew]⟩
      running := by simp [asyncGeneratorNew] }
  idle := fun _ => rfl

variable {g : AsyncGenerator K H N R E Y} {queue : List (GeneratorCommand N R E × ℕ)} {promise : ℕ}

/-- The body is done, and the promise of its request is settled. -/
theorem core_finish_completed
    {outcome : Outcome (AsyncGeneratorYield Y) R E} (hb : BodyInv g.body false) (hp : g.parked = false)
    (hd : g.body.data.state = .done) (ho : ∀ value, outcome ≠ .ok (.yielded value))
    (horder : g.settled.map Prod.fst ++ promise :: queue.map Prod.snd = List.range g.promises) :
    Core (asyncGeneratorFinish g promise outcome) queue := by
  have hactive : g.body.active = false := by
    by_contra ha
    have := hb.active.mp (Bool.not_eq_false _ ▸ ha)
    rw [hd] at this
    cases this
  match outcome with
  | .ok (.yielded value) => exact absurd rfl (ho value)
  | .ok (.returned _) | .error _ =>
    exact
      { body := by
          rw [asyncGeneratorFinish]
          show BodyInv g.body g.parked
          rwa [hp]
        order := by simpa [asyncGeneratorFinish, AsyncGenerator.settle] using horder
        idle := fun _ => ⟨rfl, hp, hactive, by simp [asyncGeneratorFinish, AsyncGenerator.settle, hd]⟩
        running := by simp [asyncGeneratorFinish] }

/-- The body is resumed where it can be. -/
theorem core_resume {awaited : Bool}
    (hb : BodyInv g.body awaited) (hs : g.body.data.state = .unstarted ∨ g.body.data.state = .suspended)
    (hr : g.running = true) (hd : g.done = false)
    (horder : g.settled.map Prod.fst ++ promise :: queue.map Prod.snd = List.range g.promises)
    (command : GeneratorCommand (AsyncGeneratorInput N V) R E) :
    Core (asyncGeneratorResume g awaited command promise) queue := by
  have hcall := hb.call (Y := AsyncGeneratorYield Y) command
  rw [asyncGeneratorResume]
  generalize g.body.resume (Y := AsyncGeneratorYield Y) awaited command = r at hcall
  obtain ⟨b', resumed⟩ := r
  dsimp only at hcall ⊢
  cases hcall with
  | done hdone =>
    rw [hdone] at hs
    simp at hs
  | executing hex =>
    rw [hex] at hs
    simp at hs
  | closed _ hdone ho h => exact core_finish_completed h rfl hdone ho horder
  | run _ ha h =>
    exact
      { body := h
        order := by simpa [asyncGeneratorResumed] using horder
        idle := by simp [asyncGeneratorResumed, hr]
        running := fun _ => ⟨hd, rfl, by simp [asyncGeneratorResumed], fun _ => ha⟩ }

theorem asyncGeneratorFinish_queue (g : AsyncGenerator K H N R E Y) (promise : ℕ) (outcome : Outcome (AsyncGeneratorYield Y) R E) :
    (asyncGeneratorFinish g promise outcome).queue = g.queue := by
  match outcome with
  | .ok (.yielded .await) => rfl
  | .ok (.yielded (.value _)) => rfl
  | .ok (.returned _) => rfl
  | .error _ => rfl

theorem asyncGeneratorResume_queue (g : AsyncGenerator K H N R E Y) (awaited : Bool)
    (command : GeneratorCommand (AsyncGeneratorInput N V) R E) (promise : ℕ) :
    (asyncGeneratorResume g awaited command promise).queue = g.queue := by
  rw [asyncGeneratorResume]
  cases (g.body.resume (Y := AsyncGeneratorYield Y) awaited command).2 with
  | answer outcome => exact asyncGeneratorFinish_queue _ promise outcome
  | run continuation command => rfl
  | panicked => rfl

theorem asyncInv_drainLoop (h : Core g queue) :
    AsyncInv (asyncGeneratorDrainLoop V queue g) := by
  induction queue generalizing g with
  | nil => exact ⟨⟨h.body, h.order, h.idle, h.running⟩, fun _ => rfl⟩
  | cons entry rest ih =>
    obtain ⟨request, promise⟩ := entry
    rw [asyncGeneratorDrainLoop]
    split
    next hr => exact ⟨⟨h.body, h.order, h.idle, h.running⟩, fun hidle => absurd hr (by simp_all)⟩
    next hr =>
    rw [Bool.not_eq_true] at hr
    obtain ⟨hc, hp, ha, hdone⟩ := h.idle hr
    have horder := h.order
    rw [hc] at horder
    simp only [Option.toList_none, append_nil, map_cons] at horder
    split
    next hd =>
      apply ih
      exact
        { body := h.body
          order := by simpa [AsyncGenerator.settle, hc] using horder
          idle := fun _ => ⟨hc, hp, ha, hdone⟩
          running := fun hr' => absurd hr' (by simp [AsyncGenerator.settle, hr]) }
    next hd =>
      apply ih
      rw [Bool.not_eq_true] at hd
      have hb := h.body
      rw [hp] at hb
      refine core_resume (g := { g with running := true }) hb ?_ rfl hd horder _
      -- The body neither runs nor is done.
      cases hstate : g.body.data.state with
      | unstarted => exact .inl rfl
      | suspended => exact .inr rfl
      | executing =>
        have := hb.active.mpr hstate
        rw [ha] at this
        cases this
      | done =>
        have := hdone.mpr hstate
        rw [hd] at this
        cases this

theorem asyncInv_enqueue (h : AsyncInv g) (request : GeneratorCommand N R E) :
    AsyncInv (asyncGeneratorEnqueue V g request) := by
  refine asyncInv_drainLoop ⟨h.core.body, ?_, h.core.idle, h.core.running⟩
  have := h.core.order
  simp only [map_append, map_cons, map_nil, range_succ, ← this, append_assoc]

/-- The body runs for the request whose promise it is. -/
theorem AsyncInv.active (h : AsyncInv g) (ha : g.body.active = true) :
    g.running = true ∧ g.parked = false ∧ g.done = false := by
  have hr : g.running = true := by
    by_contra hr
    rw [Bool.not_eq_true] at hr
    have := (h.core.idle hr).2.2.1
    rw [ha] at this
    cases this
  obtain ⟨hd, -, hp, -⟩ := h.core.running hr
  refine ⟨hr, ?_, hd⟩
  by_contra hparked
  have := hp (by simpa using hparked)
  rw [h.core.body.active.mp ha] at this
  cases this

theorem asyncInv_body (h : AsyncInv g) (ha : g.body.active = true) {b' : Body K H}
    (ha' : b'.active = true) (hb : BodyInv b' false) : AsyncInv { g with body := b' } := by
  obtain ⟨hr, hp, hd⟩ := h.active ha
  have hrunning : ¬ g.running = false := by simp [hr]
  refine ⟨⟨?_, h.core.order, fun hidle => absurd hidle hrunning, fun _ => ?_⟩, fun hidle => absurd hidle hrunning⟩
  · show BodyInv b' g.parked
    rwa [hp]
  · exact ⟨hd, (h.core.running hr).2.1, fun hparked => absurd (hp.symm.trans hparked) (by decide), fun _ => ha'⟩

theorem asyncInv_leave (h : AsyncInv g) (ha : g.body.active = true)
    (hc : g.current = some promise) {b' : Body K H} {f : Finished H R E (AsyncGeneratorYield Y)}
    (hl : Left (AsyncGeneratorYield Y) isAwait b' f) : AsyncInv (asyncGeneratorLeave V g promise (b', f)) := by
  obtain ⟨hr, hp, hd⟩ := h.active ha
  have horder := h.core.order
  rw [hc] at horder
  simp only [Option.toList_some, append_assoc, singleton_append] at horder
  rw [asyncGeneratorLeave]
  cases hl with
  | handler ha' hb => exact asyncInv_body h ha ha' hb
  | @completed outcome hdone ho hb =>
    refine asyncInv_drainLoop (core_finish_completed hb hp hdone ho ?_)
    rw [asyncGeneratorFinish_queue]
    exact horder
  | @suspended value hs hb =>
    have hactive : b'.active = false := by
      by_contra ha'
      have := hb.active.mp (by simpa using ha')
      rw [hs] at this
      cases this
    cases value with
    | await =>
      apply asyncInv_drainLoop
      exact
        { body := hb
          order := h.core.order
          idle := fun hidle => absurd hr (by simpa [asyncGeneratorFinish] using hidle)
          running := fun _ => ⟨hd, by simp [asyncGeneratorFinish, hc], fun _ => hs, by simp [asyncGeneratorFinish]⟩ }
    | value value =>
      apply asyncInv_drainLoop
      exact
        { body := by
            show BodyInv b' g.parked
            rwa [hp]
          order := by simpa [asyncGeneratorFinish, AsyncGenerator.settle] using horder
          idle := fun _ => ⟨rfl, hp, hactive, by simp [asyncGeneratorFinish, AsyncGenerator.settle, hs, hd]⟩
          running := by simp [asyncGeneratorFinish] }

theorem asyncInv_step {g g' : AsyncGenerator K H N R E Y} (h : AsyncInv g) (hs : AsyncStep V g g') : AsyncInv g' := by
  have hbody : g.body.active = true → BodyInv g.body false := fun ha => (h.active ha).2.1 ▸ h.core.body
  cases hs with
  | request request => exact asyncInv_enqueue h request
  | push ha handler =>
    refine asyncInv_body h ha ?_ ((hbody ha).push ha handler)
    rw [Body.pushPanicHandler, if_pos ((hbody ha).active.mp ha)]
    exact ha
  | pop ha hne =>
    refine asyncInv_body h ha ?_ ((hbody ha).pop ha hne)
    obtain ⟨handler, handlers, hh⟩ := exists_cons_of_ne_nil hne
    rw [Body.popPanicHandler, if_pos ((hbody ha).active.mp ha), hh]
    exact ha
  | suspend ha hp continuation value => exact asyncInv_leave h ha hp ((hbody ha).suspend ha isAwait continuation value)
  | ret ha hp value => exact asyncInv_leave h ha hp ((hbody ha).return isAwait value)
  | throw ha hp reason => exact asyncInv_leave h ha hp ((hbody ha).throw ha isAwait reason)
  | @settled promise hk hp outcome =>
    have hr : g.running = true := by
      by_contra hr
      rw [Bool.not_eq_true] at hr
      have := (h.core.idle hr).2.1
      rw [hk] at this
      cases this
    obtain ⟨hd, -, hs, -⟩ := h.core.running hr
    have horder := h.core.order
    rw [hp] at horder
    simp only [Option.toList_some, append_assoc, singleton_append] at horder
    have hb := h.core.body
    rw [hk] at hb
    have hcore := core_resume hb (.inr (hs hk)) hr hd horder (awaitedCommand (N := N) outcome)
    rw [← asyncGeneratorResume_queue g true (awaitedCommand (N := N) outcome) promise] at hcore
    exact asyncInv_drainLoop hcore

theorem asyncInv_run {g g' : AsyncGenerator K H N R E Y} (h : AsyncInv g) (hr : AsyncRun V g g') : AsyncInv g' := by
  induction hr with
  | nil => exact h
  | snoc _ hs ih => exact asyncInv_step ih hs

/-! ### The protocol -/

/-- What holds of a body in every run. -/
structure Protocol (N R E Y : Type) (b : Body K H) : Prop where
  /-- No assertion fails. -/
  failed : b.failed = false
  stored : b.data.continuation.isSome = true ↔ b.data.state = .unstarted ∨ b.data.state = .suspended
  active : b.active = true ↔ b.data.state = .executing
  enters : Enters b.events
  /-- A call while the body runs changes nothing. -/
  reentered : b.active = true → ∀ (command : GeneratorCommand N R E) (awaited : Bool),
    b.resume (Y := Y) awaited command = (b, .answer (.error (.typeError "Generator is already running")))
  /-- Nor does one after the body completed. -/
  completed : .completed ∈ b.events → ∀ (command : GeneratorCommand N R E) (awaited : Bool),
    b.resume (Y := Y) awaited command = (b, .answer (doneAnswer command))

theorem BodyInv.protocol (h : BodyInv b parked) : Protocol N R E Y b where
  failed := h.failed
  stored := h.stored
  active := h.active
  enters := h.enters
  reentered := by
    intro ha command awaited
    have hstate := h.active.mp ha
    simp [Body.resume, generatorResume, hstate, Body.resumed]
  completed := by
    intro hm command awaited
    have hstate := h.completed hm
    simp [Body.resume, generatorResume, hstate, Body.resumed]

/-- What holds of an async generator in every run. -/
structure AsyncProtocol (V : Type) (g : AsyncGenerator K H N R E Y) : Prop where
  body : Protocol (AsyncGeneratorInput N V) R E (AsyncGeneratorYield Y) g.body
  /-- The promises are settled once each, in the order of the requests. -/
  order : g.settled.map Prod.fst ++ g.current.toList ++ g.queue.map Prod.snd = List.range g.promises
  /-- Where nothing runs every request is answered. -/
  idle : g.running = false → g.settled.map Prod.fst = List.range g.promises
  parked : g.parked = true → g.running = true ∧ g.body.active = false
  /-- While the body runs or is parked, a request only waits. -/
  waiting : g.running = true → ∀ request : GeneratorCommand N R E, asyncGeneratorEnqueue V g request =
    { g with promises := g.promises + 1, queue := g.queue ++ [(request, g.promises)] }
  /-- Where nothing runs and the body is not at its end, a request gets a promise and the body is resumed with it. -/
  entered : g.running = false → g.done = false → ∀ request : GeneratorCommand N R E,
    (asyncGeneratorEnqueue V g request).promises = g.promises + 1 ∧ (asyncGeneratorEnqueue V g request).body =
      (g.body.resume (Y := AsyncGeneratorYield Y) false (bodyCommand (V := V) request)).1
  completed : .completed ∈ g.body.events → g.done = true
  /-- After completion a request is answered at once. -/
  done : g.done = true → ∀ request : GeneratorCommand N R E, asyncGeneratorEnqueue V g request =
    { g with promises := g.promises + 1, settled := g.settled ++ [(g.promises, doneAnswer request)] }

theorem asyncGeneratorDrainLoop_running (hr : g.running = true) :
    asyncGeneratorDrainLoop V g.queue g = g := by
  cases hq : g.queue with
  | nil =>
    rw [asyncGeneratorDrainLoop, ← hq]
  | cons entry rest =>
    rw [asyncGeneratorDrainLoop, if_pos hr, ← hq]

theorem asyncGeneratorResumed_body {promise : ℕ} (r : Resumed K (AsyncGeneratorInput N V) R E (AsyncGeneratorYield Y)) :
    (asyncGeneratorResumed g promise r).body = g.body ∧ (asyncGeneratorResumed g promise r).promises = g.promises := by
  match r with
  | .answer (.ok (.yielded .await)) | .answer (.ok (.yielded (.value _))) | .answer (.ok (.returned _)) | .answer (.error _)
  | .run _ _ | .panicked => exact ⟨rfl, rfl⟩

theorem AsyncInv.protocol (h : AsyncInv g) : AsyncProtocol V g where
  body := h.core.body.protocol
  order := h.core.order
  idle := by
    intro hr
    have := h.core.order
    rwa [(h.core.idle hr).1, h.idle hr, Option.toList_none, append_nil, map_nil, append_nil] at this
  parked := by
    intro hk
    have hr : g.running = true := by
      by_contra hr
      have := (h.core.idle (by simpa using hr)).2.1
      rw [hk] at this
      cases this
    refine ⟨hr, ?_⟩
    by_contra ha
    have := (h.active (by simpa using ha)).2.1
    rw [hk] at this
    cases this
  waiting := by
    intro hr request
    exact asyncGeneratorDrainLoop_running hr
  entered := by
    intro hr hd request
    simp only [asyncGeneratorEnqueue, asyncGeneratorDrain, h.idle hr, nil_append, asyncGeneratorDrainLoop, hr, hd,
      Bool.false_eq_true, if_false, asyncGeneratorResume, asyncGeneratorResumed_body, and_self]
  completed := by
    intro hm
    have hdone := h.core.body.completed hm
    have hr : g.running = false := by
      by_contra hr
      obtain ⟨-, -, hs, ha⟩ := h.core.running (by simpa using hr)
      cases hk : g.parked with
      | true =>
        rw [hs hk] at hdone
        cases hdone
      | false =>
        rw [h.core.body.active.mp (ha hk)] at hdone
        cases hdone
    exact (h.core.idle hr).2.2.2.mpr hdone
  done := by
    intro hd request
    have hr : g.running = false := by
      by_contra hr
      have := (h.core.running (by simpa using hr)).1
      rw [hd] at this
      cases this
    simp [asyncGeneratorEnqueue, asyncGeneratorDrain, h.idle hr, asyncGeneratorDrainLoop, hr, hd, AsyncGenerator.settle]

/-- Generators keep their protocol, whatever their bodies do and whenever they are called. -/
theorem generators_keep_protocol (start : K) :
    (∀ b : Body K H, Run N R E Y (.new start) b → Protocol N R E Y b) ∧
      ∀ g : AsyncGenerator K H N R E Y, AsyncRun V (asyncGeneratorNew start) g → AsyncProtocol V g :=
  ⟨fun _ hr => (inv_run (bodyInv_new start) hr).protocol, fun _ hr => (asyncInv_run (asyncInv_new start) hr).protocol⟩

/-- A first call, and a first request. -/
theorem generators_keep_protocol_first :
    Protocol ℕ ℕ ℕ ℕ ((Body.new 0 : Body ℕ ℕ).resume (Y := ℕ) false (.next 1 : GeneratorCommand ℕ ℕ ℕ)).1 ∧
      AsyncProtocol ℕ (asyncGeneratorEnqueue ℕ (asyncGeneratorNew 0 : AsyncGenerator ℕ ℕ ℕ ℕ ℕ ℕ) (.throw (.value 3))) :=
  ⟨(generators_keep_protocol (V := ℕ) 0).1 _ (.snoc .nil (.call (.next 1))),
    (generators_keep_protocol 0).2 _ (.snoc .nil (.request (.throw (.value 3))))⟩

end Scriptc.RuntimeRust.Generators
