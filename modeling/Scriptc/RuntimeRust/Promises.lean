import Mathlib.Data.List.Nodup
import Mathlib.Data.Nat.Notation
import Mathlib.Logic.Function.Basic

/-!
# Promises

`promises.rs`: a pending promise keeps its reactions, and when it settles they are queued as
microtasks with the outcome; a reaction that comes later is queued at once. A rejection also queues a
check, which reports the promise unless it is handled by then. Promises are numbers, and what a
reaction of the program does is not known: it may be any further steps. A reaction can also pass its
outcome on to another promise, as those that adopt a promise do.

A view passes what is asked of it on to the promise that it stands for; there are none here.
-/

namespace Scriptc.RuntimeRust.Promises

open List Function

/-- What follows when a promise settles. -/
inductive Reaction where
  | call (id : ℕ)
  /-- The outcome is passed on. -/
  | forward (target : ℕ)
  deriving DecidableEq

variable {T E : Type}

/-- A promise that waits has its reactions. -/
inductive PromiseState (T E : Type) where
  | pending (reactions : List Reaction)
  | fulfilled (value : T)
  | rejected (reason : E)

/-- A promise, with what was asked of it. -/
structure PromiseData (T E : Type) where
  state : PromiseState T E
  handled : Bool
  reported : Bool
  /-- The reactions in the order in which they were registered. -/
  registered : List Reaction
  /-- Whether the outcome was asked for without a reaction. -/
  polled : Bool

/-- A reaction of a promise that is queued with an outcome. -/
structure Job (T E : Type) where
  promise : ℕ
  reaction : Reaction
  outcome : Except E T

/-- A check of a rejected promise, with what was known of the promise. -/
structure Verdict where
  promise : ℕ
  observed : Bool
  reported : Bool
  deriving DecidableEq

/-- The promises with the jobs and the checks that are queued. -/
structure State (T E : Type) where
  promises : ℕ → PromiseData T E
  microtasks : List (Job T E)
  promiseChecks : List ℕ
  /-- Everything that was scheduled, and what of it ran. -/
  scheduled : List (Job T E)
  ran : List (Job T E)
  verdicts : List Verdict

/-- `promise_new` -/
def promiseNew : PromiseData T E where
  state := .pending []
  handled := false
  reported := false
  registered := []
  polled := false

/-- All promises are new. -/
def State.new : State T E where
  promises := fun _ => promiseNew
  microtasks := []
  promiseChecks := []
  scheduled := []
  ran := []
  verdicts := []

def PromiseState.outcome? : PromiseState T E → Option (Except E T)
  | .pending _ => none
  | .fulfilled value => some (.ok value)
  | .rejected reason => some (.error reason)

def PromiseState.isRejected : PromiseState T E → Bool
  | .rejected _ => true
  | _ => false

def State.set (s : State T E) (promise : ℕ) (data : PromiseData T E) : State T E :=
  { s with promises := Function.update s.promises promise data }

/-- `promise_schedule`, for reactions in their order. -/
def promiseSchedule (s : State T E) (promise : ℕ) (reactions : List Reaction) (outcome : Except E T) : State T E :=
  let jobs := reactions.map fun reaction => ⟨promise, reaction, outcome⟩
  { s with microtasks := s.microtasks ++ jobs, scheduled := s.scheduled ++ jobs }

def promiseReject (s : State T E) (promise : ℕ) (reason : E) : State T E :=
  let data := s.promises promise
  match data.state with
  | .pending reactions =>
    let s := promiseSchedule (s.set promise { data with state := .rejected reason }) promise reactions (.error reason)
    { s with promiseChecks := s.promiseChecks ++ [promise] }
  | _ => s

/-- `resolutionError` is the error of a value that cannot fulfil a promise. -/
def promiseFulfill (resolutionError : T → Option E) (s : State T E) (promise : ℕ) (value : T) : State T E :=
  let data := s.promises promise
  match data.state with
  | .pending reactions =>
    match resolutionError value with
    | some reason => promiseReject s promise reason
    | none => promiseSchedule (s.set promise { data with state := .fulfilled value }) promise reactions (.ok value)
  | _ => s

/-- A promise that is settled is asked to settle with an outcome. -/
def promiseSettle (resolutionError : T → Option E) (s : State T E) (promise : ℕ) : Except E T → State T E
  | .ok value => promiseFulfill resolutionError s promise value
  | .error reason => promiseReject s promise reason

/-- What `promise_then` does with the reaction. -/
def promiseRegister (s : State T E) (promise : ℕ) (reaction : Reaction) : State T E :=
  let data := { s.promises promise with registered := (s.promises promise).registered ++ [reaction] }
  match data.state with
  | .pending reactions => s.set promise { data with state := .pending (reactions ++ [reaction]) }
  | .fulfilled value => promiseSchedule (s.set promise data) promise [reaction] (.ok value)
  | .rejected reason => promiseSchedule (s.set promise data) promise [reaction] (.error reason)

def PromiseData.handle (data : PromiseData T E) : PromiseData T E := { data with handled := true, reported := false }

/-- `promise_then` for a promise that is not reported. -/
def promiseThen (s : State T E) (promise : ℕ) (reaction : Reaction) : State T E :=
  promiseRegister (s.set promise (s.promises promise).handle) promise reaction

def promisePoll (s : State T E) (promise : ℕ) : State T E :=
  s.set promise { (s.promises promise).handle with polled := true }

/-- The first microtask runs; what a reaction of the program does are further steps. -/
def runMicrotask (resolutionError : T → Option E) (s : State T E) : State T E :=
  match s.microtasks with
  | [] => s
  | job :: jobs =>
    let s := { s with microtasks := jobs, ran := s.ran ++ [job] }
    match job.reaction with
    | .call _ => s
    | .forward target => promiseSettle resolutionError s target job.outcome

def PromiseData.observed (data : PromiseData T E) : Bool := !data.registered.isEmpty || data.polled

/-- The first check; a handler of unhandled rejections may be there. -/
def runCheck (s : State T E) (handler : Bool) : State T E :=
  match s.promiseChecks with
  | [] => s
  | promise :: checks =>
    let data := s.promises promise
    let unhandled := !data.handled && !data.reported && data.state.isRejected
    let s := { s with promiseChecks := checks, verdicts := s.verdicts ++ [⟨promise, data.observed, unhandled⟩] }
    if unhandled then s.set promise { data with reported := true, handled := data.handled || handler } else s

/-! ### Runs -/

variable (resolutionError : T → Option E)

inductive Step : State T E → State T E → Prop where
  | settle {s : State T E} (promise : ℕ) (outcome : Except E T) :
    Step s (promiseSettle resolutionError s promise outcome)
  | register {s : State T E} (promise : ℕ) (reaction : Reaction) (hr : (s.promises promise).reported = false) :
    Step s (promiseThen s promise reaction)
  /-- The beginning of `promise_then` for a reported promise, before the handler of late reactions. -/
  | thenReported {s : State T E} (promise : ℕ) (hr : (s.promises promise).reported = true) :
    Step s (s.set promise (s.promises promise).handle)
  /-- Its end. -/
  | registerLate {s : State T E} (promise : ℕ) (reaction : Reaction) (hv : promise ∈ s.verdicts.map Verdict.promise) :
    Step s (promiseRegister s promise reaction)
  | poll {s : State T E} (promise : ℕ) : Step s (promisePoll s promise)
  | microtask {s : State T E} : Step s (runMicrotask resolutionError s)
  | check {s : State T E} (handler : Bool) : Step s (runCheck s handler)

inductive Run (s : State T E) : State T E → Prop where
  | nil : Run s s
  | snoc {s' s'' : State T E} (h : Run s s') (hs : Step resolutionError s' s'') : Run s s''

/-!
## Promises: every reaction once

What was scheduled for a promise are its reactions with its outcome, and a rejected promise is
checked once.
-/

variable {T E : Type} {resolutionError : T → Option E} {s s' : State T E}

/-! ### Reactions -/

/-- What should be scheduled for a promise. -/
def PromiseData.jobs (data : PromiseData T E) (promise : ℕ) : List (Job T E) :=
  data.state.outcome?.elim [] fun outcome => data.registered.map fun reaction => ⟨promise, reaction, outcome⟩

def State.jobs (s : State T E) (promise : ℕ) : List (Job T E) :=
  s.scheduled.filter fun job => job.promise = promise

/-- The jobs that were scheduled are those of the reactions, in order. -/
structure Ordered (s : State T E) : Prop where
  fifo : s.ran ++ s.microtasks = s.scheduled
  waiting (promise : ℕ) (reactions : List Reaction) (h : (s.promises promise).state = .pending reactions) :
    reactions = (s.promises promise).registered
  jobs (promise : ℕ) : s.jobs promise = (s.promises promise).jobs promise

theorem ordered_new : Ordered (State.new : State T E) where
  fifo := rfl
  waiting promise reactions h := by
    cases h
    rfl
  jobs _ := rfl

theorem filter_jobs (promise q : ℕ) (reactions : List Reaction) (outcome : Except E T) :
    ((reactions.map fun reaction => (⟨promise, reaction, outcome⟩ : Job T E)).filter fun job => job.promise = q) =
      if promise = q then reactions.map fun reaction => ⟨promise, reaction, outcome⟩ else [] := by
  by_cases h : promise = q <;> simp [filter_map, comp_def, h]

variable {data : PromiseData T E} {promise : ℕ}

/-- One promise changes, and its jobs go with it. -/
theorem Ordered.update (h : Ordered s)
    (hf : s'.ran ++ s'.microtasks = s'.scheduled) (hp : s'.promises = Function.update s.promises promise data)
    (hw : ∀ reactions, data.state = .pending reactions → reactions = data.registered)
    (hj : s'.jobs promise = data.jobs promise) (ho : ∀ q, q ≠ promise → s'.jobs q = s.jobs q) : Ordered s' where
  fifo := hf
  waiting q reactions hq := by
    rw [hp] at hq ⊢
    by_cases heq : q = promise
    · subst heq
      rw [update_self] at hq ⊢
      exact hw reactions hq
    · rw [update_of_ne heq] at hq ⊢
      exact h.waiting q reactions hq
  jobs q := by
    rw [hp]
    by_cases heq : q = promise
    · subst heq
      rw [update_self]
      exact hj
    · rw [update_of_ne heq, ho q heq]
      exact h.jobs q

theorem Ordered.set (h : Ordered s)
    (hw : ∀ reactions, data.state = .pending reactions → reactions = data.registered)
    (hj : data.jobs promise = (s.promises promise).jobs promise) : Ordered (s.set promise data) := by
  have hfifo : (s.set promise data).ran ++ (s.set promise data).microtasks = (s.set promise data).scheduled := h.fifo
  apply h.update hfifo rfl hw
  · rw [hj]
    exact h.jobs promise
  · intro q _
    rfl

theorem Ordered.schedule (h : Ordered s) {reactions : List Reaction}
    {outcome : Except E T} (hw : ∀ rs, data.state = .pending rs → rs = data.registered)
    (hj : data.jobs promise =
      (s.promises promise).jobs promise ++ reactions.map fun reaction => ⟨promise, reaction, outcome⟩) :
    Ordered (promiseSchedule (s.set promise data) promise reactions outcome) := by
  have hfifo : s.ran ++ (s.microtasks ++ reactions.map fun reaction => ⟨promise, reaction, outcome⟩) =
      s.scheduled ++ reactions.map fun reaction => ⟨promise, reaction, outcome⟩ := by
    rw [← append_assoc, h.fifo]
  have hran : (promiseSchedule (s.set promise data) promise reactions outcome).ran ++
      (promiseSchedule (s.set promise data) promise reactions outcome).microtasks =
        (promiseSchedule (s.set promise data) promise reactions outcome).scheduled := hfifo
  apply h.update hran rfl hw
  · have hq := h.jobs promise
    simp only [State.jobs, promiseSchedule, State.set, filter_append, filter_jobs] at hq ⊢
    rw [hj, hq, if_pos trivial]
  · intro q hq
    simp only [State.jobs, promiseSchedule, State.set, filter_append, filter_jobs]
    rw [if_neg (Ne.symm hq), append_nil]

theorem Ordered.reject (h : Ordered s) (promise : ℕ) (reason : E) : Ordered (promiseReject s promise reason) := by
  cases hs : (s.promises promise).state with
  | pending reactions =>
    have hreactions := h.waiting promise reactions hs
    have hnext : Ordered (promiseSchedule (s.set promise { s.promises promise with state := .rejected reason }) promise
        reactions (.error reason)) := by
      apply h.schedule
      · intro rs hrs
        cases hrs
      · simp [PromiseData.jobs, hs, PromiseState.outcome?, hreactions]
    simp only [promiseReject, hs]
    exact ⟨hnext.fifo, hnext.waiting, hnext.jobs⟩
  | fulfilled value => simpa only [promiseReject, hs] using h
  | rejected reason => simpa only [promiseReject, hs] using h

theorem Ordered.settle (h : Ordered s) (promise : ℕ) (outcome : Except E T) :
    Ordered (promiseSettle resolutionError s promise outcome) := by
  cases outcome with
  | error reason => exact h.reject promise reason
  | ok value =>
    simp only [promiseSettle, promiseFulfill]
    cases hs : (s.promises promise).state with
    | pending reactions =>
      have hreactions := h.waiting promise reactions hs
      cases resolutionError value with
      | some reason => exact h.reject promise reason
      | none =>
        apply h.schedule
        · intro rs hrs
          cases hrs
        · simp [PromiseData.jobs, hs, PromiseState.outcome?, hreactions]
    | fulfilled value => exact h
    | rejected reason => exact h

theorem Ordered.register (h : Ordered s) (promise : ℕ) (reaction : Reaction) :
    Ordered (promiseRegister s promise reaction) := by
  simp only [promiseRegister]
  cases hs : (s.promises promise).state with
  | pending reactions =>
    have hreactions := h.waiting promise reactions hs
    apply h.set
    · intro rs hrs
      cases hrs
      rw [hreactions]
    · simp [PromiseData.jobs, hs, PromiseState.outcome?]
  | fulfilled value =>
    apply h.schedule
    · intro rs hrs
      cases hrs
    · simp [PromiseData.jobs, hs, PromiseState.outcome?]
  | rejected reason =>
    apply h.schedule
    · intro rs hrs
      cases hrs
    · simp [PromiseData.jobs, hs, PromiseState.outcome?]

/-- Only how the promise was used changes. -/
theorem Ordered.use (h : Ordered s)
    (hs : data.state = (s.promises promise).state) (hr : data.registered = (s.promises promise).registered) :
    Ordered (s.set promise data) := by
  apply h.set
  · intro rs hrs
    rw [hr]
    exact h.waiting promise rs (hs ▸ hrs)
  · simp only [PromiseData.jobs, hs, hr]

theorem Ordered.microtask (h : Ordered s) : Ordered (runMicrotask resolutionError s) := by
  have hfifo := h.fifo
  cases hm : s.microtasks with
  | nil => simpa only [runMicrotask, hm] using h
  | cons job jobs =>
    have hpop : Ordered { s with microtasks := jobs, ran := s.ran ++ [job] } := by
      refine ⟨?_, h.waiting, h.jobs⟩
      rw [hm] at hfifo
      simpa using hfifo
    simp only [runMicrotask, hm]
    cases job.reaction with
    | call id => exact hpop
    | forward target => exact hpop.settle target job.outcome

theorem Ordered.check (h : Ordered s) (handler : Bool) : Ordered (runCheck s handler) := by
  cases hc : s.promiseChecks with
  | nil => simpa only [runCheck, hc] using h
  | cons promise checks =>
    have hpop (verdicts : List Verdict) : Ordered { s with promiseChecks := checks, verdicts := verdicts } :=
      ⟨h.fifo, h.waiting, h.jobs⟩
    simp only [runCheck, hc]
    split
    · exact (hpop _).use rfl rfl
    · exact hpop _

theorem Ordered.step (h : Ordered s) (hs : Step resolutionError s s') : Ordered s' := by
  cases hs with
  | settle promise outcome => exact h.settle promise outcome
  | register promise reaction _ =>
    have huse : Ordered (s.set promise (s.promises promise).handle) := h.use rfl rfl
    exact huse.register promise reaction
  | thenReported promise _ => exact h.use rfl rfl
  | registerLate promise reaction _ => exact h.register promise reaction
  | poll promise => exact h.use rfl rfl
  | microtask => exact h.microtask
  | check handler => exact h.check handler

theorem Ordered.run (h : Ordered s) (hr : Run resolutionError s s') : Ordered s' := by
  induction hr with
  | nil => exact h
  | snoc _ hs ih => exact ih.step hs

/-! ### Unhandled rejections -/

def State.checked (s : State T E) : List ℕ := s.verdicts.map Verdict.promise

/-- Every rejected promise is checked once. -/
structure Checked (s : State T E) : Prop where
  nodup : (s.checked ++ s.promiseChecks).Nodup
  rejected (promise : ℕ) : promise ∈ s.checked ++ s.promiseChecks ↔ (s.promises promise).state.isRejected
  /-- Before its check, a promise is handled if it was observed. -/
  before (promise : ℕ) (h : promise ∉ s.checked) :
    (s.promises promise).handled = (s.promises promise).observed ∧ (s.promises promise).reported = false
  verdicts (verdict : Verdict) (h : verdict ∈ s.verdicts) : verdict.reported = !verdict.observed

theorem checked_new : Checked (State.new : State T E) where
  nodup := nodup_nil
  rejected _ := by simp [State.new, State.checked, promiseNew, PromiseState.isRejected]
  before _ _ := ⟨rfl, rfl⟩
  verdicts verdict h := by cases h

/-- A promise changes that is neither rejected nor checked by it. -/
theorem Checked.set (h : Checked s)
    (hr : data.state.isRejected = (s.promises promise).state.isRejected)
    (hb : promise ∉ s.checked → data.handled = data.observed ∧ data.reported = false) :
    Checked (s.set promise data) := by
  refine ⟨h.nodup, fun q => ?_, fun q hq => ?_, h.verdicts⟩
  · have hq := h.rejected q
    by_cases heq : q = promise
    · subst heq
      simp only [State.set, update_self, hr]
      exact hq
    · simp only [State.set, update_of_ne heq]
      exact hq
  · by_cases heq : q = promise
    · subst heq
      simp only [State.set, update_self]
      exact hb hq
    · simp only [State.set, update_of_ne heq]
      exact h.before q hq

theorem Checked.schedule (h : Checked s) (promise : ℕ) (reactions : List Reaction) (outcome : Except E T) :
    Checked (promiseSchedule s promise reactions outcome) :=
  ⟨h.nodup, h.rejected, h.before, h.verdicts⟩

theorem Checked.reject (h : Checked s) (promise : ℕ) (reason : E) : Checked (promiseReject s promise reason) := by
  cases hs : (s.promises promise).state with
  | pending reactions =>
    have hnew : promise ∉ s.checked ++ s.promiseChecks := by
      rw [h.rejected, hs]
      simp [PromiseState.isRejected]
    simp only [promiseReject, hs]
    refine ⟨?_, fun q => ?_, fun q hq => ?_, h.verdicts⟩
    · have hnodup : (s.checked ++ s.promiseChecks ++ [promise]).Nodup :=
        h.nodup.append (nodup_singleton promise) (by simpa using hnew)
      simpa [State.checked, promiseSchedule, State.set] using hnodup
    · have hq := h.rejected q
      by_cases heq : q = promise
      · subst heq
        simp [State.checked, promiseSchedule, State.set, PromiseState.isRejected]
      · simp only [State.checked, promiseSchedule, State.set, update_of_ne heq] at hq ⊢
        rw [← hq]
        simp [heq]
    · have hbefore := h.before q hq
      by_cases heq : q = promise
      · subst heq
        simpa [promiseSchedule, State.set, PromiseData.observed] using hbefore
      · simpa only [promiseSchedule, State.set, update_of_ne heq] using hbefore
  | fulfilled value => simpa only [promiseReject, hs] using h
  | rejected reason => simpa only [promiseReject, hs] using h

theorem Checked.settle (h : Checked s) (promise : ℕ) (outcome : Except E T) :
    Checked (promiseSettle resolutionError s promise outcome) := by
  cases outcome with
  | error reason => exact h.reject promise reason
  | ok value =>
    simp only [promiseSettle, promiseFulfill]
    cases hs : (s.promises promise).state with
    | pending reactions =>
      cases resolutionError value with
      | some reason => exact h.reject promise reason
      | none =>
        apply Checked.schedule
        apply h.set
        · rw [hs]
          rfl
        · exact h.before promise
    | fulfilled value => exact h
    | rejected reason => exact h

theorem State.set_set (promise : ℕ) (data data' : PromiseData T E) :
    (s.set promise data).set promise data' = s.set promise data' := by
  simp only [State.set, update_idem]

/-- A reaction is registered for a promise that is handled or checked. -/
theorem Checked.register (h : Checked s) (reaction : Reaction)
    (hs : data.state = (s.promises promise).state)
    (hd : promise ∉ s.checked → data.handled = true ∧ data.reported = false) :
    Checked (promiseRegister (s.set promise data) promise reaction) := by
  have hb (d : PromiseData T E) (hh : d.handled = data.handled) (hr : d.reported = data.reported)
      (hg : d.registered = data.registered ++ [reaction]) (hn : promise ∉ s.checked) :
      d.handled = d.observed ∧ d.reported = false := by
    obtain ⟨hhandled, hreported⟩ := hd hn
    refine ⟨?_, hr.trans hreported⟩
    rw [hh, hhandled, PromiseData.observed, hg]
    simp
  have hset : (s.set promise data).promises promise = data := update_self ..
  simp only [promiseRegister, hset]
  cases hstate : data.state with
  | pending reactions =>
    dsimp only
    rw [State.set_set]
    apply h.set
    · rw [← hs, hstate]
      rfl
    · exact hb _ rfl rfl rfl
  | fulfilled value =>
    dsimp only
    rw [State.set_set]
    apply Checked.schedule
    apply h.set
    · rw [← hs, hstate]
    · exact hb _ rfl rfl rfl
  | rejected reason =>
    dsimp only
    rw [State.set_set]
    apply Checked.schedule
    apply h.set
    · rw [← hs, hstate]
    · exact hb _ rfl rfl rfl

theorem Checked.microtask (h : Checked s) : Checked (runMicrotask resolutionError s) := by
  cases hm : s.microtasks with
  | nil => simpa only [runMicrotask, hm] using h
  | cons job jobs =>
    have hpop : Checked { s with microtasks := jobs, ran := s.ran ++ [job] } :=
      ⟨h.nodup, h.rejected, h.before, h.verdicts⟩
    simp only [runMicrotask, hm]
    cases job.reaction with
    | call id => exact hpop
    | forward target => exact hpop.settle target job.outcome

theorem Checked.check (h : Checked s) (handler : Bool) : Checked (runCheck s handler) := by
  cases hc : s.promiseChecks with
  | nil => simpa only [runCheck, hc] using h
  | cons promise checks =>
    have hnodup := h.nodup
    rw [hc] at hnodup
    have hrejected : (s.promises promise).state.isRejected = true := by
      rw [← h.rejected, hc]
      simp
    have hnew : promise ∉ s.checked := by
      intro hmem
      exact (nodup_append.mp hnodup).2.2 promise hmem promise mem_cons_self rfl
    obtain ⟨hhandled, hreported⟩ := h.before promise hnew
    have hpop : Checked { s with
        promiseChecks := checks
        verdicts := s.verdicts ++ [⟨promise, (s.promises promise).observed,
          !(s.promises promise).handled && !(s.promises promise).reported &&
            (s.promises promise).state.isRejected⟩] } := by
      refine ⟨?_, fun q => ?_, fun q hq => ?_, fun verdict hv => ?_⟩
      · simpa [State.checked] using hnodup
      · rw [← h.rejected, hc]
        simp [State.checked]
      · apply h.before
        intro hmem
        exact hq (by simpa [State.checked] using Or.inl hmem)
      · simp only [mem_append, mem_singleton] at hv
        obtain hv | rfl := hv
        · exact h.verdicts verdict hv
        · simp [hhandled, hreported, hrejected]
    simp only [runCheck, hc]
    split
    · apply hpop.set
      · rfl
      · intro hn
        exact absurd (by simp [State.checked]) hn
    · exact hpop

theorem Checked.step (h : Checked s) (hs : Step resolutionError s s') : Checked s' := by
  cases hs with
  | settle promise outcome => exact h.settle promise outcome
  | register promise reaction _ => exact h.register reaction rfl fun _ => ⟨rfl, rfl⟩
  | thenReported promise hr =>
    apply h.set
    · rfl
    · intro hn
      exact absurd (hr.symm.trans (h.before promise hn).2) (by decide)
  | registerLate promise reaction hv =>
    have hregister : Checked (promiseRegister (s.set promise (s.promises promise)) promise reaction) :=
      h.register reaction rfl fun hn => absurd hv hn
    rwa [State.set, update_eq_self] at hregister
  | poll promise =>
    apply h.set
    · rfl
    · intro _
      simp [PromiseData.handle, PromiseData.observed]
  | microtask => exact h.microtask
  | check handler => exact h.check handler

theorem Checked.run (h : Checked s) (hr : Run resolutionError s s') : Checked s' := by
  induction hr with
  | nil => exact h
  | snoc _ hs ih => exact ih.step hs

/-! ### Settled promises -/

section Settled

variable {p promise : ℕ} {outcome : Except E T}

theorem State.set_of_ne (h : p ≠ promise) : (s.set promise data).promises p = s.promises p :=
  update_of_ne h ..

theorem state_set (hd : data.state = (s.promises promise).state) (p : ℕ) :
    ((s.set promise data).promises p).state = (s.promises p).state := by
  by_cases heq : p = promise
  · subst heq
    simp only [State.set, update_self]
    exact hd
  · rw [State.set_of_ne heq]

theorem ne_of_settled {reactions : List Reaction} (hp : (s.promises p).state.outcome? = some outcome)
    (hs : (s.promises promise).state = .pending reactions) : p ≠ promise := by
  rintro rfl
  rw [hs] at hp
  cases hp

theorem state_reject (hp : (s.promises p).state.outcome? = some outcome) (promise : ℕ) (reason : E) :
    ((promiseReject s promise reason).promises p).state = (s.promises p).state := by
  cases hs : (s.promises promise).state with
  | pending reactions =>
    simp only [promiseReject, hs, promiseSchedule]
    rw [State.set_of_ne (ne_of_settled hp hs)]
  | fulfilled value => simp only [promiseReject, hs]
  | rejected reason => simp only [promiseReject, hs]

theorem state_settle (hp : (s.promises p).state.outcome? = some outcome) (promise : ℕ) (again : Except E T) :
    ((promiseSettle resolutionError s promise again).promises p).state = (s.promises p).state := by
  cases again with
  | error reason => exact state_reject hp promise reason
  | ok value =>
    simp only [promiseSettle, promiseFulfill]
    cases hs : (s.promises promise).state with
    | pending reactions =>
      cases resolutionError value with
      | some reason => exact state_reject hp promise reason
      | none =>
        simp only [promiseSchedule]
        rw [State.set_of_ne (ne_of_settled hp hs)]
    | fulfilled value => rfl
    | rejected reason => rfl

theorem state_register (hp : (s.promises p).state.outcome? = some outcome) (promise : ℕ) (reaction : Reaction) :
    ((promiseRegister s promise reaction).promises p).state = (s.promises p).state := by
  simp only [promiseRegister]
  cases hs : (s.promises promise).state with
  | pending reactions =>
    dsimp only
    rw [State.set_of_ne (ne_of_settled hp hs)]
  | fulfilled value => exact state_set hs.symm p
  | rejected reason => exact state_set hs.symm p

theorem state_microtask (hp : (s.promises p).state.outcome? = some outcome) :
    ((runMicrotask resolutionError s).promises p).state = (s.promises p).state := by
  cases hm : s.microtasks with
  | nil => simp only [runMicrotask, hm]
  | cons job jobs =>
    have hpop : (State.promises { s with microtasks := jobs, ran := s.ran ++ [job] } p).state.outcome? = some outcome := hp
    simp only [runMicrotask, hm]
    cases job.reaction with
    | call id => rfl
    | forward target => exact state_settle hpop target job.outcome

theorem state_check (handler : Bool) (p : ℕ) : ((runCheck s handler).promises p).state = (s.promises p).state := by
  simp only [runCheck]
  split
  · rfl
  · split
    · exact state_set (by rfl) p
    · rfl

theorem state_step (hp : (s.promises p).state.outcome? = some outcome) (hs : Step resolutionError s s') :
    (s'.promises p).state = (s.promises p).state := by
  cases hs with
  | settle promise again => exact state_settle hp promise again
  | register promise reaction _ =>
    have huse : ((s.set promise (s.promises promise).handle).promises p).state = (s.promises p).state :=
      state_set (by rfl) p
    have hregister := state_register (huse ▸ hp) promise reaction
    exact hregister.trans huse
  | thenReported promise _ => exact state_set (by rfl) p
  | registerLate promise reaction _ => exact state_register hp promise reaction
  | poll promise => exact state_set (by rfl) p
  | microtask => exact state_microtask hp
  | check handler => exact state_check handler p

theorem state_run (hp : (s.promises p).state.outcome? = some outcome) (hr : Run resolutionError s s') :
    (s'.promises p).state = (s.promises p).state := by
  induction hr with
  | nil => rfl
  | snoc _ hs ih => exact (state_step (ih ▸ hp) hs).trans ih

end Settled

/-! ### Results -/

/-- What holds of promises in every run. -/
structure Settles (resolutionError : T → Option E) (s : State T E) : Prop where
  /-- A promise that is settled stays as it is. -/
  once (promise : ℕ) (outcome : Except E T) (h : (s.promises promise).state.outcome? = some outcome) (s' : State T E)
    (hr : Run resolutionError s s') : (s'.promises promise).state = (s.promises promise).state
  /-- Its reactions are scheduled once each, in their order and with its outcome. -/
  scheduled (promise : ℕ) (outcome : Except E T) (h : (s.promises promise).state.outcome? = some outcome) :
    s.jobs promise = (s.promises promise).registered.map fun reaction => ⟨promise, reaction, outcome⟩
  waiting (promise : ℕ) (h : (s.promises promise).state.outcome? = none) : s.jobs promise = []
  fifo : s.ran ++ s.microtasks = s.scheduled
  /-- After the checks each rejected promise was checked, and reported unless it was observed. -/
  checked (h : s.promiseChecks = []) (promise : ℕ) (hr : (s.promises promise).state.isRejected) :
    ∃ verdict ∈ s.verdicts, verdict.promise = promise ∧ verdict.reported = !verdict.observed
  checkedOnce : (s.verdicts.map Verdict.promise).Nodup
  onlyRejected (verdict : Verdict) (h : verdict ∈ s.verdicts) : (s.promises verdict.promise).state.isRejected

/-- Whatever is settled, registered and asked for, and whatever reactions and handlers do. -/
theorem promises_settle (h : Run resolutionError .new s) : Settles resolutionError s := by
  have hordered := ordered_new.run h
  have hchecked := checked_new.run h
  refine ⟨fun promise outcome hp s' hr => state_run hp hr, fun promise outcome hp => ?_, fun promise hp => ?_,
    hordered.fifo, fun hc promise hr => ?_, (nodup_append.mp hchecked.nodup).1, fun verdict hv => ?_⟩
  · rw [hordered.jobs, PromiseData.jobs, hp, Option.elim_some]
  · rw [hordered.jobs, PromiseData.jobs, hp, Option.elim_none]
  · rw [← hchecked.rejected, hc, append_nil] at hr
    obtain ⟨verdict, hv, rfl⟩ := mem_map.mp hr
    exact ⟨verdict, hv, rfl, hchecked.verdicts verdict hv⟩
  · rw [← hchecked.rejected]
    exact mem_append_left _ (mem_map_of_mem hv)

theorem promises_settle_chain :
    Settles (fun _ => none) (runMicrotask (fun _ => none)
      (promiseReject (promiseThen (.new : State ℕ ℕ) 0 (.forward 1)) 0 7)) :=
  promises_settle (.snoc (.snoc (.snoc .nil (.register 0 (.forward 1) rfl)) (.settle 0 (.error 7))) .microtask)

/-- A rejected promise that was polled is not reported, and no reaction was ever there. -/
theorem not_promises_reported :
    ¬ ∀ s : State ℕ ℕ, Run (fun _ => none) .new s → s.microtasks = [] → s.promiseChecks = [] →
      ∀ promise, (s.promises promise).state.isRejected → (s.promises promise).registered = [] →
        ∃ verdict ∈ s.verdicts, verdict.promise = promise ∧ verdict.reported := by
  intro h
  have hpolled : Run (fun _ => none) (.new : State ℕ ℕ) _ := Run.nil.snoc (.poll 0)
  have hchecked := (hpolled.snoc (.settle 0 (.error 7))).snoc (.check false)
  exact absurd (h _ hchecked rfl rfl 0 rfl rfl) (by decide)

end Scriptc.RuntimeRust.Promises
