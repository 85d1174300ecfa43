import Mathlib.Data.List.Basic
import Mathlib.Data.List.Nodup
import Mathlib.Data.List.Perm.Basic
import Mathlib.Logic.Function.Basic
import Mathlib.Logic.Function.Iterate

/-!
# The queue of foreign calls

`scr_ffi_queue.c`: native threads post calls of registered callbacks, and the event loop dispatches
them one at a time. A table owns a reference for each registration; one that is released while calls
of the table are queued is retired, and dropped when none is left. A post writes a byte to the wake
pipe, and the pipe is drained when the queue is empty. The queue's lock makes each post a step, also
while a callback runs, and the parts of a dispatch are steps.

Tables and closures are numbers, calls carry no arguments here, and sizes do not reach `2 ^ 64`. The
program starts after `scr_ffi_install`, which may not have got a pipe.
-/

namespace Scriptc.Runtime.FfiQueue

open List Function

/-- A callback that was retained. -/
structure Registration where
  id : ℕ
  callback : ℕ
  deriving DecidableEq

/-- A call that a foreign thread posted. -/
structure Call where
  id : ℕ
  table : ℕ
  callback : ℕ
  deriving DecidableEq

/-- The callbacks of one foreign function. -/
structure Table where
  entries : List Registration
  retired : List Registration
  queued : ℕ
  /-- Every registration that was made. -/
  registered : List Registration
  /-- The registrations whose closure was released. -/
  released : List Registration
  deriving DecidableEq

/-- The queue with the tables, and what became of the calls. -/
structure State where
  tables : ℕ → Table
  queue : List Call
  foreignRegistrations : ℕ
  stopping : Bool
  /-- The number of bytes in the pipe, if there is one. -/
  wakePipe : Option ℕ
  /-- The calls whose callbacks are on the stack, the innermost first. -/
  dispatching : List Call
  /-- The table of a call that was dispatched, before its retired registrations are looked at. -/
  releasing : Option ℕ
  /-- The accepted calls. -/
  posted : List Call
  dispatched : List Call

def Table.empty : Table where
  entries := []
  retired := []
  queued := 0
  registered := []
  released := []

/-- The state after `scr_ffi_install`. -/
def scrFfiInstall (opened : Bool) : State where
  tables := fun _ => .empty
  queue := []
  foreignRegistrations := 0
  stopping := false
  wakePipe := if opened then some 0 else none
  dispatching := []
  releasing := none
  posted := []
  dispatched := []

def State.setTable (s : State) (table : ℕ) (t : Table) : State := { s with tables := update s.tables table t }

def scrFfiTableContains (t : Table) (callback : ℕ) : Bool := t.entries.any fun r => r.callback = callback

def Table.releaseRetired (t : Table) : Table :=
  if t.queued = 0 then { t with retired := [], released := t.released ++ t.retired } else t

/-- `scr_ffi_release_retired`, after a dispatch. -/
def scrFfiReleaseRetired (s : State) (table : ℕ) : State :=
  { s.setTable table (s.tables table).releaseRetired with releasing := none }

def scrFfiRetainForeign (s : State) (table callback : ℕ) : State :=
  let t := s.tables table
  let r : Registration := ⟨t.registered.length, callback⟩
  { s.setTable table { t with entries := t.entries ++ [r], registered := t.registered ++ [r] } with
    foreignRegistrations := s.foreignRegistrations + 1 }

/-- The last entry takes the place of the one that goes. -/
def swapRemove (rs : List Registration) (i : ℕ) (owned : Registration) : List Registration :=
  (rs.set i (rs.getLastD owned)).dropLast

/-- The first registration of the callback goes; without one the program traps. -/
def scrFfiReleaseForeign (s : State) (table callback : ℕ) : Option State :=
  let t := s.tables table
  let i := t.entries.findIdx fun r => r.callback = callback
  match t.entries[i]? with
  | none => none
  | some owned =>
    let entries := swapRemove t.entries i owned
    let s := { s with foreignRegistrations := s.foreignRegistrations - 1 }
    if t.queued > 0 then some (s.setTable table { t with entries := entries, retired := t.retired ++ [owned] })
    else some (s.setTable table { t with entries := entries, released := t.released ++ [owned] })

/-- A post; a full pipe takes no byte. -/
def scrFfiPost (s : State) (table callback : ℕ) (full : Bool) : State :=
  let t := s.tables table
  if s.stopping = true ∨ scrFfiTableContains t callback = false then s
  else
    let call : Call := ⟨s.posted.length, table, callback⟩
    { s.setTable table { t with queued := t.queued + 1 } with
      queue := s.queue ++ [call]
      wakePipe := s.wakePipe.map fun n => if full then n else n + 1
      posted := s.posted ++ [call] }

/-- `scr_ffi_dispatch`, up to the callback. -/
def scrFfiDispatch (s : State) : State :=
  match s.queue with
  | [] => s
  | call :: queue =>
    { s with queue := queue, dispatching := call :: s.dispatching, dispatched := s.dispatched ++ [call] }

def scrFfiWakeDrain (s : State) : State := { s with wakePipe := s.wakePipe.map fun _ => 0 }

/-- `scr_ffi_dispatch`, when the callback has returned. -/
def scrFfiDispatched (s : State) (call : Call) (outer : List Call) : State :=
  let t := s.tables call.table
  let s : State := { s.setTable call.table { t with queued := t.queued - 1 } with
    dispatching := outer
    releasing := some call.table }
  if s.queue = [] then scrFfiWakeDrain s else s

/-- Something is done to the table of each call. -/
def forCalls (f : Table → Table) : List Call → (ℕ → Table) → ℕ → Table
  | [], tables => tables
  | call :: calls, tables => forCalls f calls (update tables call.table (f (tables call.table)))

def Table.drop (t : Table) : Table := { t with queued := t.queued - 1 }

/-- Posts that come while the calls are freed find `stopping` set. -/
def scrFfiStop (s : State) : State :=
  if s.stopping = true then s
  else
    { s with
      stopping := true
      queue := []
      tables := forCalls Table.releaseRetired s.queue (forCalls Table.drop s.queue s.tables)
      wakePipe := none }

def scrFfiTeardownForeign (s : State) (table : ℕ) : State :=
  let s := scrFfiStop s
  let t := s.tables table
  { s.setTable table
      { t with entries := [], retired := [], queued := 0, released := t.released ++ (t.entries ++ t.retired) } with
    foreignRegistrations :=
      if t.entries.length ≤ s.foreignRegistrations then s.foreignRegistrations - t.entries.length else s.foreignRegistrations }

/-! ### Runs -/

/-- What is done: by a foreign thread, by the loop or by the program. -/
inductive Act where
  | post (table callback : ℕ) (full : Bool)
  | retain (table callback : ℕ)
  | release (table callback : ℕ)
  | dispatch
  | dispatched
  | releaseRetired
  | stop
  | teardown (table : ℕ)
  deriving DecidableEq

/-- The other steps are the main thread's, which goes on from the end of a dispatch to the retired
registrations. -/
inductive Step : State → Act → State → Prop where
  | post {s : State} (table callback : ℕ) (full : Bool) (hf : full = true → s.wakePipe ≠ some 0) :
    Step s (.post table callback full) (scrFfiPost s table callback full)
  | retain {s : State} (hr : s.releasing = none) (table callback : ℕ) :
    Step s (.retain table callback) (scrFfiRetainForeign s table callback)
  | release {s s' : State} (hr : s.releasing = none) {table callback : ℕ} (h : scrFfiReleaseForeign s table callback = some s') :
    Step s (.release table callback) s'
  | dispatch {s : State} (hr : s.releasing = none) : Step s .dispatch (scrFfiDispatch s)
  | dispatched {s : State} (hr : s.releasing = none) {call : Call} {outer : List Call} (hd : s.dispatching = call :: outer) :
    Step s .dispatched (scrFfiDispatched s call outer)
  | releaseRetired {s : State} {table : ℕ} (hr : s.releasing = some table) :
    Step s .releaseRetired (scrFfiReleaseRetired s table)
  | stop {s : State} (hr : s.releasing = none) : Step s .stop (scrFfiStop s)
  | teardown {s : State} (hr : s.releasing = none) (table : ℕ) : Step s (.teardown table) (scrFfiTeardownForeign s table)

/-- A run whose steps all meet a condition. -/
inductive Run (P : State → Act → Prop) (s : State) : List Act → State → Prop where
  | nil : Run P s [] s
  | snoc {acts : List Act} {a : Act} {s' s'' : State} (h : Run P s acts s') (hs : Step s' a s'') (hp : P s' a) :
    Run P s (acts ++ [a]) s''

/-- A table is torn down at the exit, when none of its calls is being dispatched. -/
def Calm (s : State) : Act → Prop
  | .teardown table => ∀ call ∈ s.dispatching, call.table ≠ table
  | _ => True

/-!
## What the queue of foreign calls keeps

What a table owes its calls depends only on the calls that are queued or being dispatched, in any
order: it counts them, and it holds a registration for each. Each step changes one table and one
call, and a stop takes the queued calls from their tables one by one.
-/

/-! ### Tables -/

/-- A table and the calls it has. It may have retired registrations without a call only when it is
late. -/
structure Owns (t : Table) (calls : List Call) (late : Prop) : Prop where
  queued : t.queued = calls.length
  held : ∀ call ∈ calls, ∃ r ∈ t.entries ++ t.retired, r.callback = call.callback
  registered : t.registered.Perm (t.released ++ (t.entries ++ t.retired))
  ids : t.registered.map Registration.id = List.range t.registered.length
  retired : ¬ late → t.queued = 0 → t.retired = []

theorem owns_empty (late : Prop) : Owns .empty [] late where
  queued := rfl
  held := by simp
  registered := .refl _
  ids := rfl
  retired := fun _ _ => rfl

variable {t : Table} {calls : List Call} {late : Prop}

theorem Owns.perm {calls' : List Call} (h : Owns t calls late) (hp : calls'.Perm calls) : Owns t calls' late :=
  { h with
    queued := h.queued.trans hp.length_eq.symm
    held := fun call hm => h.held call (hp.mem_iff.mp hm) }

theorem Owns.post (h : Owns t calls late) (call : Call) (hc : scrFfiTableContains t call.callback = true) :
    Owns { t with queued := t.queued + 1 } (call :: calls) late where
  queued := by simp [h.queued]
  held := by
    intro call' hm
    rcases mem_cons.mp hm with rfl | hm
    · obtain ⟨r, hr, hrc⟩ := any_eq_true.mp hc
      exact ⟨r, mem_append_left _ hr, by simpa using hrc⟩
    · exact h.held call' hm
  registered := h.registered
  ids := h.ids
  retired := fun _ hq => by simp at hq

theorem Owns.retain (h : Owns t calls late) (callback : ℕ) :
    Owns
      { t with
        entries := t.entries ++ [⟨t.registered.length, callback⟩]
        registered := t.registered ++ [⟨t.registered.length, callback⟩] } calls late where
  queued := h.queued
  held := by
    intro call hm
    obtain ⟨r, hr, hrc⟩ := h.held call hm
    refine ⟨r, ?_, hrc⟩
    rcases mem_append.mp hr with hr | hr
    · exact mem_append_left _ (mem_append_left _ hr)
    · exact mem_append_right _ hr
  registered := by
    have := h.registered.append_right [⟨t.registered.length, callback⟩]
    refine this.trans ?_
    simp only [append_assoc]
    exact (List.Perm.append_left _ (List.Perm.append_left _ perm_append_comm))
  ids := by
    rw [map_append, h.ids, length_append, length_singleton, range_succ]
    rfl
  retired := h.retired

variable {owned : Registration}

/-- What is left after a registration went, and what went. -/
theorem perm_swapRemove {rs : List Registration} {i : ℕ} (h : rs[i]? = some owned) :
    rs.Perm (owned :: swapRemove rs i owned) := by
  obtain ⟨hi, hget⟩ := List.getElem?_eq_some_iff.mp h
  obtain ⟨front, last, rfl⟩ : ∃ front last, rs = front ++ [last] :=
    ⟨rs.dropLast, rs.getLast (ne_nil_of_length_pos (by omega)), (dropLast_append_getLast _).symm⟩
  have hlast : (front ++ [last]).getLastD owned = last := by simp
  rw [swapRemove, hlast]
  rcases Nat.lt_or_ge i front.length with hlt | hge
  · rw [getElem_append_left hlt] at hget
    rw [set_append_left _ _ hlt, dropLast_concat, ← hget]
    have hset := set_perm_cons_eraseIdx hlt last
    have hers := getElem_cons_eraseIdx_perm hlt
    calc (front ++ [last]).Perm (last :: front) := perm_append_singleton _ _
      List.Perm _ (last :: front[i] :: front.eraseIdx i) := hers.symm.cons _
      List.Perm _ (front[i] :: last :: front.eraseIdx i) := .swap _ _ _
      List.Perm _ (front[i] :: front.set i last) := hset.symm.cons _
  · have hi' : i = front.length := by
      simp only [length_append, length_singleton] at hi
      omega
    subst hi'
    simp only [getElem_concat_length] at hget
    subst hget
    simp only [set_append_right _ _ (Nat.le_refl _), Nat.sub_self, set_cons_zero, dropLast_concat]
    exact perm_append_singleton _ _

theorem Owns.releaseDeferred (h : Owns t calls late) {i : ℕ} (hi : t.entries[i]? = some owned)
    (hq : t.queued > 0) :
    Owns { t with entries := swapRemove t.entries i owned, retired := t.retired ++ [owned] } calls late := by
  have hp := perm_swapRemove hi
  have hkept : (t.entries ++ t.retired).Perm (swapRemove t.entries i owned ++ (t.retired ++ [owned])) := by
    calc (t.entries ++ t.retired).Perm (owned :: swapRemove t.entries i owned ++ t.retired) := hp.append_right _
      List.Perm _ (swapRemove t.entries i owned ++ t.retired ++ [owned]) := (perm_append_singleton _ _).symm
      _ = swapRemove t.entries i owned ++ (t.retired ++ [owned]) := append_assoc _ _ _
  exact
    { queued := h.queued
      held := by
        intro call hm
        obtain ⟨r, hr, hrc⟩ := h.held call hm
        exact ⟨r, hkept.mem_iff.mp hr, hrc⟩
      registered := h.registered.trans (hkept.append_left _)
      ids := h.ids
      retired := fun _ hz => absurd hz (by dsimp only; omega) }

theorem Owns.releaseNow (h : Owns t calls late) {i : ℕ} (hi : t.entries[i]? = some owned)
    (hq : ¬ t.queued > 0) :
    Owns { t with entries := swapRemove t.entries i owned, released := t.released ++ [owned] } calls late := by
  have hp := perm_swapRemove hi
  have hnone : calls = [] := eq_nil_of_length_eq_zero (by have := h.queued; omega)
  exact
    { queued := h.queued
      held := by simp [hnone]
      registered := by
        have hmoved := (hp.append_right t.retired).append_left t.released
        refine h.registered.trans (hmoved.trans ?_)
        simp only [append_assoc, cons_append, nil_append, List.Perm.refl]
      ids := h.ids
      retired := h.retired }

theorem Owns.drop {call : Call} (h : Owns t (call :: calls) late) : Owns t.drop calls True where
  queued := by simp [Table.drop, h.queued]
  held := fun call' hm => h.held call' (mem_cons_of_mem _ hm)
  registered := h.registered
  ids := h.ids
  retired := fun hl => absurd trivial hl

/-- Nothing is late after the retired registrations were looked at. -/
theorem Owns.releaseRetired (h : Owns t calls late) (late' : Prop) : Owns t.releaseRetired calls late' := by
  rw [Table.releaseRetired]
  split
  next hq =>
    have hnone : calls = [] := eq_nil_of_length_eq_zero (by have := h.queued; omega)
    exact
      { queued := h.queued
        held := by simp [hnone]
        registered := by
          refine h.registered.trans ?_
          simp only [append_nil, append_assoc]
          exact List.Perm.append_left _ perm_append_comm
        ids := h.ids
        retired := fun _ _ => rfl }
  next hq => exact { h with retired := fun _ hz => absurd hz hq }

theorem Owns.teardown (h : Owns t [] late) (late' : Prop) :
    Owns { t with entries := [], retired := [], queued := 0, released := t.released ++ (t.entries ++ t.retired) } [] late' where
  queued := rfl
  held := by simp
  registered := by simpa using h.registered
  ids := h.ids
  retired := fun _ _ => rfl

/-! ### The calls of a table -/

def callsOf (calls : List Call) (table : ℕ) : List Call := calls.filter fun call => call.table = table

theorem callsOf_cons_self (call : Call) (calls : List Call) : callsOf (call :: calls) call.table = call :: callsOf calls call.table := by
  simp [callsOf]

theorem callsOf_cons_of_ne {call : Call} {table : ℕ} (h : table ≠ call.table) (calls : List Call) :
    callsOf (call :: calls) table = callsOf calls table := by
  simp [callsOf, Ne.symm h]

theorem callsOf_perm {xs ys : List Call} (h : xs.Perm ys) (table : ℕ) : (callsOf xs table).Perm (callsOf ys table) :=
  h.filter _

/-- Something is done to a table once for each of its calls. -/
theorem forCalls_apply (f : Table → Table) (calls : List Call) (tables : ℕ → Table) (table : ℕ) :
    forCalls f calls tables table = f^[(callsOf calls table).length] (tables table) := by
  induction calls generalizing tables with
  | nil => rfl
  | cons call calls ih =>
    rw [forCalls, ih]
    rcases eq_or_ne table call.table with rfl | hne
    · rw [callsOf_cons_self, length_cons, iterate_succ_apply, update_self]
    · rw [callsOf_cons_of_ne hne, update_of_ne hne]

theorem Owns.drop_all {queued : List Call} (h : Owns t (queued ++ calls) late) (hne : queued ≠ []) :
    Owns (Table.drop^[queued.length] t) calls True := by
  induction queued generalizing t late with
  | nil => exact absurd rfl hne
  | cons call queued ih =>
    rw [length_cons, iterate_succ_apply]
    have hdrop : Owns t.drop (queued ++ calls) True := h.drop
    cases queued with
    | nil => exact hdrop
    | cons call' queued => exact ih hdrop (cons_ne_nil _ _)

theorem releaseRetired_idem (t : Table) : t.releaseRetired.releaseRetired = t.releaseRetired := by
  by_cases hq : t.queued = 0 <;> simp [Table.releaseRetired, hq]

theorem releaseRetired_iterate (t : Table) (n : ℕ) : Table.releaseRetired^[n + 1] t = t.releaseRetired := by
  induction n with
  | zero => rfl
  | succ n ih => rw [iterate_succ_apply', ih, releaseRetired_idem]

/-! ### The invariant -/

/-- The books of the queue, the tables and the pipe. -/
structure Inv (s : State) : Prop where
  order : s.stopping = false → s.posted = s.dispatched ++ s.queue
  stopped : s.stopping = true → s.queue = [] ∧ s.wakePipe = none
  dispatched : s.dispatched <+: s.posted
  ids : s.posted.map Call.id = List.range s.posted.length
  owns : ∀ table, Owns (s.tables table) (callsOf (s.queue ++ s.dispatching) table) (s.releasing = some table)
  wake : ∀ n, s.wakePipe = some n → s.queue ≠ [] → 0 < n

theorem inv_install (opened : Bool) : Inv (scrFfiInstall opened) where
  order := fun _ => rfl
  stopped := by simp [scrFfiInstall]
  dispatched := nil_prefix
  ids := rfl
  owns := fun _ => owns_empty _
  wake := by simp [scrFfiInstall]

variable {s : State}

/-- The other tables do not change. -/
theorem Inv.setTable (h : Inv s) (table : ℕ) {t : Table}
    (ht : Owns t (callsOf (s.queue ++ s.dispatching) table) (s.releasing = some table)) : Inv (s.setTable table t) where
  order := h.order
  stopped := h.stopped
  dispatched := h.dispatched
  ids := h.ids
  owns := by
    intro table'
    rcases eq_or_ne table' table with rfl | hne
    · simpa [State.setTable] using ht
    · simpa [State.setTable, update_of_ne hne] using h.owns table'
  wake := h.wake

theorem inv_retain (h : Inv s) (table callback : ℕ) : Inv (scrFfiRetainForeign s table callback) := by
  have := h.setTable table ((h.owns table).retain callback)
  exact ⟨this.order, this.stopped, this.dispatched, this.ids, this.owns, this.wake⟩

variable {s s' : State}

theorem inv_release (h : Inv s) {table callback : ℕ} (hs : scrFfiReleaseForeign s table callback = some s') : Inv s' := by
  have hcount : Inv { s with foreignRegistrations := s.foreignRegistrations - 1 } :=
    ⟨h.order, h.stopped, h.dispatched, h.ids, h.owns, h.wake⟩
  unfold scrFfiReleaseForeign at hs
  dsimp only at hs
  split at hs
  · cases hs
  next owned hi =>
  split at hs
  next hq =>
    cases hs
    exact hcount.setTable table ((h.owns table).releaseDeferred hi hq)
  next hq =>
    cases hs
    exact hcount.setTable table ((h.owns table).releaseNow hi hq)

theorem inv_post (h : Inv s) (table callback : ℕ) {full : Bool} (hf : full = true → s.wakePipe ≠ some 0) :
    Inv (scrFfiPost s table callback full) := by
  rw [scrFfiPost]
  split
  · exact h
  next hc =>
  simp only [not_or, Bool.not_eq_true, Bool.not_eq_false] at hc
  obtain ⟨hs, hc⟩ := hc
  have horder := h.order hs
  refine ⟨fun _ => ?_, fun hs' => absurd hs' (by simp [State.setTable, hs]), ?_, ?_, ?_, ?_⟩
  · simp [State.setTable, horder]
  · exact h.dispatched.trans (prefix_append _ _)
  · simp [h.ids, range_succ]
  · intro table'
    -- The new call is the last of the queue, before those that are being dispatched.
    have hp : (s.queue ++ [Call.mk s.posted.length table callback] ++ s.dispatching).Perm
        (Call.mk s.posted.length table callback :: (s.queue ++ s.dispatching)) := by
      rw [append_assoc]
      exact perm_middle
    have howns := h.owns table'
    rcases eq_or_ne table' table with rfl | hne
    · refine Owns.perm ?_ (callsOf_perm hp _)
      have hpost := howns.post (Call.mk s.posted.length table' callback) hc
      rw [← callsOf_cons_self] at hpost
      simpa [State.setTable] using hpost
    · refine Owns.perm ?_ (callsOf_perm hp _)
      rw [← callsOf_cons_of_ne (show table' ≠ (Call.mk s.posted.length table callback).table from hne)] at howns
      simpa [State.setTable, update_of_ne hne] using howns
  · intro n hn _
    simp only [Option.map_eq_some_iff] at hn
    obtain ⟨m, hm, hmn⟩ := hn
    cases full with
    | true =>
      have := hf rfl
      rw [hm] at this
      simp only [ne_eq, Option.some.injEq, if_true] at this hmn
      omega
    | false =>
      simp only [Bool.false_eq_true, if_false] at hmn
      omega

theorem inv_dispatch (h : Inv s) : Inv (scrFfiDispatch s) := by
  rw [scrFfiDispatch]
  split
  · exact h
  next call queue hq =>
  have hrunning : s.stopping = false := by
    by_contra hs
    have := (h.stopped (by simpa using hs)).1
    rw [hq] at this
    cases this
  have horder := h.order hrunning
  rw [hq] at horder
  refine ⟨fun _ => ?_, fun hs => absurd hs (by simp [hrunning]), ?_, h.ids, ?_, ?_⟩
  · simp [horder]
  · rw [horder]
    simp
  · intro table
    refine (h.owns table).perm (callsOf_perm ?_ table)
    rw [hq]
    exact perm_middle
  · intro n hn _
    exact h.wake n hn (by simp [hq])

theorem inv_dispatched (h : Inv s) (hr : s.releasing = none) {call : Call} {outer : List Call}
    (hd : s.dispatching = call :: outer) : Inv (scrFfiDispatched s call outer) := by
  have hmid : Inv { s.setTable call.table (s.tables call.table).drop with dispatching := outer, releasing := some call.table } := by
    refine ⟨h.order, h.stopped, h.dispatched, h.ids, ?_, h.wake⟩
    intro table
    have howns := h.owns table
    have hp : (s.queue ++ s.dispatching).Perm (call :: (s.queue ++ outer)) := by
      rw [hd]
      exact perm_middle
    have howns := howns.perm (callsOf_perm hp.symm _)
    rcases eq_or_ne table call.table with rfl | hne
    · have hdrop : Owns (s.tables call.table).drop (callsOf (s.queue ++ outer) call.table) True := by
        rw [callsOf_cons_self] at howns
        exact howns.drop
      simpa [State.setTable] using hdrop
    · have howns' : Owns (s.tables table) (callsOf (s.queue ++ outer) table) (s.releasing = some table) := by
        rw [← callsOf_cons_of_ne hne]
        exact howns
      simp only [State.setTable, update_of_ne hne]
      exact { howns' with retired := fun _ => howns'.retired (by simp [hr]) }
  rw [scrFfiDispatched]
  split
  next hq =>
    refine ⟨hmid.order, fun hs => ⟨hq, ?_⟩, hmid.dispatched, hmid.ids, hmid.owns, fun n _ hne => absurd hq hne⟩
    have := (h.stopped hs).2
    simp [scrFfiWakeDrain, State.setTable, this]
  next => exact hmid

theorem inv_releaseRetired (h : Inv s) {table : ℕ} (hr : s.releasing = some table) :
    Inv (scrFfiReleaseRetired s table) := by
  refine ⟨h.order, h.stopped, h.dispatched, h.ids, ?_, h.wake⟩
  intro table'
  rcases eq_or_ne table' table with rfl | hne
  · simpa [scrFfiReleaseRetired, State.setTable] using (h.owns table').releaseRetired _
  · have howns := h.owns table'
    simp only [scrFfiReleaseRetired, State.setTable, update_of_ne hne]
    exact { howns with retired := fun _ => howns.retired (by simp [hr, Ne.symm hne]) }

theorem inv_stop (h : Inv s) : Inv (scrFfiStop s) := by
  rw [scrFfiStop]
  split
  · exact h
  next hs =>
  rw [Bool.not_eq_true] at hs
  refine ⟨fun hs' => (by cases hs'), fun _ => ⟨rfl, rfl⟩, h.dispatched, h.ids, ?_, fun n hn => (by cases hn)⟩
  intro table
  have howns := h.owns table
  rw [callsOf, filter_append] at howns
  show Owns (forCalls Table.releaseRetired s.queue (forCalls Table.drop s.queue s.tables) table) (callsOf s.dispatching table) _
  rw [forCalls_apply, forCalls_apply]
  cases hq : callsOf s.queue table with
  | nil =>
    rw [callsOf] at hq
    rw [hq] at howns
    exact howns
  | cons call calls =>
    have hall : Owns (Table.drop^[(callsOf s.queue table).length] (s.tables table)) (callsOf s.dispatching table) True :=
      howns.drop_all (by rw [← callsOf, hq]; exact cons_ne_nil _ _)
    rw [hq, length_cons] at hall
    rw [length_cons, releaseRetired_iterate]
    exact hall.releaseRetired _

theorem inv_teardown (h : Inv s) {table : ℕ} (hc : Calm s (.teardown table)) : Inv (scrFfiTeardownForeign s table) := by
  have hstop := inv_stop h
  have hstopping : (scrFfiStop s).stopping = true := by
    rw [scrFfiStop]
    split
    next hs => exact hs
    next => rfl
  have hdispatching : (scrFfiStop s).dispatching = s.dispatching := by
    rw [scrFfiStop]
    split <;> rfl
  -- No call of the table is left.
  have hnone : callsOf ((scrFfiStop s).queue ++ (scrFfiStop s).dispatching) table = [] := by
    rw [(hstop.stopped hstopping).1, hdispatching, nil_append, callsOf, filter_eq_nil_iff]
    intro call hm
    simpa using hc call hm
  have howns := hstop.owns table
  rw [hnone] at howns
  have hset := hstop.setTable table (by rw [hnone]; exact howns.teardown _)
  exact ⟨hset.order, hset.stopped, hset.dispatched, hset.ids, hset.owns, hset.wake⟩

theorem inv_step {a : Act} (h : Inv s) (hs : Step s a s') (hc : Calm s a) : Inv s' := by
  cases hs with
  | post table callback full hf => exact inv_post h table callback hf
  | retain hr table callback => exact inv_retain h table callback
  | release hr hs => exact inv_release h hs
  | dispatch hr => exact inv_dispatch h
  | dispatched hr hd => exact inv_dispatched h hr hd
  | releaseRetired hr => exact inv_releaseRetired h hr
  | stop hr => exact inv_stop h
  | teardown hr table => exact inv_teardown h hc

theorem inv_run {acts : List Act} (h : Inv s) (hr : Run Calm s acts s') : Inv s' := by
  induction hr with
  | nil => exact h
  | snoc _ hs hc ih => exact inv_step ih hs hc

/-! ### What is kept -/

/-- What holds of calls and closures in every run. -/
structure Keeps (s : State) : Prop where
  /-- The accepted calls are dispatched in their order, and until a stop the others are queued. -/
  order : s.stopping = false → s.posted = s.dispatched ++ s.queue
  dispatched : s.dispatched <+: s.posted
  /-- No call is dispatched twice. -/
  nodup : s.dispatched.Nodup
  queued : ∀ table, (s.tables table).queued = (s.queue ++ s.dispatching).countP fun call => call.table = table
  /-- A call that is queued or being dispatched has a closure that is not released. -/
  held : ∀ call ∈ s.queue ++ s.dispatching,
    ∃ r ∈ (s.tables call.table).entries ++ (s.tables call.table).retired, r.callback = call.callback
  /-- Each registration is there or was released, and not twice. -/
  registered : ∀ table, ((s.tables table).released ++ ((s.tables table).entries ++ (s.tables table).retired)).Perm
    (s.tables table).registered
  registeredNodup : ∀ table, (s.tables table).registered.Nodup
  /-- None stays retired where no call is left. -/
  retired : ∀ table, s.releasing = none → (s.tables table).queued = 0 → (s.tables table).retired = []
  /-- A teardown leaves no registration of the table unreleased. -/
  teardown : ∀ table, ((scrFfiTeardownForeign s table).tables table).released.Perm
    ((scrFfiTeardownForeign s table).tables table).registered
  /-- A pipe is not empty while there are calls. -/
  wake : ∀ n, s.wakePipe = some n → s.queue ≠ [] → 0 < n

theorem Inv.keeps (h : Inv s) : Keeps s where
  order := h.order
  dispatched := h.dispatched
  nodup := by
    have hposted : s.posted.Nodup := List.Nodup.of_map Call.id (h.ids ▸ nodup_range)
    exact hposted.sublist h.dispatched.sublist
  queued := by
    intro table
    rw [(h.owns table).queued, callsOf, countP_eq_length_filter]
  held := by
    intro call hm
    exact (h.owns call.table).held call (mem_filter.mpr ⟨hm, by simp⟩)
  registered := fun table => (h.owns table).registered.symm
  registeredNodup := fun table => List.Nodup.of_map Registration.id ((h.owns table).ids ▸ nodup_range)
  retired := fun table hr => (h.owns table).retired (by simp [hr])
  teardown := by
    intro table
    simpa [scrFfiTeardownForeign, State.setTable] using ((inv_stop h).owns table).registered.symm
  wake := h.wake

/-- In every run where a table is torn down only when none of its calls is being dispatched. -/
theorem ffiQueue_keeps {opened : Bool} {acts : List Act} {s : State} (h : Run Calm (scrFfiInstall opened) acts s) : Keeps s :=
  (inv_run (inv_install opened) h).keeps

theorem ffiQueue_keeps_post : Keeps (scrFfiPost (scrFfiRetainForeign (scrFfiInstall true) 0 7) 0 7 false) :=
  ffiQueue_keeps (.snoc (.snoc .nil (.retain rfl 0 7) trivial) (.post 0 7 false (by simp)) trivial)

/-- A callback tears its own table down; and there is a call and no pipe. -/
theorem not_ffiQueue_keeps :
    (¬ ∀ (acts : List Act) (s : State), Run (fun _ _ => True) (scrFfiInstall true) acts s → Keeps s) ∧
      ¬ ∀ (acts : List Act) (s : State), Run (fun _ _ => True) (scrFfiInstall false) acts s →
        s.queue ≠ [] → ∃ n, s.wakePipe = some n ∧ 0 < n := by
  constructor
  · intro h
    have hretain : Run (fun _ _ => True) (scrFfiInstall true) _ _ := .snoc .nil (.retain rfl 0 7) trivial
    have hpost := hretain.snoc (.post 0 7 false (by simp)) trivial
    have htorn := (hpost.snoc (.dispatch rfl) trivial).snoc (.teardown rfl 0) trivial
    obtain ⟨r, hr, -⟩ := (h _ _ htorn).held ⟨0, 0, 7⟩ (by decide)
    simp [scrFfiTeardownForeign, State.setTable] at hr
  · intro h
    have hretain : Run (fun _ _ => True) (scrFfiInstall false) _ _ := .snoc .nil (.retain rfl 0 7) trivial
    obtain ⟨n, hn, -⟩ := h _ _ (hretain.snoc (.post 0 7 false (by simp)) trivial) (by decide)
    cases hn

end Scriptc.Runtime.FfiQueue
