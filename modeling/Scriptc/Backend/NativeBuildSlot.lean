import Mathlib.Data.Finset.Card
import Mathlib.Logic.Function.Basic
import Mathlib.Logic.Relation

/-!
# The native build gate

`withNativeBuildSlot` lets at most `width` native builds run on a machine. A build holds the
file `slot-i.json`, which it made by linking a finished temporary file, so that the lease is
never seen half written. A build that finds the slot taken tries to reclaim it: it creates
`slot-i.json.reaping`, reads the lease, and removes it when the process named there is gone.
The reaper file is itself reclaimed when its process is gone, or when it holds no record.

Every file-system operation is one step, and steps of different calls interleave freely. A
process may stop at any step; its calls then stop too, and its files stay where they are.
Process numbers are not used twice.
-/

namespace Scriptc.NativeBuildSlot

open Function

/-- Where `acquireNativeBuildSlot` stands for one index. -/
inductive Acquire where
  | writeTemporary
  | link
  /-- Linked: the temporary name goes, and the lease is returned. -/
  | rmTemporary
  /-- `EEXIST`: the temporary name goes, and the slot is looked into. -/
  | rmTemporaryTaken
  deriving DecidableEq, Repr

/-- Where `reclaimDeadLease` stands. -/
inductive Reclaim (Pid : Type*) where
  /-- `writeFile` with `wx`: the exclusive creation of the reaper. -/
  | create
  /-- The same `writeFile`: its record goes into the created file. -/
  | write
  | readLease
  /-- The lease named this process. -/
  | processAlive (pid : Pid)
  | rmLease
  /-- The `finally` block. -/
  | rmReaper
  deriving DecidableEq, Repr

/-- Where `reclaimAbandonedReaper` stands. -/
inductive Abandoned (Pid : Type*) where
  | readReaper
  | processAlive (pid : Pid)
  /-- `EISDIR`: a reaper of the older protocol. -/
  | stat
  | rm
  deriving DecidableEq, Repr

/-- Where `releaseNativeBuildSlot` stands. -/
inductive Release where
  | readLease
  | rm
  deriving DecidableEq, Repr

/-- Where a call of `withNativeBuildSlot` stands, with the index of the slot it works at. -/
inductive Pc (Pid : Type*) where
  | acquire (at_ : Acquire) (index : ℕ)
  | reclaim (at_ : Reclaim Pid) (index : ℕ)
  | abandoned (at_ : Abandoned Pid) (index : ℕ)
  /-- The build itself runs. -/
  | action (index : ℕ)
  | release (at_ : Release) (index : ℕ)
  | done
  deriving DecidableEq, Repr

/-- What is at the reaper's path. A created file has no content until its record is written.
Reapers of the older protocol were directories. -/
inductive Reaper (Call : Type*) where
  | directory
  | file (creator : Call) (written : Bool)
  deriving DecidableEq, Repr

/-- The lock directory, the processes and the calls. A lease is known by the call whose token it
holds. -/
structure State (Call Pid : Type*) where
  alive : Pid → Bool
  pc : Call → Pc Pid
  slot : ℕ → Option Call
  reaper : ℕ → Option (Reaper Call)

/-- What can happen next: a call takes its next step, or a process stops. `aged` is the answer of
the clock where the step asks how old a directory is. -/
inductive Event (Call Pid : Type*) where
  | call (c : Call) (aged : Bool)
  | stop (p : Pid)
  deriving DecidableEq, Repr

variable {Call Pid : Type*}

namespace State

/-- The call goes on elsewhere. -/
def goto [DecidableEq Call] (s : State Call Pid) (c : Call) (k : Pc Pid) : State Call Pid :=
  { s with pc := update s.pc c k }

def setSlot (s : State Call Pid) (i : ℕ) (l : Option Call) : State Call Pid :=
  { s with slot := update s.slot i l }

def setReaper (s : State Call Pid) (i : ℕ) (r : Option (Reaper Call)) : State Call Pid :=
  { s with reaper := update s.reaper i r }

variable (s : State Call Pid) {c d : Call} (k : Pc Pid) (i : ℕ) (l : Option Call) (r : Option (Reaper Call))

@[simp] theorem setSlot_pc : (s.setSlot i l).pc = s.pc := rfl
@[simp] theorem setSlot_alive : (s.setSlot i l).alive = s.alive := rfl
@[simp] theorem setSlot_slot : (s.setSlot i l).slot = update s.slot i l := rfl
@[simp] theorem setSlot_reaper : (s.setSlot i l).reaper = s.reaper := rfl
@[simp] theorem setReaper_pc : (s.setReaper i r).pc = s.pc := rfl
@[simp] theorem setReaper_alive : (s.setReaper i r).alive = s.alive := rfl
@[simp] theorem setReaper_slot : (s.setReaper i r).slot = s.slot := rfl
@[simp] theorem setReaper_reaper : (s.setReaper i r).reaper = update s.reaper i r := rfl

variable [DecidableEq Call]

@[simp] theorem goto_alive : (s.goto c k).alive = s.alive := rfl
@[simp] theorem goto_slot : (s.goto c k).slot = s.slot := rfl
@[simp] theorem goto_reaper : (s.goto c k).reaper = s.reaper := rfl
@[simp] theorem goto_pc_self : (s.goto c k).pc c = k := update_self ..

theorem goto_pc_of_ne (h : d ≠ c) : (s.goto c k).pc d = s.pc d := update_of_ne h ..

end State

variable [DecidableEq Call]

section Steps

variable (width : ℕ) (pid : Call → Pid)

/-- The next index of the loop; after the last one the call waits and starts over. -/
def nextIndex (i : ℕ) : ℕ := if i + 1 < width then i + 1 else 0

/-- The slot at `i` was not taken and not freed for this call: on to the next one. -/
def toNext (s : State Call Pid) (c : Call) (i : ℕ) : State Call Pid :=
  s.goto c (.acquire .writeTemporary (nextIndex width i))

def acquireNativeBuildSlot (s : State Call Pid) (c : Call) (i : ℕ) : Acquire → State Call Pid
  | .writeTemporary => s.goto c (.acquire .link i)
  | .link =>
    match s.slot i with
    | none => (s.setSlot i (some c)).goto c (.acquire .rmTemporary i)
    | some _ => s.goto c (.acquire .rmTemporaryTaken i)
  | .rmTemporary => s.goto c (.action i)
  | .rmTemporaryTaken => s.goto c (.reclaim .create i)

def reclaimDeadLease (s : State Call Pid) (c : Call) (i : ℕ) : Reclaim Pid → State Call Pid
  | .create =>
    match s.reaper i with
    | none => (s.setReaper i (some (.file c false))).goto c (.reclaim .write i)
    | some _ => s.goto c (.abandoned .readReaper i)
  | .write =>
    -- the write goes to the file this call has open, which its name may have lost by now
    (if s.reaper i = some (.file c false) then s.setReaper i (some (.file c true)) else s).goto c
      (.reclaim .readLease i)
  | .readLease =>
    match s.slot i with
    | none => s.goto c (.reclaim .rmReaper i)
    | some o => s.goto c (.reclaim (.processAlive (pid o)) i)
  | .processAlive p =>
    if s.alive p then s.goto c (.reclaim .rmReaper i) else s.goto c (.reclaim .rmLease i)
  | .rmLease => (s.setSlot i none).goto c (.reclaim .rmReaper i)
  | .rmReaper => toNext width (s.setReaper i none) c i

def reclaimAbandonedReaper (s : State Call Pid) (c : Call) (i : ℕ) (aged : Bool) : Abandoned Pid → State Call Pid
  | .readReaper =>
    match s.reaper i with
    | none => toNext width s c i
    | some .directory => s.goto c (.abandoned .stat i)
    -- an empty file is no JSON text
    | some (.file _ false) => s.goto c (.abandoned .rm i)
    | some (.file d true) => s.goto c (.abandoned (.processAlive (pid d)) i)
  | .processAlive p => if s.alive p then toNext width s c i else s.goto c (.abandoned .rm i)
  | .stat => if (s.reaper i).isSome && aged then s.goto c (.abandoned .rm i) else toNext width s c i
  | .rm => toNext width (s.setReaper i none) c i

def releaseNativeBuildSlot (s : State Call Pid) (c : Call) (i : ℕ) : Release → State Call Pid
  | .readLease => if s.slot i = some c then s.goto c (.release .rm i) else s.goto c .done
  | .rm => (s.setSlot i none).goto c .done

/-- The next step of a call of `withNativeBuildSlot`; none once it has returned. -/
def withNativeBuildSlot (s : State Call Pid) (c : Call) (aged : Bool) : Option (State Call Pid) :=
  match s.pc c with
  | .acquire k i => some (acquireNativeBuildSlot s c i k)
  | .reclaim k i => some (reclaimDeadLease width pid s c i k)
  | .abandoned k i => some (reclaimAbandonedReaper width pid s c i aged k)
  | .action i => some (s.goto c (.release .readLease i))
  | .release k i => some (releaseNativeBuildSlot s c i k)
  | .done => none

variable [DecidableEq Pid]

/-- One step of the system. Calls of a stopped process take none. -/
def next (s : State Call Pid) : Event Call Pid → Option (State Call Pid)
  | .call c aged => if s.alive (pid c) then withNativeBuildSlot width pid s c aged else none
  | .stop p => some { s with alive := update s.alive p false }

/-- A whole schedule. -/
def exec (s : State Call Pid) : List (Event Call Pid) → Option (State Call Pid)
  | [] => some s
  | e :: es => (next width pid s e).bind fun s' => exec s' es

end Steps

/-- Every process runs, every call is at its start, no slot is taken, and no reaper file is there;
directories of the older protocol may be. -/
structure Initial (s : State Call Pid) : Prop where
  alive : ∀ p, s.alive p = true
  pc : ∀ c, s.pc c = .acquire .writeTemporary 0
  slot : ∀ i, s.slot i = none
  reaper : ∀ i c w, s.reaper i ≠ some (.file c w)

/-- The call has acquired the slot and not released it. -/
def Holds (s : State Call Pid) (c : Call) (i : ℕ) : Prop :=
  s.pc c = .acquire .rmTemporary i ∨ s.pc c = .action i ∨ ∃ k, s.pc c = .release k i

instance [DecidableEq Pid] (s : State Call Pid) (c : Call) (i : ℕ) : Decidable (Holds s c i) :=
  decidable_of_iff (s.pc c = .acquire .rmTemporary i ∨ s.pc c = .action i ∨
    s.pc c = .release .readLease i ∨ s.pc c = .release .rm i)
    ⟨fun h => by
      rcases h with h | h | h | h
      · exact .inl h
      · exact .inr (.inl h)
      · exact .inr (.inr ⟨_, h⟩)
      · exact .inr (.inr ⟨_, h⟩),
    fun h => by
      rcases h with h | h | ⟨k, h⟩
      · exact .inl h
      · exact .inr (.inl h)
      · cases k with
        | readLease => exact .inr (.inr (.inl h))
        | rm => exact .inr (.inr (.inr h))⟩

/-- The call's process still runs. -/
def Live (pid : Call → Pid) (s : State Call Pid) (c : Call) : Prop := s.alive (pid c) = true

instance (pid : Call → Pid) (s : State Call Pid) (c : Call) : Decidable (Live pid s c) :=
  inferInstanceAs (Decidable (_ = _))

end Scriptc.NativeBuildSlot
