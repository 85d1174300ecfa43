import Mathlib.Data.List.Nodup
import Mathlib.Data.List.Perm.Basic
import Mathlib.Tactic.Linarith
import Scriptc.RuntimeRust.EffectLatch

/-!
# Latches: what is taken and what is settled

A semaphore is kept by every step of every fiber. Where a release is between two rounds, a request that
would fit may still wait; it does not wait once no release runs.
-/

namespace Scriptc.RuntimeRust.EffectLatch

open List

variable {O : Type}

/-! ### Deferreds -/

/-- What holds of a deferred, whoever settles it and awaits it. -/
structure Deferred.Kept (d : Deferred O) : Prop where
  /-- One settle call answered `true`, if any did answer. -/
  once : d.answers.count true = if d.latch.settled.isSome then 1 else 0
  answered : d.answers ≠ [] → d.latch.settled.isSome
  fresh : d.latch.settled = none → d.latch.free = 0 ∧ d.waking = [] ∧ d.received = []
  parked : d.latch.settled.isSome → d.latch.waiters = []
  distinct : d.awaits.Nodup
  places : (d.latch.waiters.map Waiter.operation ++ d.waking.map Prod.fst ++ d.received.map Prod.fst).Perm d.awaits
  outcome : ∀ fiber ∈ d.waking ++ d.received, d.latch.settled = some fiber.2

variable {d d' d'' : Deferred O}

theorem deferred_new : (Deferred.new : Deferred O).Kept where
  once := rfl
  answered h := absurd rfl h
  fresh _ := ⟨sub_zero 0, rfl, rfl⟩
  parked h := by cases h
  distinct := nodup_nil
  places := .rfl
  outcome _ h := by cases h

theorem Deferred.Kept.settle (h : d.Kept) (outcome : O) : (d.settle outcome).Kept := by
  unfold Deferred.settle Latch.settle
  cases hs : d.latch.settled with
  | some settled =>
    have hsome : d.latch.settled.isSome = true := by rw [hs]; rfl
    refine { h with once := ?_, answered := fun _ => hsome, fresh := fun hn => ?_, places := ?_, outcome := ?_ }
    · rw [count_append]
      exact h.once
    · cases hn.symm.trans hs
    · simpa using h.places
    · simpa using h.outcome
  | none =>
    obtain ⟨-, hwaking, hreceived⟩ := h.fresh hs
    refine ⟨?_, fun _ => rfl, fun hn => (by cases hn), fun _ => rfl, h.distinct, ?_, ?_⟩
    · have honce := h.once
      rw [hs] at honce
      rw [count_append, honce]
      rfl
    · have hplaces := h.places
      rw [hwaking, hreceived] at hplaces ⊢
      simpa [Function.comp_def] using hplaces
    · intro fiber hf
      rw [hwaking, hreceived] at hf
      obtain ⟨w, -, rfl⟩ := mem_map.mp (by simpa using hf)
      rfl

theorem Deferred.Step.kept (h : d.Kept) (hs : Step d d') : d'.Kept := by
  cases hs with
  | settle outcome => exact h.settle outcome
  | park operation ho hp =>
    unfold latchPark at hp
    split at hp
    · cases hp
    · next hsettled =>
      split at hp <;> cases hp
      have hnone : d.latch.settled.isSome = false := by rw [hsettled]; rfl
      refine { h with
        fresh := h.fresh, parked := fun hn => by cases hn.symm.trans hnone
        distinct := h.distinct.append (nodup_singleton operation) (by simpa using ho), places := ?_ }
      refine List.Perm.trans ?_ (h.places.append_right [operation])
      simp only [map_append, append_assoc]
      exact .append_left _ (perm_append_comm.trans (by rw [append_assoc]; exact .rfl))
  | ready operation ho hp =>
    unfold latchPark at hp
    split at hp
    · next settled hsettled =>
      cases hp
      refine { h with
        fresh := fun hn => by cases hn.symm.trans hsettled
        distinct := h.distinct.append (nodup_singleton operation) (by simpa using ho)
        places := ?_, outcome := fun fiber hf => ?_ }
      · refine List.Perm.trans ?_ (h.places.append_right [operation])
        simp only [map_append, append_assoc]
        exact .rfl
      · rw [← append_assoc] at hf
        rcases mem_append.mp hf with hf | hf
        · exact h.outcome fiber hf
        · rw [mem_singleton.mp hf]
          exact hsettled
    · split at hp <;> cases hp
  | resume before after fiber hw =>
    have hperm : ((before ++ after) ++ (d.received ++ [fiber])).Perm (d.waking ++ d.received) := by
      rw [hw, ← append_assoc]
      exact (perm_append_singleton ..).trans (perm_middle.append_right _).symm
    refine { h with fresh := fun hn => ?_, places := ?_, outcome := fun f hf => h.outcome f (hperm.subset hf) }
    · have hwaking := (h.fresh hn).2.1
      rw [hw] at hwaking
      cases append_eq_nil_iff.mp hwaking |>.2
    · have hmap := (hperm.map Prod.fst).append_left (d.latch.waiters.map Waiter.operation)
      simp only [map_append, ← append_assoc] at hmap
      refine List.Perm.trans ?_ h.places
      simpa only [map_append, ← append_assoc] using hmap

theorem Deferred.Run.kept (h : Run (.new : Deferred O) d) : d.Kept := by
  induction h with
  | nil => exact deferred_new
  | snoc _ hs ih => exact hs.kept ih

/-- A deferred keeps what it is settled with. -/
theorem Deferred.Step.settled {outcome : O} (h : d.latch.settled = some outcome) (hs : Step d d') :
    d'.latch.settled = some outcome := by
  cases hs with
  | settle => simp [Deferred.settle, Latch.settle, h]
  | park operation ho hp =>
    simp only [latchPark, h] at hp
    cases hp
  | ready operation ho hp =>
    simp only [latchPark, h] at hp
    cases hp
    exact h
  | resume => exact h

theorem Deferred.Run.settled {outcome : O} (h : d.latch.settled = some outcome) (hr : Run d d') :
    d'.latch.settled = some outcome := by
  induction hr with
  | nil => exact h
  | snoc _ hs ih => exact hs.settled ih

/-! ### The loop of a release -/

theorem find?_perm_eraseP {α : Type} {p : α → Bool} {a : α} {l : List α} (h : l.find? p = some a) :
    (a :: l.eraseP p).Perm l := by
  induction l with
  | nil => cases h
  | cons b l ih =>
    cases hb : p b with
    | true =>
      rw [List.find?_cons_of_pos hb] at h
      cases h
      rw [eraseP_cons_of_pos hb]
    | false =>
      rw [find?_cons_of_neg (by simp [hb])] at h
      rw [eraseP_cons_of_neg (by simp [hb])]
      exact (List.Perm.swap ..).trans ((ih h).cons b)

variable {w : Waiter} {l l' : Latch O}

/-- A round grants what fits, and nothing else changes. -/
theorem grant_some (h : l.grant = some (w, l')) :
    w.permits ≤ l.free ∧ (w :: l'.waiters).Perm l.waiters ∧ l'.taken = l.taken + w.permits ∧
      l'.permits = l.permits ∧ l'.settled = l.settled := by
  unfold Latch.grant at h
  split at h
  · obtain ⟨found, hfound, heq⟩ := Option.map_eq_some_iff.mp h
    cases heq
    exact ⟨by simpa using find?_some hfound, find?_perm_eraseP hfound, rfl, rfl, rfl⟩
  · cases h

/-- The loop ends when no request fits. -/
theorem grant_none {l : Latch O} (h : l.grant = none) (hp : ∀ w ∈ l.waiters, 0 < w.permits) :
    ∀ w ∈ l.waiters, l.free < w.permits := by
  intro w hw
  unfold Latch.grant at h
  split at h
  · have hnone := find?_eq_none.mp (Option.map_eq_none_iff.mp h) w hw
    simpa using hnone
  · next hfree => exact (not_lt.mp hfree).trans_lt (hp w hw)

theorem latchPark_none (h : latchPark l w = (l', none)) :
    l.free < w.permits ∧ l' = { l with waiters := l.waiters ++ [w] } := by
  unfold latchPark at h
  split at h
  · cases h
  · split at h
    · cases h
    · next hfree =>
      cases h
      exact ⟨not_not.mp hfree, rfl⟩

theorem latchPark_granted (h : latchPark l w = (l', some .granted)) :
    w.permits ≤ l.free ∧ l' = { l with taken := l.taken + w.permits } := by
  unfold latchPark at h
  split at h
  · cases h
  · split at h
    · next hfree =>
      cases h
      exact ⟨not_lt.mp hfree, rfl⟩
    · cases h

/-! ### Fibers -/

/-- The request that a fiber is about to make. -/
def Fiber.requests (f : Fiber) : List Waiter :=
  match f.control with
  | .request w => [w]
  | _ => []

def Fiber.parked (f : Fiber) : List Waiter :=
  match f.control with
  | .parked w => [w]
  | _ => []

def Control.calls : Control → List Waiter
  | .giveBack w => [w]
  | _ => []

def Frame.calls : Frame → List Waiter
  | .body w _ | .held w => [w]
  | _ => []

/-- The calls of `withPermits` that a fiber is in. -/
def Fiber.calls (f : Fiber) : List Waiter := f.control.calls ++ f.frames.flatMap Frame.calls

/-- A call asks for its permits with its frame on top, and has them from then on. -/
structure Fiber.Framed (granted : List Waiter) (f : Fiber) : Prop where
  body : ∀ w body frames, f.frames = .body w body :: frames →
    f.control = .request w ∨ f.control = .parked w ∨ f.control = .give .success ∧ w ∈ granted
  below : ∀ frame ∈ f.frames.tail, ∀ w body, frame ≠ .body w body
  held : ∀ w, .held w ∈ f.frames → w ∈ granted
  giveBack : ∀ w, f.control = .giveBack w → w ∈ granted
  ended : ∀ exit, f.control = .ended exit → f.frames = []

theorem Fiber.Framed.mono {granted granted' : List Waiter} {f : Fiber} (h : f.Framed granted)
    (hg : granted ⊆ granted') : f.Framed granted' where
  body w body frames hf := (h.body w body frames hf).imp_right (.imp_right (.imp_right fun hw => hg hw))
  below := h.below
  held w hw := hg (h.held w hw)
  giveBack w hw := hg (h.giveBack w hw)
  ended := h.ended

/-- No call is about to get its permits. -/
def Plain (frames : List Frame) : Prop := ∀ frame ∈ frames, ∀ w body, frame ≠ .body w body

variable {granted : List Waiter} {f f' : Fiber} {frames : List Frame} {control : Control}

theorem Fiber.Framed.of_plain (h : Plain frames) (hh : ∀ w, .held w ∈ frames → w ∈ granted)
    (hg : ∀ w, control = .giveBack w → w ∈ granted) (he : ∀ exit, control = .ended exit → frames = []) :
    Framed granted ⟨control, frames⟩ where
  body w body rest hf := absurd rfl (h (.body w body) (by rw [show frames = _ from hf]; exact mem_cons_self) w body)
  below frame hm := h frame (mem_of_mem_tail hm)
  held := hh
  giveBack := hg
  ended := he

theorem Fiber.Framed.plain (h : Framed granted ⟨control, frames⟩) (hr : ∀ w, control ≠ .request w)
    (hp : ∀ w, control ≠ .parked w) (hs : control ≠ .give .success) : Plain frames := by
  cases frames with
  | nil => exact fun _ hm => absurd hm not_mem_nil
  | cons top rest =>
    intro frame hm w body heq
    rcases mem_cons.mp hm with rfl | hm
    · rcases h.body w body rest (by rw [heq]) with hc | hc | hc
      · exact hr w hc
      · exact hp w hc
      · exact hs hc.1
    · exact h.below frame hm w body heq

theorem plain_others (others : ℕ) (h : Plain frames) : Plain (replicate others .other ++ frames) := by
  intro frame hm w body heq
  rcases mem_append.mp hm with hm | hm
  · cases heq.symm.trans (eq_of_mem_replicate hm)
  · exact h frame hm w body heq

theorem held_others {others : ℕ} (h : .held w ∈ replicate others .other ++ frames) :
    .held w ∈ frames := by
  rcases mem_append.mp h with h | h
  · cases eq_of_mem_replicate h
  · exact h

theorem calls_others (others : ℕ) : (replicate others Frame.other ++ frames).flatMap Frame.calls = frames.flatMap Frame.calls := by
  rw [flatMap_append, flatMap_eq_nil_iff.mpr fun frame hm => by rw [eq_of_mem_replicate hm]; rfl]
  rfl

/-- Another effect pushes its frames. -/
theorem Fiber.Framed.others (h : Plain frames) (hh : ∀ w, .held w ∈ frames → w ∈ granted) (others : ℕ) (effect : Effect) :
    Framed granted ⟨.eval effect, replicate others .other ++ frames⟩ :=
  .of_plain (plain_others others h) (fun w hw => hh w (held_others hw)) (fun _ => nofun) fun _ => nofun

/-- A fiber goes on once its request is granted. -/
theorem Fiber.Framed.grant (h : Framed granted ⟨control, frames⟩)
    (hc : control = .request w ∨ control = .parked w) : Framed (granted ++ [w]) ⟨.give .success, frames⟩ where
  body w' body frames' hf := by
    refine .inr (.inr ⟨rfl, ?_⟩)
    rcases h.body w' body frames' hf with hc' | hc' | ⟨hc', -⟩ <;> rcases hc with rfl | rfl <;> cases hc'
    · exact mem_append_right _ mem_cons_self
    · exact mem_append_right _ mem_cons_self
  below := h.below
  held w' hw' := mem_append_left _ (h.held w' hw')
  giveBack _ := nofun
  ended _ := nofun

/-- A fiber that moves by itself neither waits nor releases, and stays in its calls. -/
theorem Fiber.Moves.framed (h : f.Framed granted) (hm : f.Moves f') :
    f'.Framed granted ∧ f'.calls.Perm f.calls := by
  have hheld {frame : Frame} {rest : List Frame} (hf : f.frames = frame :: rest) :
      ∀ w, .held w ∈ rest → w ∈ granted := fun w hw => h.held w (hf ▸ mem_cons_of_mem _ hw)
  cases hm with
  | @body w body frames =>
    rcases h.body w body frames rfl with hc | hc | ⟨-, hw⟩
    · cases hc
    · cases hc
    · refine ⟨.of_plain ?_ ?_ (fun _ => nofun) fun _ => nofun, .rfl⟩
      · intro frame hm w' body' heq
        rcases mem_cons.mp hm with rfl | hm
        · cases heq
        · exact h.below frame hm w' body' heq
      · intro w' hw'
        rcases mem_cons.mp hw' with heq | hw'
        · cases heq
          exact hw
        · exact hheld rfl w' hw'
  | @skip w body frames exit hexit =>
    rcases h.body w body frames rfl with hc | hc | ⟨hc, -⟩
    · cases hc
    · cases hc
    · cases hc
      exact absurd rfl hexit
  | @finish w frames exit =>
    refine ⟨.of_plain ?_ ?_ (fun w' hw' => ?_) fun _ => nofun, .rfl⟩
    · intro frame hm w' body' heq
      rcases mem_cons.mp hm with rfl | hm
      · cases heq
      · exact h.below frame hm w' body' heq
    · intro w' hw'
      rcases mem_cons.mp hw' with heq | hw'
      · cases heq
      · exact hheld rfl w' hw'
    · cases hw'
      exact h.held w mem_cons_self
  | restore => exact ⟨.of_plain h.below (hheld rfl) (fun _ => nofun) fun _ => nofun, .rfl⟩
  | fail => exact ⟨.of_plain h.below (hheld rfl) (fun _ => nofun) fun _ => nofun, .rfl⟩
  | give exit =>
    exact ⟨.of_plain (h.plain nofun nofun nofun) h.held (fun _ => nofun) fun _ => nofun, .rfl⟩
  | eval others effect =>
    refine ⟨.others (h.plain nofun nofun nofun) h.held others effect, ?_⟩
    simp only [Fiber.calls, calls_others, Control.calls]
    exact .rfl
  | pop exit => exact ⟨.of_plain h.below (hheld rfl) (fun _ => nofun) fun _ => nofun, .rfl⟩
  | call others effect =>
    refine ⟨.others h.below (hheld rfl) others effect, ?_⟩
    simp only [Fiber.calls, calls_others, Control.calls]
    exact .rfl
  | finished => exact ⟨.of_plain nofun nofun (fun _ => nofun) fun _ _ => rfl, .rfl⟩

/-- A fiber that moves by itself is not at the semaphore. -/
theorem Fiber.Moves.apart (hm : f.Moves f') :
    f.requests = [] ∧ f'.requests = [] ∧ f.parked = [] ∧ f'.parked = [] ∧ f.control ≠ .releasing ∧
      f'.control ≠ .releasing := by
  cases hm <;> exact ⟨rfl, rfl, rfl, rfl, nofun, nofun⟩

/-! ### Semaphores -/

/-- What holds of a semaphore, whoever takes and releases. -/
structure Semaphore.Kept (permits : ℚ) (s : Semaphore) : Prop where
  settled : s.latch.settled = none
  total : s.latch.permits = permits
  taken : s.latch.taken = (s.granted.map Waiter.permits).sum - s.released.sum
  bound : s.latch.taken ≤ permits
  positive : ∀ w ∈ s.requested, 0 < w.permits
  distinct : (s.requested.map Waiter.operation).Nodup
  /-- A request is about to be made, waits, or was granted, once and with its weight. -/
  requests : (s.fibers.flatMap Fiber.requests ++ s.latch.waiters ++ s.granted).Perm s.requested
  parked : (s.fibers.flatMap Fiber.parked).Perm s.latch.waiters
  /-- A call of `withPermits` has a fiber that is in it, or returned its permits, once. -/
  calls : (s.fibers.flatMap Fiber.calls ++ s.returned).Perm s.entered
  entered : s.entered.Sublist s.requested
  framed : ∀ f ∈ s.fibers, f.Framed s.granted
  returned : ∀ w ∈ s.returned, w ∈ s.granted
  gaveBack : (s.returned.map Waiter.permits).Sublist s.released
  /-- Once no release runs, no request that waits fits. -/
  fits : (∀ f ∈ s.fibers, f.control ≠ .releasing) → ∀ w ∈ s.latch.waiters, s.latch.free < w.permits

theorem semaphore_new {permits : ℚ} (hp : 0 ≤ permits) : (Semaphore.new permits).Kept permits where
  settled := rfl
  total := rfl
  taken := (sub_zero 0).symm
  bound := hp
  positive _ h := by cases h
  distinct := nodup_nil
  requests := .rfl
  parked := .rfl
  calls := .rfl
  entered := .slnil
  framed _ h := by cases h
  returned _ h := by cases h
  gaveBack := .slnil
  fits _ _ h := by cases h

variable {permits : ℚ} {s s' : Semaphore} {before after : List Fiber}

/-- One fiber changes, and the lists with it. -/
theorem perm_update {α β : Type} {g : α → List β} {before after : List α} {a a' : α} {rest rest' total : List β}
    (h : ((before ++ a :: after).flatMap g ++ rest).Perm total) (hc : (g a' ++ rest').Perm (g a ++ rest)) :
    ((before ++ a' :: after).flatMap g ++ rest').Perm total := by
  have hmiddle (b : α) (rest : List β) :
      ((before ++ b :: after).flatMap g ++ rest).Perm ((before ++ after).flatMap g ++ (g b ++ rest)) := by
    rw [← append_assoc]
    exact ((perm_middle.flatMap_right g).trans perm_append_comm).append_right rest
  exact (hmiddle ..).trans ((hc.append_left _).trans ((hmiddle ..).symm.trans h))

theorem mem_update {fibers : List Fiber} (hf : fibers = before ++ f :: after) {P : Fiber → Prop}
    (h : ∀ g ∈ fibers, P g) (hf' : P f') : ∀ g ∈ before ++ f' :: after, P g := by
  intro g hg
  rcases mem_append.mp hg with hg | hg
  · exact h g (hf ▸ mem_append_left _ hg)
  · rcases mem_cons.mp hg with rfl | hg
    · exact hf'
    · exact h g (hf ▸ mem_append_right _ (mem_cons_of_mem _ hg))

/-- No release runs if none runs once a fiber that is in none has moved. -/
theorem idle_before {fibers : List Fiber} (hf : fibers = before ++ f :: after) (hc : f.control ≠ .releasing)
    (h : ∀ g ∈ before ++ f' :: after, g.control ≠ .releasing) : ∀ g ∈ fibers, g.control ≠ .releasing :=
  hf ▸ mem_update (P := fun g => g.control ≠ .releasing) rfl h hc

theorem Semaphore.Kept.spawn (h : s.Kept permits) (effect : Effect) :
    Kept permits { s with fibers := s.fibers ++ [⟨.eval effect, []⟩] } where
  settled := h.settled
  total := h.total
  taken := h.taken
  bound := h.bound
  positive := h.positive
  distinct := h.distinct
  requests := by simpa [Fiber.requests] using h.requests
  parked := by simpa [Fiber.parked] using h.parked
  calls := by simpa [Fiber.calls, Control.calls] using h.calls
  entered := h.entered
  framed f hf := by
    rcases mem_append.mp hf with hf | hf
    · exact h.framed f hf
    · rw [mem_singleton.mp hf]
      exact .of_plain nofun nofun nofun nofun
  returned := h.returned
  gaveBack := h.gaveBack
  fits hidle := h.fits fun f hf => hidle f (mem_append_left _ hf)

/-- What a step of one fiber has to keep. -/
theorem Semaphore.Kept.step (h : s.Kept permits) (hf : s.fibers = before ++ f :: after) {latch : Latch Exit}
    {granted returned : List Waiter} {released : List ℚ} (hsettled : latch.settled = none) (htotal : latch.permits = permits)
    (htaken : latch.taken = (granted.map Waiter.permits).sum - released.sum) (hbound : latch.taken ≤ permits)
    (hrequests : (f'.requests ++ (latch.waiters ++ granted)).Perm (f.requests ++ (s.latch.waiters ++ s.granted)))
    (hparked : (f'.parked ++ s.latch.waiters).Perm (f.parked ++ latch.waiters))
    (hcalls : (f'.calls ++ returned).Perm (f.calls ++ s.returned))
    (hg : s.granted ⊆ granted) (hframed : f'.Framed granted) (hreturned : ∀ w ∈ returned, w ∈ granted)
    (hback : (returned.map Waiter.permits).Sublist released)
    (hfits : (∀ f ∈ before ++ f' :: after, f.control ≠ .releasing) → ∀ w ∈ latch.waiters, latch.free < w.permits) :
    Kept permits { s with
      latch := latch, fibers := before ++ f' :: after, granted := granted, returned := returned, released := released } where
  settled := hsettled
  total := htotal
  taken := htaken
  bound := hbound
  positive := h.positive
  distinct := h.distinct
  requests := by
    have hr := h.requests
    rw [hf, append_assoc] at hr
    rw [append_assoc]
    exact perm_update hr hrequests
  parked := by
    have hp := h.parked
    rw [hf] at hp
    have hswap : ((before ++ f' :: after).flatMap Fiber.parked ++ f.parked).Perm
        ((before ++ f :: after).flatMap Fiber.parked ++ f'.parked) := perm_update .rfl perm_append_comm
    refine (perm_append_right_iff f.parked).mp (hswap.trans ((hp.append_right _).trans ?_))
    exact perm_append_comm.trans (hparked.trans perm_append_comm)
  calls := by
    have hc := h.calls
    rw [hf] at hc
    exact perm_update hc hcalls
  entered := h.entered
  framed := mem_update (P := Fiber.Framed granted) hf (fun f hm => (h.framed f hm).mono hg) hframed
  returned := hreturned
  gaveBack := hback
  fits := hfits

theorem Semaphore.Kept.move (h : s.Kept permits) (hf : s.fibers = before ++ f :: after) (hm : f.Moves f') :
    Kept permits { s with fibers := before ++ f' :: after } := by
  obtain ⟨hreq, hreq', hpark, hpark', hrel, -⟩ := hm.apart
  obtain ⟨hframed, hcalls⟩ := hm.framed (h.framed f (hf ▸ mem_append_right _ mem_cons_self))
  refine h.step hf h.settled h.total h.taken h.bound ?_ ?_ (hcalls.append_right _) (fun _ => id) hframed h.returned
    h.gaveBack fun hidle => h.fits (idle_before hf hrel hidle)
  · rw [hreq, hreq']
  · rw [hpark, hpark']

/-- A fiber makes a request, in a call of `withPermits` or not. -/
theorem Semaphore.Kept.request (h : s.Kept permits) (hf : s.fibers = before ++ f :: after)
    (hw : 0 < w.permits) (ho : w.operation ∉ s.requested.map Waiter.operation) {call : List Waiter}
    (hcall : call.Sublist [w]) (hreq : f.requests = []) (hreq' : f'.requests = [w]) (hpark : f.parked = f'.parked)
    (hcalls : f'.calls = call ++ f.calls) (hframed : f'.Framed s.granted) (hc : f.control ≠ .releasing) :
    Kept permits { s with
      fibers := before ++ f' :: after, requested := s.requested ++ [w], entered := s.entered ++ call } where
  settled := h.settled
  total := h.total
  taken := h.taken
  bound := h.bound
  positive w' hw' := by
    rcases mem_append.mp hw' with hw' | hw'
    · exact h.positive w' hw'
    · rw [mem_singleton.mp hw']
      exact hw
  distinct := by
    rw [map_append]
    exact h.distinct.append (nodup_singleton w.operation) (by simpa using ho)
  requests := by
    have hr := h.requests.append_right [w]
    rw [hf, append_assoc, append_assoc] at hr
    rw [append_assoc]
    refine perm_update hr ?_
    rw [hreq, hreq', nil_append, ← append_assoc s.latch.waiters]
    exact perm_append_comm
  parked := by
    have hp := h.parked
    rw [hf, ← append_nil (List.flatMap ..)] at hp
    rw [← append_nil (List.flatMap ..)]
    exact perm_update hp (by rw [hpark])
  calls := by
    have hcs := h.calls.append_right call
    rw [hf, append_assoc] at hcs
    refine perm_update hcs ?_
    rw [hcalls, append_assoc, ← append_assoc f.calls]
    exact perm_append_comm
  entered := h.entered.append hcall
  framed := mem_update (P := Fiber.Framed s.granted) hf h.framed hframed
  returned := h.returned
  gaveBack := h.gaveBack
  fits hidle := h.fits (idle_before hf hc hidle)

theorem Semaphore.Step.kept (h : s.Kept permits) (hs : Step s s') : s'.Kept permits := by
  cases hs with
  | spawn effect => exact h.spawn effect
  | move hf hm => exact h.move hf hm
  | @take before after frames w hf hw ho =>
    have hframed := h.framed _ (hf ▸ mem_append_right _ mem_cons_self)
    have hasks : Fiber.Framed s.granted ⟨.request w, frames⟩ :=
      .of_plain (hframed.plain nofun nofun nofun) hframed.held nofun nofun
    have hk : Semaphore.Kept permits { s with
        fibers := before ++ ⟨.request w, frames⟩ :: after
        requested := s.requested ++ [w], entered := s.entered ++ [] } :=
      h.request hf hw ho (nil_sublist _) rfl rfl rfl rfl hasks nofun
    simpa using hk
  | @withPermits before after frames w body hf hw ho =>
    have hframed := h.framed _ (hf ▸ mem_append_right _ mem_cons_self)
    have hplain := hframed.plain nofun nofun nofun
    refine h.request hf hw ho (List.Sublist.refl _) rfl rfl rfl rfl ⟨?_, hplain, ?_, nofun, nofun⟩ nofun
    · intro w' body' frames' heq
      cases heq
      exact .inl rfl
    · intro w' hw'
      rcases mem_cons.mp hw' with heq | hw'
      · cases heq
      · exact hframed.held w' hw'
  | @park before after frames w latch hf hp =>
    obtain ⟨hfree, rfl⟩ := latchPark_none hp
    have hframed := h.framed _ (hf ▸ mem_append_right _ mem_cons_self)
    refine h.step hf h.settled h.total h.taken h.bound ?_ ?_ .rfl (fun _ => id) ⟨?_, hframed.below, hframed.held, nofun, nofun⟩
      h.returned h.gaveBack fun hidle w' hw' => ?_
    · change ([] ++ ((s.latch.waiters ++ [w]) ++ s.granted)).Perm ([w] ++ (s.latch.waiters ++ s.granted))
      rw [nil_append, append_assoc]
      exact perm_append_comm_assoc ..
    · exact perm_append_comm
    · intro w' body' frames' heq
      rcases hframed.body w' body' frames' heq with hc | hc | ⟨hc, -⟩
      · cases hc
        exact .inr (.inl rfl)
      · cases hc
      · cases hc
    · rcases mem_append.mp hw' with hw' | hw'
      · exact h.fits (idle_before hf nofun hidle) w' hw'
      · rw [mem_singleton.mp hw']
        exact hfree
  | @ready before after frames w latch hf hp =>
    obtain ⟨hfree, rfl⟩ := latchPark_granted hp
    have hmem := hf ▸ mem_append_right before (mem_cons_self (a := Fiber.mk (.request w) frames) (l := after))
    have hpos : 0 < w.permits := h.positive w (h.requests.subset (mem_append_left _ (mem_append_left _
      (mem_flatMap.mpr ⟨_, hmem, mem_cons_self⟩))))
    refine h.step hf h.settled h.total ?_ ?_ ?_ .rfl .rfl (subset_append_left ..) ((h.framed _ hmem).grant (.inl rfl))
      (fun w' hw' => mem_append_left _ (h.returned w' hw')) h.gaveBack fun hidle w' hw' => ?_
    · change s.latch.taken + w.permits = _
      rw [h.taken, map_append, sum_append, map_singleton, sum_singleton]
      linarith
    · have htotal := h.total
      rw [Latch.free] at hfree
      change s.latch.taken + w.permits ≤ permits
      linarith
    · change ([] ++ (s.latch.waiters ++ (s.granted ++ [w]))).Perm ([w] ++ (s.latch.waiters ++ s.granted))
      rw [nil_append, ← append_assoc]
      exact perm_append_comm
    · have hfits := h.fits (idle_before hf nofun hidle) w' hw'
      rw [Latch.free] at hfits ⊢
      change s.latch.permits - (s.latch.taken + w.permits) < w'.permits
      linarith
  | @release before after frames n hf hn =>
    have hframed := h.framed _ (hf ▸ mem_append_right _ mem_cons_self)
    refine h.step hf h.settled h.total ?_ ?_ .rfl .rfl .rfl (fun _ => id)
      (.of_plain (hframed.plain nofun nofun nofun) hframed.held nofun nofun) h.returned
      (h.gaveBack.trans (sublist_append_left ..))
      fun hidle => absurd rfl (hidle ⟨.releasing, frames⟩ (mem_append_right _ mem_cons_self))
    · change s.latch.taken - n = _
      rw [h.taken, sum_append, sum_singleton]
      linarith
    · exact (sub_le_self _ hn.le).trans h.bound
  | @giveBack before after frames w hf =>
    have hmem := hf ▸ mem_append_right before (mem_cons_self (a := Fiber.mk (.giveBack w) frames) (l := after))
    have hframed := h.framed _ hmem
    have hgranted := hframed.giveBack w rfl
    have hpos : 0 < w.permits := h.positive w (h.requests.subset (mem_append_right _ hgranted))
    refine h.step hf h.settled h.total ?_ ?_ .rfl .rfl ?_ (fun _ => id)
      (.of_plain (hframed.plain nofun nofun nofun) hframed.held nofun nofun) (fun w' hw' => ?_)
      (map_append ▸ h.gaveBack.append (List.Sublist.refl _))
      fun hidle => absurd rfl (hidle ⟨.releasing, frames⟩ (mem_append_right _ mem_cons_self))
    · change s.latch.taken - w.permits = _
      rw [h.taken, sum_append, sum_singleton]
      linarith
    · exact (sub_le_self _ hpos.le).trans h.bound
    · change (frames.flatMap Frame.calls ++ (s.returned ++ [w])).Perm ([w] ++ frames.flatMap Frame.calls ++ s.returned)
      rw [← append_assoc, append_assoc [w]]
      exact perm_append_comm
    · rcases mem_append.mp hw' with hw' | hw'
      · exact h.returned w' hw'
      · rw [mem_singleton.mp hw']
        exact hgranted
  | @grant before after f frames w latch hr hc hg hf =>
    obtain ⟨hfree, hwaiters, htaken, htotal, hsettled⟩ := grant_some hg
    have hmem := hf ▸ mem_append_right before (mem_cons_self (a := Fiber.mk (.parked w) frames) (l := after))
    refine h.step hf (hsettled.trans h.settled) (htotal.trans h.total) ?_ ?_ ?_ hwaiters.symm .rfl
      (subset_append_left ..) ((h.framed _ hmem).grant (.inr rfl))
      (fun w' hw' => mem_append_left _ (h.returned w' hw')) h.gaveBack fun hidle => ?_
    · rw [htaken, h.taken, map_append, sum_append, map_singleton, sum_singleton]
      linarith
    · have hp := h.total
      rw [Latch.free] at hfree
      linarith
    · change ([] ++ (latch.waiters ++ (s.granted ++ [w]))).Perm ([] ++ (s.latch.waiters ++ s.granted))
      rw [nil_append, nil_append, ← append_assoc]
      exact (perm_append_comm).trans (hwaiters.append_right s.granted)
    · refine absurd hc (hidle f ?_)
      rw [hf] at hr
      rcases mem_append.mp hr with hr | hr
      · exact mem_append_left _ hr
      · rcases mem_cons.mp hr with rfl | hr
        · cases hc
        · exact mem_append_right _ (mem_cons_of_mem _ hr)
  | @done before after frames hf hg =>
    have hframed := h.framed _ (hf ▸ mem_append_right _ mem_cons_self)
    refine h.step hf h.settled h.total h.taken h.bound .rfl .rfl .rfl (fun _ => id)
      (.of_plain (hframed.plain nofun nofun nofun) hframed.held nofun nofun) h.returned h.gaveBack fun _ => ?_
    refine grant_none hg fun w hw => h.positive w (h.requests.subset ?_)
    exact mem_append_left _ (mem_append_right _ hw)

theorem Semaphore.Run.kept (hp : 0 ≤ permits) (h : Run (.new permits) s) : s.Kept permits := by
  induction h with
  | nil => exact semaphore_new hp
  | snoc _ hs ih => exact hs.kept ih

/-- A fiber that ended is in no call. -/
theorem Fiber.Framed.calls_ended (h : f.Framed granted) {exit : Exit} (he : f.control = .ended exit) : f.calls = [] := by
  rw [Fiber.calls, he, h.ended exit he]
  rfl

/-! ### Accounts -/

theorem latches_account :
    (∀ (permits : ℚ) (s : Semaphore), 0 ≤ permits → Semaphore.Run (.new permits) s →
      s.Kept permits ∧ ∀ f ∈ s.fibers, ∀ exit, f.control = .ended exit → f.calls = []) ∧
    ∀ (O : Type) (d : Deferred O), Deferred.Run .new d →
      d.Kept ∧ ∀ outcome, d.latch.settled = some outcome → ∀ d', Deferred.Run d d' → d'.latch.settled = some outcome := by
  refine ⟨fun permits s hp h => ⟨h.kept hp, fun f hf exit he => ?_⟩, fun O d h => ⟨h.kept, fun outcome hs d' hr => ?_⟩⟩
  · exact ((h.kept hp).framed f hf).calls_ended he
  · exact hr.settled hs

/-- A fiber that is in a call for the one permit. -/
def heldSemaphore : Semaphore where
  latch := ⟨none, 1, 1, []⟩
  fibers := [⟨.eval .other, [.held ⟨1, 0⟩]⟩]
  requested := [⟨1, 0⟩]
  granted := [⟨1, 0⟩]
  entered := [⟨1, 0⟩]
  returned := []
  released := []

theorem heldSemaphore_run : Semaphore.Run (.new 1) heldSemaphore := by
  have hspawn := Semaphore.Run.nil.snoc (.spawn (s := .new 1) (.withPermits 1 .other))
  have hrequest := hspawn.snoc (@Semaphore.Step.withPermits _ [] [] [] ⟨1, 0⟩ .other rfl (by decide) (by decide))
  have hready := hrequest.snoc
    (@Semaphore.Step.ready _ [] [] [.body ⟨1, 0⟩ .other] ⟨1, 0⟩ ⟨none, 1, 1, []⟩ rfl (by decide +kernel))
  exact hready.snoc (@Semaphore.Step.move _ [] [] _ _ rfl .body)

theorem latches_account_held : heldSemaphore.Kept 1 :=
  (latches_account.1 1 heldSemaphore (by decide +kernel) heldSemaphore_run).1

/-- A release of two permits that has granted one of them, while one more request waits. -/
def betweenRounds : Semaphore where
  latch := ⟨none, 2, 1, [⟨1, 2⟩]⟩
  fibers := [⟨.give .success, []⟩, ⟨.ended .success, []⟩, ⟨.parked ⟨1, 2⟩, []⟩, ⟨.releasing, []⟩]
  requested := [⟨2, 0⟩, ⟨1, 1⟩, ⟨1, 2⟩]
  granted := [⟨2, 0⟩, ⟨1, 1⟩]
  entered := []
  returned := []
  released := [2]

theorem betweenRounds_run : Semaphore.Run (.new 2) betweenRounds := by
  have hspawn := Semaphore.Run.nil.snoc (.spawn (s := .new 2) (.take 2))
  have htake := hspawn.snoc (@Semaphore.Step.take _ [] [] [] ⟨2, 0⟩ rfl (by decide +kernel) (by decide))
  have hready := htake.snoc (@Semaphore.Step.ready _ [] [] [] ⟨2, 0⟩ ⟨none, 2, 2, []⟩ rfl (by decide +kernel))
  have hspawn := hready.snoc (.spawn (.take 1))
  have htake := hspawn.snoc (@Semaphore.Step.take _ [_] [] [] ⟨1, 1⟩ rfl (by decide +kernel) (by decide))
  have hpark := htake.snoc (@Semaphore.Step.park _ [_] [] [] ⟨1, 1⟩ ⟨none, 2, 2, [⟨1, 1⟩]⟩ rfl (by decide +kernel))
  have hspawn := hpark.snoc (.spawn (.take 1))
  have htake := hspawn.snoc (@Semaphore.Step.take _ [_, _] [] [] ⟨1, 2⟩ rfl (by decide +kernel) (by decide))
  have hpark := htake.snoc
    (@Semaphore.Step.park _ [_, _] [] [] ⟨1, 2⟩ ⟨none, 2, 2, [⟨1, 1⟩, ⟨1, 2⟩]⟩ rfl (by decide +kernel))
  have hspawn := hpark.snoc (.spawn (.release 2))
  have hrelease := hspawn.snoc (@Semaphore.Step.release _ [_, _, _] [] [] 2 rfl (by decide +kernel))
  have hgrant := hrelease.snoc (@Semaphore.Step.grant _ [_] [_, _] ⟨.releasing, []⟩ [] ⟨1, 1⟩
    ⟨none, 2, 1, [⟨1, 2⟩]⟩ (by decide) rfl (by decide +kernel) rfl)
  exact hgrant.snoc (@Semaphore.Step.move _ [_] [_, _] _ _ rfl .finished)

/-- What a fiber does in the middle of a release, where a request that would fit still waits. -/
theorem semaphore_waits :
    ¬ ∀ (permits : ℚ) (s : Semaphore), 0 ≤ permits → Semaphore.Run (.new permits) s →
      ∀ w ∈ s.latch.waiters, s.latch.free < w.permits := by
  intro h
  have hfits := h 2 betweenRounds (by decide +kernel) betweenRounds_run ⟨1, 2⟩ (by decide)
  exact absurd hfits (by decide +kernel)

end Scriptc.RuntimeRust.EffectLatch
