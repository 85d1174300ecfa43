import Scriptc.RuntimeRust.EffectQueue
import Scriptc.RuntimeRust.EffectQueueRuns

/-!
# Hubs of publications

`effect_pubsub.rs`. A subscription is a queue that only the hub fills. As for the queues, an operation
changes the hub before it resumes a fiber; where `queue_wake` has no one to resume, what follows it is
part of the same step. A subscription is not dropped before its scope is closed.
-/

namespace Scriptc.RuntimeRust.EffectPubSub

open Scriptc.RuntimeRust.Effect List

variable {V : Type}

/-- A subscription with its queue. -/
structure Subscription (V : Type) where
  queue : QueueState V
  /-- Whether the hub has it. -/
  subscribed : Bool
  /-- The number of messages that were accepted before. -/
  since : ℕ
  deriving DecidableEq

/-- A hub with its subscribers, and the publishers that wait. -/
structure PubSubState (V : Type) where
  /-- In the order in which they subscribed, with those that left. -/
  subscribers : List (Subscription V)
  capacity : Capacity
  strategy : Strategy
  shutdown : Bool
  publishers : List (Item V)
  draining : Bool
  /-- The messages in the order in which they were accepted. -/
  accepted : List (Item V)
  /-- The publications that had to wait, in the order in which they were made. -/
  parked : List (Item V)
  /-- Those of them that a drain accepted. -/
  drained : List (Item V)
  deriving DecidableEq

/-- `effect_pubsub_make` -/
def PubSubState.make (capacity : Capacity) (strategy : Strategy) : PubSubState V where
  subscribers := []
  capacity := capacity
  strategy := strategy
  shutdown := false
  publishers := []
  draining := false
  accepted := []
  parked := []
  drained := []

def Subscription.full (capacity : Capacity) (s : Subscription V) : Bool :=
  s.subscribed && !s.queue.shutdown && !capacity.room s.queue.items.length

/-- `pubsub_full` -/
def PubSubState.full (hub : PubSubState V) : Bool := hub.subscribers.any (Subscription.full hub.capacity)

/-- `pubsub_broadcast` for one subscriber, and the taker that it resumes. -/
def Subscription.receive (item : Item V) (s : Subscription V) : Subscription V × List (ℕ × Outcome V) :=
  if s.subscribed && !s.queue.shutdown then
    match s.queue.takers with
    | taker :: takers =>
      ({ s with queue := { s.queue with
          takers := takers
          accepted := s.queue.accepted ++ [item]
          removed := s.queue.removed ++ [(item, some taker)] } }, [(taker, .item item.value)])
    | [] =>
      ({ s with queue := { s.queue with
          items := s.queue.items ++ [item], accepted := s.queue.accepted ++ [item] } }, [])
  else (s, [])

/-- `pubsub_broadcast` -/
def PubSubState.broadcast (hub : PubSubState V) (item : Item V) : PubSubState V × List (ℕ × Outcome V) :=
  ({ hub with
      subscribers := hub.subscribers.map fun s => (s.receive item).1
      accepted := hub.accepted ++ [item] },
    hub.subscribers.flatMap fun s => (s.receive item).2)

/-- One round of the loop of `pubsub_drain`, which ends where there is nothing to accept. -/
def PubSubState.round (hub : PubSubState V) : PubSubState V × List (ℕ × Outcome V) :=
  match hub.full, hub.publishers with
  | false, item :: publishers =>
    let accepted := hub.broadcast item
    ({ accepted.1 with publishers := publishers, drained := hub.drained ++ [item] },
      (item.offer, .answer true) :: accepted.2)
  | _, _ => ({ hub with draining := false }, [])

/-- What `effect_pubsub_publish` does to a subscriber to make room. -/
def Subscription.slide (capacity : Capacity) (s : Subscription V) : Subscription V :=
  if s.subscribed && !capacity.room s.queue.items.length then
    { s with queue := { s.queue with
        items := s.queue.items.tail
        removed := s.queue.removed ++ s.queue.items.head?.toList.map fun oldest => (oldest, none) } }
  else s

def PubSubState.slide (hub : PubSubState V) : PubSubState V :=
  { hub with subscribers := hub.subscribers.map (Subscription.slide hub.capacity) }

/-- The hub after an operation, what the operation ends with at once, and the fibers it resumes. -/
structure Stepped (V : Type) where
  hub : PubSubState V
  outcome : Option (Outcome V)
  wake : List (ℕ × Outcome V)
  deriving DecidableEq

/-- `effect_pubsub_publish`; a publication that has to wait calls `pubsub_drain`. -/
def PubSubState.publish (hub : PubSubState V) (item : Item V) : Stepped V :=
  if hub.shutdown then ⟨hub, some (.answer false), []⟩
  else if hub.strategy = .suspending ∧ (hub.full ∨ !hub.publishers.isEmpty) then
    ⟨{ hub with
        publishers := hub.publishers ++ [item], parked := hub.parked ++ [item], draining := true }, none, []⟩
  else if hub.full ∧ hub.strategy = .dropping then ⟨hub, some (.answer false), []⟩
  else
    let room := if hub.full then hub.slide else hub
    ⟨(room.broadcast item).1, some (.answer true), (room.broadcast item).2⟩

/-- `effect_pubsub_subscribe` -/
def PubSubState.subscribe (hub : PubSubState V) : PubSubState V :=
  let queue : QueueState V := .new hub.capacity hub.strategy
  { hub with
    subscribers := hub.subscribers ++
      [⟨if hub.shutdown then (queueClose queue).queue else queue, !hub.shutdown, hub.accepted.length⟩] }

/-- The subscriber that is closed, by its release or with the hub. -/
def Subscription.close (s : Subscription V) : Subscription V × List (ℕ × Outcome V) :=
  ({ s with subscribed := false, queue := (queueClose s.queue).queue }, (queueClose s.queue).wake)

/-! ### Runs -/

/-- A hub with the operations on it. -/
structure Fibers (V : Type) where
  hub : PubSubState V
  /-- The operations, with what they publish. -/
  issued : List (ℕ × Option V)
  waking : List (ℕ × Outcome V)
  ended : List (ℕ × Outcome V)
  /-- The releases that are resuming fibers, and drain next. -/
  leaving : ℕ
  /-- The shutdowns that are resuming fibers, and drain next. -/
  closing : ℕ
  deriving DecidableEq

def Fibers.make (capacity : Capacity) (strategy : Strategy) : Fibers V where
  hub := .make capacity strategy
  issued := []
  waking := []
  ended := []
  leaving := 0
  closing := 0

inductive Step : Fibers V → Fibers V → Prop where
  | subscribe {s : Fibers V} : Step s { s with hub := s.hub.subscribe }
  /-- `queue_step` of a subscription. A take that is answered has freed room. -/
  | take {s : Fibers V} (before after : List (Subscription V)) (subscriber : Subscription V) (waiter : ℕ)
    (hs : s.hub.subscribers = before ++ subscriber :: after) (hw : waiter ∉ s.issued.map Prod.fst) :
    Step s { s with
      hub := { s.hub with
        subscribers := before ++ { subscriber with queue := (queueTake subscriber.queue waiter).queue } :: after
        draining := s.hub.draining ||
          ((queueTake subscriber.queue waiter).outcome.isSome && !subscriber.queue.shutdown) }
      issued := s.issued ++ [(waiter, none)]
      waking := s.waking ++ (queueTake subscriber.queue waiter).wake
      ended := s.ended ++ (queueTake subscriber.queue waiter).outcome.toList.map (waiter, ·) }
  | publish {s : Fibers V} (waiter : ℕ) (value : V) (hw : waiter ∉ s.issued.map Prod.fst) :
    Step s { s with
      hub := (s.hub.publish ⟨value, waiter⟩).hub
      issued := s.issued ++ [(waiter, some value)]
      waking := s.waking ++ (s.hub.publish ⟨value, waiter⟩).wake
      ended := s.ended ++ (s.hub.publish ⟨value, waiter⟩).outcome.toList.map (waiter, ·) }
  | round {s : Fibers V} (hd : s.hub.draining = true) :
    Step s { s with hub := s.hub.round.1, waking := s.waking ++ s.hub.round.2 }
  /-- The release of a subscription. -/
  | unsubscribe {s : Fibers V} (before after : List (Subscription V)) (subscriber : Subscription V)
    (hs : s.hub.subscribers = before ++ subscriber :: after) :
    Step s { s with
      hub := { s.hub with
        subscribers := before ++ subscriber.close.1 :: after
        draining := s.hub.draining || subscriber.close.2.isEmpty }
      waking := s.waking ++ subscriber.close.2
      leaving := if subscriber.close.2.isEmpty then s.leaving else s.leaving + 1 }
  | left {s : Fibers V} (n : ℕ) (hn : s.leaving = n + 1) :
    Step s { s with hub := { s.hub with draining := true }, leaving := n }
  /-- `effect_pubsub_shutdown` -/
  | shutdown {s : Fibers V} (wake : List (ℕ × Outcome V))
    (hw : wake = s.hub.subscribers.flatMap fun subscriber => if subscriber.subscribed then subscriber.close.2 else []) :
    Step s { s with
      hub := { s.hub with
        shutdown := true
        subscribers := s.hub.subscribers.map fun subscriber =>
          if subscriber.subscribed then subscriber.close.1 else subscriber
        draining := s.hub.draining || wake.isEmpty }
      waking := s.waking ++ wake
      closing := if wake.isEmpty then s.closing else s.closing + 1 }
  | closed {s : Fibers V} (n : ℕ) (hn : s.closing = n + 1) :
    Step s { s with hub := { s.hub with draining := true }, closing := n }
  | resume {s : Fibers V} (before after : List (ℕ × Outcome V)) (fiber : ℕ × Outcome V)
    (hw : s.waking = before ++ fiber :: after) :
    Step s { s with waking := before ++ after, ended := s.ended ++ [fiber] }

inductive Run (s : Fibers V) : Fibers V → Prop where
  | nil : Run s s
  | snoc {s' s'' : Fibers V} (h : Run s s') (hs : Step s' s'') : Run s s''

/-!
## Subscriptions

What a subscriber accepted is what the hub accepted since it subscribed. The books of the queues are
kept for the takes of all subscribers.
-/

variable {V : Type} {b : Books V} {refuses closed : Prop}

/-! ### Books of several queues -/

/-- A message is received by all subscribers. -/
theorem kept_receive {subscribers : List (Subscription V)} {takers : List ℕ} {removed : List (Item V × Option ℕ)}
    {fates : List (ℕ × Outcome V)} (item : Item V)
    (h : Books.Kept { b with
      takers := subscribers.flatMap (·.queue.takers) ++ takers
      removed := subscribers.flatMap (·.queue.removed) ++ removed
      fates := fates } refuses closed) :
    Books.Kept { b with
      takers := (subscribers.map fun s => (s.receive item).1).flatMap (·.queue.takers) ++ takers
      removed := (subscribers.map fun s => (s.receive item).1).flatMap (·.queue.removed) ++ removed
      fates := (subscribers.flatMap fun s => (s.receive item).2) ++ fates } refuses closed := by
  induction subscribers generalizing takers removed fates with
  | nil => exact h
  | cons s subscribers ih =>
    have hhead : Books.Kept { b with
        takers := subscribers.flatMap (·.queue.takers) ++ ((s.receive item).1.queue.takers ++ takers)
        removed := subscribers.flatMap (·.queue.removed) ++ ((s.receive item).1.queue.removed ++ removed)
        fates := (s.receive item).2 ++ fates } refuses closed := by
      unfold Subscription.receive
      split
      · split
        · next taker rest ht =>
          have htakers : (s :: subscribers).flatMap (·.queue.takers) ++ takers =
              taker :: (rest ++ subscribers.flatMap (·.queue.takers) ++ takers) := by simp [ht]
          rw [htakers] at h
          refine ((h.hand rfl item).perm ?_ .rfl .rfl).perm_removed ?_
          · rw [append_assoc]
            exact perm_append_comm_assoc ..
          · simp only [flatMap_cons, append_assoc]
            refine (perm_append_comm_assoc ..).trans ?_
            exact .append_left _ (.append_left _ perm_append_comm)
        · next ht =>
          refine (h.perm ?_ .rfl .rfl).perm_removed ?_
          · simp only [flatMap_cons, append_assoc]
            exact perm_append_comm_assoc ..
          · simp only [flatMap_cons, append_assoc]
            exact perm_append_comm_assoc ..
      · refine (h.perm ?_ .rfl .rfl).perm_removed ?_
        · simp only [flatMap_cons, append_assoc]
          exact perm_append_comm_assoc ..
        · simp only [flatMap_cons, append_assoc]
          exact perm_append_comm_assoc ..
    refine ((ih hhead).perm ?_ .rfl ?_).perm_removed ?_
    · simp only [map_cons, flatMap_cons, append_assoc]
      exact perm_append_comm_assoc ..
    · simp only [flatMap_cons, append_assoc]
      exact perm_append_comm_assoc ..
    · simp only [map_cons, flatMap_cons, append_assoc]
      exact perm_append_comm_assoc ..

/-- The messages that a subscriber loses to the next one. -/
def Subscription.evicted (capacity : Capacity) (s : Subscription V) : List (Item V) :=
  if s.subscribed && !capacity.room s.queue.items.length then s.queue.items.head?.toList else []

theorem slide_queue (capacity : Capacity) (s : Subscription V) :
    (s.slide capacity).queue.takers = s.queue.takers ∧
      (s.slide capacity).queue.removed = s.queue.removed ++ (s.evicted capacity).map (·, none) := by
  unfold Subscription.slide Subscription.evicted
  split
  · exact ⟨rfl, rfl⟩
  · exact ⟨rfl, (append_nil _).symm⟩

theorem slide_removed (capacity : Capacity) (subscribers : List (Subscription V)) :
    ((subscribers.map (Subscription.slide capacity)).flatMap (·.queue.removed)).Perm
      (subscribers.flatMap (·.queue.removed) ++ (subscribers.flatMap (Subscription.evicted capacity)).map (·, none)) := by
  induction subscribers with
  | nil => exact .rfl
  | cons s subscribers ih =>
    simp only [map_cons, flatMap_cons, (slide_queue capacity s).2, map_append, append_assoc]
    refine .append_left _ ?_
    exact (ih.append_left _).trans (perm_append_comm_assoc ..)

theorem slide_takers (capacity : Capacity) (subscribers : List (Subscription V)) :
    (subscribers.map (Subscription.slide capacity)).flatMap (·.queue.takers) =
      subscribers.flatMap (·.queue.takers) := by
  rw [flatMap_map]
  exact congrArg (fun takers => subscribers.flatMap takers) (funext fun s => (slide_queue capacity s).1)

/-! ### Subscriptions -/

/-- A subscriber has what the hub accepted since it subscribed, until it leaves. -/
structure Subscription.Kept (hub : PubSubState V) (s : Subscription V) : Prop where
  capacity : s.queue.capacity = hub.capacity
  strategy : s.queue.strategy = hub.strategy
  subscribed : s.subscribed = !s.queue.shutdown
  offerers : s.queue.offerers = []
  ordered : s.queue.Ordered
  since : s.since ≤ hub.accepted.length
  gets : s.queue.accepted <+: hub.accepted.drop s.since
  current : s.queue.shutdown = false → s.queue.accepted = hub.accepted.drop s.since

variable {hub hub' : PubSubState V} {s : Subscription V}

theorem Subscription.Kept.of_hub (h : s.Kept hub) (hc : hub'.capacity = hub.capacity) (hs : hub'.strategy = hub.strategy)
    (ha : hub'.accepted = hub.accepted) : s.Kept hub' where
  capacity := h.capacity.trans hc.symm
  strategy := h.strategy.trans hs.symm
  subscribed := h.subscribed
  offerers := h.offerers
  ordered := h.ordered
  since := ha ▸ h.since
  gets := ha ▸ h.gets
  current := ha ▸ h.current

theorem subscribe_kept (hub : PubSubState V) :
    Subscription.Kept hub ⟨if hub.shutdown then (queueClose (.new hub.capacity hub.strategy)).queue
      else .new hub.capacity hub.strategy, !hub.shutdown, hub.accepted.length⟩ := by
  have hnew := ordered_new (V := V) hub.capacity hub.strategy
  cases hs : hub.shutdown with
  | true => exact ⟨rfl, rfl, rfl, rfl, hnew.close, le_rfl, nil_prefix, fun h => by cases h⟩
  | false => exact ⟨rfl, rfl, rfl, rfl, hnew, le_rfl, nil_prefix, fun _ => (drop_length).symm⟩

theorem Subscription.Kept.close (h : s.Kept hub) : s.close.1.Kept hub where
  capacity := h.capacity
  strategy := h.strategy
  subscribed := rfl
  offerers := rfl
  ordered := h.ordered.close
  since := h.since
  gets := h.gets
  current hn := by cases hn

/-- A take neither accepts a message nor makes an offer. -/
theorem queueTake_accepted {q : QueueState V} (ho : q.offerers = []) (waiter : ℕ) :
    (queueTake q waiter).queue.accepted = q.accepted ∧ (queueTake q waiter).queue.offerers = [] ∧
      (queueTake q waiter).wake = [] := by
  unfold queueTake
  rw [ho]
  split
  · exact ⟨rfl, ho, rfl⟩
  · split
    · next h => cases h
    · exact ⟨rfl, rfl, rfl⟩
    · next h => cases h
    · exact ⟨rfl, rfl, rfl⟩

theorem Subscription.Kept.take (h : s.Kept hub) (h1 : hub.capacity.room 0 = true) (waiter : ℕ) :
    Subscription.Kept hub { s with queue := (queueTake s.queue waiter).queue } := by
  obtain ⟨hcapacity, hstrategy, hshutdown⟩ := queueTake_settings s.queue waiter
  obtain ⟨haccepted, hofferers, -⟩ := queueTake_accepted h.offerers waiter
  exact {
    capacity := hcapacity.trans h.capacity
    strategy := hstrategy.trans h.strategy
    subscribed := hshutdown ▸ h.subscribed
    offerers := hofferers
    ordered := h.ordered.take (h.capacity ▸ h1) waiter
    since := h.since
    gets := haccepted ▸ h.gets
    current := haccepted ▸ hshutdown ▸ h.current }

/-- A subscriber with room for it receives a message. -/
theorem Subscription.Kept.receive (h : s.Kept hub)
    (hroom : s.subscribed = true → hub.capacity.room s.queue.items.length = true) {item : Item V}
    (ha : hub'.accepted = hub.accepted ++ [item]) (hc : hub'.capacity = hub.capacity)
    (hs : hub'.strategy = hub.strategy) : (s.receive item).1.Kept hub' := by
  have hsince : s.since ≤ hub'.accepted.length := by
    rw [ha, length_append]
    exact h.since.trans (Nat.le_add_right ..)
  have hdrop : hub'.accepted.drop s.since = hub.accepted.drop s.since ++ [item] := by
    rw [ha, drop_append_of_le_length h.since]
  unfold Subscription.receive
  split
  · next hopen =>
    simp only [Bool.and_eq_true, Bool.not_eq_true'] at hopen
    obtain ⟨hsubscribed, hopen⟩ := hopen
    have horder := h.ordered.order hopen
    have hcurrent := h.current hopen
    split
    · next taker takers ht =>
      have hitems : s.queue.items = [] := (h.ordered.takes (by rw [ht]; exact cons_ne_nil _ _)).1
      refine ⟨h.capacity.trans hc.symm, h.strategy.trans hs.symm, h.subscribed, h.offerers, ?_, hsince, ?_, fun _ => ?_⟩
      · refine .of_order hopen ?_ (evicts_take h.ordered.evicts item taker) h.ordered.stored
          (fun _ => ⟨hitems, h.offerers⟩) fun hne => absurd h.offerers hne
        simp [horder, hitems]
      · exact hdrop ▸ hcurrent ▸ prefix_rfl
      · exact hdrop ▸ hcurrent ▸ rfl
    · next ht =>
      refine ⟨h.capacity.trans hc.symm, h.strategy.trans hs.symm, h.subscribed, h.offerers, ?_, hsince, ?_, fun _ => ?_⟩
      · refine .of_order hopen ?_ h.ordered.evicts (fun n hn => ?_) (fun hne => absurd ht hne)
          fun hne => absurd h.offerers hne
        · simp [horder]
        · rcases Nat.lt_or_eq_of_le (Nat.lt_succ_iff.mp (by simpa using hn)) with hlt | rfl
          · exact h.ordered.stored n hlt
          · exact h.capacity ▸ hroom hsubscribed
      · exact hdrop ▸ hcurrent ▸ prefix_rfl
      · exact hdrop ▸ hcurrent ▸ rfl
  · next hclosed =>
    have hshutdown : s.queue.shutdown = true := by
      have hsub := h.subscribed
      cases hq : s.queue.shutdown with
      | true => rfl
      | false => simp [hsub, hq] at hclosed
    refine ⟨h.capacity.trans hc.symm, h.strategy.trans hs.symm, h.subscribed, h.offerers, h.ordered, hsince, ?_, fun hn => ?_⟩
    · exact hdrop ▸ h.gets.trans (prefix_append ..)
    · cases hn.symm.trans hshutdown

/-- A full subscriber of a sliding hub makes room. -/
theorem Subscription.Kept.slide (h : s.Kept hub) (h1 : hub.capacity.room 0 = true) (hs : hub.strategy = .sliding) :
    (s.slide hub.capacity).Kept hub ∧ ((s.slide hub.capacity).subscribed = true →
      hub.capacity.room (s.slide hub.capacity).queue.items.length = true) := by
  unfold Subscription.slide
  split
  · next hfull =>
    simp only [Bool.and_eq_true, Bool.not_eq_true'] at hfull
    obtain ⟨hsubscribed, hfull⟩ := hfull
    have hopen : s.queue.shutdown = false := by simpa [hsubscribed] using h.subscribed
    have horder := h.ordered.order hopen
    cases hi : s.queue.items with
    | nil =>
      rw [hi, length_nil, h1] at hfull
      cases hfull
    | cons oldest items =>
      rw [hi] at horder
      have htakers : s.queue.takers = [] := by
        by_contra hne
        cases hi.symm.trans (h.ordered.takes hne).1
      have hstored : ∀ n < items.length + 1, hub.capacity.room n = true := fun n hn =>
        h.capacity ▸ h.ordered.stored n (by simpa [hi] using hn)
      refine ⟨⟨h.capacity, h.strategy, h.subscribed, h.offerers, ?_, h.since, h.gets, h.current⟩, fun _ => ?_⟩
      · refine .of_order hopen ?_ (fun hne => absurd (h.strategy.trans hs) hne) (fun n hn => ?_)
          (fun hne => absurd htakers hne) fun hne => absurd h.offerers hne
        · simp [horder]
        · exact h.capacity ▸ hstored n (Nat.lt_succ_of_lt (by simpa using hn))
      · exact hstored _ (Nat.lt_succ_self _)
  · next hroom =>
    refine ⟨h, fun hsubscribed => ?_⟩
    simpa [hsubscribed] using hroom

end Scriptc.RuntimeRust.EffectPubSub
