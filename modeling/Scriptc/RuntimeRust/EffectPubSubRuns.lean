import Mathlib.Tactic.Convert
import Scriptc.RuntimeRust.EffectPubSub

/-!
# Hubs of publications: every message to every subscriber

Takes of all subscribers wait or ended, and so do publications. A publication waits only where some
subscriber is full, unless the hub is about to drain.
-/

namespace Scriptc.RuntimeRust.EffectPubSub

open Scriptc.RuntimeRust.Effect List

variable {V : Type} {b : Books V} {refuses closed : Prop} {hub hub' : PubSubState V} {s : Subscription V}

/-! ### Hubs -/

def Fibers.books (s : Fibers V) : Books V where
  takers := s.hub.subscribers.flatMap (·.queue.takers)
  offerers := s.hub.publishers
  accepted := s.hub.accepted
  removed := s.hub.subscribers.flatMap (·.queue.removed)
  issued := s.issued
  fates := s.waking ++ s.ended

def PubSubState.Refuses (hub : PubSubState V) : Prop := hub.shutdown = true ∨ hub.strategy = .dropping

/-- Some subscription was closed. -/
def PubSubState.Left (hub : PubSubState V) : Prop := ∃ s ∈ hub.subscribers, s.queue.shutdown = true

/-- What holds of a hub. -/
structure PubSubState.Sound (capacity : Capacity) (strategy : Strategy) (hub : PubSubState V) : Prop where
  capacity : hub.capacity = capacity
  strategy : hub.strategy = strategy
  subscribers : ∀ s ∈ hub.subscribers, s.Kept hub
  parked : hub.parked = hub.drained ++ hub.publishers
  drained : hub.drained.Sublist hub.accepted
  only : hub.strategy ≠ .suspending → hub.publishers = []

/-- What holds after every step. -/
structure Fibers.Sound (capacity : Capacity) (strategy : Strategy) (s : Fibers V) : Prop where
  hub : s.hub.Sound capacity strategy
  kept : s.books.Kept s.hub.Refuses s.hub.Left
  /-- A publication waits for a full subscriber, unless a drain runs, or follows. -/
  waits : s.hub.draining = false → s.hub.publishers ≠ [] → s.hub.full = true ∨ 0 < s.closing

variable {capacity : Capacity} {strategy : Strategy} {f f' : Fibers V}

theorem sound_make (capacity : Capacity) (strategy : Strategy) :
    (Fibers.make capacity strategy : Fibers V).Sound capacity strategy where
  hub := ⟨rfl, rfl, fun _ h => (by cases h), rfl, List.Sublist.slnil, fun _ => rfl⟩
  kept := {
    distinct := nodup_nil
    places := .rfl
    taking := fun _ h => by cases h
    offering := fun _ h => by cases h
    admitted := fun _ h => by cases h
    gets := .rfl
    admits := .rfl
    fate := fun _ h => by cases h }
  waits _ h := absurd rfl h

theorem room_of_not_full {c : Capacity} (h : ¬s.full c = true) (hs : s.Kept hub) :
    s.subscribed = true → c.room s.queue.items.length = true := by
  intro hsubscribed
  have hopen : s.queue.shutdown = false := by simpa [hsubscribed] using hs.subscribed
  simpa [Subscription.full, hsubscribed, hopen] using h

/-- The subscribers of a hub that has room receive a message. -/
theorem PubSubState.Sound.broadcast (h : hub.Sound capacity strategy)
    (hroom : ∀ s ∈ hub.subscribers, s.subscribed = true → hub.capacity.room s.queue.items.length = true) (item : Item V) :
    (hub.broadcast item).1.Sound capacity strategy where
  capacity := h.capacity
  strategy := h.strategy
  subscribers s hs := by
    obtain ⟨before, hbefore, rfl⟩ := mem_map.mp hs
    exact (h.subscribers before hbefore).receive (hroom before hbefore) rfl rfl rfl
  parked := h.parked
  drained := h.drained.trans (sublist_append_left ..)
  only := h.only

theorem PubSubState.Sound.room (h : hub.Sound capacity strategy) (hf : hub.full = false) :
    ∀ s ∈ hub.subscribers, s.subscribed = true → hub.capacity.room s.queue.items.length = true :=
  fun s hs => room_of_not_full (any_eq_false.mp hf s hs) (h.subscribers s hs)

theorem PubSubState.Sound.slide (h : hub.Sound capacity strategy) (h1 : capacity.room 0 = true)
    (hs : hub.strategy = .sliding) :
    hub.slide.Sound capacity strategy ∧ ∀ s ∈ hub.slide.subscribers, s.subscribed = true →
      hub.slide.capacity.room s.queue.items.length = true := by
  rw [← h.capacity] at h1
  constructor
  · refine { h with subscribers := fun s hmem => ?_ }
    obtain ⟨before, hbefore, rfl⟩ := mem_map.mp hmem
    exact (((h.subscribers before hbefore).slide h1 hs).1).of_hub rfl rfl rfl
  · intro s hmem
    obtain ⟨before, hbefore, rfl⟩ := mem_map.mp hmem
    exact ((h.subscribers before hbefore).slide h1 hs).2

/-! ### Every step -/

variable {before after : List (Subscription V)}

theorem mem_replaced {s' : Subscription V} {P : Subscription V → Prop}
    (hs : hub.subscribers = before ++ s :: after) (h : ∀ t ∈ hub.subscribers, P t) (hs' : P s') :
    ∀ t ∈ before ++ s' :: after, P t := by
  intro t ht
  rcases mem_append.mp ht with ht | ht
  · exact h t (hs ▸ mem_append_left _ ht)
  · rcases mem_cons.mp ht with rfl | ht
    · exact hs'
    · exact h t (hs ▸ mem_append_right _ (mem_cons_of_mem _ ht))

/-- A subscription that is closed stays closed where one subscriber changes. -/
theorem left_replaced {s' : Subscription V}
    (hs : hub.subscribers = before ++ s :: after) (hs' : s.queue.shutdown = true → s'.queue.shutdown = true)
    (h : hub.Left) : ∃ t ∈ before ++ s' :: after, t.queue.shutdown = true := by
  obtain ⟨t, ht, hclosed⟩ := h
  rw [hs] at ht
  rcases mem_append.mp ht with ht | ht
  · exact ⟨t, mem_append_left _ ht, hclosed⟩
  · rcases mem_cons.mp ht with rfl | ht
    · exact ⟨s', mem_append_right _ mem_cons_self, hs' hclosed⟩
    · exact ⟨t, mem_append_right _ (mem_cons_of_mem _ ht), hclosed⟩

theorem left_map {g : Subscription V → Subscription V} {subscribers : List (Subscription V)}
    (hg : ∀ s : Subscription V, s.queue.shutdown = true → (g s).queue.shutdown = true)
    (h : ∃ s ∈ subscribers, s.queue.shutdown = true) : ∃ s ∈ subscribers.map g, s.queue.shutdown = true := by
  obtain ⟨s, hs, hclosed⟩ := h
  exact ⟨g s, mem_map_of_mem hs, hg s hclosed⟩

theorem receive_shutdown (item : Item V) (s : Subscription V) :
    (s.receive item).1.queue.shutdown = s.queue.shutdown := by
  unfold Subscription.receive
  split
  · split <;> rfl
  · rfl

theorem slide_shutdown (c : Capacity) (s : Subscription V) : (s.slide c).queue.shutdown = s.queue.shutdown := by
  unfold Subscription.slide
  split <;> rfl

theorem Fibers.Sound.subscribe (h : f.Sound capacity strategy) :
    Sound capacity strategy { f with hub := f.hub.subscribe } where
  hub := {
    capacity := h.hub.capacity
    strategy := h.hub.strategy
    subscribers := fun s hs => by
      rcases mem_append.mp hs with hs | hs
      · exact (h.hub.subscribers s hs).of_hub rfl rfl rfl
      · rw [mem_singleton.mp hs]
        exact (subscribe_kept f.hub).of_hub rfl rfl rfl
    parked := h.hub.parked
    drained := h.hub.drained
    only := h.hub.only }
  kept := by
    have hbooks : Fibers.books { f with hub := f.hub.subscribe } = f.books := by
      cases hs : f.hub.shutdown <;>
        simp [Fibers.books, PubSubState.subscribe, hs, queueClose, QueueState.new]
    rw [hbooks]
    refine h.kept.weaken id ?_
    rintro ⟨s, hs, hclosed⟩
    exact ⟨s, mem_append_left _ hs, hclosed⟩
  waits hd hp := by
    refine (h.waits hd hp).imp_left fun hfull => ?_
    change ((f.hub.subscribers ++ [_]).any _) = true
    rw [any_append]
    exact Bool.or_eq_true_iff.mpr (.inl hfull)

variable {waiter : ℕ}

/-- A take that is not answered frees no room. -/
theorem queueTake_items {q : QueueState V}
    (h : ((queueTake q waiter).outcome.isSome && !q.shutdown) = false) :
    (queueTake q waiter).queue.items = q.items := by
  unfold queueTake at *
  split
  · rfl
  · next hs =>
    rw [if_neg hs] at h
    have hopen : q.shutdown = false := Bool.eq_false_of_not_eq_true hs
    rw [hopen] at h
    split at h
    · cases h
    · cases h
    · cases h
    · rfl

theorem kept_take (h : f.books.Kept refuses f.hub.Left)
    (hs : f.hub.subscribers = before ++ s :: after) (hk : s.Kept f.hub) (hw : waiter ∉ f.issued.map Prod.fst) :
    Books.Kept { f.books with
      takers := (before ++ { s with queue := (queueTake s.queue waiter).queue } :: after).flatMap (·.queue.takers)
      removed := (before ++ { s with queue := (queueTake s.queue waiter).queue } :: after).flatMap (·.queue.removed)
      issued := f.issued ++ [(waiter, none)]
      fates := (queueTake s.queue waiter).wake ++ (queueTake s.queue waiter).outcome.toList.map (waiter, ·) ++
        f.books.fates } refuses f.hub.Left := by
  have htake := h.take hw
  have htakers : f.books.takers.Perm (s.queue.takers ++ (before ++ after).flatMap (·.queue.takers)) := by
    rw [Fibers.books, hs]
    exact perm_middle.flatMap_right _
  have hremoved : f.books.removed.Perm (s.queue.removed ++ (before ++ after).flatMap (·.queue.removed)) := by
    rw [Fibers.books, hs]
    exact perm_middle.flatMap_right _
  have hreplaced (q : QueueState V) : ((before ++ { s with queue := q } :: after).flatMap (·.queue.takers)).Perm
      (q.takers ++ (before ++ after).flatMap (·.queue.takers)) := perm_middle.flatMap_right _
  have hreplaced' (q : QueueState V) : ((before ++ { s with queue := q } :: after).flatMap (·.queue.removed)).Perm
      (q.removed ++ (before ++ after).flatMap (·.queue.removed)) := perm_middle.flatMap_right _
  unfold queueTake
  rw [hk.offerers]
  split
  · next hclosed =>
    have hleft : f.hub.Left := ⟨s, hs ▸ mem_append_right _ mem_cons_self, hclosed⟩
    refine ((htake.interrupt rfl hleft).perm ?_ .rfl .rfl).perm_removed ?_
    · exact (hreplaced _).trans htakers.symm
    · exact (hreplaced' _).trans hremoved.symm
  · split
    · next heq => cases heq
    · next item items hi _ =>
      refine ((htake.hand rfl item).perm ?_ .rfl .rfl).perm_removed ?_
      · exact (hreplaced _).trans htakers.symm
      · refine (hreplaced' _).trans (List.Perm.trans ?_ (hremoved.append_right _).symm)
        simp only [append_assoc]
        exact .append_left _ perm_append_comm
    · next heq => cases heq
    · refine (htake.perm ?_ .rfl .rfl).perm_removed ?_
      · refine (hreplaced _).trans (List.Perm.trans ?_ (htakers.cons waiter).symm)
        exact (perm_append_singleton ..).append_right _
      · exact (hreplaced' _).trans hremoved.symm

theorem Fibers.Sound.take (h : f.Sound capacity strategy)
    (h1 : capacity.room 0 = true) (hs : f.hub.subscribers = before ++ s :: after) (hw : waiter ∉ f.issued.map Prod.fst) :
    Sound capacity strategy { f with
      hub := { f.hub with
        subscribers := before ++ { s with queue := (queueTake s.queue waiter).queue } :: after
        draining := f.hub.draining || ((queueTake s.queue waiter).outcome.isSome && !s.queue.shutdown) }
      issued := f.issued ++ [(waiter, none)]
      waking := f.waking ++ (queueTake s.queue waiter).wake
      ended := f.ended ++ (queueTake s.queue waiter).outcome.toList.map (waiter, ·) } := by
  have hk : s.Kept f.hub := h.hub.subscribers s (hs ▸ mem_append_right _ mem_cons_self)
  have hshutdown := (queueTake_settings s.queue waiter).2.2
  refine ⟨{ h.hub with subscribers := fun t ht => ?_ }, ?_, fun hd hp => ?_⟩
  · refine @Subscription.Kept.of_hub V f.hub _ _ ?_ rfl rfl rfl
    exact mem_replaced (P := Subscription.Kept f.hub) hs h.hub.subscribers (hk.take (h.hub.capacity ▸ h1) waiter) t ht
  · have hbooks := (kept_take h.kept hs hk hw).perm .rfl .rfl fates_perm
    exact hbooks.weaken id (left_replaced hs hshutdown.trans)
  · obtain ⟨hdraining, hanswer⟩ := Bool.or_eq_false_iff.mp hd
    refine (h.waits hdraining hp).imp_left fun hfull => ?_
    rw [PubSubState.full, hs] at hfull
    have hsame : Subscription.full f.hub.capacity { s with queue := (queueTake s.queue waiter).queue } =
        s.full f.hub.capacity := by
      simp only [Subscription.full, hshutdown, queueTake_items hanswer]
    change (before ++ _ :: after).any _ = true
    rw [any_append, any_cons] at hfull ⊢
    rwa [hsame]

/-- A message that was accepted is received. -/
theorem kept_broadcast (h : b.Kept refuses closed) (ht : b.takers = hub.subscribers.flatMap (·.queue.takers))
    (hr : b.removed = hub.subscribers.flatMap (·.queue.removed)) (item : Item V) :
    Books.Kept { b with
      takers := (hub.broadcast item).1.subscribers.flatMap (·.queue.takers)
      removed := (hub.broadcast item).1.subscribers.flatMap (·.queue.removed)
      fates := (hub.broadcast item).2 ++ b.fates } refuses closed := by
  obtain ⟨_, offerers, accepted, _, issued, fates⟩ := b
  cases ht
  cases hr
  have hreceive := @kept_receive V ⟨[], offerers, accepted, [], issued, []⟩ refuses closed hub.subscribers [] [] fates item
    (by simp only [append_nil]; exact h)
  simp only [append_nil] at hreceive
  exact hreceive

theorem left_broadcast {item : Item V} (h : hub.Left) : (hub.broadcast item).1.Left :=
  left_map (fun s hs => (receive_shutdown item s).trans hs) h

/-- A full hub that slides makes room for a message. -/
theorem kept_slide (h : b.Kept refuses closed) (ht : b.takers = hub.subscribers.flatMap (·.queue.takers))
    (hr : b.removed = hub.subscribers.flatMap (·.queue.removed)) :
    Books.Kept { b with
      takers := hub.slide.subscribers.flatMap (·.queue.takers)
      removed := hub.slide.subscribers.flatMap (·.queue.removed) } refuses closed := by
  refine ((h.evict (hub.subscribers.flatMap (Subscription.evicted hub.capacity))).perm ?_ .rfl .rfl).perm_removed ?_
  · exact .of_eq ((slide_takers ..).trans ht.symm)
  · change (hub.slide.subscribers.flatMap (·.queue.removed)).Perm (b.removed ++ _)
    rw [hr]
    exact slide_removed ..

theorem left_slide (h : hub.Left) : hub.slide.Left :=
  left_map (fun s hs => (slide_shutdown hub.capacity s).trans hs) h

/-- What the publishers of a hub do besides its subscribers. -/
theorem PubSubState.Sound.of_subscribers (h : hub.Sound capacity strategy) (hs : hub'.subscribers = hub.subscribers)
    (hc : hub'.capacity = hub.capacity) (hst : hub'.strategy = hub.strategy) (ha : hub'.accepted = hub.accepted)
    (hp : hub'.parked = hub'.drained ++ hub'.publishers) (hd : hub'.drained.Sublist hub'.accepted)
    (ho : hub'.strategy ≠ .suspending → hub'.publishers = []) : hub'.Sound capacity strategy where
  capacity := hc.trans h.capacity
  strategy := hst.trans h.strategy
  subscribers s hmem := (h.subscribers s (hs ▸ hmem)).of_hub hc hst ha
  parked := hp
  drained := hd
  only := ho

/-- What holds of the hub that a publication is broadcast by. -/
structure PubSubState.Room (capacity : Capacity) (strategy : Strategy) (hub room : PubSubState V) : Prop where
  sound : room.Sound capacity strategy
  fits : ∀ s ∈ room.subscribers, s.subscribed = true → room.capacity.room s.queue.items.length = true
  refuses : room.Refuses ↔ hub.Refuses
  left : hub.Left → room.Left
  others : room.publishers = hub.publishers ∧ room.accepted = hub.accepted
  kept : ∀ {b : Books V} {refuses closed : Prop}, b.Kept refuses closed →
    b.takers = hub.subscribers.flatMap (·.queue.takers) → b.removed = hub.subscribers.flatMap (·.queue.removed) →
    Books.Kept { b with
      takers := room.subscribers.flatMap (·.queue.takers)
      removed := room.subscribers.flatMap (·.queue.removed) } refuses closed

theorem room_self (h : hub.Sound capacity strategy) (hf : hub.full = false) :
    PubSubState.Room capacity strategy hub hub where
  sound := h
  fits := h.room hf
  refuses := .rfl
  left := id
  others := ⟨rfl, rfl⟩
  kept hb ht hr := ht ▸ hr ▸ hb

theorem room_slide (h : hub.Sound capacity strategy) (h1 : capacity.room 0 = true) (hs : hub.strategy = .sliding) :
    PubSubState.Room capacity strategy hub hub.slide where
  sound := (h.slide h1 hs).1
  fits := (h.slide h1 hs).2
  refuses := .rfl
  left := left_slide
  others := ⟨rfl, rfl⟩
  kept := kept_slide

/-- A publication that is accepted at once. -/
theorem Fibers.Sound.accept {value : V} {room : PubSubState V} (h : f.Sound capacity strategy)
    (hw : waiter ∉ f.issued.map Prod.fst) (hroom : PubSubState.Room capacity strategy f.hub room)
    (hnone : f.hub.publishers = []) :
    Sound capacity strategy { f with
      hub := (room.broadcast ⟨value, waiter⟩).1
      issued := f.issued ++ [(waiter, some value)]
      waking := f.waking ++ (room.broadcast ⟨value, waiter⟩).2
      ended := f.ended ++ [(waiter, .answer true)] } := by
  refine ⟨hroom.sound.broadcast hroom.fits _, ?_, fun _ hp => absurd (hroom.others.1.trans hnone) hp⟩
  have haccept := (@Books.Kept.offer _ _ _ _ h.kept ⟨value, waiter⟩ hw).accept rfl
  have hrefuses : f.hub.Refuses → (room.broadcast ⟨value, waiter⟩).1.Refuses := hroom.refuses.mpr
  have hleft : f.hub.Left → (room.broadcast ⟨value, waiter⟩).1.Left := fun hl => left_broadcast (hroom.left hl)
  have hbooks := (kept_broadcast (hroom.kept haccept rfl rfl) rfl rfl ⟨value, waiter⟩).weaken hrefuses hleft
  obtain ⟨hpublishers, haccepted⟩ := hroom.others
  have hfates : ((f.waking ++ (room.broadcast ⟨value, waiter⟩).2) ++ (f.ended ++ [(waiter, Outcome.answer true)])).Perm
      ((room.broadcast ⟨value, waiter⟩).2 ++ (waiter, Outcome.answer true) :: (f.waking ++ f.ended)) := by
    have hperm := @fates_perm V f.waking (room.broadcast ⟨value, waiter⟩).2 f.ended [(waiter, .answer true)]
    rwa [append_assoc (room.broadcast _).2] at hperm
  change Books.Kept ⟨_, room.publishers, room.accepted ++ [_], _, _, _⟩ _ _
  rw [hpublishers, haccepted]
  exact hbooks.perm .rfl .rfl hfates

theorem Fibers.Sound.publish {value : V} (h : f.Sound capacity strategy) (h1 : capacity.room 0 = true)
    (hw : waiter ∉ f.issued.map Prod.fst) :
    Sound capacity strategy { f with
      hub := (f.hub.publish ⟨value, waiter⟩).hub
      issued := f.issued ++ [(waiter, some value)]
      waking := f.waking ++ (f.hub.publish ⟨value, waiter⟩).wake
      ended := f.ended ++ (f.hub.publish ⟨value, waiter⟩).outcome.toList.map (waiter, ·) } := by
  have hoffer := @Books.Kept.offer _ _ _ _ h.kept ⟨value, waiter⟩ hw
  unfold PubSubState.publish
  split
  · next hs => exact ⟨h.hub, (hoffer.refuse rfl (.inl hs)).perm .rfl .rfl fates_perm, h.waits⟩
  · split
    · next hs hwait =>
      refine ⟨h.hub.of_subscribers rfl rfl rfl rfl ?_ h.hub.drained fun hn => absurd hwait.1 hn, ?_, fun hd => by cases hd⟩
      · change f.hub.parked ++ [_] = f.hub.drained ++ (f.hub.publishers ++ [_])
        rw [h.hub.parked, append_assoc]
      · exact hoffer.perm .rfl (perm_append_singleton ..) fates_perm
    · next hs hwait =>
      split
      · next hdropping =>
        exact ⟨h.hub, (hoffer.refuse rfl (.inr hdropping.2)).perm .rfl .rfl fates_perm, h.waits⟩
      · next hdropping =>
        have hnone : f.hub.publishers = [] := by
          by_contra hne
          by_cases hsuspending : f.hub.strategy = .suspending
          · exact hwait ⟨hsuspending, .inr (by simpa using hne)⟩
          · exact hne (h.hub.only hsuspending)
        cases hfull : f.hub.full with
        | false => exact h.accept hw (room_self h.hub hfull) hnone
        | true =>
          have hsliding : f.hub.strategy = .sliding := by
            cases hstrategy : f.hub.strategy with
            | suspending => exact absurd ⟨hstrategy, .inl hfull⟩ hwait
            | dropping => exact absurd ⟨hfull, hstrategy⟩ hdropping
            | sliding => rfl
          exact h.accept hw (room_slide h.hub h1 hsliding) hnone

theorem Fibers.Sound.round (h : f.Sound capacity strategy) (hdraining : f.hub.draining = true) :
    Sound capacity strategy { f with hub := f.hub.round.1, waking := f.waking ++ f.hub.round.2 } := by
  unfold PubSubState.round
  split
  · next item publishers hfull hp =>
    have hsuspending : f.hub.strategy = .suspending := by
      by_contra hn
      cases hp.symm.trans (h.hub.only hn)
    refine ⟨(h.hub.broadcast (h.hub.room hfull) item).of_subscribers rfl rfl rfl rfl ?_ ?_ ?_, ?_, fun hd hne => ?_⟩
    · change f.hub.parked = (f.hub.drained ++ [item]) ++ publishers
      rw [h.hub.parked, hp, append_assoc]
      rfl
    · exact h.hub.drained.append (List.Sublist.refl _)
    · exact fun hn => absurd hsuspending hn
    · have hbooks := @kept_broadcast V _ _ _ f.hub (h.kept.accept hp) rfl rfl item
      have hleft : f.hub.Left → (f.hub.broadcast item).1.Left := left_broadcast
      refine (hbooks.weaken id hleft).perm .rfl .rfl ?_
      change ((f.waking ++ ((item.offer, Outcome.answer true) :: _)) ++ f.ended).Perm
        (_ ++ (item.offer, Outcome.answer true) :: (f.waking ++ f.ended))
      refine (perm_append_comm.append_right _).trans ?_
      rw [append_assoc]
      exact perm_middle.symm
    · cases hd.symm.trans hdraining
  · next hend =>
    refine ⟨h.hub.of_subscribers rfl rfl rfl rfl h.hub.parked h.hub.drained h.hub.only, ?_, fun _ hne => ?_⟩
    · rw [append_nil]
      exact h.kept
    · refine .inl ?_
      change f.hub.full = true
      by_contra hfull
      cases hp : f.hub.publishers with
      | nil => exact hne hp
      | cons item publishers => exact hend item publishers (Bool.eq_false_of_not_eq_true hfull) hp

theorem close_wake (h : s.queue.offerers = []) : s.close.2 = s.queue.takers.map (·, .interrupt) := by
  simp [Subscription.close, queueClose, h]

theorem full_close (c : Capacity) (s : Subscription V) : s.close.1.full c = false := rfl

theorem Fibers.Sound.unsubscribe (h : f.Sound capacity strategy)
    (h1 : capacity.room 0 = true) (hs : f.hub.subscribers = before ++ s :: after) :
    Sound capacity strategy { f with
      hub := { f.hub with
        subscribers := before ++ s.close.1 :: after, draining := f.hub.draining || s.close.2.isEmpty }
      waking := f.waking ++ s.close.2
      leaving := if s.close.2.isEmpty then f.leaving else f.leaving + 1 } := by
  have hk : s.Kept f.hub := h.hub.subscribers s (hs ▸ mem_append_right _ mem_cons_self)
  refine ⟨{ h.hub with subscribers := fun t ht => ?_ }, ?_, fun hd hp => ?_⟩
  · refine @Subscription.Kept.of_hub V f.hub _ _ ?_ rfl rfl rfl
    exact mem_replaced (P := Subscription.Kept f.hub) hs h.hub.subscribers hk.close t ht
  · have hleft : ∃ t ∈ before ++ s.close.1 :: after, t.queue.shutdown = true :=
      ⟨s.close.1, mem_append_right _ mem_cons_self, rfl⟩
    have htakers : (s.queue.takers ++ (before ++ after).flatMap (·.queue.takers)).Perm f.books.takers := by
      rw [Fibers.books, hs]
      exact (perm_middle (a := s)).symm.flatMap_right (·.queue.takers)
    have hopen := (h.kept.perm htakers .rfl .rfl).weaken id fun _ => hleft
    refine (((hopen.interrupts rfl fun _ => hleft).perm ?_ .rfl ?_).perm_removed ?_)
    · exact perm_middle.flatMap_right _
    · change ((f.waking ++ s.close.2) ++ f.ended).Perm (_ ++ (f.waking ++ f.ended))
      rw [close_wake hk.offerers, ← append_assoc]
      exact perm_append_comm.append_right _
    · change ((before ++ s.close.1 :: after).flatMap (·.queue.removed)).Perm (f.hub.subscribers.flatMap (·.queue.removed))
      rw [hs]
      exact (perm_middle.flatMap_right _).trans ((perm_middle (a := s)).symm.flatMap_right (·.queue.removed))
  · obtain ⟨hdraining, hwake⟩ := Bool.or_eq_false_iff.mp hd
    refine (h.waits hdraining hp).imp_left fun hfull => ?_
    have hitems : s.queue.items = [] := by
      refine (hk.ordered.takes fun hnone => ?_).1
      rw [close_wake hk.offerers, hnone] at hwake
      cases hwake
    have hroom : s.full f.hub.capacity = false := by
      simp [Subscription.full, hitems, h.hub.capacity, h1]
    rw [PubSubState.full, hs, any_append, any_cons, hroom] at hfull
    change (before ++ s.close.1 :: after).any _ = true
    rw [any_append, any_cons, full_close]
    exact hfull

/-- A subscriber is closed with the hub. -/
theorem shut_kept (hk : s.Kept hub) :
    Subscription.Kept hub (if s.subscribed then s.close.1 else s) ∧
      (if s.subscribed then s.close.1 else s).queue.takers = [] ∧
      (if s.subscribed then s.close.1 else s).queue.removed = s.queue.removed ∧
      (if s.subscribed then s.close.2 else []) = s.queue.takers.map (·, .interrupt) ∧
      (if s.subscribed then s.close.1 else s).queue.shutdown = true := by
  cases hs : s.subscribed with
  | true => exact ⟨hk.close, rfl, rfl, close_wake hk.offerers, rfl⟩
  | false =>
    have hclosed : s.queue.shutdown = true := by simpa [hs] using hk.subscribed
    have hnone := (hk.ordered.closed hclosed).2.1
    exact ⟨hk, hnone, rfl, by rw [hnone]; rfl, hclosed⟩

theorem shut_lists {subscribers : List (Subscription V)} (h : ∀ s ∈ subscribers, s.Kept hub) :
    (subscribers.map fun s => if s.subscribed then s.close.1 else s).flatMap (·.queue.takers) = [] ∧
      (subscribers.map fun s => if s.subscribed then s.close.1 else s).flatMap (·.queue.removed) =
        subscribers.flatMap (·.queue.removed) ∧
      (subscribers.flatMap fun s => if s.subscribed then s.close.2 else []) =
        (subscribers.flatMap (·.queue.takers)).map (·, .interrupt) := by
  induction subscribers with
  | nil => exact ⟨rfl, rfl, rfl⟩
  | cons s subscribers ih =>
    obtain ⟨htakers, hremoved, hwake⟩ := ih fun t ht => h t (mem_cons_of_mem _ ht)
    obtain ⟨-, hnone, hsame, hresumed, -⟩ := shut_kept (h s mem_cons_self)
    refine ⟨?_, ?_, ?_⟩
    · rw [map_cons, flatMap_cons, hnone, htakers]
      rfl
    · rw [map_cons, flatMap_cons, hsame, hremoved, flatMap_cons]
    · rw [flatMap_cons, hresumed, hwake, flatMap_cons, map_append]

theorem Fibers.Sound.shutdown {wake : List (ℕ × Outcome V)} (h : f.Sound capacity strategy)
    (hw : wake = f.hub.subscribers.flatMap fun s => if s.subscribed then s.close.2 else []) :
    Sound capacity strategy { f with
      hub := { f.hub with
        shutdown := true
        subscribers := f.hub.subscribers.map fun s => if s.subscribed then s.close.1 else s
        draining := f.hub.draining || wake.isEmpty }
      waking := f.waking ++ wake
      closing := if wake.isEmpty then f.closing else f.closing + 1 } := by
  obtain ⟨htakers, hremoved, hwake⟩ := shut_lists h.hub.subscribers
  refine ⟨{ h.hub with subscribers := fun t ht => ?_ }, ?_, fun hd _ => ?_⟩
  · obtain ⟨s, hs, rfl⟩ := mem_map.mp ht
    exact (shut_kept (h.hub.subscribers s hs)).1.of_hub rfl rfl rfl
  · have hshut : (∃ s, s ∈ f.hub.subscribers) →
        ∃ s ∈ f.hub.subscribers.map fun s => if s.subscribed then s.close.1 else s, s.queue.shutdown = true := by
      rintro ⟨s, hs⟩
      exact ⟨_, mem_map_of_mem hs, (shut_kept (h.hub.subscribers s hs)).2.2.2.2⟩
    have hleft (hne : f.hub.subscribers.flatMap (·.queue.takers) ≠ []) : ∃ s, s ∈ f.hub.subscribers := by
      obtain ⟨taker, htaker⟩ := exists_mem_of_ne_nil _ hne
      obtain ⟨s, hs, -⟩ := mem_flatMap.mp htaker
      exact ⟨s, hs⟩
    have hrefuses : f.hub.Refuses → PubSubState.Refuses { f.hub with shutdown := true } := fun _ => .inl rfl
    have hopen := h.kept.weaken hrefuses fun ⟨s, hs, _⟩ => hshut ⟨s, hs⟩
    refine ((hopen.interrupts (append_nil _).symm fun hne => hshut (hleft hne)).perm ?_ .rfl ?_).perm_removed ?_
    · exact .of_eq htakers
    · change ((f.waking ++ wake) ++ f.ended).Perm (_ ++ (f.waking ++ f.ended))
      rw [hw, hwake, ← append_assoc]
      exact perm_append_comm.append_right _
    · exact .of_eq hremoved
  · obtain ⟨-, hempty⟩ := Bool.or_eq_false_iff.mp hd
    refine .inr ?_
    simp [hempty]

theorem Step.sound (h1 : capacity.room 0 = true) (h : f.Sound capacity strategy) (hs : Step f f') :
    f'.Sound capacity strategy := by
  cases hs with
  | subscribe => exact h.subscribe
  | take before after subscriber waiter hs hw => exact h.take h1 hs hw
  | publish waiter value hw => exact h.publish h1 hw
  | round hd => exact h.round hd
  | unsubscribe before after subscriber hs => exact h.unsubscribe h1 hs
  | left n hn =>
    exact ⟨h.hub.of_subscribers rfl rfl rfl rfl h.hub.parked h.hub.drained h.hub.only, h.kept, fun hd => by cases hd⟩
  | shutdown wake hw => exact h.shutdown hw
  | closed n hn =>
    exact ⟨h.hub.of_subscribers rfl rfl rfl rfl h.hub.parked h.hub.drained h.hub.only, h.kept, fun hd => by cases hd⟩
  | resume before after fiber hw =>
    refine ⟨h.hub, h.kept.perm .rfl .rfl ?_, h.waits⟩
    exact resume_perm hw

theorem Run.sound (h1 : capacity.room 0 = true) (h : Run (.make capacity strategy) f) : f.Sound capacity strategy := by
  induction h with
  | nil => exact sound_make capacity strategy
  | snoc _ hs ih => exact hs.sound h1 ih

/-! ### Delivery -/

/-- What a subscription gets. -/
structure Subscription.Delivers (capacity : Capacity) (strategy : Strategy) (hub : PubSubState V) (s : Subscription V) :
    Prop where
  /-- While it is open, a subscription has accepted what the hub accepted since it subscribed. -/
  current : s.queue.shutdown = false → s.queue.accepted = hub.accepted.drop s.since
  gets : s.queue.accepted <+: hub.accepted.drop s.since
  /-- Messages leave it in that order, each to one take, or evicted. -/
  order : s.queue.removed.map Prod.fst <+: s.queue.accepted
  stored : s.queue.shutdown = false → s.queue.accepted = s.queue.removed.map Prod.fst ++ s.queue.items
  evicts : strategy ≠ .sliding → ∀ removed ∈ s.queue.removed, removed.2.isSome
  bound : ∀ limit, capacity = .bounded limit → (s.queue.items.length : ℤ) ≤ ⌈limit⌉
  takers : s.queue.takers ≠ [] → s.queue.items = []

/-- What a hub promises, whatever is done with it and in whatever order. -/
structure Fibers.Delivers (capacity : Capacity) (strategy : Strategy) (f : Fibers V) : Prop where
  subscribers : ∀ s ∈ f.hub.subscribers, s.Delivers capacity strategy f.hub
  once : (f.hub.accepted.map Item.offer).Nodup
  takes : ((f.hub.subscribers.flatMap (·.queue.removed)).filterMap Prod.snd).Nodup
  /-- Publications that had to wait are accepted in the order in which they were made. -/
  parked : f.hub.parked = f.hub.drained ++ f.hub.publishers
  drained : f.hub.drained.Sublist f.hub.accepted
  waits : f.hub.draining = false → f.closing = 0 → f.hub.publishers ≠ [] → f.hub.full = true
  /-- Every operation waits, or ended once. -/
  places : (f.hub.subscribers.flatMap (·.queue.takers) ++ f.hub.publishers.map Item.offer ++
    (f.waking ++ f.ended).map Prod.fst).Perm (f.issued.map Prod.fst)
  distinct : (f.issued.map Prod.fst).Nodup
  fate : ∀ fate ∈ f.waking ++ f.ended, f.books.Fate (f.hub.shutdown = true ∨ strategy = .dropping) f.hub.Left fate.1 fate.2
  admits : (f.hub.accepted.map Item.offer).Perm (((f.waking ++ f.ended).filter (·.2.isAccepted)).map Prod.fst)
  gets : ((f.hub.subscribers.flatMap (·.queue.removed)).filterMap Prod.snd).Perm
    (((f.waking ++ f.ended).filter (·.2.isItem)).map Prod.fst)
  /-- A publication that was refused reaches no subscriber. -/
  refused : ∀ operation, (operation, .answer false) ∈ f.waking ++ f.ended → operation ∉ f.hub.accepted.map Item.offer

/-- What was refused was not accepted. -/
theorem refused_not_accepted (h : b.Kept refuses closed) {operation : ℕ} (hf : (operation, .answer false) ∈ b.fates) :
    operation ∉ b.accepted.map Item.offer := by
  intro hm
  obtain ⟨⟨_, outcome⟩, hfate, rfl⟩ := mem_map.mp (h.admits.subset hm)
  obtain ⟨hfate, haccepted⟩ := mem_filter.mp hfate
  have hsame := inj_on_of_nodup_map h.nodup_fates hfate hf rfl
  cases hsame
  cases haccepted

theorem Fibers.Sound.delivers (h1 : ∀ limit, capacity = .bounded limit → 1 ≤ limit) (h : f.Sound capacity strategy) :
    f.Delivers capacity strategy where
  subscribers s hs := by
    have hk := h.hub.subscribers s hs
    refine ⟨hk.current, hk.gets, hk.ordered.earlier, hk.ordered.order, ?_, fun limit hlimit => ?_, ?_⟩
    · exact h.hub.strategy ▸ hk.strategy ▸ hk.ordered.evicts
    · exact Capacity.le_ceil (h1 limit hlimit) (hlimit ▸ h.hub.capacity ▸ hk.capacity ▸ hk.ordered.stored)
    · exact fun hne => (hk.ordered.takes hne).1
  once := h.kept.admits.nodup_iff.mpr (h.kept.nodup_filter _)
  takes := h.kept.gets.nodup_iff.mpr (h.kept.nodup_filter _)
  parked := h.hub.parked
  drained := h.hub.drained
  waits hd hc hp := (h.waits hd hp).resolve_right (by rw [hc]; exact lt_irrefl 0)
  places := h.kept.places
  distinct := h.kept.distinct
  fate := h.hub.strategy ▸ h.kept.fate
  admits := h.kept.admits
  gets := h.kept.gets
  refused _ hf := refused_not_accepted h.kept hf

theorem pubsub_delivers (h1 : ∀ limit, capacity = .bounded limit → 1 ≤ limit)
    (h : Run (.make capacity strategy) f) : f.Delivers capacity strategy :=
  (h.sound (Capacity.room_zero h1)).delivers h1

/--
A hub for one message that is shut down while a publication waits: the first subscriber is full, and the
take of the second one is interrupted before the publication is accepted.
-/
def closingHub : Fibers ℕ where
  hub := {
    subscribers := [
      ⟨{ (QueueState.new (.bounded 1) .suspending : QueueState ℕ) with shutdown := true, accepted := [⟨10, 0⟩] }, false, 0⟩,
      ⟨{ (QueueState.new (.bounded 1) .suspending : QueueState ℕ) with
          shutdown := true, accepted := [⟨10, 0⟩], removed := [(⟨10, 0⟩, some 1)] }, false, 0⟩]
    capacity := .bounded 1
    strategy := .suspending
    shutdown := true
    publishers := [⟨11, 3⟩]
    draining := false
    accepted := [⟨10, 0⟩]
    parked := [⟨11, 3⟩]
    drained := [] }
  issued := [(0, some 10), (1, none), (2, none), (3, some 11)]
  waking := [(2, .interrupt)]
  ended := [(0, .answer true), (1, .item 10)]
  leaving := 0
  closing := 1

theorem closingHub_run : Run (.make (.bounded 1) .suspending) closingHub := by
  let queue : QueueState ℕ := { QueueState.new (.bounded 1) .suspending with accepted := [⟨10, 0⟩] }
  have hmake : Run (.make (.bounded 1) .suspending) (.make (.bounded 1) .suspending : Fibers ℕ) := .nil
  have hsubscribe := (hmake.snoc .subscribe).snoc .subscribe
  have hpublish := hsubscribe.snoc (.publish 0 10 (by decide))
  have htake := hpublish.snoc (.take [⟨{ queue with items := [⟨10, 0⟩] }, true, 0⟩] []
    ⟨{ queue with items := [⟨10, 0⟩] }, true, 0⟩ 1 (by decide +kernel) (by decide))
  have hround := htake.snoc (.round (by decide +kernel))
  have htake := hround.snoc (.take [⟨{ queue with items := [⟨10, 0⟩] }, true, 0⟩] []
    ⟨{ queue with removed := [(⟨10, 0⟩, some 1)] }, true, 0⟩ 2 (by decide +kernel) (by decide))
  have hpublish := htake.snoc (.publish 3 11 (by decide))
  have hround := hpublish.snoc (.round (by decide +kernel))
  have hshutdown := hround.snoc (.shutdown [(2, .interrupt)] (by decide +kernel))
  convert hshutdown using 1
  decide +kernel

theorem pubsub_delivers_closing : closingHub.Delivers (.bounded 1) .suspending :=
  pubsub_delivers (by rintro limit ⟨⟩; exact le_rfl) closingHub_run

/--
While a shutdown resumes fibers a publication waits though no subscription is full, and there is room for
a second message if the capacity is one and a half.
-/
theorem pubsub_waits :
    (¬ ∀ (capacity : Capacity) (strategy : Strategy) (f : Fibers ℕ),
      (∀ limit, capacity = .bounded limit → 1 ≤ limit) → Run (.make capacity strategy) f →
        f.hub.draining = false → f.hub.publishers ≠ [] → f.hub.full = true) ∧
    ¬ ∀ (capacity : Capacity) (strategy : Strategy) (f : Fibers ℕ),
      (∀ limit, capacity = .bounded limit → 1 ≤ limit) → Run (.make capacity strategy) f →
        ∀ s ∈ f.hub.subscribers, ∀ limit, capacity = .bounded limit → (s.queue.items.length : ℚ) ≤ limit := by
  constructor
  · intro h
    have hfull := h _ _ closingHub (by rintro limit ⟨⟩; exact le_rfl) closingHub_run rfl (by decide)
    exact absurd hfull (by decide +kernel)
  · intro h
    have hmake : Run (.make (.bounded (3 / 2)) .suspending) (.make (.bounded (3 / 2)) .suspending : Fibers ℕ) := .nil
    have hsubscribe := hmake.snoc .subscribe
    have hpublish := (hsubscribe.snoc (.publish 0 10 (by decide))).snoc (.publish 1 11 (by decide))
    have hbound := h _ _ _ (by rintro limit ⟨⟩; norm_num) hpublish
      ⟨{ (QueueState.new (.bounded (3 / 2)) .suspending : QueueState ℕ) with
          items := [⟨10, 0⟩, ⟨11, 1⟩], accepted := [⟨10, 0⟩, ⟨11, 1⟩] }, true, 0⟩ (by decide +kernel) _ rfl
    norm_num at hbound

end Scriptc.RuntimeRust.EffectPubSub
