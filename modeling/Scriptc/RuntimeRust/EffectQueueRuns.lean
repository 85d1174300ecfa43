import Mathlib.Data.List.Nodup
import Scriptc.RuntimeRust.EffectQueue

/-!
# Effect queues: every item once

An operation is in one place: it waits, or it ended, or its fiber is being resumed. What is done with
operations and items is a sequence of a few moves, each of which keeps the books.
-/

namespace Scriptc.RuntimeRust.Effect

open List

variable {V : Type}

/-! ### The books -/

def Outcome.isItem : Outcome V → Bool
  | .item _ => true
  | _ => false

def Outcome.isAccepted : Outcome V → Bool
  | .answer accepted => accepted
  | _ => false

/-- The operations that wait, what was accepted and removed, and what operations ended with. -/
structure Books (V : Type) where
  takers : List ℕ
  offerers : List (Item V)
  accepted : List (Item V)
  removed : List (Item V × Option ℕ)
  issued : List (ℕ × Option V)
  fates : List (ℕ × Outcome V)

/-- That an operation ended as it can. -/
def Books.Fate (b : Books V) (refuses closed : Prop) (operation : ℕ) : Outcome V → Prop
  | .item value => (operation, none) ∈ b.issued ∧ ∃ offer, (⟨value, offer⟩, some operation) ∈ b.removed
  | .answer true => ∃ value, (operation, some value) ∈ b.issued
  | .answer false => (∃ value, (operation, some value) ∈ b.issued) ∧ refuses
  | .interrupt => (operation, none) ∈ b.issued ∧ closed

/-- Each operation is in one place, and its fate is what it can be. -/
structure Books.Kept (b : Books V) (refuses closed : Prop) : Prop where
  distinct : (b.issued.map Prod.fst).Nodup
  places : (b.takers ++ b.offerers.map Item.offer ++ b.fates.map Prod.fst).Perm (b.issued.map Prod.fst)
  taking : ∀ taker ∈ b.takers, (taker, none) ∈ b.issued
  offering : ∀ item ∈ b.offerers, (item.offer, some item.value) ∈ b.issued
  admitted : ∀ item ∈ b.accepted, (item.offer, some item.value) ∈ b.issued
  gets : (b.removed.filterMap Prod.snd).Perm ((b.fates.filter (·.2.isItem)).map Prod.fst)
  admits : (b.accepted.map Item.offer).Perm ((b.fates.filter (·.2.isAccepted)).map Prod.fst)
  fate : ∀ fate ∈ b.fates, b.Fate refuses closed fate.1 fate.2

variable {b b' : Books V} {refuses closed refuses' closed' : Prop}

theorem Books.Fate.mono {operation : ℕ} {outcome : Outcome V} (h : b.Fate refuses closed operation outcome)
    (hi : ∀ x ∈ b.issued, x ∈ b'.issued) (hr : ∀ x ∈ b.removed, x ∈ b'.removed) (hf : refuses → refuses')
    (hc : closed → closed') : b'.Fate refuses' closed' operation outcome := by
  cases outcome with
  | item value =>
    obtain ⟨hissued, offer, hremoved⟩ := h
    exact ⟨hi _ hissued, offer, hr _ hremoved⟩
  | answer accepted =>
    cases accepted with
    | true =>
      obtain ⟨value, hissued⟩ := h
      exact ⟨value, hi _ hissued⟩
    | false =>
      obtain ⟨⟨value, hissued⟩, hrefuses⟩ := h
      exact ⟨⟨value, hi _ hissued⟩, hf hrefuses⟩
  | interrupt => exact ⟨hi _ h.1, hc h.2⟩

/-- The order of what waits and of what ended does not matter. -/
theorem Books.Kept.perm (h : b.Kept refuses closed) {takers : List ℕ} {offerers : List (Item V)}
    {fates : List (ℕ × Outcome V)} (ht : takers.Perm b.takers) (ho : offerers.Perm b.offerers)
    (hf : fates.Perm b.fates) : Books.Kept { b with takers := takers, offerers := offerers, fates := fates } refuses closed where
  distinct := h.distinct
  places := ((ht.append (ho.map _)).append (hf.map _)).trans h.places
  taking taker hm := h.taking taker (ht.subset hm)
  offering item hm := h.offering item (ho.subset hm)
  admitted := h.admitted
  gets := h.gets.trans ((hf.filter _).map _).symm
  admits := h.admits.trans ((hf.filter _).map _).symm
  fate fate hm := (h.fate fate (hf.subset hm)).mono (fun _ => id) (fun _ => id) id id

theorem Books.Kept.perm_removed (h : b.Kept refuses closed) {removed : List (Item V × Option ℕ)}
    (hr : removed.Perm b.removed) : Books.Kept { b with removed := removed } refuses closed :=
  { h with
    gets := (hr.filterMap _).trans h.gets
    fate := fun fate hm => (h.fate fate hm).mono (fun _ => id) (fun _ hx => hr.symm.subset hx) id id }

/-- More may be refused, and the queue may be closed. -/
theorem Books.Kept.weaken (h : b.Kept refuses closed) (hr : refuses → refuses') (hc : closed → closed') :
    b.Kept refuses' closed' :=
  { h with fate := fun fate hm => (h.fate fate hm).mono (fun _ => id) (fun _ => id) hr hc }

theorem Books.Kept.take (h : b.Kept refuses closed) {operation : ℕ} (hn : operation ∉ b.issued.map Prod.fst) :
    Books.Kept { b with takers := operation :: b.takers, issued := b.issued ++ [(operation, none)] } refuses closed where
  distinct := by
    rw [map_append]
    exact h.distinct.append (nodup_singleton operation) (by simpa using hn)
  places := by
    rw [map_append]
    exact (h.places.cons operation).trans (perm_append_singleton ..).symm
  taking taker hm := by
    rcases mem_cons.mp hm with rfl | hm
    · exact mem_append_right _ mem_cons_self
    · exact mem_append_left _ (h.taking taker hm)
  offering item hm := mem_append_left _ (h.offering item hm)
  admitted item hm := mem_append_left _ (h.admitted item hm)
  gets := h.gets
  admits := h.admits
  fate fate hm := (h.fate fate hm).mono (fun _ hx => mem_append_left _ hx) (fun _ => id) id id

theorem Books.Kept.offer (h : b.Kept refuses closed) {item : Item V} (hn : item.offer ∉ b.issued.map Prod.fst) :
    Books.Kept { b with
      offerers := item :: b.offerers, issued := b.issued ++ [(item.offer, some item.value)] } refuses closed where
  distinct := by
    rw [map_append]
    exact h.distinct.append (nodup_singleton item.offer) (by simpa using hn)
  places := by
    rw [map_append, map_cons]
    have hplaces : (b.takers ++ item.offer :: b.offerers.map Item.offer ++ b.fates.map Prod.fst).Perm
        (item.offer :: (b.takers ++ b.offerers.map Item.offer ++ b.fates.map Prod.fst)) := by
      simp only [append_assoc, cons_append]
      exact perm_middle
    exact hplaces.trans ((h.places.cons _).trans (perm_append_singleton ..).symm)
  taking taker hm := mem_append_left _ (h.taking taker hm)
  offering other hm := by
    rcases mem_cons.mp hm with rfl | hm
    · exact mem_append_right _ mem_cons_self
    · exact mem_append_left _ (h.offering other hm)
  admitted other hm := mem_append_left _ (h.admitted other hm)
  gets := h.gets
  admits := h.admits
  fate fate hm := (h.fate fate hm).mono (fun _ hx => mem_append_left _ hx) (fun _ => id) id id

theorem places_taker {taker : ℕ} {takers offers fates : List ℕ} :
    (takers ++ offers ++ taker :: fates).Perm (taker :: takers ++ offers ++ fates) :=
  perm_middle

theorem places_offer {offer : ℕ} {takers offers fates : List ℕ} :
    (takers ++ offers ++ offer :: fates).Perm (takers ++ offer :: offers ++ fates) := by
  simp only [append_assoc]
  exact List.Perm.append_left _ perm_middle

/-- A take gets an item. -/
theorem Books.Kept.hand (h : b.Kept refuses closed) {taker : ℕ} {takers : List ℕ} (ht : b.takers = taker :: takers)
    (item : Item V) :
    Books.Kept { b with
      takers := takers, removed := b.removed ++ [(item, some taker)]
      fates := (taker, .item item.value) :: b.fates } refuses closed where
  distinct := h.distinct
  places := places_taker.trans (ht ▸ h.places)
  taking other hm := h.taking other (ht ▸ mem_cons_of_mem _ hm)
  offering := h.offering
  admitted := h.admitted
  gets := by
    rw [filterMap_append]
    exact (perm_append_singleton ..).trans (h.gets.cons taker)
  admits := h.admits
  fate fate hm := by
    rcases mem_cons.mp hm with rfl | hm
    · exact ⟨h.taking taker (ht ▸ mem_cons_self), item.offer, mem_append_right _ mem_cons_self⟩
    · exact (h.fate fate hm).mono (fun _ => id) (fun _ hx => mem_append_left _ hx) id id

theorem Books.Kept.evict (h : b.Kept refuses closed) (items : List (Item V)) :
    Books.Kept { b with removed := b.removed ++ items.map (·, none) } refuses closed where
  distinct := h.distinct
  places := h.places
  taking := h.taking
  offering := h.offering
  admitted := h.admitted
  gets := by
    have hnone : (items.map fun item => (item, (none : Option ℕ))).filterMap Prod.snd = [] := by simp
    rw [filterMap_append, hnone, append_nil]
    exact h.gets
  admits := h.admits
  fate fate hm := (h.fate fate hm).mono (fun _ => id) (fun _ hx => mem_append_left _ hx) id id

/-- An offer is accepted. -/
theorem Books.Kept.accept (h : b.Kept refuses closed) {item : Item V} {offerers : List (Item V)}
    (ho : b.offerers = item :: offerers) :
    Books.Kept { b with
      offerers := offerers, accepted := b.accepted ++ [item]
      fates := (item.offer, .answer true) :: b.fates } refuses closed where
  distinct := h.distinct
  places := by
    have hplaces := h.places
    rw [ho] at hplaces
    exact places_offer.trans hplaces
  taking := h.taking
  offering other hm := h.offering other (ho ▸ mem_cons_of_mem _ hm)
  admitted other hm := by
    rcases mem_append.mp hm with hm | hm
    · exact h.admitted other hm
    · rw [mem_singleton.mp hm]
      exact h.offering item (ho ▸ mem_cons_self)
  gets := h.gets
  admits := by
    rw [map_append]
    exact (perm_append_singleton ..).trans (h.admits.cons item.offer)
  fate fate hm := by
    rcases mem_cons.mp hm with rfl | hm
    · exact ⟨item.value, h.offering item (ho ▸ mem_cons_self)⟩
    · exact (h.fate fate hm).mono (fun _ => id) (fun _ => id) id id

theorem Books.Kept.refuse (h : b.Kept refuses closed) {item : Item V} {offerers : List (Item V)}
    (ho : b.offerers = item :: offerers) (hr : refuses) :
    Books.Kept { b with offerers := offerers, fates := (item.offer, .answer false) :: b.fates } refuses closed where
  distinct := h.distinct
  places := by
    have hplaces := h.places
    rw [ho] at hplaces
    exact places_offer.trans hplaces
  taking := h.taking
  offering other hm := h.offering other (ho ▸ mem_cons_of_mem _ hm)
  admitted := h.admitted
  gets := h.gets
  admits := h.admits
  fate fate hm := by
    rcases mem_cons.mp hm with rfl | hm
    · exact ⟨⟨item.value, h.offering item (ho ▸ mem_cons_self)⟩, hr⟩
    · exact (h.fate fate hm).mono (fun _ => id) (fun _ => id) id id

theorem Books.Kept.interrupt (h : b.Kept refuses closed) {taker : ℕ} {takers : List ℕ}
    (ht : b.takers = taker :: takers) (hc : closed) :
    Books.Kept { b with takers := takers, fates := (taker, .interrupt) :: b.fates } refuses closed where
  distinct := h.distinct
  places := places_taker.trans (ht ▸ h.places)
  taking other hm := h.taking other (ht ▸ mem_cons_of_mem _ hm)
  offering := h.offering
  admitted := h.admitted
  gets := h.gets
  admits := h.admits
  fate fate hm := by
    rcases mem_cons.mp hm with rfl | hm
    · exact ⟨h.taking taker (ht ▸ mem_cons_self), hc⟩
    · exact (h.fate fate hm).mono (fun _ => id) (fun _ => id) id id

theorem Books.Kept.interrupts {takers others : List ℕ} (h : b.Kept refuses closed) (ht : b.takers = takers ++ others)
    (hc : takers ≠ [] → closed) :
    Books.Kept { b with takers := others, fates := takers.map (·, .interrupt) ++ b.fates } refuses closed := by
  obtain ⟨_, offerers, accepted, removed, issued, fates⟩ := b
  cases ht
  induction takers generalizing fates with
  | nil => exact h
  | cons taker takers ih =>
    have hclosed := hc (cons_ne_nil _ _)
    exact (ih (fun _ => hclosed) _ (h.interrupt rfl hclosed)).perm .rfl .rfl perm_middle.symm

theorem Books.Kept.refuseAll (h : b.Kept refuses closed) (hr : refuses) :
    Books.Kept { b with
      offerers := [], fates := b.offerers.map (fun item => (item.offer, .answer false)) ++ b.fates } refuses closed := by
  obtain ⟨takers, offerers, accepted, removed, issued, fates⟩ := b
  induction offerers generalizing fates with
  | nil => exact h
  | cons item offerers ih => exact (ih _ (h.refuse rfl hr)).perm .rfl .rfl perm_middle.symm

/-! ### The queue -/

/-- The order of the items, and who can wait. -/
structure QueueState.Ordered (q : QueueState V) : Prop where
  earlier : q.removed.map Prod.fst <+: q.accepted
  order : q.shutdown = false → q.accepted = q.removed.map Prod.fst ++ q.items
  evicts : q.strategy ≠ .sliding → ∀ removed ∈ q.removed, removed.2.isSome
  closed : q.shutdown = true → q.items = [] ∧ q.takers = [] ∧ q.offerers = []
  stored : ∀ n < q.items.length, q.capacity.room n = true
  takes : q.takers ≠ [] → q.items = [] ∧ q.offerers = []
  offers : q.offerers ≠ [] → q.capacity.room q.items.length = false

variable {q : QueueState V}

theorem ordered_new (capacity : Capacity) (strategy : Strategy) : (QueueState.new capacity strategy : QueueState V).Ordered where
  earlier := prefix_rfl
  order _ := rfl
  evicts _ removed h := by cases h
  closed h := by cases h
  stored n h := absurd h (Nat.not_lt_zero n)
  takes h := absurd rfl h
  offers h := absurd rfl h

/-- An open queue is in order if what was accepted was removed or is there. -/
theorem QueueState.Ordered.of_order (hs : q.shutdown = false) (h : q.accepted = q.removed.map Prod.fst ++ q.items)
    (he : q.strategy ≠ .sliding → ∀ removed ∈ q.removed, removed.2.isSome)
    (hc : ∀ n < q.items.length, q.capacity.room n = true) (ht : q.takers ≠ [] → q.items = [] ∧ q.offerers = [])
    (ho : q.offerers ≠ [] → q.capacity.room q.items.length = false) : q.Ordered where
  earlier := h ▸ prefix_append ..
  order _ := h
  evicts := he
  closed hn := by cases hs.symm.trans hn
  stored := hc
  takes := ht
  offers := ho

theorem evicts_take {removed : List (Item V × Option ℕ)} {P : Prop} (h : P → ∀ r ∈ removed, r.2.isSome) (item : Item V)
    (taker : ℕ) (hp : P) : ∀ r ∈ removed ++ [(item, some taker)], r.2.isSome := by
  intro r hr
  rcases mem_append.mp hr with hr | hr
  · exact h hp r hr
  · rw [mem_singleton.mp hr]
    rfl

theorem QueueState.Ordered.take (h : q.Ordered) (h1 : q.capacity.room 0 = true) (waiter : ℕ) :
    (queueTake q waiter).queue.Ordered := by
  unfold queueTake
  split
  · exact h
  · next hs =>
    have hopen : q.shutdown = false := Bool.eq_false_of_not_eq_true hs
    have horder := h.order hopen
    split
    · next item items offered offerers hi ho =>
      rw [hi] at horder
      have htakers : q.takers = [] := by
        by_contra hne
        cases hi.symm.trans (h.takes hne).1
      refine .of_order hopen ?_ (evicts_take h.evicts item waiter) (fun n hn => h.stored n ?_) (fun hne => absurd htakers hne)
        fun _ => ?_
      · simp [horder]
      · simpa [hi] using hn
      · have hfull := h.offers (by rw [ho]; exact cons_ne_nil _ _)
        simpa [hi] using hfull
    · next item items hi ho =>
      rw [hi] at horder
      have htakers : q.takers = [] := by
        by_contra hne
        cases hi.symm.trans (h.takes hne).1
      refine .of_order hopen ?_ (evicts_take h.evicts item waiter) (fun n hn => h.stored n ?_) (fun hne => absurd htakers hne)
        fun hne => absurd ho hne
      · simp [horder]
      · rw [hi]
        exact Nat.lt_succ_of_lt hn
    · next offered offerers hi ho =>
      have hfull := h.offers (by rw [ho]; exact cons_ne_nil _ _)
      rw [hi, length_nil, h1] at hfull
      cases hfull
    · next hi ho =>
      exact .of_order hopen horder h.evicts h.stored (fun _ => ⟨hi, ho⟩) h.offers

theorem QueueState.Ordered.offer (h : q.Ordered) (h1 : q.capacity.room 0 = true) (item : Item V) :
    (queueOffer q item).queue.Ordered := by
  unfold queueOffer
  split
  · exact h
  · next hs =>
    have hopen : q.shutdown = false := Bool.eq_false_of_not_eq_true hs
    have horder := h.order hopen
    split
    · next taker takers ht =>
      obtain ⟨hi, ho⟩ := h.takes (by rw [ht]; exact cons_ne_nil _ _)
      refine .of_order hopen ?_ (evicts_take h.evicts item taker) h.stored (fun _ => ⟨hi, ho⟩) h.offers
      simp [horder, hi]
    · next ht =>
      split
      · next hroom =>
        have hoffers : q.offerers = [] := by
          by_contra hne
          cases hroom.symm.trans (h.offers hne)
        refine .of_order hopen ?_ h.evicts (fun n hn => ?_) (fun hne => absurd ht hne) fun hne => absurd hoffers hne
        · simp [horder]
        · rcases Nat.lt_or_eq_of_le (Nat.lt_succ_iff.mp (by simpa using hn)) with hlt | rfl
          · exact h.stored n hlt
          · exact hroom
      · next hroom =>
        have hfull : q.capacity.room q.items.length = false := Bool.eq_false_of_not_eq_true hroom
        split
        · exact h
        · next hsliding =>
          cases hi : q.items with
          | nil =>
            rw [hi, length_nil, h1] at hfull
            cases hfull
          | cons oldest items =>
            rw [hi] at horder
            refine .of_order hopen ?_ (fun hn => absurd hsliding hn) (fun n hn => h.stored n ?_) (fun hne => absurd ht hne)
              fun hne => ?_
            · simp [horder]
            · simpa [hi] using hn
            · have hfull' := h.offers hne
              simpa [hi] using hfull'
        · exact .of_order hopen horder h.evicts h.stored (fun hne => absurd ht hne) fun _ => hfull

theorem QueueState.Ordered.close (h : q.Ordered) : (queueClose q).queue.Ordered where
  earlier := h.earlier
  order hn := by cases hn
  evicts := h.evicts
  closed _ := ⟨rfl, rfl, rfl⟩
  stored n hn := absurd hn (Nat.not_lt_zero n)
  takes hne := absurd rfl hne
  offers hne := absurd rfl hne

/-! ### Every step -/

def Fibers.books (s : Fibers V) : Books V where
  takers := s.queue.takers
  offerers := s.queue.offerers
  accepted := s.queue.accepted
  removed := s.queue.removed
  issued := s.issued
  fates := s.waking ++ s.ended

/-- The books after an operation, with what it and the fibers it resumes end with. -/
def Stepped.books (r : Stepped V) (b : Books V) (waiter : ℕ) (offers : Option V) : Books V where
  takers := r.queue.takers
  offerers := r.queue.offerers
  accepted := r.queue.accepted
  removed := r.queue.removed
  issued := b.issued ++ [(waiter, offers)]
  fates := r.wake ++ r.outcome.toList.map (waiter, ·) ++ b.fates

/-- An offer may be refused if the queue is closed, or drops what it has no room for. -/
def QueueState.Refuses (q : QueueState V) : Prop :=
  q.shutdown = true ∨ q.strategy = .dropping

variable {s s' s'' : Fibers V} {waiter : ℕ}

theorem fates_perm {waking wake ended outcomes : List (ℕ × Outcome V)} :
    ((waking ++ wake) ++ (ended ++ outcomes)).Perm (wake ++ outcomes ++ (waking ++ ended)) := by
  refine (perm_append_comm.append perm_append_comm).trans ?_
  simp only [append_assoc]
  exact .append_left _ (perm_append_comm_assoc ..)

theorem resume_perm {waking ended before after : List (ℕ × Outcome V)} {fiber : ℕ × Outcome V}
    (hw : waking = before ++ fiber :: after) : ((before ++ after) ++ (ended ++ [fiber])).Perm (waking ++ ended) := by
  rw [hw, ← append_assoc]
  exact (perm_append_singleton ..).trans (perm_middle.append_right _).symm

theorem operate_kept {offers : Option V} {r : Stepped V}
    (h : (r.books s.books waiter offers).Kept refuses closed) : (s.operate waiter offers r).books.Kept refuses closed :=
  h.perm .rfl .rfl fates_perm

theorem Books.Kept.queueTake (h : s.books.Kept s.queue.Refuses (s.queue.shutdown = true))
    (hw : waiter ∉ s.issued.map Prod.fst) :
    ((Effect.queueTake s.queue waiter).books s.books waiter none).Kept s.queue.Refuses (s.queue.shutdown = true) := by
  have htake := h.take hw
  unfold Effect.queueTake
  split
  · next hs => exact htake.interrupt rfl hs
  · split
    · next item items offered offerers hi ho => exact (htake.hand rfl item).accept ho
    · next item items hi ho => exact htake.hand rfl item
    · next offered offerers hi ho => exact (htake.hand rfl offered).accept ho
    · exact htake.perm (perm_append_singleton ..) .rfl .rfl

theorem Books.Kept.queueOffer {value : V} (h : s.books.Kept s.queue.Refuses (s.queue.shutdown = true))
    (hw : waiter ∉ s.issued.map Prod.fst) :
    ((Effect.queueOffer s.queue ⟨value, waiter⟩).books s.books waiter (some value)).Kept
      s.queue.Refuses (s.queue.shutdown = true) := by
  have hoffer := @Books.Kept.offer _ _ _ _ h ⟨value, waiter⟩ hw
  unfold Effect.queueOffer
  split
  · next hs => exact hoffer.refuse rfl (.inl hs)
  · split
    · next taker takers ht =>
      exact ((hoffer.accept rfl).hand ht ⟨value, waiter⟩).perm .rfl .rfl .rfl
    · split
      · exact hoffer.accept rfl
      · split
        · next hdropping => exact hoffer.refuse rfl (.inr hdropping)
        · exact (hoffer.accept rfl).evict s.queue.items.head?.toList
        · exact hoffer.perm .rfl (perm_append_singleton ..) .rfl

theorem Books.Kept.queueClose (h : s.books.Kept s.queue.Refuses (s.queue.shutdown = true)) :
    Books.Kept { s.books with
      takers := [], offerers := []
      fates := (s.waking ++ (Effect.queueClose s.queue).wake) ++ s.ended } True True := by
  have hopen : s.books.Kept True True := h.weaken (fun _ => trivial) fun _ => trivial
  refine ((hopen.refuseAll trivial).interrupts (append_nil _).symm fun _ => trivial).perm .rfl .rfl ?_
  change ((s.waking ++ (_ ++ _)) ++ s.ended).Perm (_ ++ (_ ++ (s.waking ++ s.ended)))
  rw [← append_assoc _ _ (s.waking ++ s.ended), ← append_assoc _ s.waking]
  exact perm_append_comm.append_right _

theorem queueTake_settings (q : QueueState V) (waiter : ℕ) :
    (Effect.queueTake q waiter).queue.capacity = q.capacity ∧ (Effect.queueTake q waiter).queue.strategy = q.strategy ∧
      (Effect.queueTake q waiter).queue.shutdown = q.shutdown := by
  unfold Effect.queueTake
  split
  · exact ⟨rfl, rfl, rfl⟩
  · split <;> exact ⟨rfl, rfl, rfl⟩

theorem queueOffer_settings (q : QueueState V) (item : Item V) :
    (Effect.queueOffer q item).queue.capacity = q.capacity ∧ (Effect.queueOffer q item).queue.strategy = q.strategy ∧
      (Effect.queueOffer q item).queue.shutdown = q.shutdown := by
  unfold Effect.queueOffer
  split
  · exact ⟨rfl, rfl, rfl⟩
  · split
    · exact ⟨rfl, rfl, rfl⟩
    · split
      · exact ⟨rfl, rfl, rfl⟩
      · split <;> exact ⟨rfl, rfl, rfl⟩

/-- What holds after every operation. -/
structure Fibers.Sound (capacity : Capacity) (strategy : Strategy) (s : Fibers V) : Prop where
  capacity : s.queue.capacity = capacity
  strategy : s.queue.strategy = strategy
  ordered : s.queue.Ordered
  kept : s.books.Kept s.queue.Refuses (s.queue.shutdown = true)

theorem sound_new (capacity : Capacity) (strategy : Strategy) :
    (Fibers.new capacity strategy : Fibers V).Sound capacity strategy where
  capacity := rfl
  strategy := rfl
  ordered := ordered_new capacity strategy
  kept := {
    distinct := nodup_nil
    places := .rfl
    taking := fun _ h => by cases h
    offering := fun _ h => by cases h
    admitted := fun _ h => by cases h
    gets := .rfl
    admits := .rfl
    fate := fun _ h => by cases h }

variable {capacity : Capacity} {strategy : Strategy}

theorem Fibers.Sound.operate {offers : Option V} {r : Stepped V} (h : s.Sound capacity strategy)
    (hsame : r.queue.capacity = s.queue.capacity ∧ r.queue.strategy = s.queue.strategy ∧
      r.queue.shutdown = s.queue.shutdown)
    (ho : r.queue.Ordered) (hk : (r.books s.books waiter offers).Kept s.queue.Refuses (s.queue.shutdown = true)) :
    (s.operate waiter offers r).Sound capacity strategy := by
  obtain ⟨hcapacity, hstrategy, hshutdown⟩ := hsame
  exact {
    capacity := hcapacity.trans h.capacity
    strategy := hstrategy.trans h.strategy
    ordered := ho
    kept := (operate_kept hk).weaken (.imp hshutdown.trans hstrategy.trans) hshutdown.trans }

theorem Step.sound (h1 : capacity.room 0 = true) (h : s.Sound capacity strategy) (hs : Step s s') :
    s'.Sound capacity strategy := by
  rw [← h.capacity] at h1
  cases hs with
  | take waiter hw =>
    exact h.operate (queueTake_settings ..) (h.ordered.take h1 waiter) (h.kept.queueTake hw)
  | offer waiter value hw =>
    exact h.operate (queueOffer_settings ..) (h.ordered.offer h1 ⟨value, waiter⟩) (h.kept.queueOffer hw)
  | shutdown =>
    exact {
      capacity := h.capacity
      strategy := h.strategy
      ordered := h.ordered.close
      kept := h.kept.queueClose.weaken (fun _ => .inl rfl) fun _ => rfl }
  | resume before after fiber hw =>
    exact ⟨h.capacity, h.strategy, h.ordered, h.kept.perm .rfl .rfl (resume_perm hw)⟩

theorem Run.sound (h1 : capacity.room 0 = true) (h : Run (.new capacity strategy) s) : s.Sound capacity strategy := by
  induction h with
  | nil => exact sound_new capacity strategy
  | snoc _ hs ih => exact hs.sound h1 ih

/-- A closed queue stays closed, and nothing leaves it. -/
theorem Step.removed_closed (h : s.queue.shutdown = true) (hs : Step s s') :
    s'.queue.shutdown = true ∧ s'.queue.removed = s.queue.removed := by
  cases hs with
  | take waiter hw => simp [Fibers.operate, Effect.queueTake, h]
  | offer waiter value hw => simp [Fibers.operate, Effect.queueOffer, h]
  | shutdown => exact ⟨rfl, rfl⟩
  | resume before after fiber hw => exact ⟨h, rfl⟩

theorem Run.removed_closed (h : s.queue.shutdown = true) (hr : Run s s') :
    s'.queue.shutdown = true ∧ s'.queue.removed = s.queue.removed := by
  induction hr with
  | nil => exact ⟨h, rfl⟩
  | snoc _ hs ih => exact ⟨(hs.removed_closed ih.1).1, (hs.removed_closed ih.1).2.trans ih.2⟩

/-- What an operation ended with stays so. -/
theorem Step.fates {fate : ℕ × Outcome V} (hs : Step s s') (h : fate ∈ s.waking ++ s.ended) :
    fate ∈ s'.waking ++ s'.ended := by
  cases hs with
  | take waiter hw => exact fates_perm.symm.subset (mem_append_right _ h)
  | offer waiter value hw => exact fates_perm.symm.subset (mem_append_right _ h)
  | shutdown =>
    rcases mem_append.mp h with hm | hm
    · exact mem_append_left _ (mem_append_left _ hm)
    · exact mem_append_right _ hm
  | resume before after fiber hw => exact (resume_perm hw).symm.subset h

theorem Run.fates {fate : ℕ × Outcome V} (hr : Run s s') (h : fate ∈ s.waking ++ s.ended) :
    fate ∈ s'.waking ++ s'.ended := by
  induction hr with
  | nil => exact h
  | snoc _ hs ih => exact hs.fates ih

theorem Run.trans (h : Run s s') (h' : Run s' s'') : Run s s'' := by
  induction h' with
  | nil => exact h
  | snoc _ hs ih => exact ih.snoc hs

/-! ### Delivery -/

/-- What a queue promises, whatever is done with it and in whatever order. -/
structure Fibers.Delivers (capacity : Capacity) (strategy : Strategy) (s : Fibers V) : Prop where
  /-- Items leave in the order in which they were accepted. -/
  order : s.queue.removed.map Prod.fst <+: s.queue.accepted
  /-- Until the queue is closed, an accepted item has left it or is stored. -/
  stored : s.queue.shutdown = false → s.queue.accepted = s.queue.removed.map Prod.fst ++ s.queue.items
  once : (s.queue.accepted.map Item.offer).Nodup
  takes : (s.queue.removed.filterMap Prod.snd).Nodup
  evicts : strategy ≠ .sliding → ∀ removed ∈ s.queue.removed, removed.2.isSome
  bound : ∀ limit, capacity = .bounded limit → (s.queue.items.length : ℤ) ≤ ⌈limit⌉
  takers : s.queue.takers ≠ [] → s.queue.items = [] ∧ s.queue.offerers = []
  offerers : s.queue.offerers ≠ [] → capacity.room s.queue.items.length = false
  /-- Every operation waits, or ended once. -/
  places : (s.queue.takers ++ s.queue.offerers.map Item.offer ++ (s.waking ++ s.ended).map Prod.fst).Perm
    (s.issued.map Prod.fst)
  distinct : (s.issued.map Prod.fst).Nodup
  fate : ∀ fate ∈ s.waking ++ s.ended, s.books.Fate (s.queue.shutdown = true ∨ strategy = .dropping)
    (s.queue.shutdown = true) fate.1 fate.2
  /-- Nobody waits in a closed queue, and it stores nothing. -/
  closed : s.queue.shutdown = true → s.queue.items = [] ∧ s.queue.takers = [] ∧ s.queue.offerers = []
  /-- The offers that ended with `true` are those whose items were accepted. -/
  admits : (s.queue.accepted.map Item.offer).Perm
    (((s.waking ++ s.ended).filter (·.2.isAccepted)).map Prod.fst)
  /-- The takes that ended with an item are those that an item left with. -/
  gets : (s.queue.removed.filterMap Prod.snd).Perm (((s.waking ++ s.ended).filter (·.2.isItem)).map Prod.fst)

theorem Books.Kept.nodup_fates (h : b.Kept refuses closed) : (b.fates.map Prod.fst).Nodup :=
  (nodup_append.mp ((h.places.nodup_iff).mpr h.distinct)).2.1

theorem Books.Kept.nodup_filter (h : b.Kept refuses closed) (p : ℕ × Outcome V → Bool) :
    ((b.fates.filter p).map Prod.fst).Nodup :=
  h.nodup_fates.sublist (filter_sublist.map _)

/-- A queue stores as many items as its capacity, rounded up. -/
theorem Capacity.le_ceil {limit : ℚ} {stored : ℕ} (h1 : 1 ≤ limit)
    (h : ∀ n < stored, (Capacity.bounded limit).room n = true) : (stored : ℤ) ≤ ⌈limit⌉ := by
  cases stored with
  | zero => exact Int.ceil_nonneg (zero_le_one.trans h1)
  | succ n =>
    have hroom : (n : ℚ) < limit := by simpa [Capacity.room] using h n (Nat.lt_succ_self n)
    have hceil : (n : ℤ) < ⌈limit⌉ := Int.lt_ceil.mpr (by simpa using hroom)
    push_cast
    omega

theorem Capacity.room_zero (h1 : ∀ limit, capacity = .bounded limit → 1 ≤ limit) : capacity.room 0 = true := by
  cases capacity with
  | unbounded => rfl
  | bounded limit =>
    have hpos : 0 < limit := zero_lt_one.trans_le (h1 limit rfl)
    simpa [Capacity.room] using hpos

theorem Fibers.Sound.delivers (h1 : ∀ limit, capacity = .bounded limit → 1 ≤ limit) (h : s.Sound capacity strategy) :
    s.Delivers capacity strategy where
  order := h.ordered.earlier
  stored := h.ordered.order
  once := h.kept.admits.nodup_iff.mpr (h.kept.nodup_filter _)
  takes := h.kept.gets.nodup_iff.mpr (h.kept.nodup_filter _)
  evicts := h.strategy ▸ h.ordered.evicts
  bound limit hlimit := Capacity.le_ceil (h1 limit hlimit) (hlimit ▸ h.capacity ▸ h.ordered.stored)
  takers := h.ordered.takes
  offerers := h.capacity ▸ h.ordered.offers
  places := h.kept.places
  distinct := h.kept.distinct
  fate := h.strategy ▸ h.kept.fate
  closed := h.ordered.closed
  admits := h.kept.admits
  gets := h.kept.gets

/-- The queue has just been shut down. -/
def Fibers.close (s : Fibers V) : Fibers V :=
  { s with queue := (queueClose s.queue).queue, waking := s.waking ++ (queueClose s.queue).wake }

/-- An operation ends with one thing only. -/
theorem Fibers.Sound.ends {operation : ℕ} {outcome outcome' : Outcome V} (h : s.Sound capacity strategy)
    (hm : (operation, outcome) ∈ s.waking ++ s.ended) :
    (operation, outcome') ∈ s.waking ++ s.ended ↔ outcome' = outcome := by
  constructor
  · intro hm'
    have hsame := inj_on_of_nodup_map h.kept.nodup_fates hm' hm rfl
    exact congrArg Prod.snd hsame
  · rintro rfl
    exact hm

theorem mem_close_taker {taker : ℕ} (h : taker ∈ s.queue.takers) : (taker, .interrupt) ∈ s.close.waking ++ s.close.ended :=
  mem_append_left _ (mem_append_right _ (mem_append_left _ (mem_map.mpr ⟨taker, h, rfl⟩)))

theorem mem_close_offerer {item : Item V} (h : item ∈ s.queue.offerers) :
    (item.offer, .answer false) ∈ s.close.waking ++ s.close.ended :=
  mem_append_left _ (mem_append_right _ (mem_append_right _ (mem_map.mpr ⟨item, h, rfl⟩)))

/-- What a queue delivers in every run. Once it is shut down nothing leaves it, and the takes that waited
end with the interruption, the offers with `false`. -/
theorem queue_delivers (h1 : ∀ limit, capacity = .bounded limit → 1 ≤ limit)
    (h : Run (.new capacity strategy) s) :
    s.Delivers capacity strategy ∧
      (∀ s', s.queue.shutdown = true → Run s s' → s'.queue.shutdown = true ∧ s'.queue.removed = s.queue.removed) ∧
      ∀ s', Run s.close s' →
        (∀ taker ∈ s.queue.takers, ∀ outcome, (taker, outcome) ∈ s'.waking ++ s'.ended ↔ outcome = .interrupt) ∧
          ∀ item ∈ s.queue.offerers, ∀ outcome,
            (item.offer, outcome) ∈ s'.waking ++ s'.ended ↔ outcome = .answer false := by
  have hroom := Capacity.room_zero h1
  refine ⟨(h.sound hroom).delivers h1, fun _ hclosed hrun => hrun.removed_closed hclosed, fun s' hrun => ?_⟩
  have hsound : s'.Sound capacity strategy := ((h.snoc .shutdown).trans hrun).sound hroom
  constructor
  · intro taker ht outcome
    exact hsound.ends (hrun.fates (mem_close_taker ht))
  · intro item hi outcome
    exact hsound.ends (hrun.fates (mem_close_offerer hi))

/-- Two offers to a queue for one item, and a take. -/
def takenFibers : Fibers ℕ :=
  let offered := (Fibers.new (.bounded 1) .suspending).operate 0 (some 10)
    (queueOffer (.new (.bounded 1) .suspending) ⟨10, 0⟩)
  let waiting := offered.operate 1 (some 11) (queueOffer offered.queue ⟨11, 1⟩)
  waiting.operate 2 none (queueTake waiting.queue 2)

theorem takenFibers_run : Run (.new (.bounded 1) .suspending) takenFibers :=
  .snoc (.snoc (.snoc .nil (.offer 0 10 (by decide))) (.offer 1 11 (by decide))) (.take 2 (by decide))

theorem queue_delivers_taken :
    takenFibers.Delivers (.bounded 1) .suspending ∧ takenFibers.ended = [(0, .answer true), (2, .item 10)] ∧
      takenFibers.waking = [(1, .answer true)] :=
  ⟨(queue_delivers (by rintro limit ⟨⟩; exact le_rfl) takenFibers_run).1, by decide +kernel, by decide +kernel⟩

/-- There is room for a second item if the capacity is one and a half. -/
theorem queue_exceeds :
    ¬ ∀ (capacity : Capacity) (strategy : Strategy) (s : Fibers ℕ),
      (∀ limit, capacity = .bounded limit → 1 ≤ limit) → Run (.new capacity strategy) s →
        ∀ limit, capacity = .bounded limit → (s.queue.items.length : ℚ) ≤ limit := by
  intro h
  let offered : Fibers ℕ := (Fibers.new (.bounded (3 / 2)) .suspending).operate 0 (some 10)
    (queueOffer (.new (.bounded (3 / 2)) .suspending) ⟨10, 0⟩)
  let again : Fibers ℕ := offered.operate 1 (some 11) (queueOffer offered.queue ⟨11, 1⟩)
  have hrun : Run (.new (.bounded (3 / 2)) .suspending) again :=
    .snoc (.snoc .nil (.offer 0 10 (by decide))) (.offer 1 11 (by decide +kernel))
  have hstored : again.queue.items.length = 2 := by decide +kernel
  have hbound := h (.bounded (3 / 2)) .suspending again (by rintro limit ⟨⟩; norm_num) hrun _ rfl
  rw [hstored] at hbound
  norm_num at hbound

end Scriptc.RuntimeRust.Effect
