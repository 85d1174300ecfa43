import Mathlib.Data.List.Perm.Subperm
import Mathlib.Data.List.Infix
import Scriptc.RuntimeRust.HttpAgent

/-!
# Runs of the HTTP agent

In a run whose steps the agent accounts for rightly (`Fine`), the requests that are running
have entries that do not wait, so the admission's count bounds them; and the entries that wait
come after all that have been started.
-/

namespace HttpAgent

open State List Function

/-- What holds between steps, and also while the agent is being destroyed. -/
structure Core (s : State) : Prop where
  known : ∀ e ∈ s.entries, e.request < s.next ∧ (s.requests e.request).name = e.name
  sorted : s.entries.Pairwise fun a b => a.request < b.request
  waiting : ∀ e ∈ s.entries, e.queued = true → (s.requests e.request).started = false
  split : ∀ a ∈ s.entries, ∀ b ∈ s.entries, a.name = b.name → a.queued = true → b.queued = false → b.request < a.request
  logged : ∀ p ∈ s.log, p.1 < s.next ∧ (s.requests p.1).started = true
  running : s.destroyed = false → ∀ p ∈ s.log, (s.requests p.1).finished = false → ∃ e ∈ s.entries, e.request = p.1 ∧ e.queued = false
  tracked : ∀ id < s.next, (s.requests id).destroyed = false → ∃ e ∈ s.entries, e.request = id
  order : s.log.Pairwise fun newer older => (s.requests older.1).name = (s.requests newer.1).name → older.1 < newer.1
  distinct : (s.log.map (·.1)).Nodup
  later : ∀ e ∈ s.entries, e.queued = true → ∀ p ∈ s.log, (s.requests p.1).name = e.name → p.1 < e.request
  bounded : ∀ p older, (p :: older) <:+ s.log → ∀ k, p.2.cap = some k → (p :: older).countP (s.live (s.requests p.1).name) ≤ k

/-- An agent that is destroyed has no entries. -/
structure Inv (s : State) : Prop extends Core s where
  gone : s.destroyed = true → s.entries = []

/-- A request that has got further without being started. -/
structure Further (r r' : Request) : Prop where
  name : r'.name = r.name
  started : r'.started = r.started
  finished : r.finished = true → r'.finished = true
  destroyed : r.destroyed = true → r'.destroyed = true

variable {s : State} {id : ℕ} {name : String} {r : Request}

/-! ### Parts of steps -/

theorem initial_inv (secure : Bool) (maxSockets : Number) : Inv (initial secure maxSockets) where
  known e he := by simp [initial] at he
  sorted := List.Pairwise.nil
  waiting e he := by simp [initial] at he
  split a ha := by simp [initial] at ha
  logged p hp := by simp [initial] at hp
  running _ p hp := by simp [initial] at hp
  tracked id hid := absurd hid (Nat.not_lt_zero id)
  order := List.Pairwise.nil
  distinct := nodup_nil
  later e he := by simp [initial] at he
  bounded p older h := by simp [initial] at h
  gone h := by simp [initial] at h

/-- What the new request has in common with the old one, all requests have. -/
theorem setRequest_field {β : Type} (f : Request → β) (h : f r = f (s.requests id)) (i : ℕ) :
    f ((s.setRequest id r).requests i) = f (s.requests i) := by
  by_cases hi : i = id
  · subst hi
    simpa [State.setRequest] using h
  · exact congrArg f (update_of_ne hi _ _)

theorem setRequest_further (h : Further (s.requests id) r) (i : ℕ) : Further (s.requests i) ((s.setRequest id r).requests i) := by
  by_cases hi : i = id
  · subst hi
    simpa [State.setRequest] using h
  · have : (s.setRequest id r).requests i = s.requests i := update_of_ne hi _ _
    rw [this]
    exact ⟨rfl, rfl, fun h => h, fun h => h⟩

theorem live_of_further {s' : State} (h : ∀ i, Further (s.requests i) (s'.requests i)) (name : String) (p : ℕ × Number)
    (hlive : s'.live name p = true) : s.live name p = true := by
  unfold State.live at hlive ⊢
  rw [(h p.1).name] at hlive
  simp only [Bool.and_eq_true, beq_iff_eq, Bool.not_eq_true'] at hlive ⊢
  refine ⟨hlive.1, ?_⟩
  by_contra hfin
  have := (h p.1).finished (by simpa using hfin)
  rw [hlive.2] at this
  cases this

/-- Requests have got further; all else is as it was. -/
theorem Core.further {requests : ℕ → Request} (h : Core s) (hf : ∀ i, Further (s.requests i) (requests i)) :
    Core { s with requests := requests } where
  known e he := ⟨(h.known e he).1, (hf _).name.trans (h.known e he).2⟩
  sorted := h.sorted
  waiting e he hq := (hf _).started.trans (h.waiting e he hq)
  split := h.split
  logged p hp := ⟨(h.logged p hp).1, (hf _).started.trans (h.logged p hp).2⟩
  running hd p hp hfin := by
    refine h.running hd p hp ?_
    by_contra hne
    have := (hf p.1).finished (by simpa using hne)
    rw [hfin] at this
    cases this
  tracked i hi hd := by
    refine h.tracked i hi ?_
    by_contra hne
    have := (hf i).destroyed (by simpa using hne)
    rw [hd] at this
    cases this
  order := h.order.imp fun {a b} hab hname => hab (by rw [← (hf b.1).name, ← (hf a.1).name]; exact hname)
  distinct := h.distinct
  later e he hq p hp hname := h.later e he hq p hp ((hf p.1).name.symm.trans hname)
  bounded p older hsuf k hk := by
    have hle := h.bounded p older hsuf k hk
    refine le_trans ?_ hle
    rw [← (hf p.1).name]
    refine countP_mono_left fun q _ hq => ?_
    exact @live_of_further s { s with requests := requests } hf _ q hq

theorem Core.setRequest (h : Core s) (hf : Further (s.requests id) r) : Core (s.setRequest id r) :=
  h.further (setRequest_further hf)

/-- The running requests of a name are no more than its entries that do not wait. -/
theorem Core.live_le_active (h : Core s) (hd : s.destroyed = false) (name : String) : s.log.countP (s.live name) ≤ s.active name := by
  unfold State.active
  rw [countP_eq_length_filter, countP_eq_length_filter, ← length_map (f := (·.1)),
    ← length_map (f := Entry.request)]
  have hnodup : ((s.log.filter (s.live name)).map (·.1)).Nodup := h.distinct.sublist (filter_sublist.map _)
  refine (hnodup.subperm fun i hi => ?_).length_le
  obtain ⟨p, hp, rfl⟩ := mem_map.mp hi
  obtain ⟨hp, hlive⟩ := mem_filter.mp hp
  simp only [State.live, Bool.and_eq_true, beq_iff_eq, Bool.not_eq_true'] at hlive
  obtain ⟨e, he, hrequest, hqueued⟩ := h.running hd p hp hlive.2
  refine mem_map.mpr ⟨e, mem_filter.mpr ⟨he, ?_⟩, hrequest⟩
  have hname := (h.known e he).2
  rw [hrequest, hlive.1] at hname
  simp [hqueued, hname]

theorem active_lt {k : ℕ} (hfull : s.full name = false) (hk : s.maxSockets.cap = some k) : s.active name < k := by
  unfold State.full at hfull
  rw [hk] at hfull
  exact Nat.lt_of_not_le (of_decide_eq_false hfull)

theorem Core.forget (h : Core s) (hfin : (s.requests id).finished = true) (hdes : (s.requests id).destroyed = true) :
    Core (s.forget id) where
  known e he := h.known e (mem_filter.mp he).1
  sorted := h.sorted.sublist filter_sublist
  waiting e he := h.waiting e (mem_filter.mp he).1
  split a ha b hb := h.split a (mem_filter.mp ha).1 b (mem_filter.mp hb).1
  logged := h.logged
  running hd p hp hnot := by
    obtain ⟨e, he, hrequest, hqueued⟩ := h.running hd p hp hnot
    refine ⟨e, mem_filter.mpr ⟨he, ?_⟩, hrequest, hqueued⟩
    have : e.request ≠ id := by
      rintro rfl
      rw [hrequest] at hfin
      change (s.requests p.1).finished = false at hnot
      rw [hfin] at hnot
      cases hnot
    simpa using this
  tracked i hi hnot := by
    obtain ⟨e, he, hrequest⟩ := h.tracked i hi hnot
    refine ⟨e, mem_filter.mpr ⟨he, ?_⟩, hrequest⟩
    have : e.request ≠ id := by
      rintro rfl
      rw [hrequest] at hdes
      change (s.requests i).destroyed = false at hnot
      rw [hdes] at hnot
      cases hnot
    simpa using this
  order := h.order
  distinct := h.distinct
  later e he := h.later e (mem_filter.mp he).1
  bounded := h.bounded

/-- The promotion takes the first entry of the name that waits. -/
theorem promote_spec {entries entries' : List Entry} {id' : ℕ} (h : promote name entries = some (id', entries')) :
    ∃ before entry after, entries = before ++ entry :: after ∧ entry.queued = true ∧ entry.name = name ∧ entry.request = id' ∧
      entries' = before ++ { entry with queued := false } :: after ∧ ∀ e ∈ before, e.name = name → e.queued = false := by
  induction entries generalizing entries' with
  | nil => cases h
  | cons e entries ih =>
    rw [promote] at h
    split at h
    case isTrue hfirst =>
      simp only [Bool.and_eq_true, beq_iff_eq] at hfirst
      cases h
      exact ⟨[], e, entries, rfl, hfirst.1, hfirst.2, rfl, rfl, by simp⟩
    case isFalse hfirst =>
      obtain ⟨⟨i, rest⟩, hrest, heq⟩ := Option.map_eq_some_iff.mp h
      cases heq
      obtain ⟨before, entry, after, rfl, hq, hn, hr, rfl, hbefore⟩ := ih hrest
      refine ⟨e :: before, entry, after, rfl, hq, hn, hr, rfl, forall_mem_cons.mpr ⟨fun hname => ?_, hbefore⟩⟩
      by_contra hqueued
      exact hfirst (by simp [hname, hqueued])

theorem Core.promote {entries' : List Entry} {id' : ℕ} (h : Core s) (hp : promote name s.entries = some (id', entries')) :
    Core { s with entries := entries' } := by
  obtain ⟨before, entry, after, hsplit, hq, hn, hr, rfl, hbefore⟩ := promote_spec hp
  -- an entry of the new list is one of the old list, that waits only if the old one did
  have old {e : Entry} (he : e ∈ before ++ { entry with queued := false } :: after) :
      ∃ e' ∈ s.entries, e'.name = e.name ∧ e'.request = e.request ∧ (e.queued = true → e' = e) := by
    rw [hsplit]
    rcases mem_append.mp he with he | he
    · exact ⟨e, mem_append_left _ he, rfl, rfl, fun _ => rfl⟩
    · rcases mem_cons.mp he with rfl | he
      · exact ⟨entry, by simp, rfl, rfl, fun h => by cases h⟩
      · exact ⟨e, mem_append_right _ (mem_cons_of_mem _ he), rfl, rfl, fun _ => rfl⟩
  have new {e : Entry} (he : e ∈ s.entries) :
      ∃ e' ∈ before ++ { entry with queued := false } :: after, e'.request = e.request ∧ (e.queued = false → e'.queued = false) := by
    rw [hsplit] at he
    rcases mem_append.mp he with he | he
    · exact ⟨e, mem_append_left _ he, rfl, id⟩
    · rcases mem_cons.mp he with rfl | he
      · exact ⟨{ e with queued := false }, by simp, rfl, fun _ => rfl⟩
      · exact ⟨e, mem_append_right _ (mem_cons_of_mem _ he), rfl, id⟩
  have sorted := h.sorted
  rw [hsplit, pairwise_append, pairwise_cons] at sorted
  obtain ⟨hb, ⟨hentry, ha⟩, hcross⟩ := sorted
  refine ⟨fun e he => ?_, ?_, fun e he hqe => ?_, fun a hma b hmb hname hqa hqb => ?_, h.logged, fun hd p hp hfin => ?_, fun i hi hd => ?_,
    h.order, h.distinct, fun e he hqe p hp hname => ?_, h.bounded⟩
  · obtain ⟨e', he', hname, hrequest, -⟩ := old he
    have := h.known e' he'
    rwa [hname, hrequest] at this
  · refine pairwise_append.mpr ⟨hb, pairwise_cons.mpr ⟨hentry, ha⟩, fun x hx y hy => ?_⟩
    rcases mem_cons.mp hy with rfl | hy
    · exact hcross x hx entry mem_cons_self
    · exact hcross x hx y (mem_cons_of_mem _ hy)
  · obtain ⟨e', he', -, -, hsame⟩ := old he
    rw [hsame hqe] at he'
    exact h.waiting e he' hqe
  · obtain ⟨a', ha', -, -, hsame⟩ := old hma
    rw [hsame hqa] at ha'
    rcases mem_append.mp hmb with hb' | hb'
    · exact h.split a ha' b (hsplit ▸ mem_append_left _ hb') hname hqa hqb
    · rcases mem_cons.mp hb' with rfl | hb'
      · -- what waits under the name comes after the entry promoted
        rcases mem_append.mp hma with hm | hm
        · have := hbefore a hm (hname.trans hn)
          rw [hqa] at this
          cases this
        · rcases mem_cons.mp hm with rfl | hm
          · cases hqa
          · exact hentry a hm
      · exact h.split a ha' b (hsplit ▸ mem_append_right _ (mem_cons_of_mem _ hb')) hname hqa hqb
  · obtain ⟨e, he, hrequest, hqueued⟩ := h.running hd p hp hfin
    obtain ⟨e', he', hrequest', hqueued'⟩ := new he
    exact ⟨e', he', hrequest'.trans hrequest, hqueued' hqueued⟩
  · obtain ⟨e, he, hrequest⟩ := h.tracked i hi hd
    obtain ⟨e', he', hrequest', -⟩ := new he
    exact ⟨e', he', hrequest'.trans hrequest⟩
  · obtain ⟨e', he', -, -, hsame⟩ := old he
    rw [hsame hqe] at he'
    exact h.later e he' hqe p hp hname

/-- A request may be started when the limit allows it, and its turn has come. -/
structure MayStart (s : State) (id : ℕ) : Prop where
  made : id < s.next
  entry : ∃ e ∈ s.entries, e.request = id
  ready : ∀ e ∈ s.entries, e.request = id → e.queued = false
  order : ∀ p ∈ s.log, (s.requests p.1).name = (s.requests id).name → p.1 < id
  later : ∀ e ∈ s.entries, e.queued = true → e.name = (s.requests id).name → id < e.request
  limit : ∀ k, s.maxSockets.cap = some k → s.log.countP (s.live (s.requests id).name) < k

theorem start_started (hd : (s.requests id).destroyed = false) (hs : (s.requests id).started = false) :
    s.start id = { s.setRequest id { s.requests id with started := true } with log := (id, s.maxSockets) :: s.log } := by
  rw [State.start, hd, hs]
  rfl

theorem Core.start (h : Core s) (hm : MayStart s id) (hd : (s.requests id).destroyed = false)
    (hs : (s.requests id).started = false) : Core (s.start id) := by
  rw [start_started hd hs]
  have name := @setRequest_field s id { s.requests id with started := true } _ Request.name rfl
  have finished := @setRequest_field s id { s.requests id with started := true } _ Request.finished rfl
  have destroyed := @setRequest_field s id { s.requests id with started := true } _ Request.destroyed rfl
  have started {i : ℕ} (h : (s.requests i).started = true ∨ i = id) :
      ((s.setRequest id { s.requests id with started := true }).requests i).started = true := by
    by_cases hi : i = id
    · simp [hi, State.setRequest]
    · simpa [hi, State.setRequest] using h
  have unstarted {i : ℕ} (hi : i ≠ id) : (s.setRequest id { s.requests id with started := true }).requests i = s.requests i :=
    update_of_ne hi _ _
  have fresh (p : ℕ × Number) (hp : p ∈ s.log) : p.1 ≠ id := by
    rintro rfl
    rw [(h.logged p hp).2] at hs
    cases hs
  refine ⟨fun e he => ?_, h.sorted, fun e he hq => ?_, h.split, ?_, fun hdes => ?_, fun i hi hdi => ?_, ?_, ?_, fun e he hq => ?_,
    fun p older hsuf k hk => ?_⟩
  · exact ⟨(h.known e he).1, (name _).trans (h.known e he).2⟩
  · have hne : e.request ≠ id := fun hr => by
      rw [hm.ready e he hr] at hq
      cases hq
    exact (congrArg Request.started (unstarted hne)).trans (h.waiting e he hq)
  · exact forall_mem_cons.mpr ⟨⟨hm.made, started (.inr rfl)⟩, fun p hp => ⟨(h.logged p hp).1, started (.inl (h.logged p hp).2)⟩⟩
  · refine forall_mem_cons.mpr ⟨fun _ => ?_, fun p hp hfin => h.running hdes p hp ((finished _).symm.trans hfin)⟩
    obtain ⟨e, he, hr⟩ := hm.entry
    exact ⟨e, he, hr, hm.ready e he hr⟩
  · exact h.tracked i hi ((destroyed i).symm.trans hdi)
  · refine pairwise_cons.mpr ⟨fun p hp hname => ?_, h.order.imp fun {a b} hab hname => ?_⟩
    · exact hm.order p hp ((name _).symm.trans (hname.trans (name _)))
    · exact hab ((name _).symm.trans (hname.trans (name _)))
  · refine nodup_cons.mpr ⟨fun hmem => ?_, h.distinct⟩
    obtain ⟨p, hp, heq⟩ := mem_map.mp hmem
    exact fresh p hp heq
  · refine forall_mem_cons.mpr ⟨fun hname => hm.later e he hq ((name _).symm.trans hname).symm, fun p hp hname => ?_⟩
    exact h.later e he hq p hp ((name _).symm.trans hname)
  · have live (n : String) (q : ℕ × Number) :
        State.live { s.setRequest id { s.requests id with started := true } with log := (id, s.maxSockets) :: s.log } n q = s.live n q := by
      change (((s.setRequest id _).requests q.1).name == n && !((s.setRequest id _).requests q.1).finished) = _
      rw [name, finished]
      rfl
    have hcount (n : String) (l : List (ℕ × Number)) :
        l.countP (State.live { s.setRequest id { s.requests id with started := true } with log := (id, s.maxSockets) :: s.log } n) =
          l.countP (s.live n) := countP_congr fun q _ => by rw [live]
    rw [hcount]
    change List.countP (s.live ((s.setRequest id _).requests p.1).name) _ ≤ k
    rw [name]
    rcases suffix_cons_iff.mp hsuf with heq | hsuf
    · cases heq
      have := hm.limit k hk
      have hle := countP_cons (p := s.live (s.requests id).name) (a := (id, s.maxSockets)) (l := s.log)
      rw [hle]
      split <;> omega
    · exact h.bounded p older hsuf k hk

/-! ### Whole steps -/

/-- What the promotion gives, where the condition on the step holds. -/
theorem clientDone_spec (h : Core s) (hsec : s.destroyed = true → s.entries = []) (hfin : (s.requests id).finished = true)
    (hdes : (s.requests id).destroyed = true) (hfine : DoneFine s id) :
    Core (s.clientDone id) ∧ ((s.clientDone id).destroyed = true → (s.clientDone id).entries = []) ∧
      (s.destroyed = true → (s.clientDone id).log = s.log) ∧
      ∀ entry, s.entries.find? (fun entry => entry.request = id) = some entry → s.destroyed = false →
        (s.forget id).full entry.name = false → ∀ id' entries, promote entry.name (s.forget id).entries = some (id', entries) →
          (s.clientDone id).log = (id', s.maxSockets) :: s.log := by
  have hforget := h.forget hfin hdes
  unfold State.clientDone
  cases hfind : s.entries.find? fun entry => entry.request = id with
  | none => exact ⟨h, hsec, fun _ => rfl, fun entry he => by cases he⟩
  | some entry =>
    dsimp only
    split
    case isTrue hstop =>
      refine ⟨hforget, fun hd => ?_, fun _ => rfl, fun entry' he hd hfull id' entries hp => ?_⟩
      · change s.entries.filter _ = []
        rw [hsec hd]
        rfl
      · cases he
        have hagree := (hfine entry hfind hd id' entries hp).1
        change (s.destroyed || _) = true at hstop
        rw [hd, Bool.false_or, hagree, hfull] at hstop
        cases hstop
    case isFalse hgo =>
      have hgo : s.destroyed = false ∧ (s.forget id).blocked entry.name = false := by
        change ¬ (s.destroyed || (s.forget id).blocked entry.name) = true at hgo
        simpa using hgo
      cases hp : promote entry.name (s.forget id).entries with
      | none =>
        exact ⟨hforget, fun hd => absurd (hgo.1.symm.trans hd) (by decide), fun _ => rfl, fun entry' he _ _ id' entries hp' => by
          cases he
          rw [hp] at hp'
          cases hp'⟩
      | some result =>
        obtain ⟨id', entries⟩ := result
        obtain ⟨hagree, hok⟩ := hfine entry hfind hgo.1 id' entries hp
        obtain ⟨hplain, hdes'⟩ := hok hgo.2
        have hpromoted := hforget.promote hp
        obtain ⟨before, waiting, after, hsplit, hq, hn, hr, rfl, hbefore⟩ := promote_spec hp
        have hmem : waiting ∈ (s.forget id).entries := by simp [hsplit]
        have hstarted : (s.requests id').started = false := hr ▸ hforget.waiting waiting hmem hq
        have hname : (s.requests id').name = entry.name := by
          rw [← hr, ← hn]
          exact (hforget.known waiting hmem).2
        have sorted := hforget.sorted
        rw [hsplit, pairwise_append, pairwise_cons] at sorted
        obtain ⟨-, ⟨hafter, -⟩, hcross⟩ := sorted
        have may : MayStart { s.forget id with entries := before ++ { waiting with queued := false } :: after } id' := by
          refine ⟨hr ▸ (hforget.known waiting hmem).1, ⟨{ waiting with queued := false }, by simp, hr⟩, fun e he hre => ?_,
            fun p hp hpn => hr ▸ hforget.later waiting hmem hq p hp (hpn.trans (hname.trans hn.symm)), fun e he hqe hen => ?_, fun k hk => ?_⟩
          · rcases mem_append.mp he with he | he
            · have := hcross e he waiting mem_cons_self
              omega
            · rcases mem_cons.mp he with rfl | he
              · rfl
              · have := hafter e he
                omega
          · rcases mem_append.mp he with he | he
            · have := hbefore e he (hen.trans hname)
              rw [hqe] at this
              cases this
            · rcases mem_cons.mp he with rfl | he
              · cases hqe
              · exact hr ▸ hafter e he
          · have hle := hforget.live_le_active hgo.1 entry.name
            have hfull : (s.forget id).full entry.name = false := hagree.symm.trans hgo.2
            change s.log.countP (s.live (s.requests id').name) < k
            rw [hname]
            exact lt_of_le_of_lt hle (active_lt hfull hk)
        dsimp only
        rw [if_neg (by change ¬ s.secure = true; simp [hplain])]
        have hrun := start_started (s := { s.forget id with entries := before ++ { waiting with queued := false } :: after }) hdes' hstarted
        refine ⟨hpromoted.start may hdes' hstarted, fun hd => ?_, fun hd => absurd (hgo.1.symm.trans hd) (by decide),
          fun entry' he _ _ id'' entries hp' => ?_⟩
        · rw [hrun] at hd
          exact absurd (hgo.1.symm.trans hd) (by decide)
        · cases he
          rw [hp] at hp'
          cases hp'
          rw [hrun]
          rfl

/-- The step finishes the connection of a request that knows its agent. -/
def Finishes (s : State) (id : ℕ) : Event → Prop
  | .closed id' => id' = id ∧ (s.requests id).attached = true
  | .destroy id' => id' = id ∧ (s.requests id).attached = true ∧ s.secure = true ∧ (s.requests id).destroyed = false
  | _ => False

/-- The request is the first made of those of the name that wait. -/
def Oldest (s : State) (name : String) (id : ℕ) : Prop :=
  (∃ e ∈ s.entries, e.request = id ∧ e.queued = true ∧ e.name = name) ∧
    ∀ e ∈ s.entries, e.queued = true → e.name = name → id ≤ e.request

/-- What the step owes to the requests that wait: the oldest of the name is started when the
limit allows it, and none is after the agent has been destroyed. -/
def Promotes (s s' : State) (e : Event) : Prop :=
  (∀ entry ∈ s.entries, Finishes s entry.request e → s.destroyed = false → (s.forget entry.request).full entry.name = false →
    ∀ id', Oldest (s.forget entry.request) entry.name id' → s'.log = (id', s.maxSockets) :: s.log) ∧
  (s.destroyed = true → s'.log = s.log)

theorem find_entry {entries : List Entry} {entry : Entry} (hsorted : entries.Pairwise fun a b => a.request < b.request)
    (he : entry ∈ entries) : entries.find? (fun e => e.request = entry.request) = some entry := by
  induction hsorted with
  | nil => cases he
  | cons hlt _ ih =>
    rcases mem_cons.mp he with rfl | he
    · simp
    · rw [find?_cons_of_neg (by simpa using (hlt _ he).ne)]
      exact ih he

theorem promote_isSome {entries : List Entry} {e : Entry} (he : e ∈ entries) (hq : e.queued = true) (hn : e.name = name) :
    ∃ result, promote name entries = some result := by
  induction entries with
  | nil => cases he
  | cons head entries ih =>
    rw [promote]
    split
    case isTrue => exact ⟨_, rfl⟩
    case isFalse hfirst =>
      rcases mem_cons.mp he with rfl | he
      · exact absurd (by simp [hq, hn]) hfirst
      · obtain ⟨result, hresult⟩ := ih he
        exact ⟨_, by rw [hresult]; rfl⟩

/-- The entries are in the order of the requests, so the promotion takes the oldest. -/
theorem promote_oldest {id' : ℕ} (hsorted : s.entries.Pairwise fun a b => a.request < b.request) (h : Oldest s name id') :
    ∃ entries, promote name s.entries = some (id', entries) := by
  obtain ⟨⟨e, he, rfl, hq, hn⟩, hleast⟩ := h
  obtain ⟨⟨id'', entries⟩, hp⟩ := promote_isSome he hq hn
  obtain ⟨before, waiting, after, hsplit, hwq, hwn, rfl, -, hbefore⟩ := promote_spec hp
  have hle := hleast waiting (by simp [hsplit]) hwq hwn
  have hge : waiting.request ≤ e.request := by
    rw [hsplit, pairwise_append, pairwise_cons] at hsorted
    rw [hsplit] at he
    rcases mem_append.mp he with he | he
    · exact absurd ((hbefore e he hn).symm.trans hq) (by decide)
    · rcases mem_cons.mp he with rfl | he
      · exact le_rfl
      · exact (hsorted.2.1.1 e he).le
  exact ⟨entries, by rw [hp, le_antisymm hge hle]⟩

theorem DoneFine.setRequest (h : DoneFine s id) : DoneFine (s.setRequest id r) id := by
  intro entry hfind hd id' entries hp
  obtain ⟨hagree, hok⟩ := h entry hfind hd id' entries hp
  refine ⟨hagree, fun hb => ?_⟩
  obtain ⟨hplain, hdes⟩ := hok hb
  obtain ⟨before, waiting, after, hsplit, -, -, hr, -⟩ := promote_spec hp
  have hmem : waiting ∈ (s.forget id).entries := by
    change waiting ∈ ((s.setRequest id r).forget id).entries
    simp [hsplit]
  have hne : id' ≠ id := by
    have := (mem_filter.mp hmem).2
    rw [← hr]
    simpa using this
  refine ⟨hplain, ?_⟩
  have : (s.setRequest id r).requests id' = s.requests id' := update_of_ne hne _ _
  rw [this]
  exact hdes

theorem dispatchClose_spec (h : Inv s) (hfine : (s.requests id).attached = true → DoneFine s id) :
    Inv (s.dispatchClose id) ∧ (s.destroyed = true → (s.dispatchClose id).log = s.log) ∧
      ∀ entry id' entries, (s.requests id).attached = true → s.entries.find? (fun entry => entry.request = id) = some entry →
        s.destroyed = false → (s.forget id).full entry.name = false → promote entry.name (s.forget id).entries = some (id', entries) →
          (s.dispatchClose id).log = (id', s.maxSockets) :: s.log := by
  have hclosed : Core (s.setRequest id { s.requests id with destroyed := true, finished := true, attached := false }) :=
    h.toCore.setRequest ⟨rfl, rfl, fun _ => rfl, fun _ => rfl⟩
  unfold State.dispatchClose
  by_cases hatt : (s.requests id).attached = true
  · rw [if_pos hatt]
    obtain ⟨hcore, hgone, hlog, hpromotes⟩ := @clientDone_spec _ id hclosed h.gone (by simp [State.setRequest])
      (by simp [State.setRequest]) (hfine hatt).setRequest
    exact ⟨⟨hcore, hgone⟩, hlog, fun entry id' entries _ hfind hd hfull hp => hpromotes entry hfind hd hfull id' entries hp⟩
  · rw [if_neg hatt]
    exact ⟨⟨hclosed, h.gone⟩, fun _ => rfl, fun _ _ _ ha => absurd ha hatt⟩

theorem clientDestroy_spec (h : Inv s)
    (hfine : s.secure = true → (s.requests id).destroyed = false → (s.requests id).attached = true → DoneFine s id) :
    Inv (s.clientDestroy id) ∧ Promotes s (s.clientDestroy id) (.destroy id) := by
  have hmarked : Inv (s.setRequest id { s.requests id with destroyed := true }) :=
    ⟨h.toCore.setRequest ⟨rfl, rfl, fun h => h, fun _ => rfl⟩, h.gone⟩
  have hatt : ((s.setRequest id { s.requests id with destroyed := true }).requests id).attached = (s.requests id).attached := by
    simp [State.setRequest]
  unfold State.clientDestroy
  by_cases hclose : (s.secure && !(s.requests id).destroyed) = true
  · rw [if_pos hclose]
    obtain ⟨hsec, hdes⟩ : s.secure = true ∧ (s.requests id).destroyed = false := by simpa using hclose
    obtain ⟨hinv, hlog, hpromotes⟩ := @dispatchClose_spec _ id hmarked fun ha => (hfine hsec hdes (hatt ▸ ha)).setRequest
    refine ⟨hinv, ?_, hlog⟩
    rintro entry he ⟨rfl, ha, -, -⟩ hd hfull id' hold
    obtain ⟨entries, hp⟩ := promote_oldest (h.sorted.sublist filter_sublist) hold
    exact hpromotes entry id' entries (hatt.trans ha) (find_entry h.sorted he) hd hfull hp
  · rw [if_neg hclose]
    refine ⟨hmarked, ?_, fun _ => rfl⟩
    rintro entry - ⟨rfl, -, hsec, hdes⟩
    exact absurd (by simp [hsec, hdes]) hclose

theorem clientEnd_spec (h : Inv s) (hid : id < s.next) (hfine : Fine s (.end_ id)) :
    Inv (s.clientEnd id) ∧ Promotes s (s.clientEnd id) (.end_ id) := by
  unfold State.clientEnd
  by_cases hskip : ((s.requests id).sent || (s.requests id).destroyed) = true
  · rw [if_pos hskip]
    exact ⟨h, fun _ _ hf => hf.elim, fun _ => rfl⟩
  rw [if_neg hskip]
  obtain ⟨hsent, hdes⟩ : (s.requests id).sent = false ∧ (s.requests id).destroyed = false := by simpa using hskip
  have hmarked : Inv (s.setRequest id { s.requests id with sent := true }) :=
    ⟨h.toCore.setRequest ⟨rfl, rfl, fun h => h, fun h => h⟩, h.gone⟩
  obtain ⟨e, he, hrequest⟩ := h.tracked id hid hdes
  have hnot : s.destroyed = false := by
    by_contra hd
    rw [h.gone (by simpa using hd)] at he
    cases he
  refine ⟨?_, fun _ _ hf => hf.elim, fun hd => absurd (hnot.symm.trans hd) (by decide)⟩
  by_cases hsec : s.secure = true
  · rw [if_pos hsec]
    obtain ⟨hready, hlimit, horder⟩ := hfine hsec hsent hdes
    have name := @setRequest_field s id { s.requests id with sent := true } _ Request.name rfl
    have finished := @setRequest_field s id { s.requests id with sent := true } _ Request.finished rfl
    cases hstarted : (s.requests id).started with
    | true =>
      have hkeep : (s.setRequest id { s.requests id with sent := true }).start id = s.setRequest id { s.requests id with sent := true } := by
        rw [State.start, if_pos (by simp [State.setRequest, hstarted])]
      rw [hkeep]
      exact hmarked
    | false =>
      have may : MayStart (s.setRequest id { s.requests id with sent := true }) id := by
        refine ⟨hid, ⟨e, he, hrequest⟩, hready, fun p hp hname => ?_, fun e' he' hq hname => ?_, fun k hk => ?_⟩
        · rw [name p.1, name id] at hname
          exact horder p hp hname
        · rw [name id] at hname
          have hlt := h.split e' he' e he (hname.trans ((congrArg (fun i => (s.requests i).name) hrequest.symm).trans (h.known e he).2)) hq
            (hready e he hrequest)
          rwa [hrequest] at hlt
        · have hcount : s.log.countP ((s.setRequest id { s.requests id with sent := true }).live (s.requests id).name) =
              s.log.countP (s.live (s.requests id).name) := countP_congr fun p _ => by
            unfold State.live
            rw [name p.1, finished p.1]
          change s.log.countP (State.live _ _) < k
          rw [name id, hcount]
          exact hlimit k hk
      have hdes' : ((s.setRequest id { s.requests id with sent := true }).requests id).destroyed = false := by
        simpa [State.setRequest] using hdes
      have hstarted' : ((s.setRequest id { s.requests id with sent := true }).requests id).started = false := by
        simpa [State.setRequest] using hstarted
      refine ⟨hmarked.toCore.start may hdes' hstarted', fun hd => ?_⟩
      rw [start_started hdes' hstarted'] at hd
      exact absurd (hnot.symm.trans hd) (by decide)
  · rw [if_neg hsec]
    exact hmarked

/-- A request is made, and waits or is let through. -/
theorem made_core (h : Core s) {queued : Bool} (hover : queued = false → ∀ e ∈ s.entries, e.name = name → e.queued = false) :
    Core { s.setRequest s.next ⟨name, false, false, false, false, true⟩ with
      next := s.next + 1
      entries := s.entries ++ [⟨name, s.next, queued⟩] } := by
  have old {i : ℕ} (hi : i < s.next) : (s.setRequest s.next ⟨name, false, false, false, false, true⟩).requests i = s.requests i :=
    update_of_ne hi.ne _ _
  have new : (s.setRequest s.next ⟨name, false, false, false, false, true⟩).requests s.next = ⟨name, false, false, false, false, true⟩ :=
    update_self ..
  have cases_mem {e : Entry} (he : e ∈ s.entries ++ [⟨name, s.next, queued⟩]) : e ∈ s.entries ∨ e = ⟨name, s.next, queued⟩ := by
    simpa using he
  refine ⟨fun e he => ?_, ?_, fun e he hq => ?_, fun a ha b hb hname hqa hqb => ?_, fun p hp => ?_, fun hd p hp hfin => ?_,
    fun i hi hd => ?_, ?_, h.distinct, fun e he hq p hp hname => ?_, fun p older hsuf k hk => ?_⟩
  · rcases cases_mem he with he | rfl
    · have := h.known e he
      exact ⟨Nat.lt_succ_of_lt this.1, (congrArg Request.name (old this.1)).trans this.2⟩
    · exact ⟨Nat.lt_succ_self _, congrArg Request.name new⟩
  · refine pairwise_append.mpr ⟨h.sorted, pairwise_singleton _ _, fun a ha b hb => ?_⟩
    rw [mem_singleton.mp hb]
    exact (h.known a ha).1
  · rcases cases_mem he with he | rfl
    · exact (congrArg Request.started (old (h.known e he).1)).trans (h.waiting e he hq)
    · exact congrArg Request.started new
  · rcases cases_mem ha with ha | rfl
    · rcases cases_mem hb with hb | rfl
      · exact h.split a ha b hb hname hqa hqb
      · rw [hover hqb a ha hname] at hqa
        cases hqa
    · rcases cases_mem hb with hb | rfl
      · exact (h.known b hb).1
      · exact absurd (hqa.symm.trans hqb) (by decide)
  · have := h.logged p hp
    exact ⟨Nat.lt_succ_of_lt this.1, (congrArg Request.started (old this.1)).trans this.2⟩
  · obtain ⟨e, he, hrest⟩ := h.running hd p hp ((congrArg Request.finished (old (h.logged p hp).1)).symm.trans hfin)
    exact ⟨e, mem_append_left _ he, hrest⟩
  · rcases Nat.lt_succ_iff_lt_or_eq.mp hi with hi | rfl
    · obtain ⟨e, he, hrest⟩ := h.tracked i hi ((congrArg Request.destroyed (old hi)).symm.trans hd)
      exact ⟨e, mem_append_left _ he, hrest⟩
    · exact ⟨⟨name, s.next, queued⟩, by simp, rfl⟩
  · refine h.order.imp_of_mem fun {a b} ha hb hab hname => hab ?_
    exact (congrArg Request.name (old (h.logged b hb).1)).symm.trans (hname.trans (congrArg Request.name (old (h.logged a ha).1)))
  · rcases cases_mem he with he | rfl
    · exact h.later e he hq p hp ((congrArg Request.name (old (h.logged p hp).1)).symm.trans hname)
    · exact (h.logged p hp).1
  · have hp := hsuf.subset mem_cons_self
    refine le_of_eq_of_le ?_ (h.bounded p older hsuf k hk)
    change List.countP (State.live _ (Request.name (State.requests (s.setRequest s.next _) p.1))) _ = _
    rw [old (h.logged p hp).1]
    refine countP_congr fun q hq => ?_
    change ((State.requests (s.setRequest s.next _) q.1).name == _ && !(State.requests (s.setRequest s.next _) q.1).finished) = true ↔ _
    rw [old (h.logged q (hsuf.subset hq)).1]
    rfl

/-- The state in which a request has been made and not yet started. -/
def made (s : State) (name : String) (queued : Bool) : State :=
  { s.setRequest s.next ⟨name, false, false, false, false, true⟩ with
    next := s.next + 1
    entries := s.entries ++ [⟨name, s.next, queued⟩] }

theorem clientRequest_eq (s : State) (name : String) :
    s.clientRequest name = if s.full name || s.secure then made s name (s.full name) else (made s name (s.full name)).start s.next :=
  rfl

theorem clientRequest_spec (h : Inv s) (hfine : Fine s (.request name)) :
    Inv (s.clientRequest name) ∧ Promotes s (s.clientRequest name) (.request name) := by
  obtain ⟨hnot, hover⟩ := hfine
  have hmade : Core (made s name (s.full name)) := made_core h.toCore hover
  refine ⟨?_, fun _ _ hf => hf.elim, fun hd => absurd (hnot.symm.trans hd) (by decide)⟩
  rw [clientRequest_eq]
  by_cases hwait : (s.full name || s.secure) = true
  · rw [if_pos hwait]
    exact ⟨hmade, fun hd => absurd (hnot.symm.trans hd) (by decide)⟩
  · rw [if_neg hwait]
    obtain ⟨hfull, -⟩ : s.full name = false ∧ s.secure = false := by simpa using hwait
    have new : (made s name (s.full name)).requests s.next = ⟨name, false, false, false, false, true⟩ := update_self ..
    have old {i : ℕ} (hi : i < s.next) : (made s name (s.full name)).requests i = s.requests i := update_of_ne hi.ne _ _
    have mem_made {e : Entry} (he : e ∈ s.entries ++ [⟨name, s.next, s.full name⟩]) : e ∈ s.entries ∨ e = ⟨name, s.next, s.full name⟩ := by
      simpa using he
    have may : MayStart (made s name (s.full name)) s.next := by
      refine ⟨Nat.lt_succ_self _, ⟨_, mem_append_right _ (mem_singleton_self _), rfl⟩, fun e he hr => ?_,
        fun p hp _ => (h.logged p hp).1, fun e he hq hname => ?_, fun k hk => ?_⟩
      · rcases mem_made he with he | rfl
        · exact absurd hr (h.known e he).1.ne
        · exact hfull
      · rw [new] at hname
        rcases mem_made he with he | rfl
        · rw [hover hfull e he hname] at hq
          cases hq
        · exact absurd (hfull.symm.trans hq) (by decide)
      · have hle := h.live_le_active hnot name
        refine lt_of_le_of_lt (le_of_eq_of_le ?_ hle) (active_lt hfull hk)
        rw [new]
        refine countP_congr fun q hq => ?_
        unfold State.live
        rw [old (h.logged q hq).1]
    have hdes : ((made s name (s.full name)).requests s.next).destroyed = false := congrArg Request.destroyed new
    have hstarted : ((made s name (s.full name)).requests s.next).started = false := congrArg Request.started new
    refine ⟨hmade.start may hdes hstarted, fun hd => ?_⟩
    rw [start_started hdes hstarted] at hd
    exact absurd (hnot.symm.trans hd) (by decide)

/-! ### The end of the agent -/

/-- Requests have got further, and nothing else is different. -/
def Grows (s s' : State) : Prop := ∃ requests, s' = { s with requests := requests } ∧ ∀ i, Further (s.requests i) (requests i)

theorem Grows.refl (s : State) : Grows s s := ⟨s.requests, rfl, fun _ => ⟨rfl, rfl, fun h => h, fun h => h⟩⟩

theorem Grows.trans {s s' s'' : State} (h : Grows s s') (h' : Grows s' s'') : Grows s s'' := by
  obtain ⟨requests, rfl, hf⟩ := h
  obtain ⟨requests', rfl, hf'⟩ := h'
  refine ⟨requests', rfl, fun i => ⟨(hf' i).name.trans (hf i).name, (hf' i).started.trans (hf i).started, fun h => ?_, fun h => ?_⟩⟩
  · exact (hf' i).finished ((hf i).finished h)
  · exact (hf' i).destroyed ((hf i).destroyed h)

theorem Grows.setRequest (h : Further (s.requests id) r) : Grows s (s.setRequest id r) := ⟨_, rfl, setRequest_further h⟩

theorem Grows.destroyed {s s' : State} (h : Grows s s') (hd : (s.requests id).destroyed = true) : (s'.requests id).destroyed = true := by
  obtain ⟨requests, rfl, hf⟩ := h
  exact (hf id).destroyed hd

/-- A request that does not know its agent is destroyed without the agent being told. -/
theorem clientDestroy_detached (ha : (s.requests id).attached = false) :
    Grows s (s.clientDestroy id) ∧ ((s.clientDestroy id).requests id).destroyed = true := by
  have hmark : Grows s (s.setRequest id { s.requests id with destroyed := true }) := .setRequest ⟨rfl, rfl, fun h => h, fun _ => rfl⟩
  have hdes : ((s.setRequest id { s.requests id with destroyed := true }).requests id).destroyed = true := by
    simp [State.setRequest]
  have hatt : ¬ ((s.setRequest id { s.requests id with destroyed := true }).requests id).attached = true := by
    simp [State.setRequest, ha]
  unfold State.clientDestroy
  split
  · unfold State.dispatchClose
    rw [if_neg hatt]
    exact ⟨hmark.trans (.setRequest ⟨rfl, rfl, fun _ => rfl, fun _ => rfl⟩), by simp [State.setRequest]⟩
  · exact ⟨hmark, hdes⟩

theorem destroyAll_spec (ids : List ℕ) (s : State) :
    Grows s (destroyAll ids s) ∧ ∀ id ∈ ids, ((destroyAll ids s).requests id).destroyed = true := by
  induction ids generalizing s with
  | nil => exact ⟨.refl s, fun _ h => by cases h⟩
  | cons id ids ih =>
    obtain ⟨hdestroy, hdes⟩ := @clientDestroy_detached (s.setRequest id { s.requests id with attached := false }) id
      (by simp [State.setRequest])
    obtain ⟨hrest, hall⟩ := ih ((s.setRequest id { s.requests id with attached := false }).clientDestroy id)
    rw [destroyAll]
    refine ⟨?_, forall_mem_cons.mpr ⟨hrest.destroyed hdes, hall⟩⟩
    exact (Grows.setRequest (r := { s.requests id with attached := false }) ⟨rfl, rfl, fun h => h, fun h => h⟩).trans (hdestroy.trans hrest)

/-- The entries of an agent that is destroyed are dropped when their requests are. -/
theorem Core.emptied (h : Core s) (hdes : ∀ e ∈ s.entries, (s.requests e.request).destroyed = true) :
    Core { s with destroyed := true, entries := [] } where
  known e he := by cases he
  sorted := List.Pairwise.nil
  waiting e he := by cases he
  split a ha := by cases ha
  logged := h.logged
  running hd := by cases hd
  tracked i hi hd := by
    obtain ⟨e, he, hrequest⟩ := h.tracked i hi hd
    have := hdes e he
    rw [hrequest] at this
    exact absurd (hd.symm.trans this) (by decide)
  order := h.order
  distinct := h.distinct
  later e he := by cases he
  bounded := h.bounded

theorem agentDestroy_spec (h : Inv s) : Inv s.agentDestroy ∧ s.agentDestroy.log = s.log := by
  obtain ⟨⟨requests, heq, hfurther⟩, hdes⟩ := destroyAll_spec (s.entries.map (·.request)) { s with destroyed := true }
  unfold State.agentDestroy
  rw [heq] at hdes ⊢
  exact ⟨⟨(h.toCore.further hfurther).emptied fun e he => hdes e.request (mem_map_of_mem he), fun _ => rfl⟩, rfl⟩

/-! ### Runs -/

theorem step_spec (h : Inv s) {e : Event} (henabled : Enabled s e) (hfine : Fine s e) : Inv (step s e) ∧ Promotes s (step s e) e := by
  cases e with
  | request name => exact clientRequest_spec h hfine
  | end_ id => exact clientEnd_spec h henabled hfine
  | destroy id => exact clientDestroy_spec h hfine
  | closed id =>
    obtain ⟨hinv, hlog, hpromotes⟩ := dispatchClose_spec h hfine
    refine ⟨hinv, ?_, hlog⟩
    rintro entry he ⟨rfl, ha⟩ hd hfull id' hold
    obtain ⟨entries, hp⟩ := promote_oldest (h.sorted.sublist filter_sublist) hold
    exact hpromotes entry id' entries ha (find_entry h.sorted he) hd hfull hp
  | setMaxSockets value =>
    exact ⟨⟨⟨h.known, h.sorted, h.waiting, h.split, h.logged, h.running, h.tracked, h.order, h.distinct, h.later, h.bounded⟩, h.gone⟩,
      fun _ _ hf => hf.elim, fun _ => rfl⟩
  | destroyAgent =>
    obtain ⟨hinv, hlog⟩ := agentDestroy_spec h
    exact ⟨hinv, fun _ _ hf => hf.elim, fun _ => hlog⟩

/-- The states of the runs whose steps all meet a condition. -/
inductive Reachable (condition : State → Event → Prop) (secure : Bool) (maxSockets : Number) : State → Prop where
  | initial : Reachable condition secure maxSockets (initial secure maxSockets)
  | step {s : State} (h : Reachable condition secure maxSockets s) (e : Event) (henabled : Enabled s e) (hcondition : condition s e) :
    Reachable condition secure maxSockets (step s e)

theorem reachable_inv {secure : Bool} {maxSockets : Number} (h : Reachable Fine secure maxSockets s) : Inv s := by
  induction h with
  | initial => exact initial_inv secure maxSockets
  | step _ e henabled hfine ih => exact (step_spec ih henabled hfine).1

/-- What is wanted of every state. -/
structure Honours (s : State) : Prop where
  /-- The requests of a name that are running are within the limit of the latest of them. -/
  limit : ∀ name newer p older, s.log = newer ++ p :: older → s.live name p = true → (∀ q ∈ newer, s.live name q = false) →
    ∀ k, p.2.cap = some k → s.log.countP (s.live name) ≤ k
  order : s.log.Pairwise fun newer older => (s.requests older.1).name = (s.requests newer.1).name → older.1 < newer.1
  once : (s.log.map (·.1)).Nodup
  gone : s.destroyed = true → s.entries = []

theorem Inv.honours (h : Inv s) : Honours s where
  limit name newer p older hlog hlive hnewer k hk := by
    have hname : (s.requests p.1).name = name := by
      simp only [State.live, Bool.and_eq_true, beq_iff_eq] at hlive
      exact hlive.1
    have hle := h.bounded p older ⟨newer, hlog.symm⟩ k hk
    have hnone : newer.countP (s.live name) = 0 := countP_eq_zero.mpr fun q hq => by simp [hnewer q hq]
    rw [hname] at hle
    rw [hlog, countP_append, hnone, Nat.zero_add]
    exact hle
  order := h.order
  once := h.distinct
  gone := h.gone

/-- Every state of a run whose steps are fine honours the limit, and every fine step from it
starts the oldest request that waits when the limit allows it. -/
theorem agent_runs {secure : Bool} {maxSockets : Number} (h : Reachable Fine secure maxSockets s) :
    Honours s ∧ ∀ e, Enabled s e → Fine s e → Promotes s (step s e) e :=
  ⟨(reachable_inv h).honours, fun _ henabled hfine => (step_spec (reachable_inv h) henabled hfine).2⟩

theorem cap_one : (Number.finite 1).cap = some 1 := by norm_num [Number.cap]

theorem limit_one : (Number.finite 1).limit = .finite 1 := by norm_num [Number.limit]

/-- One request through an agent with the limit 1. -/
def oneRequest (secure : Bool) : State :=
  ⟨secure, .finite 1, false, [⟨"a", 0, false⟩],
    update (fun _ => ⟨"", false, false, false, false, false⟩) 0 ⟨"a", false, false, !secure, false, true⟩, 1,
    if secure then [] else [(0, .finite 1)]⟩

/-- A second request of the name has to wait. -/
def twoRequests (secure : Bool) : State := made (oneRequest secure) "a" true

theorem oneRequest_eq (secure : Bool) : step (initial secure (.finite 1)) (.request "a") = oneRequest secure := by
  have hfull : (initial secure (.finite 1)).full "a" = false := by simp [State.full, initial, limit_one, cap_one, active]
  rw [step, clientRequest_eq, hfull]
  cases secure <;> simp [made, initial, limit_one, State.start, State.setRequest, oneRequest]

theorem twoRequests_eq (secure : Bool) : step (oneRequest secure) (.request "a") = twoRequests secure := by
  have hfull : (oneRequest secure).full "a" = true := by simp [State.full, oneRequest, cap_one, active]
  rw [step, clientRequest_eq, hfull]
  rfl

theorem twoRequests_reachable {condition : State → Event → Prop} {secure : Bool}
    (h : condition (initial secure (.finite 1)) (.request "a")) (h' : condition (oneRequest secure) (.request "a")) :
    Reachable condition secure (.finite 1) (twoRequests secure) := by
  have hone : Reachable condition secure (.finite 1) _ := .step .initial (.request "a") trivial h
  rw [oneRequest_eq] at hone
  have htwo := hone.step (.request "a") trivial h'
  rwa [twoRequests_eq] at htwo

theorem agent_runs_sample :
    Honours (twoRequests false) ∧ Promotes (twoRequests false) (step (twoRequests false) (.closed 0)) (.closed 0) := by
  have hreach : Reachable Fine false (.finite 1) (twoRequests false) := by
    refine twoRequests_reachable ⟨rfl, fun _ _ he => by cases he⟩ ⟨rfl, fun h => ?_⟩
    simp [State.full, oneRequest, cap_one, active] at h
  obtain ⟨hhonours, hpromotes⟩ := agent_runs hreach
  refine ⟨hhonours, hpromotes (.closed 0) ?_ ?_⟩
  · simp [Enabled, twoRequests, made, oneRequest, State.setRequest]
  · rintro - entry hfind - id' entries hp
    simp [twoRequests, made, oneRequest, State.setRequest] at hfind
    subst hfind
    simp [twoRequests, made, oneRequest, State.setRequest, State.forget, promote] at hp
    obtain ⟨rfl, -⟩ := hp
    simp [twoRequests, made, oneRequest, State.setRequest, State.forget, State.blocked, State.full, active, cap_one]

/-- A TLS request is started when it is ended, whether it waits or not. -/
theorem limit_exceeded : ∃ s, Reachable (fun _ _ => True) true (.finite 1) s ∧ ¬ Honours s := by
  refine ⟨step (step (twoRequests true) (.end_ 0)) (.end_ 1), ?_, fun h => ?_⟩
  · refine .step (.step (twoRequests_reachable trivial trivial) (.end_ 0) ?_ trivial) (.end_ 1) ?_ trivial
    · simp [Enabled, twoRequests, made, oneRequest]
    · simp [Enabled, step, clientEnd, State.start, twoRequests, made, oneRequest, State.setRequest]
  · have hlog : (step (step (twoRequests true) (.end_ 0)) (.end_ 1)).log = [(1, .finite 1), (0, .finite 1)] := by
      simp [step, clientEnd, State.start, twoRequests, made, oneRequest, State.setRequest]
    have hlive : (step (step (twoRequests true) (.end_ 0)) (.end_ 1)).live "a" (0, .finite 1) = true ∧
        (step (step (twoRequests true) (.end_ 0)) (.end_ 1)).live "a" (1, .finite 1) = true := by
      simp [State.live, step, clientEnd, State.start, twoRequests, made, oneRequest, State.setRequest]
    have hle := h.limit "a" [] (1, .finite 1) [(0, .finite 1)] hlog hlive.2 (fun _ hq => by cases hq) 1 cap_one
    rw [hlog] at hle
    simp [hlive.1, hlive.2] at hle

end HttpAgent
