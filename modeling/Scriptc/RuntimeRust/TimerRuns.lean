import Scriptc.RuntimeRust.Timers
import Mathlib.Data.List.Induction
import Mathlib.Data.List.Nodup

/-!
# When timers fire

A timer is armed, or its callback runs, or it is gone. While the callback runs the timer is the one
that the globals are about, unless another timer fires meanwhile. A cleared handle is not armed, and
if its callback runs the flag is set that keeps it from being armed again.
-/

namespace Scriptc.RuntimeRust.Timers

open List

/-! ### Choosing a task -/

theorem minByKey_eq_none {α : Type} {before : α → α → Prop} [∀ a b, Decidable (before a b)] {tasks : List α}
    (h : minByKey before tasks = none) : tasks = [] := by
  cases tasks with
  | nil => rfl
  | cons task tasks =>
    rw [minByKey] at h
    split at h
    · cases h
    · split at h <;> cases h

theorem minByKey_spec {α : Type} {before : α → α → Prop} [∀ a b, Decidable (before a b)] (hrefl : ∀ a, before a a)
    (htrans : ∀ a b c, before a b → before b c → before a c) (htotal : ∀ a b, ¬ before a b → before b a) {tasks : List α}
    {task : α} (h : minByKey before tasks = some task) : task ∈ tasks ∧ ∀ other ∈ tasks, before task other := by
  induction tasks generalizing task with
  | nil => cases h
  | cons task' tasks ih =>
    rw [minByKey] at h
    split at h
    next hnone =>
      cases h
      rw [minByKey_eq_none hnone]
      exact ⟨mem_singleton_self _, fun other ho => mem_singleton.mp ho ▸ hrefl _⟩
    next least hleast =>
      obtain ⟨hm, hmin⟩ := ih hleast
      split at h
      next hb =>
        cases h
        refine ⟨mem_cons_self, fun other ho => ?_⟩
        rcases mem_cons.mp ho with rfl | ho
        · exact hrefl _
        · exact htrans _ _ _ hb (hmin other ho)
      next hb =>
        cases h
        refine ⟨mem_cons_of_mem _ hm, fun other ho => ?_⟩
        rcases mem_cons.mp ho with rfl | ho
        · exact htotal _ _ hb
        · exact hmin other ho

variable {timer : TimerTask}

theorem earliest_spec {tasks : List TimerTask} (h : minByKey TimerTask.before tasks = some timer) :
    timer ∈ tasks ∧ ∀ other ∈ tasks, timer.before other := by
  refine minByKey_spec ?_ ?_ ?_ h
  · intro a
    exact .inr ⟨rfl, Nat.le_refl _⟩
  · intro a b c hab hbc
    unfold TimerTask.before at *
    omega
  · intro a b hab
    unfold TimerTask.before at *
    omega

theorem first_spec {tasks : List ImmediateTask} {task : ImmediateTask} (h : minByKey ImmediateTask.before tasks = some task) :
    task ∈ tasks ∧ ∀ other ∈ tasks, task.before other := by
  refine minByKey_spec ?_ ?_ ?_ h
  · intro a
    exact Nat.le_refl _
  · intro a b c hab hbc
    exact Nat.le_trans hab hbc
  · intro a b hab
    exact Nat.le_of_not_le hab

/-! ### Events -/

def Event.fires (id : ℕ) : Event → Bool
  | .fired timer _ => timer.id = id
  | _ => false

def Event.rearms (id : ℕ) : Event → Bool
  | .rearmed timer _ => timer.id = id
  | _ => false

/-- The timer is armed again and its callback had refreshed it. -/
def Event.refreshedRearms (id : ℕ) : Event → Bool
  | .rearmed timer refreshed => refreshed && decide (timer.id = id)
  | _ => false

def Event.refreshes (id : ℕ) : Event → Bool
  | .refreshing id' => id' = id
  | _ => false

/-- The timer that an event is about, with what is known of it. -/
def Event.timer? : Event → Option TimerTask
  | .fired timer _ => some timer
  | .rearmed timer _ => some timer
  | _ => none

/-- A timer fires before the others, and only an interval or a refreshed timer is armed again. -/
def Event.Sound : Event → Prop
  | .fired timer candidates => ∀ other ∈ candidates, timer.before other
  | .rearmed timer refreshed => timer.repeats = true ∨ refreshed = true
  | _ => True

/-- After a handle is cleared its timer does not fire. -/
def Never (log : List Event) : Prop :=
  ∀ before after id, log = before ++ .cleared id :: after → ∀ timer candidates, .fired timer candidates ∈ after → timer.id ≠ id

theorem never_nil : Never [] := by
  intro before after id h
  cases before <;> cases h

theorem after_snoc {α : Type} {log before after : List α} {a e : α} (h : log ++ [e] = before ++ a :: after) :
    after = [] ∨ ∃ front, after = front ++ [e] ∧ log = before ++ a :: front := by
  cases after using reverseRecOn with
  | nil => exact .inl rfl
  | append_singleton front last =>
    rw [← cons_append, ← append_assoc] at h
    obtain ⟨hlog, hlast⟩ := append_inj' h rfl
    rw [(List.cons.inj hlast).1]
    exact .inr ⟨front, rfl, hlog⟩

theorem Never.snoc {log : List Event} (h : Never log) (e : Event)
    (he : ∀ timer candidates, e = .fired timer candidates → .cleared timer.id ∉ log) : Never (log ++ [e]) := by
  intro before after id heq timer candidates hm
  obtain rfl | ⟨front, rfl, hlog⟩ := after_snoc heq
  · cases hm
  · rcases mem_append.mp hm with hm | hm
    · exact h before front id hlog timer candidates hm
    · intro hid
      apply he timer candidates (mem_singleton.mp hm).symm
      rw [hlog, hid]
      exact mem_append_right _ mem_cons_self

/-! ### The invariant -/

def Frame.timer? : Frame → Option TimerTask
  | .timer task _ => some task
  | _ => none

/-- The timers whose callbacks run. -/
def onStack (stack : List Frame) : List TimerTask := stack.filterMap Frame.timer?

/-- What holds of the timers, with the one that fires. -/
structure TimerInv (s : State) (ts : List TimerTask) : Prop where
  single : ts.length ≤ 1
  firing : ∀ t ∈ ts, s.firingTimerId = t.id
  nodup : ((ts ++ s.timerTasks).map TimerTask.id).Nodup
  bound : ∀ t ∈ ts ++ s.timerTasks, t.id < s.nextTimerId
  cleared : ∀ id, .cleared id ∈ s.log →
    id < s.nextTimerId ∧ (∀ t ∈ s.timerTasks, t.id ≠ id) ∧ ∀ t ∈ ts, t.id = id → s.firingTimerCleared = true
  never : Never s.log
  sound : ∀ e ∈ s.log, e.Sound
  fires : ∀ id, s.log.countP (Event.rearms id) ≤ s.log.countP (Event.fires id) ∧
    s.log.countP (Event.fires id) ≤ s.log.countP (Event.rearms id) + 1
  armed : ∀ t ∈ s.timerTasks, s.log.countP (Event.fires t.id) = s.log.countP (Event.rearms t.id)
  fired : ∀ t ∈ ts, s.log.countP (Event.fires t.id) = s.log.countP (Event.rearms t.id) + 1
  refreshed : ∀ id, s.log.countP (Event.refreshedRearms id) ≤ s.log.countP (Event.refreshes id)
  refreshing : ∀ t ∈ ts, s.firingTimerRefreshed = true →
    s.log.countP (Event.refreshedRearms t.id) + 1 ≤ s.log.countP (Event.refreshes t.id)
  /-- The kind of a timer does not change. -/
  kind : ∃ kind : ℕ → Bool, (∀ t ∈ ts ++ s.timerTasks, t.repeats = kind t.id) ∧
    ∀ e ∈ s.log, ∀ t, e.timer? = some t → t.repeats = kind t.id
  known : ∀ e ∈ s.log, ∀ t, e.timer? = some t → t.id < s.nextTimerId

theorem timerInv_new : TimerInv .new [] where
  single := Nat.zero_le _
  firing := by simp
  nodup := by simp [State.new]
  bound := by simp [State.new]
  cleared := by simp [State.new]
  never := never_nil
  sound := by simp [State.new]
  fires := by simp [State.new]
  armed := by simp [State.new]
  fired := by simp
  refreshed := by simp [State.new]
  refreshing := by simp
  kind := ⟨fun _ => false, by simp [State.new]⟩
  known := by simp [State.new]

variable {s : State} {ts : List TimerTask}

/-- The callback of the timer is over. -/
theorem TimerInv.drop {t : TimerTask} (h : TimerInv s (t :: ts)) : TimerInv s ts where
  single := Nat.le_trans (Nat.le_succ _) h.single
  firing := fun t' hm => h.firing t' (mem_cons_of_mem _ hm)
  nodup := (nodup_cons.mp h.nodup).2
  bound := fun t' hm => h.bound t' (mem_cons_of_mem _ hm)
  cleared := fun id hm => ⟨(h.cleared id hm).1, (h.cleared id hm).2.1,
    fun t' hm' => (h.cleared id hm).2.2 t' (mem_cons_of_mem _ hm')⟩
  never := h.never
  sound := h.sound
  fires := h.fires
  armed := h.armed
  fired := fun t' hm => h.fired t' (mem_cons_of_mem _ hm)
  refreshed := h.refreshed
  refreshing := fun t' hm => h.refreshing t' (mem_cons_of_mem _ hm)
  kind := by
    obtain ⟨kind, hkind, hlog⟩ := h.kind
    exact ⟨kind, fun t' hm => hkind t' (mem_cons_of_mem _ hm), hlog⟩
  known := h.known

/-! ### What the program does -/

theorem countP_snoc (p : Event → Bool) (log : List Event) (e : Event) :
    (log ++ [e]).countP p = log.countP p + if p e then 1 else 0 := by
  rw [countP_append, countP_singleton]

theorem forall_snoc {P : Event → Prop} {log : List Event} {e : Event} (h : ∀ e ∈ log, P e) (he : P e) : ∀ e' ∈ log ++ [e], P e' := by
  intro e' hm
  rcases mem_append.mp hm with hm | hm
  · exact h e' hm
  · rw [mem_singleton.mp hm]
    exact he

theorem TimerInv.fresh (h : TimerInv s ts) :
    s.log.countP (Event.fires s.nextTimerId) = s.log.countP (Event.rearms s.nextTimerId) := by
  have hknown : ∀ e ∈ s.log, ∀ t, e.timer? = some t → t.id ≠ s.nextTimerId := fun e he t ht => Nat.ne_of_lt (h.known e he t ht)
  have hfires : s.log.countP (Event.fires s.nextTimerId) = 0 := by
    rw [countP_eq_zero]
    intro e he
    cases e with
    | fired timer candidates => simpa [Event.fires] using hknown _ he timer rfl
    | _ => simp [Event.fires]
  have hrearms : s.log.countP (Event.rearms s.nextTimerId) = 0 := by
    rw [countP_eq_zero]
    intro e he
    cases e with
    | rearmed timer refreshed => simpa [Event.rearms] using hknown _ he timer rfl
    | _ => simp [Event.rearms]
  rw [hfires, hrearms]

theorem timerInv_schedule (h : TimerInv s ts) (now delay : ℕ) (repeats : Bool) :
    TimerInv (timerSchedule s now delay repeats) ts where
  single := h.single
  firing := h.firing
  nodup := by
    have hnew : s.nextTimerId ∉ (ts ++ s.timerTasks).map TimerTask.id := by
      intro hm
      obtain ⟨t, ht, hid⟩ := mem_map.mp hm
      exact absurd (h.bound t ht) (by omega)
    have hsnoc := nodup_append.mpr
      ⟨h.nodup, nodup_singleton s.nextTimerId, fun a ha b hb hab => hnew (mem_singleton.mp hb ▸ hab ▸ ha)⟩
    simpa [timerSchedule] using hsnoc
  bound := by
    intro t hm
    simp only [timerSchedule, ← append_assoc, mem_append, mem_singleton] at hm ⊢
    rcases hm with hm | rfl
    · exact Nat.lt_succ_of_lt (h.bound t (mem_append.mpr hm))
    · exact Nat.lt_succ_self _
  cleared := by
    intro id hm
    obtain ⟨hlt, htasks, hts⟩ := h.cleared id hm
    refine ⟨Nat.lt_succ_of_lt hlt, fun t ht => ?_, hts⟩
    simp only [timerSchedule, mem_append, mem_singleton] at ht
    rcases ht with ht | rfl
    · exact htasks t ht
    · exact (Nat.ne_of_lt hlt).symm
  never := h.never
  sound := h.sound
  fires := h.fires
  armed := by
    intro t ht
    simp only [timerSchedule, mem_append, mem_singleton] at ht
    rcases ht with ht | rfl
    · exact h.armed t ht
    · exact h.fresh
  fired := h.fired
  refreshed := h.refreshed
  refreshing := h.refreshing
  kind := by
    obtain ⟨kind, hkind, hlog⟩ := h.kind
    refine ⟨fun id => if id = s.nextTimerId then repeats else kind id, fun t hm => ?_, fun e he t ht => ?_⟩
    · simp only [timerSchedule, ← append_assoc, mem_append, mem_singleton] at hm
      rcases hm with hm | rfl
      · have hm := mem_append.mpr hm
        show t.repeats = if t.id = s.nextTimerId then repeats else kind t.id
        rw [if_neg (Nat.ne_of_lt (h.bound t hm))]
        exact hkind t hm
      · exact (if_pos rfl).symm
    · show t.repeats = if t.id = s.nextTimerId then repeats else kind t.id
      rw [if_neg (Nat.ne_of_lt (h.known e he t ht))]
      exact hlog e he t ht
  known := fun e he t ht => Nat.lt_succ_of_lt (h.known e he t ht)

theorem TimerInv.disarm (h : TimerInv s ts) (id : ℕ) :
    TimerInv
      { s with
        timerTasks := s.timerTasks.filter fun task => task.id ≠ id
        firingTimerCleared := s.firingTimerCleared || decide (s.firingTimerId = id) } ts := by
  have hsub : ∀ t, t ∈ s.timerTasks.filter (fun task => task.id ≠ id) → t ∈ s.timerTasks := fun t ht => (mem_filter.mp ht).1
  have hsub' : ∀ t, t ∈ ts ++ s.timerTasks.filter (fun task => task.id ≠ id) → t ∈ ts ++ s.timerTasks := by
    intro t ht
    rcases mem_append.mp ht with ht | ht
    · exact mem_append_left _ ht
    · exact mem_append_right _ (hsub t ht)
  exact
    { h with
      nodup := by
        refine h.nodup.sublist (List.Sublist.map _ ?_)
        exact List.Sublist.append_left filter_sublist ts
      bound := fun t ht => h.bound t (hsub' t ht)
      cleared := by
        intro id' hm
        obtain ⟨hlt, htasks, hts⟩ := h.cleared id' hm
        exact ⟨hlt, fun t ht => htasks t (hsub t ht), fun t ht hid => by simp [hts t ht hid]⟩
      armed := fun t ht => h.armed t (hsub t ht)
      kind := by
        obtain ⟨kind, hkind, hlog⟩ := h.kind
        exact ⟨kind, fun t ht => hkind t (hsub' t ht), hlog⟩ }

/-- Events that are not about a timer that fires change no count. -/
theorem TimerInv.logCleared (h : TimerInv s ts) {id : ℕ} (hlt : id < s.nextTimerId)
    (htasks : ∀ t ∈ s.timerTasks, t.id ≠ id) (hts : ∀ t ∈ ts, t.id = id → s.firingTimerCleared = true) :
    TimerInv { s with log := s.log ++ [.cleared id] } ts :=
  { h with
    cleared := by
      intro id' hm
      rcases mem_append.mp hm with hm | hm
      · exact h.cleared id' hm
      · cases mem_singleton.mp hm
        exact ⟨hlt, htasks, hts⟩
    never := h.never.snoc _ (by simp)
    sound := forall_snoc h.sound trivial
    fires := by simpa [countP_snoc, Event.fires, Event.rearms] using h.fires
    armed := by simpa [countP_snoc, Event.fires, Event.rearms] using h.armed
    fired := by simpa [countP_snoc, Event.fires, Event.rearms] using h.fired
    refreshed := by simpa [countP_snoc, Event.refreshedRearms, Event.refreshes] using h.refreshed
    refreshing := by simpa [countP_snoc, Event.refreshedRearms, Event.refreshes] using h.refreshing
    kind := by
      obtain ⟨kind, hkind, hlog⟩ := h.kind
      exact ⟨kind, hkind, forall_snoc hlog (by simp [Event.timer?])⟩
    known := forall_snoc h.known (by simp [Event.timer?]) }

theorem timerInv_clear (h : TimerInv s ts) (id : ℕ) : TimerInv (timerClear s id) ts := by
  rw [timerClear]
  split
  · exact h
  have hdisarm := h.disarm id
  split
  next hlt =>
    refine hdisarm.logCleared hlt (fun t ht => by simpa using (mem_filter.mp ht).2) fun t ht hid => ?_
    simp [h.firing t ht, hid]
  next => exact hdisarm

theorem timerInv_refresh (h : TimerInv s ts) (now id : ℕ) :
    TimerInv (timerRefresh s now id) ts := by
  rw [timerRefresh]
  split
  · exact h
  split
  · have hmap : ∀ t ∈ s.timerTasks.map (fun task => if task.id = id then { task with due := now + task.delay } else task),
        ∃ task ∈ s.timerTasks, t.id = task.id ∧ t.repeats = task.repeats := by
      intro t ht
      obtain ⟨task, hm, rfl⟩ := mem_map.mp ht
      refine ⟨task, hm, ?_⟩
      split <;> exact ⟨rfl, rfl⟩
    have hids : (s.timerTasks.map (fun task => if task.id = id then { task with due := now + task.delay } else task)).map
        TimerTask.id = s.timerTasks.map TimerTask.id := by
      rw [map_map]
      refine map_congr_left fun task _ => ?_
      simp only [Function.comp_apply]
      split <;> rfl
    exact
      { h with
        nodup := by
          rw [map_append, hids, ← map_append]
          exact h.nodup
        bound := by
          intro t ht
          rcases mem_append.mp ht with ht | ht
          · exact h.bound t (mem_append_left _ ht)
          · obtain ⟨task, hm, hid, -⟩ := hmap t ht
            rw [hid]
            exact h.bound task (mem_append_right _ hm)
        cleared := by
          intro id' hm
          obtain ⟨hlt, htasks, hts⟩ := h.cleared id' hm
          refine ⟨hlt, fun t ht => ?_, hts⟩
          obtain ⟨task, hm', hid, -⟩ := hmap t ht
          rw [hid]
          exact htasks task hm'
        armed := by
          intro t ht
          obtain ⟨task, hm, hid, -⟩ := hmap t ht
          rw [hid]
          exact h.armed task hm
        kind := by
          obtain ⟨kind, hkind, hlog⟩ := h.kind
          refine ⟨kind, fun t ht => ?_, hlog⟩
          rcases mem_append.mp ht with ht | ht
          · exact hkind t (mem_append_left _ ht)
          · obtain ⟨task, hm, hid, hrepeats⟩ := hmap t ht
            rw [hid, hrepeats]
            exact hkind task (mem_append_right _ hm) }
  · split
    next hfiring =>
      -- If its callback runs, the timer is the one that is refreshed.
      exact
        { h with
          cleared := fun id' hm => h.cleared id' (by simpa using hm)
          never := h.never.snoc _ (by simp)
          sound := forall_snoc h.sound trivial
          fires := by simpa [countP_snoc, Event.fires, Event.rearms] using h.fires
          armed := by simpa [countP_snoc, Event.fires, Event.rearms] using h.armed
          fired := by simpa [countP_snoc, Event.fires, Event.rearms] using h.fired
          refreshed := by
            intro id'
            have := h.refreshed id'
            simp only [countP_snoc, Event.refreshedRearms, Event.refreshes, Bool.false_eq_true, if_false, Nat.add_zero]
            exact Nat.le_add_right_of_le this
          refreshing := by
            intro t ht _
            have := h.refreshed t.id
            have hid : id = t.id := hfiring.symm.trans (h.firing t ht)
            simp only [countP_snoc, Event.refreshedRearms, Event.refreshes, Bool.false_eq_true, if_false, Nat.add_zero,
              hid, decide_true, if_true]
            exact Nat.add_le_add_right this 1
          kind := by
            obtain ⟨kind, hkind, hlog⟩ := h.kind
            exact ⟨kind, hkind, forall_snoc hlog (by simp [Event.timer?])⟩
          known := forall_snoc h.known (by simp [Event.timer?]) }
    next => exact h

/-! ### Firing -/

variable {candidates : List TimerTask}

theorem timerInv_fire (h : TimerInv s []) (hm : timer ∈ s.timerTasks)
    (hc : ∀ other ∈ candidates, timer.before other) (turn : Option ℕ) :
    TimerInv (fire s timer candidates turn) [timer] where
  single := Nat.le_refl 1
  firing := by
    intro t ht
    rw [mem_singleton.mp ht]
    rfl
  nodup := by
    have hnodup : (s.timerTasks.map TimerTask.id).Nodup := h.nodup
    rw [singleton_append, map_cons, nodup_cons]
    refine ⟨?_, hnodup.sublist (filter_sublist.map _)⟩
    intro hmem
    obtain ⟨t, ht, hid⟩ := mem_map.mp hmem
    have := (mem_filter.mp ht).2
    simp [hid] at this
  bound := by
    intro t ht
    rcases mem_cons.mp ht with rfl | ht
    · exact h.bound _ hm
    · exact h.bound t (mem_filter.mp ht).1
  cleared := by
    intro id hmem
    simp only [fire, mem_append, mem_singleton, reduceCtorEq, or_false] at hmem
    obtain ⟨hlt, htasks, -⟩ := h.cleared id hmem
    refine ⟨hlt, fun t ht => htasks t (mem_filter.mp ht).1, fun t ht hid => ?_⟩
    rw [mem_singleton.mp ht] at hid
    exact absurd hid (htasks timer hm)
  never := by
    refine h.never.snoc _ fun timer' candidates' heq hmem => ?_
    cases heq
    exact (h.cleared _ hmem).2.1 timer hm rfl
  sound := forall_snoc h.sound hc
  fires := by
    intro id
    obtain ⟨h1, h2⟩ := h.fires id
    have harmed := h.armed timer hm
    simp only [fire, countP_snoc, Event.fires, Event.rearms, Bool.false_eq_true, if_false, decide_eq_true_eq]
    split
    next hid =>
      subst hid
      omega
    next => omega
  armed := by
    intro t ht
    obtain ⟨ht, hne⟩ := mem_filter.mp ht
    have hne : ¬ timer.id = t.id := fun hid => by simp [hid] at hne
    have harmed := h.armed t ht
    simp only [fire, countP_snoc, Event.fires, Event.rearms, Bool.false_eq_true, if_false, decide_eq_true_eq, if_neg hne]
    exact harmed
  fired := by
    intro t ht
    rw [mem_singleton.mp ht]
    have harmed := h.armed timer hm
    simp only [fire, countP_snoc, Event.fires, Event.rearms, Bool.false_eq_true, if_false, decide_true, if_true]
    omega
  refreshed := by simpa [fire, countP_snoc, Event.refreshedRearms, Event.refreshes] using h.refreshed
  refreshing := by
    intro t _ hfalse
    cases hfalse
  kind := by
    obtain ⟨kind, hkind, hlog⟩ := h.kind
    refine ⟨kind, fun t ht => ?_, forall_snoc hlog ?_⟩
    · rcases mem_cons.mp ht with rfl | ht
      · exact hkind _ hm
      · exact hkind t (mem_filter.mp ht).1
    · intro t ht
      cases ht
      exact hkind _ hm
  known := by
    refine forall_snoc h.known fun t ht => ?_
    cases ht
    exact h.bound _ hm

variable {s s' : State}

theorem timerInv_rearm (h : TimerInv s [timer]) (timer' : TimerTask) (hid : timer'.id = timer.id)
    (hrepeats : timer'.repeats = timer.repeats) (hcleared : s.firingTimerCleared = false)
    (hagain : timer.repeats = true ∨ s.firingTimerRefreshed = true) (htasks : s'.timerTasks = s.timerTasks ++ [timer'])
    (hnext : s'.nextTimerId = s.nextTimerId) (hlog : s'.log = s.log ++ [.rearmed timer' s.firingTimerRefreshed]) :
    TimerInv s' [] where
  single := Nat.zero_le 1
  firing := by simp
  nodup := by
    have hnodup := h.nodup
    rw [singleton_append, map_cons] at hnodup
    rw [htasks, nil_append, map_append, map_singleton, hid]
    exact (perm_append_singleton _ _).nodup_iff.mpr hnodup
  bound := by
    intro t ht
    rw [htasks, nil_append] at ht
    rw [hnext]
    rcases mem_append.mp ht with ht | ht
    · exact h.bound t (mem_cons_of_mem _ ht)
    · rw [mem_singleton.mp ht, hid]
      exact h.bound timer mem_cons_self
  cleared := by
    intro id hm
    simp only [hlog, mem_append, mem_singleton, reduceCtorEq, or_false] at hm
    obtain ⟨hlt, hnot, hflag⟩ := h.cleared id hm
    refine ⟨hnext ▸ hlt, fun t ht => ?_, by simp⟩
    rw [htasks] at ht
    rcases mem_append.mp ht with ht | ht
    · exact hnot t ht
    · rw [mem_singleton.mp ht, hid]
      intro heq
      have := hflag timer mem_cons_self heq
      rw [hcleared] at this
      cases this
  never := by
    rw [hlog]
    exact h.never.snoc _ (by simp)
  sound := by
    rw [hlog]
    exact forall_snoc h.sound (show timer'.repeats = true ∨ _ from hrepeats.symm ▸ hagain)
  fires := by
    intro id
    obtain ⟨h1, h2⟩ := h.fires id
    have hfired := h.fired timer mem_cons_self
    simp only [hlog, countP_snoc, Event.fires, Event.rearms, Bool.false_eq_true, if_false, decide_eq_true_eq, hid]
    split
    next hid =>
      subst hid
      omega
    next => omega
  armed := by
    intro t ht
    rw [htasks] at ht
    have hfired := h.fired timer mem_cons_self
    simp only [hlog, countP_snoc, Event.fires, Event.rearms, Bool.false_eq_true, if_false, decide_eq_true_eq, hid]
    rcases mem_append.mp ht with ht | ht
    · have hne : ¬ timer.id = t.id := by
        intro heq
        have hnodup := h.nodup
        rw [singleton_append, map_cons, nodup_cons] at hnodup
        exact hnodup.1 (heq ▸ mem_map_of_mem ht)
      rw [if_neg hne]
      exact h.armed t ht
    · rw [mem_singleton.mp ht, hid, if_pos rfl]
      omega
  fired := by simp
  refreshed := by
    intro id
    have hle := h.refreshed id
    have hmore := h.refreshing timer mem_cons_self
    simp only [hlog, countP_snoc, Event.refreshedRearms, Event.refreshes, Bool.false_eq_true, if_false, Nat.add_zero, hid,
      Bool.and_eq_true, decide_eq_true_eq]
    split
    next hboth =>
      obtain ⟨hflag, hid⟩ := hboth
      subst hid
      exact hmore hflag
    next => exact hle
  refreshing := by simp
  kind := by
    obtain ⟨kind, hkind, hkindLog⟩ := h.kind
    have htimer : timer'.repeats = kind timer'.id := by
      rw [hrepeats, hid]
      exact hkind timer mem_cons_self
    refine ⟨kind, fun t ht => ?_, ?_⟩
    · rw [htasks, nil_append] at ht
      rcases mem_append.mp ht with ht | ht
      · exact hkind t (mem_cons_of_mem _ ht)
      · rw [mem_singleton.mp ht]
        exact htimer
    · rw [hlog]
      refine forall_snoc hkindLog fun t ht => ?_
      cases ht
      exact htimer
  known := by
    rw [hlog, hnext]
    refine forall_snoc h.known fun t ht => ?_
    cases ht
    rw [hid]
    exact h.bound timer mem_cons_self

theorem timerInv_returned (h : TimerInv s (timer :: ts))
    (turn : Option ℕ) (outer : List Frame) (now : ℕ) : TimerInv (timerReturned s timer turn outer now) ts := by
  have hnil : ts = [] := by
    have := h.single
    exact length_eq_zero_iff.mp (by simp only [length_cons] at this; omega)
  subst hnil
  rw [timerReturned]
  split
  next hagain => exact timerInv_rearm h (rearm timer turn now) rfl rfl hagain.1 hagain.2 rfl rfl rfl
  next => exact { h.drop with firing := by simp }

/-! ### Immediates -/

def ImmediateEvent.ran? : ImmediateEvent → Option ℕ
  | .ran immediate _ => some immediate.id
  | .cleared _ => none

/-- An immediate goes before the others. -/
def ImmediateEvent.Sound : ImmediateEvent → Prop
  | .ran immediate candidates => ∀ other ∈ candidates, immediate.before other
  | .cleared _ => True

/-- After a handle is cleared its immediate does not run. -/
def NeverRuns (log : List ImmediateEvent) : Prop :=
  ∀ before after id, log = before ++ .cleared id :: after → ∀ immediate candidates,
    .ran immediate candidates ∈ after → immediate.id ≠ id

theorem NeverRuns.snoc {log : List ImmediateEvent} (h : NeverRuns log) (e : ImmediateEvent)
    (he : ∀ immediate candidates, e = .ran immediate candidates → .cleared immediate.id ∉ log) : NeverRuns (log ++ [e]) := by
  intro before after id heq immediate candidates hm
  obtain rfl | ⟨front, rfl, hlog⟩ := after_snoc heq
  · cases hm
  · rcases mem_append.mp hm with hm | hm
    · exact h before front id hlog immediate candidates hm
    · intro hid
      apply he immediate candidates (mem_singleton.mp hm).symm
      rw [hlog, hid]
      exact mem_append_right _ mem_cons_self

structure ImmediateInv (s : State) : Prop where
  nodup : (s.immediateLog.filterMap ImmediateEvent.ran? ++ s.immediateTasks.map ImmediateTask.id).Nodup
  bound : ∀ id ∈ s.immediateLog.filterMap ImmediateEvent.ran? ++ s.immediateTasks.map ImmediateTask.id, id < s.nextImmediateId
  cleared : ∀ id, .cleared id ∈ s.immediateLog → id < s.nextImmediateId ∧ ∀ t ∈ s.immediateTasks, t.id ≠ id
  never : NeverRuns s.immediateLog
  sound : ∀ e ∈ s.immediateLog, e.Sound

theorem immediateInv_new : ImmediateInv .new where
  nodup := by simp [State.new]
  bound := by simp [State.new]
  cleared := by simp [State.new]
  never := by
    intro before after id h
    cases before <;> cases h
  sound := by simp [State.new]

theorem immediateInv_set (h : ImmediateInv s) : ImmediateInv (timerSetImmediate s) where
  nodup := by
    have hnew : s.nextImmediateId ∉ s.immediateLog.filterMap ImmediateEvent.ran? ++ s.immediateTasks.map ImmediateTask.id :=
      fun hm => Nat.lt_irrefl _ (h.bound _ hm)
    have hsnoc := nodup_append.mpr
      ⟨h.nodup, nodup_singleton s.nextImmediateId, fun a ha b hb hab => hnew (mem_singleton.mp hb ▸ hab ▸ ha)⟩
    simpa [timerSetImmediate] using hsnoc
  bound := by
    intro id hm
    simp only [timerSetImmediate, map_append, map_singleton, ← append_assoc] at hm
    rcases mem_append.mp hm with hm | hm
    · exact Nat.lt_succ_of_lt (h.bound id hm)
    · rw [mem_singleton.mp hm]
      exact Nat.lt_succ_self _
  cleared := by
    intro id hm
    obtain ⟨hlt, htasks⟩ := h.cleared id hm
    refine ⟨Nat.lt_succ_of_lt hlt, fun t ht => ?_⟩
    simp only [timerSetImmediate, mem_append, mem_singleton] at ht
    rcases ht with ht | rfl
    · exact htasks t ht
    · exact (Nat.ne_of_lt hlt).symm
  never := h.never
  sound := h.sound

theorem immediateInv_clear (h : ImmediateInv s) (id : ℕ) : ImmediateInv (timerClearImmediate s id) := by
  have hsub : (s.immediateTasks.filter fun task => task.id ≠ id).Sublist s.immediateTasks := filter_sublist
  have hfilter : ImmediateInv { s with immediateTasks := s.immediateTasks.filter fun task => task.id ≠ id } :=
    { nodup := h.nodup.sublist ((hsub.map _).append_left _)
      bound := fun id' hm => h.bound id' (((hsub.map _).append_left _).subset hm)
      cleared := fun id' hm => ⟨(h.cleared id' hm).1, fun t ht => (h.cleared id' hm).2 t (hsub.subset ht)⟩
      never := h.never
      sound := h.sound }
  rw [timerClearImmediate]
  split
  · exact h
  split
  next hlt =>
    exact
      { nodup := by simpa [filterMap_cons, ImmediateEvent.ran?] using hfilter.nodup
        bound := by simpa [filterMap_cons, ImmediateEvent.ran?] using hfilter.bound
        cleared := by
          intro id' hm
          rcases mem_append.mp hm with hm | hm
          · exact hfilter.cleared id' hm
          · cases mem_singleton.mp hm
            exact ⟨hlt, fun t ht => by simpa using (mem_filter.mp ht).2⟩
        never := h.never.snoc _ (by simp)
        sound := by
          intro e hm
          rcases mem_append.mp hm with hm | hm
          · exact h.sound e hm
          · rw [mem_singleton.mp hm]
            trivial }
  next => exact hfilter

theorem immediateInv_loop (h : ImmediateInv s) (turn : ℕ) : ImmediateInv (loopImmediate s turn) := by
  rw [loopImmediate]
  split
  next task htask =>
    obtain ⟨hmem, hmin⟩ := first_spec htask
    have hm := (mem_filter.mp hmem).1
    have hperm : (s.immediateTasks.map ImmediateTask.id).Nodup := (nodup_append.mp h.nodup).2.1
    have hsub : (s.immediateTasks.filter fun other => other.id ≠ task.id).Sublist s.immediateTasks := filter_sublist
    have hnotin : task.id ∉ s.immediateLog.filterMap ImmediateEvent.ran? := fun hran =>
      (nodup_append.mp h.nodup).2.2 _ hran _ (mem_map_of_mem hm) rfl
    have hids : ((s.immediateLog ++ [ImmediateEvent.ran task (s.immediateTasks.filter fun task => task.turn ≤ turn)]).filterMap
        ImmediateEvent.ran?) = s.immediateLog.filterMap ImmediateEvent.ran? ++ [task.id] := by
      simp [ImmediateEvent.ran?]
    exact
      { nodup := by
          rw [hids, append_assoc, nodup_append]
          refine ⟨(nodup_append.mp h.nodup).1, ?_, ?_⟩
          · rw [singleton_append, nodup_cons]
            refine ⟨fun hin => ?_, hperm.sublist (hsub.map _)⟩
            obtain ⟨t, ht, hid⟩ := mem_map.mp hin
            have := (mem_filter.mp ht).2
            simp [hid] at this
          · intro a ha b hb hab
            rcases mem_cons.mp hb with rfl | hb
            · exact hnotin (hab ▸ ha)
            · exact (nodup_append.mp h.nodup).2.2 a ha b ((hsub.map _).subset hb) hab
        bound := by
          rw [hids]
          intro id hid
          simp only [append_assoc, mem_append, mem_singleton] at hid
          rcases hid with hid | hid | hid
          · exact h.bound id (mem_append_left _ hid)
          · rw [hid]
            exact h.bound _ (mem_append_right _ (mem_map_of_mem hm))
          · exact h.bound id (mem_append_right _ ((hsub.map _).subset hid))
        cleared := by
          intro id hid
          simp only [mem_append, mem_singleton, reduceCtorEq, or_false] at hid
          exact ⟨(h.cleared id hid).1, fun t ht => (h.cleared id hid).2 t (hsub.subset ht)⟩
        never := by
          refine h.never.snoc _ fun immediate candidates heq hin => ?_
          cases heq
          exact (h.cleared _ hin).2 task hm rfl
        sound := by
          intro e he
          rcases mem_append.mp he with he | he
          · exact h.sound e he
          · rw [mem_singleton.mp he]
            exact hmin }
  next => exact h

/-! ### Runs -/

/-- Both, with the timer on the stack. -/
structure Inv (s : State) : Prop where
  timers : TimerInv s (onStack s.stack)
  immediates : ImmediateInv s

theorem inv_new : Inv .new := ⟨timerInv_new, immediateInv_new⟩

/-- The stack loses its top. -/
theorem TimerInv.pop {frame : Frame} {outer : List Frame} (h : TimerInv s (onStack s.stack))
    (hs : s.stack = frame :: outer) : TimerInv s (onStack outer) := by
  rw [hs, onStack, filterMap_cons] at h
  cases hf : frame.timer? with
  | none =>
    rw [hf] at h
    exact h
  | some t =>
    rw [hf] at h
    exact h.drop

theorem timerInv_take (h : TimerInv s [])
    (hsub : ∀ t ∈ candidates, t ∈ s.timerTasks) (ht : minByKey TimerTask.before candidates = some timer) (turn : Option ℕ) :
    TimerInv (fire s timer candidates turn) [timer] := by
  obtain ⟨hm, hmin⟩ := earliest_spec ht
  exact timerInv_fire h (hsub timer hm) hmin turn

theorem onStack_eq_nil (h : Single s .firing) : onStack s.stack = [] := by
  rw [onStack, filterMap_eq_nil_iff]
  intro frame hm
  cases frame with
  | timer timer turn => exact absurd hm (h timer turn)
  | loop turn => rfl
  | callback => rfl

theorem inv_step {a : Act} (h : Inv s) (hs : Step s a s') (hp : Single s a) : Inv s' := by
  obtain ⟨ht, hi⟩ := h
  cases hs with
  | set hr now delay repeats => exact ⟨timerInv_schedule ht now delay repeats, { hi with }⟩
  | clear hr id =>
    refine ⟨?_, ?_⟩
    · have := timerInv_clear ht id
      rwa [show (timerClear s id).stack = s.stack by rw [timerClear]; split <;> rfl]
    · rw [timerClear]
      split
      · exact hi
      · exact { hi with }
  | refresh hr now id =>
    refine ⟨?_, ?_⟩
    · have := timerInv_refresh ht now id
      rwa [show (timerRefresh s now id).stack = s.stack by rw [timerRefresh]; split_ifs <;> rfl]
    · rw [timerRefresh]
      split_ifs
      · exact hi
      · exact { hi with }
      · exact { hi with }
      · exact hi
  | setImmediate hr => exact ⟨{ ht with }, immediateInv_set hi⟩
  | clearImmediate hr id =>
    refine ⟨?_, immediateInv_clear hi id⟩
    rw [timerClearImmediate]
    split
    · exact ht
    · exact { ht with }
  | runEventLoop hr => exact ⟨{ ht with }, { hi with }⟩
  | pump hr now =>
    have hnil := onStack_eq_nil hp
    rw [timersPumpOnce]
    split
    next timer htimer =>
      rw [hnil] at ht
      refine ⟨?_, { hi with }⟩
      have hfire := timerInv_take ht (fun t hm => (mem_filter.mp hm).1) htimer none
      rwa [show onStack (fire s timer _ none).stack = [timer] from congrArg (timer :: ·) hnil]
    next => exact ⟨ht, hi⟩
  | @loopTimer turn outer hs now =>
    have hnil := onStack_eq_nil hp
    rw [loopTimer]
    split
    next timer htimer =>
      split
      next =>
        rw [hnil] at ht
        have ht' : TimerInv { s with eventTurn := turn, eventPhase := 1 } [] := { ht with }
        refine ⟨?_, { hi with }⟩
        have hfire := timerInv_take ht' (fun t hm => (mem_filter.mp hm).1) htimer (some turn)
        rwa [show onStack (fire { s with eventTurn := turn, eventPhase := 1 } timer _ (some turn)).stack = [timer] from
          congrArg (timer :: ·) hnil]
      next => exact ⟨ht, hi⟩
    next => exact ⟨ht, hi⟩
  | loopImmediate hs =>
    refine ⟨?_, immediateInv_loop hi _⟩
    rw [loopImmediate]
    split
    · exact { ht with }
    · exact ht
  | callback hs phase => exact ⟨{ ht with }, { hi with }⟩
  | turn hs =>
    have hpop := ht.pop hs
    exact ⟨{ hpop with }, { hi with }⟩
  | exit hs =>
    have hpop := ht.pop hs
    exact ⟨{ hpop with }, { hi with }⟩
  | @timerReturned timer turn outer hs now =>
    rw [hs, onStack, filterMap_cons] at ht
    refine ⟨?_, ?_⟩
    · have := timerInv_returned ht turn outer now
      rwa [show (timerReturned s timer turn outer now).stack = outer by rw [timerReturned]; split <;> rfl]
    · rw [timerReturned]
      split
      · exact { hi with }
      · exact { hi with }
  | callbackReturned hs =>
    have hpop := ht.pop hs
    exact ⟨{ hpop with }, { hi with }⟩
  | throw hs =>
    have hpop := ht.pop hs
    exact ⟨{ hpop with }, { hi with }⟩

theorem inv_run (h : Inv s) (hr : Run Single s s') : Inv s' := by
  induction hr with
  | nil => exact h
  | snoc _ hs hp ih => exact inv_step ih hs hp

/-! ### What holds of the logs -/

/-- The timers among which a pump chooses, which are all that are due, or a loop, all of its turn or an earlier one. -/
def Eligible (s : State) (candidates : List TimerTask) : Prop :=
  (∃ now, candidates = s.timerTasks.filter fun task => task.due ≤ now) ∨
    ∃ turn, s.stack.head? = some (.loop turn) ∧ candidates = s.timerTasks.filter fun task => task.turn ≤ turn

theorem eligible_of_step {a : Act} {candidates : List TimerTask} (h : Step s a s')
    (hlog : s'.log = s.log ++ [.fired timer candidates]) : Eligible s candidates := by
  cases h with
  | pump hr now =>
    rw [timersPumpOnce] at hlog
    split at hlog
    · simp only [fire, append_cancel_left_eq, cons.injEq, Event.fired.injEq, and_true] at hlog
      exact .inl ⟨now, hlog.2.symm⟩
    · simp at hlog
  | @loopTimer turn outer hs now =>
    rw [loopTimer] at hlog
    split at hlog
    · split at hlog
      · simp only [fire, append_cancel_left_eq, cons.injEq, Event.fired.injEq, and_true] at hlog
        exact .inr ⟨turn, by rw [hs, head?_cons], hlog.2.symm⟩
      · simp at hlog
    · simp at hlog
  | clear hr id =>
    rw [timerClear] at hlog
    split_ifs at hlog <;> simp at hlog
  | refresh hr now id =>
    rw [timerRefresh] at hlog
    split_ifs at hlog <;> simp at hlog
  | clearImmediate hr id =>
    rw [timerClearImmediate] at hlog
    split_ifs at hlog <;> simp at hlog
  | timerReturned hs now =>
    rw [timerReturned] at hlog
    split_ifs at hlog <;> simp at hlog
  | loopImmediate hs =>
    rw [loopImmediate] at hlog
    split at hlog <;> simp at hlog
  | _ => simp [timerSchedule, timerSetImmediate] at hlog

theorem immediateEligible_of_step {a : Act} {immediate : ImmediateTask} {candidates : List ImmediateTask} (h : Step s a s')
    (hlog : s'.immediateLog = s.immediateLog ++ [.ran immediate candidates]) :
    ∃ turn, s.stack.head? = some (.loop turn) ∧ candidates = s.immediateTasks.filter fun task => task.turn ≤ turn := by
  cases h with
  | @loopImmediate turn outer hs =>
    rw [loopImmediate] at hlog
    split at hlog
    · simp only [append_cancel_left_eq, cons.injEq, ImmediateEvent.ran.injEq, and_true] at hlog
      exact ⟨turn, by rw [hs, head?_cons], hlog.2.symm⟩
    · simp at hlog
  | pump hr now =>
    rw [timersPumpOnce] at hlog
    split at hlog <;> simp [fire] at hlog
  | loopTimer hs now =>
    rw [loopTimer] at hlog
    split at hlog
    · split_ifs at hlog <;> simp [fire] at hlog
    · simp at hlog
  | clear hr id =>
    rw [timerClear] at hlog
    split_ifs at hlog <;> simp at hlog
  | refresh hr now id =>
    rw [timerRefresh] at hlog
    split_ifs at hlog <;> simp at hlog
  | clearImmediate hr id =>
    rw [timerClearImmediate] at hlog
    split_ifs at hlog <;> simp at hlog
  | timerReturned hs now =>
    rw [timerReturned] at hlog
    split_ifs at hlog <;> simp at hlog
  | _ => simp [timerSchedule, timerSetImmediate] at hlog

/-- What holds of the log in every run. -/
structure Disciplined (s : State) : Prop where
  never : Never s.log
  neverRuns : NeverRuns s.immediateLog
  /-- A one-shot timer fires once, and once more each time its own callback refreshes it. -/
  once : ∀ timer candidates, .fired timer candidates ∈ s.log → timer.repeats = false →
    s.log.countP (Event.fires timer.id) ≤ 1 + s.log.countP (Event.refreshes timer.id)
  runsOnce : (s.immediateLog.filterMap ImmediateEvent.ran?).Nodup
  /-- Those that fire go before the others among which they are chosen. -/
  sound : ∀ e ∈ s.log, e.Sound
  immediateSound : ∀ e ∈ s.immediateLog, e.Sound
  /-- A step that fires finds all that are eligible. -/
  eligible : ∀ a s' timer candidates, Step s a s' → s'.log = s.log ++ [.fired timer candidates] → Eligible s candidates
  immediateEligible : ∀ a s' immediate candidates, Step s a s' → s'.immediateLog = s.immediateLog ++ [.ran immediate candidates] →
    ∃ turn, s.stack.head? = some (.loop turn) ∧ candidates = s.immediateTasks.filter fun task => task.turn ≤ turn
  /-- A timer is armed again at most once for each firing, and is armed only once. -/
  rearmed : ∀ id, s.log.countP (Event.rearms id) ≤ s.log.countP (Event.fires id)
  nodup : (s.timerTasks.map TimerTask.id).Nodup

/-- A one-shot timer is armed again only where it was refreshed. -/
theorem TimerInv.rearms_le (h : TimerInv s ts)
    (hm : .fired timer candidates ∈ s.log) (hrepeats : timer.repeats = false) :
    s.log.countP (Event.rearms timer.id) ≤ s.log.countP (Event.refreshedRearms timer.id) := by
  obtain ⟨kind, -, hkind⟩ := h.kind
  have hfalse : kind timer.id = false := (hkind _ hm timer rfl).symm.trans hrepeats
  refine countP_mono_left fun e he hrearms => ?_
  cases e with
  | rearmed timer' refreshed =>
    have hid : timer'.id = timer.id := by simpa [Event.rearms] using hrearms
    have honce : timer'.repeats = false := by
      rw [hkind _ he timer' rfl, hid]
      exact hfalse
    have hsound : timer'.repeats = true ∨ refreshed = true := h.sound _ he
    rw [honce] at hsound
    simpa [Event.refreshedRearms, hid] using hsound
  | _ => cases hrearms

theorem Inv.disciplined (h : Inv s) : Disciplined s where
  never := h.timers.never
  neverRuns := h.immediates.never
  once := by
    intro timer candidates hm hrepeats
    have hrearms := h.timers.rearms_le hm hrepeats
    have hrefreshed := h.timers.refreshed timer.id
    have hfires := (h.timers.fires timer.id).2
    omega
  runsOnce := (nodup_append.mp h.immediates.nodup).1
  sound := h.timers.sound
  immediateSound := h.immediates.sound
  eligible _ _ _ _ hs hlog := eligible_of_step hs hlog
  immediateEligible _ _ _ _ hs hlog := immediateEligible_of_step hs hlog
  rearmed := fun id => (h.timers.fires id).1
  nodup := by
    have hnodup := h.timers.nodup
    rw [map_append] at hnodup
    exact (nodup_append.mp hnodup).2.1

/-- Whatever callbacks do with timers and immediates, and wherever they run loops or pump. -/
theorem timers_disciplined {s : State} (h : Run Single .new s) : Disciplined s := (inv_run inv_new h).disciplined

theorem timers_disciplined_pump : Disciplined (timersPumpOnce (timerSchedule .new 0 5 true) 5) :=
  timers_disciplined (.snoc (.snoc .nil (.set rfl 0 5 true) trivial) (.pump rfl 5) (by simp [Single, timerSchedule, State.new]))

/-- A one-shot timer whose callback refreshes it fires twice; and an interval fires after its callback
cleared it, if another timer fired meanwhile. -/
theorem not_timers_disciplined :
    (¬ ∀ s : State, Run (fun _ _ => True) .new s → (∀ timer ∈ s.log.filterMap Event.timer?, timer.repeats = false) →
        ∀ id, s.log.countP (Event.fires id) ≤ 1) ∧
      ¬ ∀ s : State, Run (fun _ _ => True) .new s → Never s.log := by
  constructor
  · intro h
    have hfired : Run (fun _ _ => True) .new _ :=
      ((Run.nil.snoc (.set rfl 0 1 false) trivial).snoc (.runEventLoop rfl) trivial).snoc (.loopTimer rfl 1) trivial
    have hagain := ((hfired.snoc (.refresh rfl 1 1) trivial).snoc (.timerReturned rfl 1) trivial).snoc (.turn rfl) trivial
    have htwice := hagain.snoc (.loopTimer rfl 2) trivial
    exact absurd (h _ htwice (by decide) 1) (by decide)
  · intro h
    have hset : Run (fun _ _ => True) .new _ :=
      (Run.nil.snoc (.set rfl 0 1 true) trivial).snoc (.set rfl 0 5 false) trivial
    have hfired := (hset.snoc (.runEventLoop rfl) trivial).snoc (.loopTimer rfl 1) trivial
    have hpumped := (hfired.snoc (.pump rfl 5) trivial).snoc (.timerReturned rfl 5) trivial
    have hcleared := (hpumped.snoc (.clear rfl 1) trivial).snoc (.timerReturned rfl 5) trivial
    have hlate := (hcleared.snoc (.turn rfl) trivial).snoc (.loopTimer rfl 6) trivial
    have hnever := h _ hlate [.fired ⟨1, 0, 1, 1, true⟩ [⟨1, 0, 1, 1, true⟩, ⟨2, 0, 5, 5, false⟩],
      .fired ⟨2, 0, 5, 5, false⟩ [⟨2, 0, 5, 5, false⟩]] _ 1 rfl
    exact hnever ⟨1, 1, 6, 1, true⟩ [⟨1, 1, 6, 1, true⟩] (by decide) rfl

end Scriptc.RuntimeRust.Timers
