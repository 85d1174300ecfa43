import Scriptc.Backend.NativeBuildSlot

/-!
# What the native build gate keeps

Both reclaiming sequences read a file, look at the process it names, and remove whatever has the
file's name by then. They are right as long as that is the file they read: in every run where no
such step acts on a newer file, a live call that holds a slot has its lease in place, so that no
two of them hold one slot, and a lease of a stopped process can be removed.
-/

namespace Scriptc.NativeBuildSlot

open Function

variable {Call Pid : Type*}
variable {width : ℕ} {pid : Call → Pid} {s s' : State Call Pid} {c d : Call} {i : ℕ} {aged : Bool}

/-! ### The invariant -/

/-- The call is between the creation of its reaper and the removal of it. -/
def Pc.Reaps (k : Pc Pid) (i : ℕ) : Prop := ∃ r, r ≠ .create ∧ k = .reclaim r i

/-- The index the call works at. -/
def Pc.index? : Pc Pid → Option ℕ
  | .acquire _ i | .reclaim _ i | .abandoned _ i | .action i | .release _ i => some i
  | .done => none

variable (width pid) in
/-- What holds along every run whose removals act on the files that were read. -/
structure Safe (s : State Call Pid) : Prop where
  index : ∀ c, ∀ i ∈ (s.pc c).index?, i < width
  /-- A live call that holds a slot has its lease there. -/
  holds : ∀ {c i}, Live pid s c → Holds s c i → s.slot i = some c
  /-- A live call in `reclaimDeadLease` has its reaper there, -/
  reaps : ∀ {c i}, Live pid s c → (s.pc c).Reaps i → ∃ w, s.reaper i = some (.file c w)
  /-- and a reaper of a live call is there only as long. -/
  creator : ∀ {c i w}, Live pid s c → s.reaper i = some (.file c w) → (s.pc c).Reaps i
  /-- A lease about to be removed belongs to a stopped process. -/
  doomed : ∀ {c i}, Live pid s c → s.pc c = .reclaim .rmLease i → ∃ o, s.slot i = some o ∧ ¬ Live pid s o

variable (pid) in
/-- The step acts on no newer file than the one read before: when `reclaimDeadLease` finds the
process gone, the lease in the slot is still one of a stopped process, and the reaper that
`reclaimAbandonedReaper` removes is not one of a live process. -/
def Current (s : State Call Pid) : Event Call Pid → Prop
  | .call c _ =>
    (∀ p i, s.pc c = .reclaim (.processAlive p) i → s.alive p = false → ∃ o, s.slot i = some o ∧ ¬ Live pid s o) ∧
    ∀ i d w, s.pc c = .abandoned .rm i → s.reaper i = some (.file d w) → ¬ Live pid s d
  | .stop _ => True

theorem safe_initial (hw : 0 < width) (h : Initial s) : Safe width pid s where
  index c i hi := by
    rw [h.pc c] at hi
    simp only [Pc.index?, Option.mem_some_iff] at hi
    omega
  holds {c i} _ hc := by simp [Holds, h.pc c] at hc
  reaps {c i} _ hc := by simp [Pc.Reaps, h.pc c] at hc
  creator {c i w} _ hr := absurd hr (h.reaper i c w)
  doomed {c i} _ hc := by simp [h.pc c] at hc

theorem Pc.Reaps.index {k : Pc Pid} {i j : ℕ} (h : k.Reaps i) (h' : k.Reaps j) : i = j := by
  obtain ⟨r, -, rfl⟩ := h
  obtain ⟨r', -, h'⟩ := h'
  cases h'
  rfl

/-- Two live calls never reap at one slot. -/
theorem Safe.reaps_unique (hs : Safe width pid s) (hc : Live pid s c) (hd : Live pid s d)
    (hci : (s.pc c).Reaps i) (hdi : (s.pc d).Reaps i) : c = d := by
  obtain ⟨w, hw⟩ := hs.reaps hc hci
  obtain ⟨w', hw'⟩ := hs.reaps hd hdi
  rw [hw] at hw'
  cases hw'
  rfl

/-- A removal of a lease by a live call takes its own or one of a stopped process. -/
theorem Safe.removed (hs : Safe width pid s) (hc : Live pid s c)
    (hk : s.pc c = .reclaim .rmLease i ∨ s.pc c = .release .rm i) (hd : Live pid s d) (hl : s.slot i = some d) :
    d = c ∧ s.pc c = .release .rm i := by
  rcases hk with hk | hk
  · obtain ⟨o, ho, hdead⟩ := hs.doomed hc hk
    rw [hl] at ho
    cases ho
    exact absurd hd hdead
  · have := hs.holds hc (.inr (.inr ⟨_, hk⟩))
    rw [hl] at this
    cases this
    exact ⟨rfl, hk⟩

/-- Live holders have different slots, so there are no more of them than slots. -/
theorem Safe.card_le (hs : Safe width pid s) (F : Finset Call) (hF : ∀ c ∈ F, Live pid s c ∧ ∃ i, Holds s c i) :
    F.card ≤ width := by
  have hat : ∀ c ∈ F, ∃ i < width, s.slot i = some c := by
    intro c hc
    obtain ⟨hl, i, hi⟩ := hF c hc
    refine ⟨i, hs.index c i ?_, hs.holds hl hi⟩
    rcases hi with hi | hi | ⟨k, hi⟩ <;> simp [hi, Pc.index?]
  choose! f hf hsl using hat
  have hinj : Set.InjOn f (F : Set Call) := by
    intro c hc d hd he
    have := hsl c hc
    rw [he, hsl d hd] at this
    cases this
    rfl
  have := Finset.card_le_card_of_injOn (t := Finset.range width) f (fun c hc => by simpa using hf c hc) hinj
  simpa using this

/-- A process that stops takes nothing from the others. -/
theorem Safe.stop [DecidableEq Pid] (hs : Safe width pid s) (p : Pid) :
    Safe width pid { s with alive := update s.alive p false } := by
  have hlive : ∀ {c}, Live pid { s with alive := update s.alive p false } c → Live pid s c := by
    intro c hc
    by_cases hp : pid c = p
    · simp [Live, hp] at hc
    · simpa [Live, hp] using hc
  refine ⟨hs.index, fun hc => hs.holds (hlive hc), fun hc => hs.reaps (hlive hc), fun hc => hs.creator (hlive hc), ?_⟩
  intro c i hc hk
  obtain ⟨o, ho, hdead⟩ := hs.doomed (hlive hc) hk
  exact ⟨o, ho, fun h => hdead (hlive h)⟩

/-! ### What a step does -/

variable [DecidableEq Call]

/-- A step is one change of the directory, then the call goes on elsewhere. -/
theorem exists_goto (h : withNativeBuildSlot width pid s c aged = some s') :
    ∃ u k, s' = State.goto u c k ∧ u.alive = s.alive ∧ u.pc = s.pc := by
  unfold withNativeBuildSlot at h
  split at h <;> cases h
  case h_1 k i _ =>
    cases k <;> simp only [acquireNativeBuildSlot]
    case link => split <;> exact ⟨_, _, rfl, rfl, rfl⟩
    all_goals exact ⟨_, _, rfl, rfl, rfl⟩
  case h_2 k i _ =>
    cases k <;> simp only [reclaimDeadLease, toNext]
    case create => split <;> exact ⟨_, _, rfl, rfl, rfl⟩
    case write => split_ifs <;> exact ⟨_, _, rfl, rfl, rfl⟩
    case readLease => split <;> exact ⟨_, _, rfl, rfl, rfl⟩
    case processAlive => split_ifs <;> exact ⟨_, _, rfl, rfl, rfl⟩
    all_goals exact ⟨_, _, rfl, rfl, rfl⟩
  case h_3 k i _ =>
    cases k <;> simp only [reclaimAbandonedReaper, toNext]
    case readReaper => split <;> exact ⟨_, _, rfl, rfl, rfl⟩
    case processAlive => split_ifs <;> exact ⟨_, _, rfl, rfl, rfl⟩
    case stat => split_ifs <;> exact ⟨_, _, rfl, rfl, rfl⟩
    all_goals exact ⟨_, _, rfl, rfl, rfl⟩
  case h_4 => exact ⟨_, _, rfl, rfl, rfl⟩
  case h_5 k i _ =>
    cases k <;> simp only [releaseNativeBuildSlot]
    case readLease => split_ifs <;> exact ⟨_, _, rfl, rfl, rfl⟩
    all_goals exact ⟨_, _, rfl, rfl, rfl⟩

/-- A step leaves the processes and every other call alone. -/
theorem alive_of_step (h : withNativeBuildSlot width pid s c aged = some s') : s'.alive = s.alive := by
  obtain ⟨u, k, rfl, ha, -⟩ := exists_goto h
  exact ha

theorem pc_of_step (h : withNativeBuildSlot width pid s c aged = some s') (hd : d ≠ c) : s'.pc d = s.pc d := by
  obtain ⟨u, k, rfl, -, hp⟩ := exists_goto h
  rw [State.goto_pc_of_ne u k hd, hp]

/-- What a step does to the slots: nothing, a link where nothing was, or a removal. -/
theorem slot_cases (h : withNativeBuildSlot width pid s c aged = some s') :
    (s'.slot = s.slot ∧ ∀ i, Holds s' c i → Holds s c i) ∨
    (∃ i, s.slot i = none ∧ s'.slot = update s.slot i (some c) ∧ s'.pc c = .acquire .rmTemporary i) ∨
    (∃ i, s'.slot = update s.slot i none ∧
      (s.pc c = .reclaim .rmLease i ∧ s'.pc c = .reclaim .rmReaper i ∨ s.pc c = .release .rm i ∧ s'.pc c = .done)) := by
  unfold withNativeBuildSlot at h
  split at h <;> cases h
  case h_1 k i hk =>
    cases k with
    | link =>
      simp only [acquireNativeBuildSlot]
      split
      · exact .inr (.inl ⟨i, by assumption, by simp, by simp⟩)
      · exact .inl ⟨by simp, by simp [Holds]⟩
    | rmTemporary => exact .inl ⟨by simp [acquireNativeBuildSlot], by simp [acquireNativeBuildSlot, Holds, hk]⟩
    | _ => exact .inl ⟨by simp [acquireNativeBuildSlot], by simp [acquireNativeBuildSlot, Holds]⟩
  case h_2 k i hk =>
    cases k with
    | rmLease => exact .inr (.inr ⟨i, by simp [reclaimDeadLease], .inl ⟨hk, by simp [reclaimDeadLease]⟩⟩)
    | create | readLease => simp only [reclaimDeadLease]; split <;> exact .inl ⟨by simp, by simp [Holds]⟩
    | write | processAlive => simp only [reclaimDeadLease]; split_ifs <;> exact .inl ⟨by simp, by simp [Holds]⟩
    | rmReaper => exact .inl ⟨by simp [reclaimDeadLease, toNext], by simp [reclaimDeadLease, toNext, Holds]⟩
  case h_3 k i hk =>
    refine .inl ?_
    cases k with
    | readReaper => simp only [reclaimAbandonedReaper, toNext]; split <;> exact ⟨by simp, by simp [Holds]⟩
    | processAlive | stat => simp only [reclaimAbandonedReaper, toNext]; split_ifs <;> exact ⟨by simp, by simp [Holds]⟩
    | rm => exact ⟨by simp [reclaimAbandonedReaper, toNext], by simp [reclaimAbandonedReaper, toNext, Holds]⟩
  case h_4 i hk => exact .inl ⟨by simp, by simp [Holds, hk]⟩
  case h_5 k i hk =>
    cases k with
    | readLease =>
      simp only [releaseNativeBuildSlot]
      split_ifs <;> exact .inl ⟨by simp, by simp [Holds, hk]⟩
    | rm => exact .inr (.inr ⟨i, by simp [releaseNativeBuildSlot], .inr ⟨hk, by simp [releaseNativeBuildSlot]⟩⟩)

/-- What a step does to the reapers: nothing, a creation where nothing was, a write into the
call's own file, or a removal. -/
theorem reaper_cases (h : withNativeBuildSlot width pid s c aged = some s') :
    (s'.reaper = s.reaper ∧ ∀ i, (s'.pc c).Reaps i ↔ (s.pc c).Reaps i) ∨
    (∃ i, s.pc c = .reclaim .create i ∧ s.reaper i = none ∧
      s'.reaper = update s.reaper i (some (.file c false)) ∧ s'.pc c = .reclaim .write i) ∨
    (∃ i, s.pc c = .reclaim .write i ∧ s.reaper i = some (.file c false) ∧
      s'.reaper = update s.reaper i (some (.file c true)) ∧ s'.pc c = .reclaim .readLease i) ∨
    (∃ i, (s.pc c = .reclaim .rmReaper i ∨ s.pc c = .abandoned .rm i) ∧
      s'.reaper = update s.reaper i none ∧ ∀ j, ¬ (s'.pc c).Reaps j) := by
  unfold withNativeBuildSlot at h
  split at h <;> cases h
  case h_1 k i hk =>
    cases k with
    | link =>
      simp only [acquireNativeBuildSlot]
      split <;> exact .inl ⟨by simp, by simp [Pc.Reaps, hk]⟩
    | _ => exact .inl ⟨by simp [acquireNativeBuildSlot], by simp [acquireNativeBuildSlot, Pc.Reaps, hk]⟩
  case h_2 k i hk =>
    cases k with
    | create =>
      simp only [reclaimDeadLease]
      split
      · exact .inr (.inl ⟨i, hk, by assumption, by simp, by simp⟩)
      · exact .inl ⟨by simp, by simp [Pc.Reaps, hk]⟩
    | write =>
      simp only [reclaimDeadLease]
      split_ifs with hr
      · exact .inr (.inr (.inl ⟨i, hk, hr, by simp, by simp⟩))
      · exact .inl ⟨by simp, by simp [Pc.Reaps, hk]⟩
    | readLease => simp only [reclaimDeadLease]; split <;> exact .inl ⟨by simp, by simp [Pc.Reaps, hk]⟩
    | processAlive => simp only [reclaimDeadLease]; split_ifs <;> exact .inl ⟨by simp, by simp [Pc.Reaps, hk]⟩
    | rmLease => exact .inl ⟨by simp [reclaimDeadLease], by simp [reclaimDeadLease, Pc.Reaps, hk]⟩
    | rmReaper =>
      exact .inr (.inr (.inr ⟨i, .inl hk, by simp [reclaimDeadLease, toNext],
        by simp [reclaimDeadLease, toNext, Pc.Reaps]⟩))
  case h_3 k i hk =>
    cases k with
    | readReaper =>
      simp only [reclaimAbandonedReaper, toNext]
      split <;> exact .inl ⟨by simp, by simp [Pc.Reaps, hk]⟩
    | processAlive | stat =>
      simp only [reclaimAbandonedReaper, toNext]
      split_ifs <;> exact .inl ⟨by simp, by simp [Pc.Reaps, hk]⟩
    | rm =>
      exact .inr (.inr (.inr ⟨i, .inr hk, by simp [reclaimAbandonedReaper, toNext],
        by simp [reclaimAbandonedReaper, toNext, Pc.Reaps]⟩))
  case h_4 i hk => exact .inl ⟨by simp, by simp [Pc.Reaps, hk]⟩
  case h_5 k i hk =>
    cases k with
    | readLease =>
      simp only [releaseNativeBuildSlot]
      split_ifs <;> exact .inl ⟨by simp, by simp [Pc.Reaps, hk]⟩
    | rm => exact .inl ⟨by simp [releaseNativeBuildSlot], by simp [releaseNativeBuildSlot, Pc.Reaps, hk]⟩

/-- A call comes to remove a lease only from finding its process gone. -/
theorem doomed_cases (h : withNativeBuildSlot width pid s c aged = some s') (hc : s'.pc c = .reclaim .rmLease i) :
    ∃ p, s.pc c = .reclaim (.processAlive p) i ∧ s.alive p = false ∧ s'.slot = s.slot := by
  unfold withNativeBuildSlot at h
  split at h <;> cases h
  case h_1 k j hk =>
    cases k <;> simp only [acquireNativeBuildSlot] at hc
    case link => split at hc <;> simp at hc
    all_goals simp at hc
  case h_2 k j hk =>
    cases k <;> simp only [reclaimDeadLease, toNext] at hc
    case create => split at hc <;> simp at hc
    case readLease => split at hc <;> simp at hc
    case processAlive p =>
      split_ifs at hc with ha
      · simp at hc
      · simp only [State.goto_pc_self, Pc.reclaim.injEq, true_and] at hc
        subst hc
        exact ⟨p, hk, by simpa using ha, by simp [reclaimDeadLease, ha]⟩
    all_goals simp at hc
  case h_3 k j hk =>
    cases k <;> simp only [reclaimAbandonedReaper, toNext] at hc
    case readReaper => split at hc <;> simp at hc
    case processAlive | stat => split_ifs at hc <;> simp at hc
    all_goals simp at hc
  case h_4 => simp at hc
  case h_5 k j hk =>
    cases k <;> simp only [releaseNativeBuildSlot] at hc
    case readLease => split_ifs at hc <;> simp at hc
    all_goals simp at hc

/-- A call stays at an index below the width. -/
theorem index_of_step (hw : 0 < width) (h : withNativeBuildSlot width pid s c aged = some s')
    (hi : ∀ i ∈ (s.pc c).index?, i < width) : ∀ i ∈ (s'.pc c).index?, i < width := by
  have hn : ∀ i, nextIndex width i < width := fun i => by unfold nextIndex; split_ifs <;> omega
  unfold withNativeBuildSlot at h
  split at h <;> cases h <;> rename_i hk <;> simp only [hk, Pc.index?, Option.mem_some_iff, forall_eq'] at hi
  case h_1 k i =>
    cases k <;> simp only [acquireNativeBuildSlot]
    case link => split <;> simpa [Pc.index?] using hi
    all_goals simpa [Pc.index?] using hi
  case h_2 k i =>
    cases k <;> simp only [reclaimDeadLease, toNext]
    case create => split <;> simpa [Pc.index?] using hi
    case readLease => split <;> simpa [Pc.index?] using hi
    case processAlive => split_ifs <;> simpa [Pc.index?] using hi
    case rmReaper => simpa [Pc.index?] using hn i
    all_goals simpa [Pc.index?] using hi
  case h_3 k i =>
    cases k <;> simp only [reclaimAbandonedReaper, toNext]
    case readReaper => split <;> simp [Pc.index?, hi, hn i]
    case rm => simpa [Pc.index?] using hn i
    all_goals split_ifs <;> simp [Pc.index?, hi, hn i]
  case h_4 => simpa [Pc.index?] using hi
  case h_5 k i =>
    cases k <;> simp only [releaseNativeBuildSlot]
    case readLease => split_ifs <;> simp [Pc.index?, hi]
    all_goals simp [Pc.index?]

/-! ### Runs -/

section Step

variable (hs : Safe width pid s) (hc : Live pid s c) (h : withNativeBuildSlot width pid s c aged = some s')
include hs hc h

theorem Safe.holds_step (hd : Live pid s' d) (hh : Holds s' d i) : s'.slot i = some d := by
  have hd' : Live pid s d := by rwa [Live, alive_of_step h] at hd
  have hother : d ≠ c → Holds s d i := fun hne => by rwa [Holds, pc_of_step h hne] at hh
  rcases slot_cases h with ⟨hsl, hback⟩ | ⟨j, hn, hsl, hpc⟩ | ⟨j, hsl, hk⟩
  · rw [hsl]
    by_cases hdc : d = c
    · subst hdc
      exact hs.holds hd' (hback i hh)
    · exact hs.holds hd' (hother hdc)
  · rw [hsl]
    by_cases hdc : d = c
    · subst hdc
      obtain rfl : i = j := by simpa [Holds, hpc, eq_comm] using hh
      simp
    · have := hs.holds hd' (hother hdc)
      rw [update_of_ne, this]
      rintro rfl
      rw [hn] at this
      cases this
  · have hdc : d ≠ c := by
      rintro rfl
      rcases hk with ⟨-, hk⟩ | ⟨-, hk⟩ <;> simp [Holds, hk] at hh
    have hl := hs.holds hd' (hother hdc)
    rw [hsl, update_of_ne, hl]
    rintro rfl
    exact hdc (hs.removed hc (hk.imp And.left And.left) hd' hl).1

theorem Safe.reaps_step (ha : ∀ i d w, s.pc c = .abandoned .rm i → s.reaper i = some (.file d w) → ¬ Live pid s d)
    (hd : Live pid s' d) (hr : (s'.pc d).Reaps i) : ∃ w, s'.reaper i = some (.file d w) := by
  have hd' : Live pid s d := by rwa [Live, alive_of_step h] at hd
  have hother : d ≠ c → (s.pc d).Reaps i := fun hne => by rwa [pc_of_step h hne] at hr
  rcases reaper_cases h with ⟨hre, hiff⟩ | ⟨j, -, hn, hre, hpc⟩ | ⟨j, hk, ho, hre, hpc⟩ | ⟨j, hk, hre, hout⟩
  · rw [hre]
    by_cases hdc : d = c
    · subst hdc
      exact hs.reaps hd' ((hiff i).mp hr)
    · exact hs.reaps hd' (hother hdc)
  · by_cases hdc : d = c
    · subst hdc
      obtain rfl := hr.index ⟨.write, by simp, hpc⟩
      exact ⟨false, by simp [hre]⟩
    · obtain ⟨w, hw⟩ := hs.reaps hd' (hother hdc)
      refine ⟨w, ?_⟩
      rw [hre, update_of_ne, hw]
      rintro rfl
      rw [hn] at hw
      cases hw
  · by_cases hdc : d = c
    · subst hdc
      obtain rfl := hr.index ⟨.readLease, by simp, hpc⟩
      exact ⟨true, by simp [hre]⟩
    · obtain ⟨w, hw⟩ := hs.reaps hd' (hother hdc)
      refine ⟨w, ?_⟩
      rw [hre, update_of_ne, hw]
      rintro rfl
      rw [ho] at hw
      cases hw
      exact hdc rfl
  · have hdc : d ≠ c := by
      rintro rfl
      exact hout i hr
    obtain ⟨w, hw⟩ := hs.reaps hd' (hother hdc)
    refine ⟨w, ?_⟩
    rw [hre, update_of_ne, hw]
    rintro rfl
    rcases hk with hk | hk
    · exact hdc (hs.reaps_unique hd' hc (hother hdc) ⟨_, by simp, hk⟩)
    · exact ha i d w hk hw hd'

theorem Safe.creator_step {w : Bool} (hd : Live pid s' d) (hr : s'.reaper i = some (.file d w)) :
    (s'.pc d).Reaps i := by
  have hd' : Live pid s d := by rwa [Live, alive_of_step h] at hd
  rcases reaper_cases h with ⟨hre, hiff⟩ | ⟨j, hk, hn, hre, hpc⟩ | ⟨j, hk, ho, hre, hpc⟩ | ⟨j, hk, hre, hout⟩
  · rw [hre] at hr
    have := hs.creator hd' hr
    by_cases hdc : d = c
    · subst hdc
      exact (hiff i).mpr this
    · rwa [pc_of_step h hdc]
  · by_cases hij : i = j
    · subst hij
      rw [hre, update_self] at hr
      cases hr
      exact ⟨.write, by simp, hpc⟩
    · rw [hre, update_of_ne hij] at hr
      have := hs.creator hd' hr
      by_cases hdc : d = c
      · subst hdc
        obtain ⟨r, hr1, hr2⟩ := this
        rw [hk] at hr2
        cases hr2
        exact absurd rfl hr1
      · rwa [pc_of_step h hdc]
  · by_cases hij : i = j
    · subst hij
      rw [hre, update_self] at hr
      cases hr
      exact ⟨.readLease, by simp, hpc⟩
    · rw [hre, update_of_ne hij] at hr
      have := hs.creator hd' hr
      by_cases hdc : d = c
      · subst hdc
        exact absurd (this.index ⟨.write, by simp, hk⟩) hij
      · rwa [pc_of_step h hdc]
  · by_cases hij : i = j
    · subst hij
      rw [hre, update_self] at hr
      cases hr
    · rw [hre, update_of_ne hij] at hr
      have := hs.creator hd' hr
      have hdc : d ≠ c := by
        rintro rfl
        rcases hk with hk | hk
        · exact hij (this.index ⟨.rmReaper, by simp, hk⟩)
        · obtain ⟨r, -, hr2⟩ := this
          rw [hk] at hr2
          cases hr2
      rwa [pc_of_step h hdc]

theorem Safe.doomed_step
    (ha : ∀ p i, s.pc c = .reclaim (.processAlive p) i → s.alive p = false → ∃ o, s.slot i = some o ∧ ¬ Live pid s o)
    (hd : Live pid s' d) (hk : s'.pc d = .reclaim .rmLease i) : ∃ o, s'.slot i = some o ∧ ¬ Live pid s' o := by
  have hd' : Live pid s d := by rwa [Live, alive_of_step h] at hd
  by_cases hdc : d = c
  · subst hdc
    obtain ⟨p, hp, hdead, hsl⟩ := doomed_cases h hk
    obtain ⟨o, ho, hstopped⟩ := ha p i hp hdead
    exact ⟨o, by rw [hsl, ho], by rwa [Live, alive_of_step h]⟩
  · rw [pc_of_step h hdc] at hk
    obtain ⟨o, ho, hdead⟩ := hs.doomed hd' hk
    refine ⟨o, ?_, by rwa [Live, alive_of_step h]⟩
    rcases slot_cases h with ⟨hsl, -⟩ | ⟨j, hn, hsl, -⟩ | ⟨j, hsl, hk'⟩
    · rw [hsl, ho]
    · rw [hsl, update_of_ne, ho]
      rintro rfl
      rw [hn] at ho
      cases ho
    · rw [hsl, update_of_ne, ho]
      rintro rfl
      rcases hk' with ⟨hk', -⟩ | ⟨hk', -⟩
      · exact hdc (hs.reaps_unique hd' hc ⟨_, by simp, hk⟩ ⟨_, by simp, hk'⟩)
      · have := hs.holds hc (.inr (.inr ⟨_, hk'⟩))
        rw [ho] at this
        cases this
        exact hdead hc

end Step

theorem goto_goto (k k' : Pc Pid) : (s.goto c k).goto c k' = s.goto c k' := by simp [State.goto]

theorem goto_self : s.goto c (s.pc c) = s := by simp [State.goto]

theorem goto_setReaper (k : Pc Pid) (r : Option (Reaper Call)) :
    (s.goto c k).setReaper i r = (s.setReaper i r).goto c k := rfl

/-- Only two of the steps can meet a newer file. -/
theorem current_goto {k : Pc Pid} (h1 : ∀ p j, k ≠ .reclaim (.processAlive p) j) (h2 : ∀ j, k ≠ .abandoned .rm j) :
    Current pid (s.goto c k) (.call c aged) :=
  ⟨fun p j hk => absurd (by simpa using hk) (h1 p j), fun j _ _ hk => absurd (by simpa using hk) (h2 j)⟩

variable [DecidableEq Pid]

/-- One step of the system keeps the invariant. -/
theorem Safe.after (hw : 0 < width) (hs : Safe width pid s) {e : Event Call Pid} (he : Current pid s e)
    (h : next width pid s e = some s') : Safe width pid s' := by
  cases e with
  | stop p =>
    cases h
    exact hs.stop p
  | call c aged =>
    simp only [next] at h
    split_ifs at h with hc
    refine ⟨fun d => ?_, hs.holds_step hc h, hs.reaps_step hc h he.2, hs.creator_step hc h, hs.doomed_step hc h he.1⟩
    by_cases hdc : d = c
    · subst hdc
      exact index_of_step hw h (hs.index d)
    · rw [pc_of_step h hdc]
      exact hs.index d

variable (width pid) in
/-- The runs whose steps all act on the file that was read. -/
def Reaches : State Call Pid → State Call Pid → Prop :=
  Relation.ReflTransGen fun s s' => ∃ e, Current pid s e ∧ next width pid s e = some s'

theorem Safe.reaches (hw : 0 < width) (hs : Safe width pid s) (h : Reaches width pid s s') : Safe width pid s' := by
  induction h with
  | refl => exact hs
  | tail _ hstep ih =>
    obtain ⟨e, he, hn⟩ := hstep
    exact ih.after hw he hn

/-- A live holder's lease outlives the steps of every other call. -/
theorem Safe.kept (hs : Safe width pid s) (hc : Live pid s c) (hh : Holds s c i) (hd : d ≠ c)
    (h : next width pid s (.call d aged) = some s') : s'.slot i = some c := by
  simp only [next] at h
  split_ifs at h with hl
  refine hs.holds_step hl h ?_ ?_
  · rwa [Live, alive_of_step h]
  · rwa [Holds, pc_of_step h hd.symm]

/-! ### Leases of stopped processes -/

section Removal

variable {u : State Call Pid} {o : Call}

/-- A call at a given place takes its step and the run goes on. -/
theorem reaches_step {k : Pc Pid} (aged : Bool) (hc : Live pid u c) (hk : Current pid (u.goto c k) (.call c aged))
    (h : withNativeBuildSlot width pid (u.goto c k) c aged = some s) (hr : Reaches width pid s s') :
    Reaches width pid (u.goto c k) s' := by
  refine Relation.ReflTransGen.head ⟨.call c aged, hk, ?_⟩ hr
  have hl : (u.goto c k).alive (pid c) = true := hc
  rw [next, if_pos hl, h]

variable (hc : Live pid u c)
include hc

/-- A call that tries a taken slot turns to reclaiming it. -/
theorem reaches_create (ho : u.slot i = some o) :
    Reaches width pid (u.goto c (.acquire .writeTemporary i)) (u.goto c (.reclaim .create i)) := by
  refine reaches_step false hc (current_goto (by simp) (by simp)) ?_ <|
    reaches_step (k := .acquire .link i) false hc (current_goto (by simp) (by simp)) ?_ <|
    reaches_step (k := .acquire .rmTemporaryTaken i) false hc (current_goto (by simp) (by simp)) ?_ .refl
  all_goals simp [withNativeBuildSlot, acquireNativeBuildSlot, goto_goto, ho]

/-- Having read a lease of a stopped process, a call comes to remove it. -/
theorem reaches_rmLease (ho : u.slot i = some o) (hdead : ¬ Live pid u o) :
    Reaches width pid (u.goto c (.reclaim .readLease i)) (u.goto c (.reclaim .rmLease i)) := by
  refine reaches_step false hc (current_goto (by simp) (by simp)) ?_ <|
    reaches_step (k := .reclaim (.processAlive (pid o)) i) false hc ⟨?_, by simp⟩ ?_ .refl
  · simp [withNativeBuildSlot, reclaimDeadLease, goto_goto, ho]
  · intro p j hk _
    simp only [State.goto_pc_self, Pc.reclaim.injEq] at hk
    exact ⟨o, by simpa [← hk.2] using ho, hdead⟩
  · have : u.alive (pid o) = false := by simpa [Live] using hdead
    simp [withNativeBuildSlot, reclaimDeadLease, goto_goto, this]

/-- With no reaper in the way, a call that finds the slot taken comes to remove the lease. -/
theorem reaches_reap (ho : u.slot i = some o) (hdead : ¬ Live pid u o) (hn : u.reaper i = none) :
    Reaches width pid (u.goto c (.reclaim .create i))
      ((u.setReaper i (some (.file c true))).goto c (.reclaim .rmLease i)) := by
  refine reaches_step (s := (u.setReaper i (some (.file c false))).goto c (.reclaim .write i)) false hc (current_goto (by simp) (by simp)) ?_ <|
    reaches_step false hc (current_goto (by simp) (by simp)) ?_ (reaches_rmLease hc ho hdead)
  · simp [withNativeBuildSlot, reclaimDeadLease, goto_goto, goto_setReaper, hn]
  · simp only [withNativeBuildSlot, reclaimDeadLease, State.goto_pc_self, State.goto_reaper, State.setReaper_reaper,
      update_self, if_true, goto_setReaper, goto_goto]
    simp [State.setReaper]

/-- A reaper of no live process goes when the next call looks at it. -/
theorem reaches_abandoned {r : Reaper Call} (hr : u.reaper i = some r) (hd : ∀ d w, r = .file d w → ¬ Live pid u d) :
    ∃ k, Reaches width pid (u.goto c (.reclaim .create i)) ((u.setReaper i none).goto c k) := by
  have hrm : Reaches width pid (u.goto c (.abandoned .rm i))
      ((u.setReaper i none).goto c (.acquire .writeTemporary (nextIndex width i))) := by
    refine reaches_step false hc ⟨by simp, ?_⟩ ?_ .refl
    · intro j d w hk hj
      simp only [State.goto_pc_self, Pc.abandoned.injEq, true_and] at hk
      subst hk
      rw [State.goto_reaper, hr] at hj
      exact hd d w (Option.some.inj hj)
    · simp [withNativeBuildSlot, reclaimAbandonedReaper, toNext, goto_goto, goto_setReaper]
  refine ⟨.acquire .writeTemporary (nextIndex width i), reaches_step (s := u.goto c (.abandoned .readReaper i)) false hc
    (current_goto (by simp) (by simp)) (by simp [withNativeBuildSlot, reclaimDeadLease, goto_goto, hr]) ?_⟩
  match r, hr, hd with
  | .directory, hr, _ =>
    refine reaches_step false hc (current_goto (by simp) (by simp)) ?_ <|
      reaches_step (k := .abandoned .stat i) true hc (current_goto (by simp) (by simp)) ?_ hrm
    all_goals simp [withNativeBuildSlot, reclaimAbandonedReaper, goto_goto, hr]
  | .file d false, hr, _ =>
    refine reaches_step false hc (current_goto (by simp) (by simp)) ?_ hrm
    simp [withNativeBuildSlot, reclaimAbandonedReaper, goto_goto, hr]
  | .file d true, hr, hd =>
    have : u.alive (pid d) = false := by simpa [Live] using hd d true rfl
    refine reaches_step false hc (current_goto (by simp) (by simp)) ?_ <|
      reaches_step (k := .abandoned (.processAlive (pid d)) i) false hc
        (current_goto (by simp) (by simp)) ?_ hrm
    all_goals simp [withNativeBuildSlot, reclaimAbandonedReaper, goto_goto, hr, this]

omit hc in
/-- A live call in `reclaimDeadLease` either comes to remove the lease of a stopped process, or goes
on and takes its reaper with it. -/
theorem reaches_finish {r : Reclaim Pid} (hd : Live pid u d) (hr : r ≠ .create) (ho : u.slot i = some o)
    (hdead : ¬ Live pid u o) :
    (∃ x, Reaches width pid (u.goto d (.reclaim r i)) ((u.setReaper i x).goto d (.reclaim .rmLease i))) ∨
    ∃ k, Reaches width pid (u.goto d (.reclaim r i)) ((u.setReaper i none).goto d k) := by
  have hself : u = u.setReaper i (u.reaper i) := by simp [State.setReaper]
  have hout : Reaches width pid (u.goto d (.reclaim .rmReaper i))
      ((u.setReaper i none).goto d (.acquire .writeTemporary (nextIndex width i))) := by
    refine reaches_step false hd (current_goto (by simp) (by simp)) ?_ .refl
    simp [withNativeBuildSlot, reclaimDeadLease, toNext, goto_goto, goto_setReaper]
  cases r with
  | create => exact absurd rfl hr
  | write =>
    refine .inl ?_
    by_cases hw : u.reaper i = some (.file d false)
    · refine ⟨some (.file d true), reaches_step false hd (current_goto (by simp) (by simp)) ?_
        (reaches_rmLease (u := u.setReaper i _) hd ho hdead)⟩
      simp [withNativeBuildSlot, reclaimDeadLease, goto_setReaper, goto_goto, hw]
    · refine ⟨u.reaper i, ?_⟩
      rw [← hself]
      refine reaches_step false hd (current_goto (by simp) (by simp)) ?_ (reaches_rmLease hd ho hdead)
      simp [withNativeBuildSlot, reclaimDeadLease, goto_goto, hw]
  | readLease =>
    refine .inl ⟨u.reaper i, ?_⟩
    rw [← hself]
    exact reaches_rmLease hd ho hdead
  | processAlive p =>
    by_cases hp : u.alive p = true
    · refine .inr ⟨_, reaches_step false hd ⟨?_, by simp⟩ ?_ hout⟩
      · intro q j hk hq
        simp only [State.goto_pc_self, Pc.reclaim.injEq, Reclaim.processAlive.injEq] at hk
        rw [State.goto_alive, ← hk.1, hp] at hq
        cases hq
      · simp [withNativeBuildSlot, reclaimDeadLease, goto_goto, hp]
    · refine .inl ⟨u.reaper i, ?_⟩
      rw [← hself]
      refine reaches_step false hd ⟨?_, by simp⟩ ?_ .refl
      · intro q j hk _
        simp only [State.goto_pc_self, Pc.reclaim.injEq] at hk
        exact ⟨o, by simpa [← hk.2] using ho, hdead⟩
      · simp [withNativeBuildSlot, reclaimDeadLease, goto_goto, hp]
  | rmLease =>
    refine .inl ⟨u.reaper i, ?_⟩
    rw [← hself]
    exact .refl
  | rmReaper => exact .inr ⟨_, hout⟩

end Removal

/-- **A lease of a stopped process can be removed**: of two live calls that try its slot, the first
takes away what keeps the second from reclaiming it. -/
theorem Safe.removable {o c₁ c₂ : Call} (hs : Safe width pid s) (ho : s.slot i = some o) (hdead : ¬ Live pid s o)
    (h₁ : Live pid s c₁) (h₂ : Live pid s c₂) (hne : c₁ ≠ c₂) (hk₁ : s.pc c₁ = .acquire .writeTemporary i)
    (hk₂ : s.pc c₂ = .acquire .writeTemporary i) :
    ∃ s' c, Reaches width pid s s' ∧ Live pid s' c ∧ s'.pc c = .reclaim .rmLease i ∧ s'.slot i = some o := by
  -- the second call, once the reaper is out of its way
  have second : ∀ u : State Call Pid, Reaches width pid s u → u.alive = s.alive → u.slot = s.slot →
      u.reaper i = none → u.pc c₂ = .acquire .writeTemporary i →
      ∃ s' c, Reaches width pid s s' ∧ Live pid s' c ∧ s'.pc c = .reclaim .rmLease i ∧ s'.slot i = some o := by
    intro u hr ha hsl hn hk
    have hl : Live pid u c₂ := by rwa [Live, ha]
    have hd : ¬ Live pid u o := by rwa [Live, ha]
    have ho' : u.slot i = some o := by rw [hsl, ho]
    have hu : u = u.goto c₂ (.acquire .writeTemporary i) := by rw [← hk, goto_self]
    rw [hu] at hr
    have hgo : Reaches width pid _ _ := (reaches_create hl ho').trans (reaches_reap hl ho' hd hn)
    exact ⟨_, c₂, hr.trans hgo, hl, by simp, ho'⟩
  have first : Reaches width pid s (s.goto c₁ (.reclaim .create i)) := by
    have hu : s = s.goto c₁ (.acquire .writeTemporary i) := by rw [← hk₁, goto_self]
    have hgo : Reaches width pid _ _ := reaches_create h₁ ho
    rwa [← hu] at hgo
  cases hr : s.reaper i with
  | none => exact second s .refl rfl rfl hr hk₂
  | some r =>
    by_cases hd : ∀ d w, r = .file d w → ¬ Live pid s d
    · obtain ⟨k, hk⟩ := reaches_abandoned h₁ hr hd
      refine second _ (first.trans hk) rfl rfl (by simp) ?_
      rw [State.goto_pc_of_ne _ _ hne.symm]
      exact hk₂
    · push Not at hd
      obtain ⟨d, w, rfl, hl⟩ := hd
      obtain ⟨x, hx, hpc⟩ := hs.creator hl hr
      have hsd : s = s.goto d (.reclaim x i) := by rw [← hpc, goto_self]
      rcases reaches_finish hl hx ho hdead with ⟨y, hy⟩ | ⟨k, hk⟩
      · rw [← hsd] at hy
        exact ⟨_, d, hy, hl, by simp, ho⟩
      · rw [← hsd] at hk
        have hdc : c₂ ≠ d := by
          rintro rfl
          rw [hk₂] at hpc
          cases hpc
        refine second _ hk rfl rfl (by simp) ?_
        rw [State.goto_pc_of_ne _ _ hdc]
        exact hk₂

/-! ### The gate -/

/-- **The gate keeps its width** along every run whose reclaiming steps act on no newer file than
the one they read: no two live calls hold one slot, no more of them than `width` hold any, no other
call takes the lease of a live holder away, and a lease of a stopped process can be removed. -/
theorem gate_of_current {s₀ : State Call Pid} (hw : 0 < width) (h₀ : Initial s₀) (h : Reaches width pid s₀ s) :
    (∀ c d i, Live pid s c → Live pid s d → Holds s c i → Holds s d i → c = d) ∧
    (∀ F : Finset Call, (∀ c ∈ F, Live pid s c ∧ ∃ i, Holds s c i) → F.card ≤ width) ∧
    (∀ c d i aged s', Live pid s c → Holds s c i → d ≠ c → next width pid s (.call d aged) = some s' →
      s'.slot i = some c) ∧
    (∀ i o c₁ c₂, s.slot i = some o → ¬ Live pid s o → Live pid s c₁ → Live pid s c₂ → c₁ ≠ c₂ →
      s.pc c₁ = .acquire .writeTemporary i → s.pc c₂ = .acquire .writeTemporary i →
      ∃ s' c, Reaches width pid s s' ∧ Live pid s' c ∧ s'.pc c = .reclaim .rmLease i ∧ s'.slot i = some o) := by
  have hs : Safe width pid s := (safe_initial hw h₀).reaches hw h
  refine ⟨?_, hs.card_le, ?_, ?_⟩
  · intro c d i hc hd hci hdi
    have := hs.holds hc hci
    rw [hs.holds hd hdi] at this
    exact (Option.some.inj this).symm
  · intro c d i aged s' hc hh hne hstep
    exact hs.kept hc hh hne hstep
  · intro i o c₁ c₂ ho hdead h₁ h₂ hne hk₁ hk₂
    exact hs.removable ho hdead h₁ h₂ hne hk₁ hk₂

/-- An empty lock directory. -/
def empty : State ℕ ℕ := ⟨fun _ => true, fun _ => .acquire .writeTemporary 0, fun _ => none, fun _ => none⟩

theorem initial_empty : Initial empty := ⟨fun _ => rfl, fun _ => rfl, fun _ => rfl, fun _ _ _ => by simp [empty]⟩

/-- One slot, three processes of one call each: the first takes the slot and stops, and the two
others can clear it between them. -/
theorem gate_after_stop : ∃ s, Reaches 1 id empty s ∧ s.slot 0 = some 0 ∧ ¬ Live id s 0 ∧
    ∃ s' c, Reaches 1 id s s' ∧ Live id s' c ∧ s'.pc c = .reclaim .rmLease 0 ∧ s'.slot 0 = some 0 := by
  let s₁ : State ℕ ℕ := empty.goto 0 (.acquire .link 0)
  let s₂ : State ℕ ℕ := (s₁.setSlot 0 (some 0)).goto 0 (.acquire .rmTemporary 0)
  let s₃ : State ℕ ℕ := { s₂ with alive := update s₂.alive 0 false }
  have h : Reaches 1 id empty s₃ := by
    refine .head (b := s₁) ⟨.call 0 false, ⟨by simp [empty], by simp [empty]⟩, rfl⟩ <|
      .head (b := s₂) ⟨.call 0 false, current_goto (by simp) (by simp), rfl⟩ <|
      .head (b := s₃) ⟨.stop 0, trivial, rfl⟩ .refl
  refine ⟨s₃, h, rfl, by decide, ?_⟩
  exact (gate_of_current (by decide) initial_empty h).2.2.2 0 0 1 2 rfl (by decide) (by decide) (by decide)
    (by decide) rfl rfl

/-- A schedule of four calls in four processes. Call 1 reads the lease of call 0; call 0 releases it
and its process ends; call 2 takes the slot; call 1 now finds process 0 gone and removes the file,
which is the lease of call 2; call 3 takes the slot as well. -/
def overtaken : List (Event ℕ ℕ) :=
  List.replicate 3 (Event.call 0 false) ++ List.replicate 6 (Event.call 1 false) ++ List.replicate 3 (Event.call 0 false) ++
    [Event.stop 0] ++ List.replicate 2 (Event.call 2 false) ++ List.replicate 2 (Event.call 1 false) ++
    List.replicate 2 (Event.call 3 false)

/-- With one slot, two live calls in different processes hold it. -/
theorem two_hold_one_slot : Initial empty ∧ ∃ s, exec 1 id empty overtaken = some s ∧
    Live id s 2 ∧ Live id s 3 ∧ Holds s 2 0 ∧ Holds s 3 0 :=
  ⟨initial_empty, _, rfl, by decide, by decide, by decide, by decide⟩

end Scriptc.NativeBuildSlot
