import Scriptc.Runtime.CycleRuns

/-!
# The candidate buffers of the cycle collector

Every buffered object knows its position in the buffer of its generation, so that it can leave in
one step: the last entry takes its place. A running total of the entries decides when a pass is
due, and every pass arms the trigger anew: what is left, and a nursery's worth.

`Collector` is the heap with these positions and counters. Seen without them it does what the heap
does (`Slots.cycPass`), so that what is known of the runs of the heap holds of its runs. The
positions are right after every operation by itself, in a pass or outside (`Slots`); the total and
the trigger are right whenever no pass is under way (`buffers_keep`).
-/

namespace Scriptc.Runtime

open List Function

/-- The platform and the setting of the program: `size_t` has one bit more than `bits`, a `long` no
more than that, and `long` is what `SCR_CYCLE_THRESHOLD` reads as, `0` where it is not set. -/
structure Platform where
  bits : ℕ
  long : ℤ
  wide : 8 < bits
  fits : long < 2 ^ bits

namespace Platform

variable (m : Platform)

/-- A `size_t`. -/
def wrap (n : ℕ) : ℕ := n % 2 ^ (m.bits + 1)

/-- `n--`. -/
def pred (n : ℕ) : ℕ := m.wrap (n + (2 ^ (m.bits + 1) - 1))

/-- `scr_cyc_nursery_threshold`. -/
def nurseryThreshold : ℕ := if 0 < m.long then m.long.toNat else 256

theorem nurseryThreshold_pos : 0 < m.nurseryThreshold := by
  unfold nurseryThreshold
  split_ifs <;> omega

theorem nurseryThreshold_lt : m.nurseryThreshold < 2 ^ m.bits := by
  have hwide : 2 ^ 8 < 2 ^ m.bits := Nat.pow_lt_pow_right Nat.one_lt_two m.wide
  have hfits := m.fits
  unfold nurseryThreshold
  split_ifs with h
  · exact (Int.toNat_lt h.le).mpr (by exact_mod_cast hfits)
  · exact hwide

theorem wrap_of_lt {n : ℕ} (h : n < 2 ^ (m.bits + 1)) : m.wrap n = n := Nat.mod_eq_of_lt h

theorem pred_of_pos {n : ℕ} (h0 : 0 < n) (h : n < 2 ^ (m.bits + 1)) : m.pred n = n - 1 := by
  have hsplit : n + (2 ^ (m.bits + 1) - 1) = n - 1 + 2 ^ (m.bits + 1) := by omega
  rw [pred, wrap, hsplit, Nat.add_mod_right, Nat.mod_eq_of_lt (by omega)]

end Platform

/-- The heap, where each object sits in its buffer, and the counters. -/
structure Collector where
  heap : Heap
  /-- `buf_index`. -/
  bufIndex : Id → ℕ
  /-- `scr_cyc_nbuffered`. -/
  nbuffered : ℕ
  /-- `scr_cyc_trigger`. -/
  trigger : ℕ
  /-- `scr_cyc_live`, the objects with a header. -/
  live : ℕ
  /-- `scr_cyc_live_after_full`. -/
  liveAfterFull : ℕ
  /-- `scr_cyc_scheduled_mature_age`. -/
  scheduledMatureAge : ℕ

namespace Collector

/-- Before anything has happened. -/
def empty : Collector := ⟨.empty, fun _ => 0, 0, 0, 0, 0, 0⟩

variable (m : Platform) (c : Collector) (x : Id) (limit : Gen)

/-! ### The code -/

/-- `scr_cyc_buffered`. -/
def buffered : ℕ := (c.heap.roots .nursery).length + (c.heap.roots .mature).length

/-- `scr_cyc_on_dead`: the last entry moves to where the object was. -/
def onDead : Collector :=
  if c.heap.buffered x then
    let g := c.heap.gen x
    let i := c.bufIndex x
    let last := (c.heap.roots g).getLastD x
    let left := ((c.heap.roots g).set i last).dropLast
    { c with
      heap := { c.heap with
        roots := update c.heap.roots g left
        buffered := update c.heap.buffered x false }
      bufIndex := if last = x then c.bufIndex else update c.bufIndex last i
      nbuffered := m.pred c.nbuffered
      trigger := m.pred c.trigger
      scheduledMatureAge := if g = .mature ∧ left = [] then 0 else c.scheduledMatureAge }
  else c

/-- To the end of the buffer of its generation. -/
def buffer : Collector :=
  if c.heap.buffered x then c
  else
    { c with
      heap := c.heap.buffer x
      bufIndex := update c.bufIndex x (c.heap.roots (c.heap.gen x)).length }

/-- `scr_cyc_on_release` as far as the question whether a pass is due. -/
def noteRelease : Collector :=
  if c.heap.headered x then
    { { c with heap := c.heap.paint x .purple }.buffer x with
      nbuffered := if c.heap.buffered x then c.nbuffered else m.wrap (c.nbuffered + 1) }
  else c

/-- `scr_cyc_free`. -/
def free : Collector :=
  { c with
    heap := c.heap.free x
    live := if c.heap.headered x then m.pred c.live else c.live }

/-- One release of a teardown: `scr_collecting` is set, and no pass is due. -/
def releaseStep (m : Platform) : List Id × Collector → Option (List Id × Collector)
  | ([], _) => none
  | (x :: rest, c) =>
    if c.heap.rc x = 1 then some (c.heap.edges x ++ rest, (c.onDead m x).free m x)
    else some (rest, { c with heap := c.heap.dec x }.noteRelease m x)

def releaseAll (pending : List Id) : Collector :=
  (Loop.run (releaseStep m) (pending.length + (c.heap.objs.flatMap c.heap.edges).length) (pending, c)).2

def freeFn : Collector := (c.free m x).releaseAll m (c.heap.untraced x)

def settle : Collector := { c with heap := c.heap.dec x }.releaseAll m [x]

/-- The survivor goes back without being counted. -/
def handBack : Collector :=
  if c.heap.color x = .doomed then c else { c with heap := c.heap.paint x .purple }.buffer x

/-- The pass up to the teardowns. -/
def found : Collector :=
  let cands := c.heap.cands limit
  let h := (c.heap.drain limit).trial limit cands
  let c := { c with heap := ((h.crossing limit).foldl Heap.inc h).graduate }
  if limit = .mature then c else cands.foldl handBack c

/-- The teardowns. -/
def torn (pins : List Id) : Collector :=
  let c := c.heap.white.foldl (freeFn m) c
  pins.foldl (settle m) { c with heap := { c.heap with white := [] } }

/-- The end of a pass: the total is taken from the buffers, and the trigger is armed. -/
def rearm : Collector :=
  let c := if limit = .mature then { c with liveAfterFull := c.live, scheduledMatureAge := 0 } else c
  { c with
    nbuffered := m.wrap c.buffered
    trigger := m.wrap (m.wrap c.buffered + m.nurseryThreshold) }

/-- `scr_cyc_pass`. -/
def cycPass : Collector × ℕ :=
  let c' := c.found limit
  let pins := ((c.heap.drain limit).trial limit (c.heap.cands limit)).crossing limit
  ((c'.torn m pins).rearm m limit, c'.heap.white.length)

/-- `scr_cyc_full_due`. -/
def fullDue : Bool :=
  let base := max c.liveAfterFull 4096
  base + base / 4 < c.live

/-- `scr_cyc_mature_threshold`. -/
def matureThreshold : ℕ := max (c.live / 4) 256

/-- `scr_cyc_collect_due`. -/
def collectDue : Collector :=
  let full := c.fullDue || decide (c.matureThreshold ≤ (c.heap.roots .mature).length)
  (c.cycPass m (if full then .mature else .nursery)).1

/-- `scr_cyc_collect_scheduled`. -/
def collectScheduled : Collector :=
  if c.buffered = 0 then { c with scheduledMatureAge := 0 }
  else if (c.heap.roots .mature).length = 0 then { c with scheduledMatureAge := 0 }.collectDue m
  else
    let c := { c with scheduledMatureAge := m.wrap (c.scheduledMatureAge + 1) }
    if m.nurseryThreshold ≤ c.scheduledMatureAge then (c.cycPass m .mature).1 else c.collectDue m

/-- `scr_collect_cycles`, for at most `n` passes. -/
def collectLoop : ℕ → Collector → Collector
  | 0, c => c
  | n + 1, c =>
    let r := c.cycPass m .mature
    if r.2 ≠ 0 && r.1.heap.anyBuffered then collectLoop n r.1 else r.1

/-- `scr_collect_cycles`: every repeat has freed something. -/
def collectCycles : Collector := c.collectLoop m (c.heap.objs.length + 1)

/-- `scr_cyc_alloc`, or a plain allocation. -/
def alloc (header : Bool) : Collector :=
  { c with
    heap := c.heap.alloc header
    bufIndex := update c.bufIndex c.heap.nextId 0
    live := if header then m.wrap (c.live + 1) else c.live }

/-- A release that leaves the object alive, before the pass that may be due. -/
def dropped : Collector := { c with heap := (c.heap.handed x).dec x }.noteRelease m x

/-- The last release of an object: its children are left to the teardown, which releases them. -/
def died : Collector :=
  let c' := (c.onDead m x).free m x
  { c' with heap := { c'.heap with outside := c.heap.edges x ++ c.heap.outside.erase x } }

/-- A release of a reference that the program holds. -/
def release : Collector :=
  if c.heap.rc x = 1 then c.died m x
  else if c.heap.headered x ∧ (c.dropped m x).trigger ≤ (c.dropped m x).nbuffered then (c.dropped m x).collectDue m
  else c.dropped m x

/-! ### Positions

An object is marked exactly when it stands in a buffer, and then once: in the buffer of its
generation, at its position. -/

def Slots (c : Collector) : Prop :=
  ∀ g i x, (c.heap.roots g)[i]? = some x ↔ c.heap.buffered x = true ∧ c.heap.gen x = g ∧ c.bufIndex x = i

variable {m c x limit} {c' : Collector} {h : Heap}

/-- Only these four matter. -/
theorem Slots.congr (s : Slots c) (hr : c'.heap.roots = c.heap.roots) (hb : c'.heap.buffered = c.heap.buffered)
    (hg : c'.heap.gen = c.heap.gen) (hi : c'.bufIndex = c.bufIndex) : Slots c' := by
  intro g i x
  rw [hr, hb, hg, hi]
  exact s g i x

theorem Slots.mem_iff (s : Slots c) {g : Gen} : x ∈ c.heap.roots g ↔ c.heap.buffered x = true ∧ c.heap.gen x = g := by
  rw [mem_iff_getElem?]
  constructor
  · rintro ⟨i, hi⟩
    have h := (s g i x).mp hi
    exact ⟨h.1, h.2.1⟩
  · rintro ⟨hb, hg⟩
    exact ⟨c.bufIndex x, (s g _ x).mpr ⟨hb, hg, rfl⟩⟩

/-- The position of a buffered object, and of the last one in the same buffer. -/
theorem Slots.at (s : Slots c) (hb : c.heap.buffered x = true) : ∃ v last, c.heap.roots (c.heap.gen x) = v ∧
    v[c.bufIndex x]? = some x ∧ c.bufIndex x < v.length ∧ v.getLastD x = last ∧ v[v.length - 1]? = some last := by
  have hx := (s _ _ x).mpr ⟨hb, rfl, rfl⟩
  obtain ⟨hlt, -⟩ := List.getElem?_eq_some_iff.mp hx
  refine ⟨_, _, rfl, hx, hlt, rfl, ?_⟩
  rw [← List.getLast?_eq_getElem?, getLastD_eq_getLast?]
  obtain ⟨last, hl⟩ := Option.isSome_iff_exists.mp (List.getLast?_isSome.mpr (ne_nil_of_mem (mem_of_getElem? hx)))
  rw [hl]
  rfl

theorem Slots.onDead (s : Slots c) : Slots (c.onDead m x) := by
  unfold Collector.onDead
  split_ifs with hb
  swap
  · exact s
  obtain ⟨v, last, hv, hx, hlt, hlast, hl⟩ := s.at hb
  simp only [hv, hlast]
  have hx' := (s _ _ x).mp (hv ▸ hx)
  have hl' := (s _ _ last).mp (hv ▸ hl)
  intro g i y
  by_cases hg : g = c.heap.gen x
  · subst hg
    have hold := s (c.heap.gen x) i y
    rw [hv] at hold
    simp only [update_self, List.getElem?_dropLast, List.getElem?_set, length_set]
    by_cases hyx : y = x
    · subst hyx
      simp only [update_self, Bool.false_eq_true, false_and, iff_false]
      grind
    · simp only [update_of_ne hyx]
      by_cases hyl : y = last
      · subst hyl
        rw [if_neg hyx, update_self]
        grind
      · grind
  · have hold := s g i y
    have hne : ∀ w : List Id, update c.heap.roots (c.heap.gen x) w g = c.heap.roots g := fun w => by
      rw [update_of_ne hg]
    simp only [hne]
    rw [hold]
    by_cases hyx : y = x
    · grind
    · grind

theorem Slots.onDead_heap (s : Slots c) : (c.onDead m x).heap = c.heap.onDead x := by
  unfold Collector.onDead Heap.onDead
  split_ifs with hb
  · obtain ⟨v, last, hv, hx, hlt, hlast, hl⟩ := s.at hb
    have hmem : x ∈ v := mem_of_getElem? hx
    have hidx : v.idxOf x = c.bufIndex x := by
      have hget : v[v.idxOf x]? = some x := by
        rw [List.getElem?_eq_getElem (idxOf_lt_length_of_mem hmem), getElem_idxOf]
      rw [← hv] at hget ⊢
      exact ((s _ _ x).mp hget).2.2.symm
    simp only [hv, Heap.swapRemove, hidx]
  · rfl

theorem Slots.buffer (s : Slots c) : Slots (c.buffer x) ∧ (c.buffer x).heap = c.heap.buffer x := by
  unfold Collector.buffer Heap.buffer
  split_ifs with hb
  · exact ⟨s, rfl⟩
  refine ⟨fun g i y => ?_, rfl⟩
  have hold := s g i y
  have hself : x ∉ c.heap.roots g := fun hin => hb (s.mem_iff.mp hin).1
  by_cases hg : g = c.heap.gen x
  · subst hg
    simp only [update_self, List.getElem?_append, List.getElem?_singleton]
    grind
  · simp only [update_of_ne hg]
    grind

theorem Slots.noteRelease (s : Slots c) : Slots (c.noteRelease m x) ∧ (c.noteRelease m x).heap = c.heap.onRelease x := by
  unfold Collector.noteRelease Heap.onRelease
  by_cases hh : c.heap.headered x = true
  · rw [if_pos hh, if_pos hh]
    have hp : Slots { c with heap := c.heap.paint x .purple } := s.congr rfl rfl rfl rfl
    exact ⟨hp.buffer.1.congr rfl rfl rfl rfl, hp.buffer.2⟩
  · rw [if_neg hh, if_neg hh]
    exact ⟨s, rfl⟩

theorem Slots.handBack (s : Slots c) : Slots (c.handBack x) ∧ (c.handBack x).heap = c.heap.handBack x := by
  unfold Collector.handBack Heap.handBack
  split_ifs
  · exact ⟨s, rfl⟩
  · exact Slots.buffer (s.congr rfl rfl rfl rfl)

/-! ### The pass -/

theorem Slots.releaseStep {pending : List Id} (s : Slots c) :
    (releaseStep m (pending, c)).map (fun t => (t.1, t.2.heap)) = Heap.releaseStep (pending, c.heap) ∧
      ∀ t, releaseStep m (pending, c) = some t → Slots t.2 := by
  cases pending with
  | nil => exact ⟨rfl, nofun⟩
  | cons x rest =>
    unfold Collector.releaseStep Heap.releaseStep
    simp only
    split_ifs
    · refine ⟨?_, fun t ht => ?_⟩
      · rw [← s.onDead_heap (m := m)]
        rfl
      · cases ht
        exact s.onDead.congr rfl rfl rfl rfl
    · have hdec : Slots { c with heap := c.heap.dec x } := s.congr rfl rfl rfl rfl
      refine ⟨?_, fun t ht => ?_⟩
      · rw [← (hdec.noteRelease (m := m)).2]
        rfl
      · cases ht
        exact hdec.noteRelease.1

theorem Slots.releaseAll (s : Slots c) (pending : List Id) : Slots (c.releaseAll m pending) ∧
    (c.releaseAll m pending).heap = c.heap.releaseAll pending := by
  obtain ⟨hs, he⟩ := Loop.run_map (I := fun t : List Id × Collector => Slots t.2) (fun t => (t.1, t.2.heap))
    (fun t ht => ht.releaseStep (m := m)) (pending.length + (c.heap.objs.flatMap c.heap.edges).length) (s := (pending, c)) s
  exact ⟨hs, congrArg Prod.snd he⟩

theorem Slots.freeFn (s : Slots c) : Slots (c.freeFn m x) ∧ (c.freeFn m x).heap = c.heap.freeFn x :=
  Slots.releaseAll (c := c.free m x) (s.congr rfl rfl rfl rfl) _

theorem Slots.settle (s : Slots c) : Slots (c.settle m x) ∧ (c.settle m x).heap = c.heap.settle x :=
  Slots.releaseAll (c := { c with heap := c.heap.dec x }) (s.congr rfl rfl rfl rfl) _

/-- What every turn of a loop does, the loop does. -/
theorem Slots.foldl {turn : Collector → Id → Collector} {turn' : Heap → Id → Heap}
    (hturn : ∀ {c x}, Slots c → Slots (turn c x) ∧ (turn c x).heap = turn' c.heap x) (l : List Id) (s : Slots c) :
    Slots (l.foldl turn c) ∧ (l.foldl turn c).heap = l.foldl turn' c.heap := by
  induction l generalizing c with
  | nil => exact ⟨s, rfl⟩
  | cons x l ih =>
    obtain ⟨s', he⟩ := hturn (x := x) s
    rw [foldl_cons, foldl_cons, ← he]
    exact ih s'

theorem mem_due_of_buffered (s : Slots c) (hb : c.heap.buffered x = true) (hg : (c.heap.gen x).above limit = false) :
    x ∈ c.heap.due limit := by
  have hin : x ∈ c.heap.roots (c.heap.gen x) := s.mem_iff.mpr ⟨hb, rfl⟩
  unfold Heap.due
  cases hgx : c.heap.gen x <;> rw [hgx] at hg hin
  · exact mem_append_left _ hin
  · cases limit
    · cases hg
    · exact mem_append_right _ hin

theorem above_of_mem_due (s : Slots c) (hx : x ∈ c.heap.due limit) : (c.heap.gen x).above limit = false := by
  unfold Heap.due at hx
  rcases mem_append.mp hx with hx | hx
  · rw [(s.mem_iff.mp hx).2]
    cases limit <;> rfl
  · split_ifs at hx with hl
    · rw [hl]
      cases c.heap.gen x <;> rfl
    · exact absurd hx not_mem_nil

theorem Slots.drain (s : Slots c) (limit : Gen) : Slots { c with heap := c.heap.drain limit } := by
  intro g i x
  show (if g.above limit then c.heap.roots g else [])[i]? = some x ↔
    (if (c.heap.due limit).contains x then false else c.heap.buffered x) = true ∧ c.heap.gen x = g ∧ c.bufIndex x = i
  by_cases hd : x ∈ c.heap.due limit
  · have ha := above_of_mem_due s hd
    rw [if_pos (contains_iff_mem.mpr hd)]
    refine iff_of_false (fun h => ?_) fun h => nomatch h.1
    split_ifs at h with hg
    · rw [((s g i x).mp h).2.1, hg] at ha
      cases ha
    · cases h
  · rw [if_neg fun h => hd (contains_iff_mem.mp h)]
    cases hg : g.above limit with
    | true => exact s g i x
    | false =>
      refine iff_of_false (fun h => nomatch h) fun h => hd (mem_due_of_buffered s h.1 ?_)
      rwa [h.2.1]

theorem Slots.graduate (s : Slots c) (hp : ∀ x ∈ c.heap.promote, c.heap.buffered x = false) :
    Slots { c with heap := c.heap.graduate } := by
  intro g i x
  show (c.heap.roots g)[i]? = some x ↔
    c.heap.buffered x = true ∧ (if c.heap.promote.contains x then .mature else c.heap.gen x) = g ∧ c.bufIndex x = i
  by_cases hx : x ∈ c.heap.promote
  · have hb := hp x hx
    refine iff_of_false (fun h => ?_) fun h => ?_
    · rw [((s g i x).mp h).1] at hb
      cases hb
    · rw [h.1] at hb
      cases hb
  · rw [if_neg fun h => hx (contains_iff_mem.mp h)]
    exact s g i x

/-- The survivors left their buffers when the pass began. -/
theorem Slots.found (s : Slots c) (r : AtRest c.heap) (limit : Gen) :
    Slots (c.found limit) ∧ (c.found limit).heap = c.heap.found limit := by
  have t := r.tried limit
  obtain ⟨hs, -, hpro, -⟩ := incAll_shape (c.heap.pins limit) (c.heap.walked limit)
  have hshape := t.shape.trans hs
  have hd := s.drain limit
  have hwalked : Slots { c with heap := (c.heap.pins limit).foldl Heap.inc (c.heap.walked limit) } :=
    hd.congr hshape.roots hshape.buffered hshape.gen rfl
  have hgrad := hwalked.graduate fun x hx => by
    have hx' : x ∈ (c.heap.walked limit).promote := by
      rw [← hpro]
      exact hx
    have hnursery : c.heap.gen x = .nursery := ((t.promote x).mp hx').2.2
    rw [← Bool.not_eq_true]
    intro hb
    have hb' : (c.heap.drain limit).buffered x = true := by
      rw [← hshape.buffered]
      exact hb
    -- what is buffered after the draining is above the limit
    have hin : x ∈ (c.heap.drain limit).roots .nursery := hd.mem_iff.mpr ⟨hb', hnursery⟩
    cases limit <;> exact absurd hin not_mem_nil
  unfold Collector.found Heap.found
  simp only
  split_ifs
  · exact ⟨hgrad, rfl⟩
  · exact Slots.foldl (fun s => s.handBack) _ hgrad

theorem Slots.torn (s : Slots c) (pins : List Id) : Slots (c.torn m pins) ∧ (c.torn m pins).heap =
    pins.foldl Heap.settle { c.heap.white.foldl Heap.freeFn c.heap with white := [] } := by
  obtain ⟨hs, he⟩ := Slots.foldl (fun s => s.freeFn (m := m)) c.heap.white s
  rw [← he]
  exact Slots.foldl (fun s => s.settle (m := m)) pins (hs.congr rfl rfl rfl rfl)

/-- **A pass keeps the positions right**, and does to the heap what a pass does to a heap. -/
theorem Slots.cycPass (s : Slots c) (r : AtRest c.heap) (limit : Gen) :
    Slots (c.cycPass m limit).1 ∧ (c.cycPass m limit).1.heap = (c.heap.cycPass limit).1 := by
  obtain ⟨hs, he⟩ := s.found r limit
  obtain ⟨ht, he'⟩ := hs.torn (m := m) (c.heap.pins limit)
  rw [he] at he'
  have hend : ∀ c : Collector, (c.rearm m limit).heap = c.heap ∧ (c.rearm m limit).bufIndex = c.bufIndex := by
    intro c
    unfold rearm
    split_ifs <;> exact ⟨rfl, rfl⟩
  obtain ⟨hheap, hindex⟩ := hend ((c.found limit).torn m (c.heap.pins limit))
  refine ⟨ht.congr ?_ ?_ ?_ hindex, hheap.trans he'⟩
  · exact congrArg Heap.roots hheap
  · exact congrArg Heap.buffered hheap
  · exact congrArg Heap.gen hheap

/-! ### Between passes -/

/-- What holds between passes. Every object takes two bytes or more, so that half of the address
space bounds their number. -/
structure Sound (m : Platform) (c : Collector) : Prop where
  rest : AtRest c.heap
  slots : Slots c
  few : c.heap.objs.length ≤ 2 ^ m.bits
  total : c.nbuffered = c.buffered

/-- The trigger is ahead of the total, by a nursery's worth at most. -/
def Armed (m : Platform) (c : Collector) : Prop :=
  c.nbuffered < c.trigger ∧ c.trigger ≤ c.nbuffered + m.nurseryThreshold

/-- Before the first pass. -/
def Unarmed (c : Collector) : Prop := c.nbuffered = 0 ∧ c.trigger = 0

theorem buffered_le (r : AtRest c.heap) : c.buffered ≤ c.heap.objs.length := by
  have b := r.ok.buffers
  have hnodup : (c.heap.roots .nursery ++ c.heap.roots .mature).Nodup := by
    refine nodup_append.mpr ⟨b.nodup _, b.nodup _, fun x hx y hy hxy => ?_⟩
    subst hxy
    have h := (b.mem _ x hx).2
    rw [(b.mem _ x hy).2] at h
    cases h
  have hsub : c.heap.roots .nursery ++ c.heap.roots .mature ⊆ c.heap.objs := by
    intro x hx
    rw [← r.live]
    rcases mem_append.mp hx with hx | hx
    · exact (b.mem _ x hx).1
    · exact (b.mem _ x hx).1
  rw [buffered, ← length_append]
  exact (hnodup.subperm hsub).length_le

theorem Sound.nbuffered_le (s : Sound m c) : c.nbuffered ≤ 2 ^ m.bits := by
  rw [s.total]
  exact (buffered_le s.rest).trans s.few

theorem Sound.wrap_nbuffered (s : Sound m c) {n : ℕ} (hn : n < 2 ^ m.bits) : m.wrap (c.nbuffered + n) = c.nbuffered + n := by
  have h := s.nbuffered_le
  exact m.wrap_of_lt (by rw [pow_succ]; omega)

/-- **Every pass arms the trigger.** -/
theorem Sound.cycPass (s : Sound m c) (limit : Gen) : Sound m (c.cycPass m limit).1 ∧ Armed m (c.cycPass m limit).1 := by
  obtain ⟨hs, he⟩ := s.slots.cycPass (m := m) s.rest limit
  have r : AtRest (c.cycPass m limit).1.heap := by
    rw [he]
    exact (s.rest.pass limit).1
  have hsub : (c.cycPass m limit).1.heap.objs ⊆ c.heap.objs := by
    intro x hx
    rw [← r.live, he] at hx
    rw [← s.rest.live]
    exact (s.rest.pass_stay limit).live x hx
  have hfew := ((r.ok.nodup.subperm hsub).length_le).trans s.few
  have hb := (buffered_le r).trans hfew
  have ht := m.nurseryThreshold_lt
  have hpos := m.nurseryThreshold_pos
  have hrearm : ∀ c : Collector, (c.rearm m limit).nbuffered = m.wrap (c.rearm m limit).buffered ∧
      (c.rearm m limit).trigger = m.wrap (m.wrap (c.rearm m limit).buffered + m.nurseryThreshold) := by
    intro c
    unfold rearm
    split_ifs <;> exact ⟨rfl, rfl⟩
  obtain ⟨hn, htr⟩ := hrearm ((c.found limit).torn m (c.heap.pins limit))
  have hn : (c.cycPass m limit).1.nbuffered = (c.cycPass m limit).1.buffered :=
    hn.trans (m.wrap_of_lt (by rw [pow_succ]; exact hb.trans_lt (by omega)))
  have s' : Sound m (c.cycPass m limit).1 := ⟨r, hs, hfew, hn⟩
  have htrigger : (c.cycPass m limit).1.trigger = (c.cycPass m limit).1.nbuffered + m.nurseryThreshold := by
    rw [← s'.wrap_nbuffered ht]
    refine htr.trans ?_
    rw [m.wrap_of_lt (n := buffered _) (by rw [pow_succ]; exact hb.trans_lt (by omega)), hn]
    rfl
  refine ⟨s', ?_⟩
  unfold Armed
  omega

theorem Sound.aged (s : Sound m c) (n : ℕ) : Sound m { c with scheduledMatureAge := n } :=
  ⟨s.rest, s.slots.congr rfl rfl rfl rfl, s.few, s.total⟩

theorem Sound.collectDue (s : Sound m c) : Sound m (c.collectDue m) ∧ Armed m (c.collectDue m) := s.cycPass _

theorem Sound.collectLoop (s : Sound m c) (n : ℕ) : Sound m (c.collectLoop m n) ∧ (n ≠ 0 → Armed m (c.collectLoop m n)) := by
  induction n generalizing c with
  | zero => exact ⟨s, fun h => absurd rfl h⟩
  | succ n ih =>
    obtain ⟨s', ha⟩ := s.cycPass .mature
    rw [Collector.collectLoop]
    split_ifs with h
    · refine ⟨(ih s').1, fun _ => ?_⟩
      cases n with
      | zero => exact ha
      | succ n => exact (ih s').2 (Nat.succ_ne_zero n)
    · exact ⟨s', fun _ => ha⟩

theorem Sound.collectScheduled (s : Sound m c) : Sound m (c.collectScheduled m) ∧
    (c.buffered ≠ 0 → Armed m (c.collectScheduled m)) := by
  unfold Collector.collectScheduled
  by_cases h0 : c.buffered = 0
  · rw [if_pos h0]
    exact ⟨s.aged 0, fun h => absurd h0 h⟩
  · rw [if_neg h0]
    simp only
    split_ifs
    · exact ⟨(s.aged 0).collectDue.1, fun _ => (s.aged 0).collectDue.2⟩
    · exact ⟨((s.aged _).cycPass .mature).1, fun _ => ((s.aged _).cycPass .mature).2⟩
    · exact ⟨(s.aged _).collectDue.1, fun _ => (s.aged _).collectDue.2⟩

/-! ### Releases -/

/-- A new candidate is counted once, and the trigger stays. -/
theorem Sound.dropped (s : Sound m c) (hx : x ∈ c.heap.outside) (h1 : c.heap.rc x ≠ 1) :
    Sound m (c.dropped m x) ∧ (c.dropped m x).trigger = c.trigger ∧
      (c.dropped m x).nbuffered = c.nbuffered + if c.heap.headered x ∧ ¬ c.heap.buffered x then 1 else 0 := by
  have hlive : x ∈ c.heap.objs := by
    rw [← s.rest.live]
    exact s.rest.ok.out x hx
  have hs : Slots { c with heap := (c.heap.handed x).dec x } := s.slots.congr rfl rfl rfl rfl
  obtain ⟨hslots, he⟩ := hs.noteRelease (m := m) (x := x)
  replace he : (c.dropped m x).heap = c.heap.release x := he.trans (release_more h1).symm
  have r : AtRest (c.dropped m x).heap := by
    rw [he]
    exact s.rest.release hx
  have hobjs : (c.dropped m x).heap.objs = c.heap.objs := by
    rw [he, release_more h1]
    exact (onRelease_graph _ _).1
  have hcount : (c.dropped m x).nbuffered = c.nbuffered + (if c.heap.headered x ∧ ¬ c.heap.buffered x then 1 else 0) ∧
      (c.dropped m x).buffered = c.buffered + (if c.heap.headered x ∧ ¬ c.heap.buffered x then 1 else 0) ∧
      (c.dropped m x).trigger = c.trigger := by
    have hone : m.wrap (c.nbuffered + 1) = c.nbuffered + 1 := s.wrap_nbuffered (Nat.one_lt_two_pow (by have := m.wide; omega))
    by_cases hh : c.heap.headered x = true
    · by_cases hb : c.heap.buffered x = true
      · simp [Collector.dropped, Collector.noteRelease, Collector.buffer, Heap.paint, Heap.dec, Heap.handed, hh, hb, buffered]
      · cases hg : c.heap.gen x <;>
          simp [Collector.dropped, Collector.noteRelease, Collector.buffer, Heap.buffer, Heap.paint, Heap.dec, Heap.handed,
            hh, hb, hg, buffered, hone] <;> omega
    · simp [Collector.dropped, Collector.noteRelease, Heap.dec, Heap.handed, hh, buffered]
  obtain ⟨hn, hb, ht⟩ := hcount
  refine ⟨⟨r, hslots, ?_, ?_⟩, ht, hn⟩
  · rw [hobjs]
    exact s.few
  · rw [hn, hb, s.total]

/-- A death lowers the total and the trigger together. -/
theorem Sound.died (s : Sound m c) (hx : x ∈ c.heap.outside) (h1 : c.heap.rc x = 1) (ha : Armed m c ∨ Unarmed c) :
    Sound m (c.died m x) ∧ (c.died m x).trigger + c.nbuffered = c.trigger + (c.died m x).nbuffered ∧
      (Unarmed c → Unarmed (c.died m x)) := by
  have he : (c.died m x).heap = c.heap.release x := by
    rw [Heap.release, if_pos h1, ← s.slots.onDead_heap (m := m)]
    rfl
  have r : AtRest (c.died m x).heap := by
    rw [he]
    exact s.rest.release hx
  have hobjs : (c.died m x).heap.objs.length ≤ c.heap.objs.length := by
    have hd : (c.died m x).heap.objs = c.heap.objs.erase x := by
      rw [he, release_last h1]
      exact die_objs _ _
    rw [hd]
    exact length_erase_le
  have hslots : Slots (c.died m x) := s.slots.onDead.congr rfl rfl rfl rfl
  have hle := s.nbuffered_le
  have ht := m.nurseryThreshold_lt
  have hcount : c.heap.buffered x = true → 0 < c.buffered ∧ (c.died m x).buffered = c.buffered - 1 := by
    intro hb
    obtain ⟨v, last, hv, -, hlt, hlast, -⟩ := s.slots.at hb
    cases hg : c.heap.gen x <;>
      simp [Collector.died, Collector.onDead, Collector.free, Heap.free, hb, buffered, hg] <;> rw [hg] at hv <;>
      rw [hv] <;> omega
  have hfield : (c.died m x).nbuffered = (c.onDead m x).nbuffered ∧ (c.died m x).trigger = (c.onDead m x).trigger :=
    ⟨rfl, rfl⟩
  by_cases hb : c.heap.buffered x = true
  · obtain ⟨hpos, hn⟩ := hcount hb
    rw [← s.total] at hpos hn
    have harmed := ha.resolve_right fun hu => by
      rw [hu.1] at hpos
      exact lt_irrefl 0 hpos
    unfold Armed at harmed
    have hdead : (c.onDead m x).nbuffered = m.pred c.nbuffered ∧ (c.onDead m x).trigger = m.pred c.trigger := by
      unfold Collector.onDead
      rw [if_pos hb]
      exact ⟨rfl, rfl⟩
    rw [m.pred_of_pos hpos (by rw [pow_succ]; omega), m.pred_of_pos (by omega) (by rw [pow_succ]; omega)] at hdead
    have hnb := hfield.1.trans hdead.1
    have htr := hfield.2.trans hdead.2
    refine ⟨⟨r, hslots, hobjs.trans s.few, hnb.trans hn.symm⟩, by omega, fun hu => ?_⟩
    rw [hu.1] at hpos
    exact absurd hpos (lt_irrefl 0)
  · have hsame : c.onDead m x = c := if_neg hb
    rw [hsame] at hfield
    refine ⟨⟨r, hslots, hobjs.trans s.few, ?_⟩, by rw [hfield.1, hfield.2], fun hu => ⟨hfield.1.trans hu.1, hfield.2.trans hu.2⟩⟩
    rw [hfield.1, s.total]
    unfold Collector.died
    rw [hsame]
    rfl

end Collector

/-! ### Every run -/

/-- What can happen next. -/
inductive Event where
  | alloc (header : Bool)
  | retain (x : Id)
  | release (x : Id)
  | store (x : Id) (traced untraced rest : List Id)
  | scheduled
  | collectCycles

namespace Event

variable (m : Platform) (c : Collector)

def run : Event → Collector
  | .alloc header => c.alloc m header
  | .retain x => { c with heap := c.heap.retain x }
  | .release x => c.release m x
  | .store x t u rest => { c with heap := c.heap.store x t u rest }
  | .scheduled => c.collectScheduled m
  | .collectCycles => c.collectCycles m

/-- What the program may do: it allocates while there is room. -/
def Fits : Event → Prop
  | .alloc _ => c.heap.objs.length < 2 ^ m.bits
  | .retain x => (Act.retain x).Fits c.heap
  | .release x => (Act.release x).Fits c.heap
  | .store x t u rest => (Act.store x t u rest).Fits c.heap
  | .scheduled | .collectCycles => True

instance : (e : Event) → Decidable (Fits m c e)
  | .alloc _ => inferInstanceAs (Decidable (_ < _))
  | .retain x => inferInstanceAs (Decidable ((Act.retain x).Fits c.heap))
  | .release x => inferInstanceAs (Decidable ((Act.release x).Fits c.heap))
  | .store x t u rest => inferInstanceAs (Decidable ((Act.store x t u rest).Fits c.heap))
  | .scheduled | .collectCycles => inferInstanceAs (Decidable True)

/-- The event runs a pass. -/
def collects : Event → Bool
  | .release x => decide (c.heap.rc x ≠ 1) && (c.heap.headered x && decide ((c.dropped m x).trigger ≤ (c.dropped m x).nbuffered))
  | .scheduled => c.buffered ≠ 0
  | .collectCycles => true
  | _ => false

/-- The candidates that an event buffers, passes apart. -/
def candidates : Event → ℕ
  | .release x => if c.heap.rc x ≠ 1 ∧ c.heap.headered x ∧ ¬ c.heap.buffered x then 1 else 0
  | _ => 0

/-! One event after the other. -/

def runAll (events : List Event) : Collector := events.foldl (run m) c

/-- Each fits when its turn comes. -/
def FitAll : Collector → List Event → Prop
  | _, [] => True
  | c, e :: events => e.Fits m c ∧ FitAll (e.run m c) events

instance instDecidableFitAll : (c : Collector) → (events : List Event) → Decidable (FitAll m c events)
  | _, [] => .isTrue trivial
  | c, e :: events =>
    have := instDecidableFitAll (e.run m c) events
    inferInstanceAs (Decidable (_ ∧ _))

/-- No pass is run. -/
def quiet : Collector → List Event → Bool
  | _, [] => true
  | c, e :: events => !e.collects m c && quiet (e.run m c) events

/-- The candidates that the events buffer. -/
def allCandidates : Collector → List Event → ℕ
  | _, [] => 0
  | c, e :: events => e.candidates c + allCandidates (e.run m c) events

end Event

namespace Collector

variable {m : Platform} {c : Collector} {x : Id} {e : Event} {events : List Event}

theorem sound_empty (m : Platform) : Sound m empty := by
  refine ⟨atRest_empty, fun g i x => ?_, Nat.zero_le _, rfl⟩
  refine iff_of_false (fun h => ?_) fun h => nomatch h.1
  cases g <;> cases h

theorem Sound.alloc (s : Sound m c) (header : Bool) (hf : c.heap.objs.length < 2 ^ m.bits) : Sound m (c.alloc m header) := by
  have r := s.rest.alloc header
  refine ⟨r, fun g i x => ?_, hf, s.total⟩
  have hold := s.slots g i x
  have hnew : c.heap.nextId ∉ c.heap.roots g := by
    intro hin
    have hlive := (s.rest.ok.buffers.mem g _ hin).1
    rw [s.rest.live] at hlive
    exact lt_irrefl _ (s.rest.ok.fresh _ hlive)
  show (c.heap.roots g)[i]? = some x ↔ update c.heap.buffered c.heap.nextId false x = true ∧
    update c.heap.gen c.heap.nextId .nursery x = g ∧ update c.bufIndex c.heap.nextId 0 x = i
  by_cases hx : x = c.heap.nextId
  · subst hx
    rw [update_self]
    exact iff_of_false (fun h => hnew (mem_of_getElem? h)) fun h => nomatch h.1
  · rw [update_of_ne hx, update_of_ne hx, update_of_ne hx]
    exact hold

/-- Neither a retain nor a store touches the buffers. -/
theorem Sound.heap {h : Heap} (s : Sound m c) (r : AtRest h) (hobjs : h.objs = c.heap.objs) (hroots : h.roots = c.heap.roots)
    (hb : h.buffered = c.heap.buffered) (hg : h.gen = c.heap.gen) : Sound m { c with heap := h } := by
  refine ⟨r, s.slots.congr hroots hb hg rfl, ?_, ?_⟩
  · show h.objs.length ≤ _
    rw [hobjs]
    exact s.few
  · rw [s.total, buffered, buffered, hroots]

theorem Sound.retain (s : Sound m c) (hx : x ∈ c.heap.objs) : Sound m { c with heap := c.heap.retain x } := by
  refine s.heap (s.rest.retain hx) ?_ ?_ ?_ ?_ <;> unfold Heap.retain Heap.markLive <;> split_ifs <;> rfl

/-- **Every event keeps the books**, and the trigger is armed where it runs a pass. -/
theorem Sound.event (s : Sound m c) (ha : Armed m c ∨ Unarmed c) (hf : e.Fits m c) :
    Sound m (e.run m c) ∧ (e.collects m c = true → Armed m (e.run m c)) := by
  cases e with
  | alloc header => exact ⟨s.alloc header hf, nofun⟩
  | retain x => exact ⟨s.retain hf, nofun⟩
  | release x =>
    show Sound m (c.release m x) ∧ (_ → Armed m (c.release m x))
    unfold Collector.release Event.collects
    by_cases h1 : c.heap.rc x = 1
    · rw [if_pos h1]
      exact ⟨(s.died hf h1 ha).1, fun h => by simp [h1] at h⟩
    · rw [if_neg h1]
      have s' := (s.dropped hf h1).1
      by_cases hd : c.heap.headered x ∧ (c.dropped m x).trigger ≤ (c.dropped m x).nbuffered
      · rw [if_pos hd]
        exact ⟨s'.collectDue.1, fun _ => s'.collectDue.2⟩
      · rw [if_neg hd]
        exact ⟨s', fun h => by simp [h1] at h; exact absurd h hd⟩
  | store x t u rest => exact ⟨s.heap (s.rest.store hf.1 hf.2.1 hf.2.2) rfl rfl rfl rfl, nofun⟩
  | scheduled => exact ⟨s.collectScheduled.1, fun h => s.collectScheduled.2 (of_decide_eq_true h)⟩
  | collectCycles => exact ⟨(s.collectLoop _).1, fun _ => (s.collectLoop _).2 (Nat.succ_ne_zero _)⟩

/-- Without a pass the room before the trigger shrinks by the new candidates. -/
theorem Sound.quiet (s : Sound m c) (ha : Armed m c ∨ Unarmed c) (hf : e.Fits m c) (hq : e.collects m c = false) :
    (Unarmed c → Unarmed (e.run m c)) ∧ (Armed m c → Armed m (e.run m c) ∧
      (e.run m c).trigger + c.nbuffered + e.candidates c = c.trigger + (e.run m c).nbuffered) := by
  cases e with
  | alloc header => exact ⟨id, fun h => ⟨h, rfl⟩⟩
  | retain x => exact ⟨id, fun h => ⟨h, rfl⟩⟩
  | release x =>
    show (_ → Unarmed (c.release m x)) ∧ (_ → Armed m (c.release m x) ∧ (c.release m x).trigger + c.nbuffered +
      (if c.heap.rc x ≠ 1 ∧ c.heap.headered x ∧ ¬ c.heap.buffered x then 1 else 0) = c.trigger + (c.release m x).nbuffered)
    unfold Collector.release
    by_cases h1 : c.heap.rc x = 1
    · obtain ⟨-, hroom, hu⟩ := s.died hf h1 ha
      rw [if_pos h1, if_neg fun h => h.1 h1]
      refine ⟨hu, fun h => ⟨?_, hroom⟩⟩
      unfold Armed at h ⊢
      omega
    · obtain ⟨-, ht, hn⟩ := s.dropped hf h1
      have hd : ¬ (c.heap.headered x ∧ (c.dropped m x).trigger ≤ (c.dropped m x).nbuffered) := by
        simpa [Event.collects, h1] using hq
      rw [if_neg h1, if_neg hd, ht, hn]
      rw [ht, hn, not_and, not_le] at hd
      by_cases hnew : c.heap.headered x = true ∧ ¬ c.heap.buffered x = true
      · have hlt := hd hnew.1
        rw [if_pos hnew] at hn hlt ⊢
        rw [if_pos ⟨h1, hnew⟩]
        refine ⟨fun hu => ?_, fun h => ⟨?_, by omega⟩⟩
        · rw [hu.2] at hlt
          exact absurd hlt (Nat.not_lt_zero _)
        · unfold Armed at h ⊢
          omega
      · rw [if_neg hnew] at hn ⊢
        rw [if_neg fun h => hnew h.2]
        refine ⟨fun hu => ⟨hn.trans hu.1, ht.trans hu.2⟩, fun h => ⟨?_, rfl⟩⟩
        unfold Armed at h ⊢
        omega
  | store x t u rest => exact ⟨id, fun h => ⟨h, rfl⟩⟩
  | scheduled =>
    have h0 : c.buffered = 0 := by simpa [Event.collects] using hq
    have hsame : c.collectScheduled m = { c with scheduledMatureAge := 0 } := if_pos h0
    show (_ → Unarmed (c.collectScheduled m)) ∧ (_ → Armed m (c.collectScheduled m) ∧
      (c.collectScheduled m).trigger + _ + _ = _ + (c.collectScheduled m).nbuffered)
    rw [hsame]
    exact ⟨id, fun h => ⟨h, rfl⟩⟩
  | collectCycles => cases hq

theorem Sound.run (s : Sound m c) (ha : Armed m c ∨ Unarmed c) (hf : Event.FitAll m c events) :
    Sound m (Event.runAll m c events) ∧ (Armed m c → Armed m (Event.runAll m c events)) ∧
      (Unarmed c → if Event.quiet m c events then Unarmed (Event.runAll m c events)
        else Armed m (Event.runAll m c events)) := by
  induction events generalizing c with
  | nil => exact ⟨s, id, id⟩
  | cons e events ih =>
    obtain ⟨hfit, hrest⟩ := hf
    obtain ⟨s', hpass⟩ := s.event ha hfit
    rw [Event.runAll, foldl_cons]
    cases hq : e.collects m c with
    | true =>
      obtain ⟨hs, harmed, -⟩ := ih s' (.inl (hpass hq)) hrest
      refine ⟨hs, fun _ => harmed (hpass hq), fun _ => ?_⟩
      rw [Event.quiet, hq, if_neg (by simp)]
      exact harmed (hpass hq)
    | false =>
      obtain ⟨hunarmed, harmed⟩ := s.quiet ha hfit hq
      obtain ⟨hs, hk, hu⟩ := ih s' (ha.symm.imp hunarmed fun h => (harmed h).1).symm hrest
      refine ⟨hs, fun h => hk (harmed h).1, fun h => ?_⟩
      rw [Event.quiet, hq, Bool.not_false, Bool.true_and]
      exact hu (hunarmed h)

/-- How many candidates come before the next pass. -/
theorem Sound.room (s : Sound m c) (ha : Armed m c) (hf : Event.FitAll m c events) (hq : Event.quiet m c events = true) :
    c.nbuffered + Event.allCandidates m c events < c.trigger := by
  induction events generalizing c with
  | nil => exact ha.1
  | cons e events ih =>
    obtain ⟨hfit, hrest⟩ := hf
    rw [Event.quiet, Bool.and_eq_true, Bool.not_eq_true'] at hq
    obtain ⟨harmed, hroom⟩ := (s.quiet (.inl ha) hfit hq.1).2 ha
    have h := ih (s.event (.inl ha) hfit).1 harmed hrest hq.2
    rw [Event.allCandidates]
    omega

/-- **The buffers between passes.** The total is the number of entries; an object is marked exactly
when it stands in a buffer, which is that of its generation, and there at its position; every entry
is an object. Before the first pass the total and the trigger are zero. From then on the trigger is
ahead of the total by a nursery's worth at most, below the end of `size_t`, and the next pass comes
before a nursery's worth of new candidates. -/
theorem buffers_keep (m : Platform) {events : List Event} (hf : Event.FitAll m empty events) :
    (Event.runAll m empty events).nbuffered = (Event.runAll m empty events).buffered ∧
    (∀ x g i, ((Event.runAll m empty events).heap.roots g)[i]? = some x ↔
      (Event.runAll m empty events).heap.buffered x = true ∧ (Event.runAll m empty events).heap.gen x = g ∧
        (Event.runAll m empty events).bufIndex x = i) ∧
    (∀ g, ∀ x ∈ (Event.runAll m empty events).heap.roots g, x ∈ (Event.runAll m empty events).heap.objs) ∧
    if Event.quiet m empty events then Unarmed (Event.runAll m empty events)
    else Armed m (Event.runAll m empty events) ∧ (Event.runAll m empty events).trigger < 2 ^ (m.bits + 1) ∧
      ∀ more, Event.FitAll m (Event.runAll m empty events) more → Event.quiet m (Event.runAll m empty events) more = true →
        Event.allCandidates m (Event.runAll m empty events) more < m.nurseryThreshold := by
  obtain ⟨s, -, hu⟩ := (sound_empty m).run (.inr ⟨rfl, rfl⟩) hf
  replace hu := hu ⟨rfl, rfl⟩
  generalize Event.runAll m empty events = c at s hu ⊢
  refine ⟨s.total, fun x g i => s.slots g i x, fun g x hx => ?_, ?_⟩
  · rw [← s.rest.live]
    exact (s.rest.ok.buffers.mem g x hx).1
  · split_ifs at hu ⊢
    · exact hu
    · have hle := s.nbuffered_le
      have ht := m.nurseryThreshold_lt
      refine ⟨hu, ?_, fun more hmore hq => ?_⟩
      · unfold Armed at hu
        rw [pow_succ]
        omega
      · have hroom := s.room hu hmore hq
        unfold Armed at hu
        omega

/-- A common platform, with nothing set. -/
def plain : Platform := ⟨63, 0, by decide, by decide⟩

/-- The first release of all runs a pass. -/
def firstRelease : List Event := [.alloc true, .retain 0, .release 0]

theorem buffers_keep_firstRelease : Event.quiet plain empty firstRelease = false ∧
    (Event.runAll plain empty firstRelease).nbuffered = 1 ∧ Armed plain (Event.runAll plain empty firstRelease) := by
  have h := (@buffers_keep plain firstRelease (by decide)).2.2.2
  rw [if_neg (by decide)] at h
  exact ⟨by decide, by decide, h.1⟩

/-- Before anything has happened the total has reached the trigger: both are zero. -/
theorem start_not_armed : ∃ events, Event.FitAll plain empty events ∧
    ¬ (Event.runAll plain empty events).nbuffered < (Event.runAll plain empty events).trigger :=
  ⟨[], trivial, by decide⟩

end Collector

end Scriptc.Runtime
