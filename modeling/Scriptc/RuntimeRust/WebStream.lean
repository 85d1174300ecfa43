import Mathlib.Data.List.Nodup
import Mathlib.Data.Nat.Notation

/-!
# Readable streams

The default streams of `web_stream.rs`. The source runs inside `web_stream_pull` and inside a cancel:
what it does with the stream is the next steps, after what called it. Reads are numbers, and so are
readers.
-/

namespace Scriptc.RuntimeRust.WebStream

open List

variable {T E : Type}

/-- What a read is answered with; a failed one is answered with the error or for its reader. -/
inductive Answer (T : Type) where
  | chunk (value : T)
  | done
  | failed
  deriving DecidableEq

/-- A reader that is not released, with its reads that wait. -/
structure Reader where
  id : ℕ
  pending : List ℕ
  deriving DecidableEq

/-- How the stream is when the source's pull is called. -/
structure PullCall where
  /-- The pulls that are not settled. -/
  unsettled : ℕ
  started : Bool
  closeRequested : Bool
  closed : Bool
  failed : Bool
  deriving DecidableEq

/-- A stream with its controller and its reader. -/
structure WebStreamData (T E : Type) where
  queue : List T
  reader : Option Reader
  /-- Whether the source is there; it goes when the stream is closed or fails. -/
  source : Bool
  hasPull : Bool
  started : Bool
  pulling : Bool
  prefetch : Bool
  pullAgain : Bool
  closeRequested : Bool
  closed : Bool
  error : Option E
  /-- Whether the source's start has not settled. -/
  starting : Bool
  calls : List PullCall
  /-- The pulls that settled. -/
  settled : ℕ
  /-- Whether something was read or enqueued, or start settled, after the last pull was called. -/
  asked : Bool
  cancelled : Bool
  /-- The calls of the source's cancel. -/
  cancels : ℕ
  enqueued : List T
  reads : List ℕ
  answers : List (ℕ × Answer T)
  deriving DecidableEq

/-- `web_stream_new_with_prefetch` -/
def WebStreamData.new (hasPull prefetch : Bool) : WebStreamData T E where
  queue := []
  reader := none
  source := true
  hasPull := hasPull
  started := false
  pulling := false
  prefetch := prefetch
  pullAgain := false
  closeRequested := false
  closed := false
  error := none
  starting := true
  calls := []
  settled := 0
  asked := false
  cancelled := false
  cancels := 0
  enqueued := []
  reads := []
  answers := []

variable (s : WebStreamData T E)

def WebStreamData.pending : List ℕ :=
  match s.reader with
  | some reader => reader.pending
  | none => []

/-- The stream with other reads that wait, if there is a reader for them. -/
def WebStreamData.withPending (pending : List ℕ) : WebStreamData T E :=
  { s with reader := s.reader.map fun reader => { reader with pending := pending } }

/-- A stream whose controller is not closed. -/
def WebStreamData.isOpen : Bool := !s.closeRequested && !s.closed && s.error.isNone

/-- `web_stream_pull` -/
def WebStreamData.pull : WebStreamData T E :=
  if !s.started || !s.isOpen || (s.pending.isEmpty && (!s.prefetch || !s.queue.isEmpty)) then s
  else if !s.source || !s.hasPull then s
  else if s.pulling then { s with pullAgain := true }
  else
    { s with
      pulling := true
      asked := false
      calls := s.calls ++ [⟨s.calls.length - s.settled, s.started, s.closeRequested, s.closed, s.error.isSome⟩] }

/-- `web_stream_finish` -/
def WebStreamData.finish : WebStreamData T E :=
  { s.withPending [] with closed := true, source := false, answers := s.answers ++ s.pending.map (·, .done) }

/-- `web_stream_close`, which throws where it changes nothing. -/
def WebStreamData.close : WebStreamData T E :=
  if !s.isOpen then s
  else if s.queue.isEmpty then { s with closeRequested := true }.finish
  else { s with closeRequested := true }

/-- `web_stream_enqueue`, which throws where it changes nothing. -/
def WebStreamData.enqueue (value : T) : WebStreamData T E :=
  if !s.isOpen then s
  else
    match s.pending with
    | request :: pending =>
      { s.withPending pending with
        enqueued := s.enqueued ++ [value]
        answers := s.answers ++ [(request, Answer.chunk value)]
        asked := true }.pull
    | [] => { s with enqueued := s.enqueued ++ [value], queue := s.queue ++ [value], asked := true }.pull

/-- `web_stream_error` -/
def WebStreamData.fail (error : E) : WebStreamData T E :=
  if s.closed || s.error.isSome then s
  else
    { s.withPending [] with
      queue := [], source := false, error := some error, answers := s.answers ++ s.pending.map (·, .failed) }

/-- `web_stream_start`, with whether start succeeds. -/
def WebStreamData.start (outcome : Option E) : WebStreamData T E :=
  match outcome with
  | none => { s with starting := false, started := true, asked := true }.pull
  | some error => { s with starting := false }.fail error

/-- What `web_stream_pull` does when the pull settles. -/
def WebStreamData.settle (outcome : Option E) : WebStreamData T E :=
  let settled := { s with pulling := false, pullAgain := false, settled := s.settled + 1 }
  match outcome with
  | none => if s.pullAgain then settled.pull else settled
  | some error => settled.fail error

/-- `web_stream_get_reader`, which throws if the stream is locked. -/
def WebStreamData.getReader (id : ℕ) : WebStreamData T E :=
  if s.reader.isSome then s else { s with reader := some ⟨id, []⟩ }

/-- Whether a reader is not released. -/
def WebStreamData.attached (id : ℕ) : Bool := s.reader.any fun reader => reader.id == id

/-- `web_reader_read_with` -/
def WebStreamData.read (id request : ℕ) : WebStreamData T E :=
  let s := { s with reads := s.reads ++ [request] }
  if !s.attached id || s.error.isSome then { s with answers := s.answers ++ [(request, Answer.failed)] }
  else if s.closed then { s with answers := s.answers ++ [(request, Answer.done)] }
  else
    match s.queue with
    | value :: queue =>
      let s := { s with queue := queue, answers := s.answers ++ [(request, Answer.chunk value)], asked := true }
      if s.closeRequested && queue.isEmpty then s.finish else s.pull
    | [] => { s.withPending (s.pending ++ [request]) with asked := true }.pull

/-- `web_stream_cancel_internal` -/
def WebStreamData.cancelInternal : WebStreamData T E :=
  if s.error.isSome || s.closed then s
  else { s with queue := [], cancelled := true, cancels := s.cancels + if s.source then 1 else 0 }.finish

/-- `web_stream_cancel` -/
def WebStreamData.cancel : WebStreamData T E := if s.reader.isSome then s else s.cancelInternal

/-- `web_reader_cancel` -/
def WebStreamData.readerCancel (id : ℕ) : WebStreamData T E := if s.attached id then s.cancelInternal else s

/-- `web_reader_release` -/
def WebStreamData.release (id : ℕ) : WebStreamData T E :=
  if s.attached id then { s with reader := none, answers := s.answers ++ s.pending.map (·, .failed) } else s

/-! ### Runs -/

inductive Step : WebStreamData T E → WebStreamData T E → Prop where
  | start {s : WebStreamData T E} (outcome : Option E) (hs : s.starting = true) : Step s (s.start outcome)
  | enqueue {s : WebStreamData T E} (value : T) : Step s (s.enqueue value)
  | close {s : WebStreamData T E} : Step s s.close
  | fail {s : WebStreamData T E} (error : E) : Step s (s.fail error)
  | settle {s : WebStreamData T E} (outcome : Option E) (hs : s.settled < s.calls.length) : Step s (s.settle outcome)
  | getReader {s : WebStreamData T E} (id : ℕ) : Step s (s.getReader id)
  | read {s : WebStreamData T E} (id request : ℕ) (hr : request ∉ s.reads) : Step s (s.read id request)
  | cancel {s : WebStreamData T E} : Step s s.cancel
  | readerCancel {s : WebStreamData T E} (id : ℕ) : Step s (s.readerCancel id)
  | release {s : WebStreamData T E} (id : ℕ) : Step s (s.release id)

inductive Run (s : WebStreamData T E) : WebStreamData T E → Prop where
  | nil : Run s s
  | snoc {s' s'' : WebStreamData T E} (h : Run s s') (hs : Step s' s'') : Run s s''

/-!
## Readable streams: every chunk to one read

After every step the reads that wait, the chunks and the pulls fit together. What calls `web_stream_pull`
leaves no read waiting without a pull.
-/

variable {T E : Type}

/-- The chunk that a read was answered with. -/
def chunkOf (answer : ℕ × Answer T) : Option (ℕ × T) :=
  match answer.2 with
  | .chunk value => some (answer.1, value)
  | _ => none

/-- The chunks that reads were answered with. -/
def WebStreamData.chunks (s : WebStreamData T E) : List (ℕ × T) := s.answers.filterMap chunkOf

/-- Whether a stream waits for its source. -/
def WebStreamData.wants (s : WebStreamData T E) : Bool :=
  s.started && s.isOpen && s.hasPull && (!s.pending.isEmpty || (s.prefetch && s.queue.isEmpty))

/-- How the reads, the chunks and the pulls of a stream fit together. -/
structure WebStreamData.Books (s : WebStreamData T E) : Prop where
  starting : s.started = true → s.starting = false
  pulls : s.calls.length = s.settled + if s.pulling then 1 else 0
  called : ∀ call ∈ s.calls, call = ⟨0, true, false, false, false⟩
  distinct : s.reads.Nodup
  places : (s.pending ++ s.answers.map Prod.fst).Perm s.reads
  order : (s.chunks.map Prod.fst ++ s.pending).Sublist s.reads
  chunks : s.chunks.map Prod.snd ++ s.queue <+: s.enqueued
  all : s.error = none → s.cancelled = false → s.chunks.map Prod.snd ++ s.queue = s.enqueued

/-- How the flags of a stream fit together. -/
structure WebStreamData.Flags (s : WebStreamData T E) : Prop where
  waits : s.pending ≠ [] → s.queue = [] ∧ s.closed = false ∧ s.error = none
  ended : s.closed = true → s.queue = [] ∧ s.error = none
  failed : s.error.isSome = true → s.queue = []
  source : s.source = (!s.closed && s.error.isNone)
  closing : s.closeRequested = true → s.queue = [] → s.error = none → s.closed = true
  cancels : s.cancels = if s.cancelled then 1 else 0
  cancelled : s.cancelled = true → s.closed = true
  done : ∀ request, (request, .done) ∈ s.answers → s.closed = true

/-- What holds of a stream at every point, whatever is done next. -/
structure WebStreamData.Kept (s : WebStreamData T E) : Prop extends s.Books, s.Flags

/-- What holds after every step. -/
structure WebStreamData.Sound (s : WebStreamData T E) : Prop extends s.Kept where
  /-- What was asked for after the last pull was called is asked for again. -/
  asks : s.wants = true → s.asked = true → s.pulling = true ∧ s.pullAgain = true

variable {s s' : WebStreamData T E}

theorem new_sound (hasPull prefetch : Bool) : (WebStreamData.new hasPull prefetch : WebStreamData T E).Sound where
  waits h := absurd rfl h
  ended h := by cases h
  failed h := by cases h
  source := rfl
  closing h := by cases h
  starting h := by cases h
  pulls := rfl
  called _ h := by cases h
  cancels := rfl
  cancelled h := by cases h
  distinct := nodup_nil
  places := .rfl
  order := .slnil
  chunks := prefix_rfl
  all _ _ := rfl
  done _ h := by cases h
  asks h := by cases h

/-! ### Pulls -/

theorem wants_open (h : s.wants = true) : s.closeRequested = false ∧ s.closed = false ∧ s.error = none := by
  simp only [WebStreamData.wants, WebStreamData.isOpen, Bool.and_eq_true, Bool.not_eq_true', Option.isNone_iff_eq_none] at h
  exact ⟨h.1.1.2.1.1, h.1.1.2.1.2, h.1.1.2.2⟩

theorem pull_eq (h : s.Kept) :
    s.pull = if s.wants then
      if s.pulling then { s with pullAgain := true }
      else { s with pulling := true, asked := false, calls := s.calls ++ [⟨0, true, false, false, false⟩] }
    else s := by
  unfold WebStreamData.pull
  have hsource := h.source
  split
  · next hidle =>
    rw [if_neg]
    rw [WebStreamData.wants]
    intro hwants
    simp only [Bool.or_eq_true, Bool.and_eq_true, Bool.not_eq_true'] at hidle hwants
    grind
  · next hidle =>
    simp only [Bool.not_eq_true, Bool.or_eq_false_iff, Bool.not_eq_false'] at hidle
    obtain ⟨⟨hstarted, hopen⟩, hneeds⟩ := hidle
    have hflags := hopen
    simp only [WebStreamData.isOpen, Bool.and_eq_true, Bool.not_eq_true'] at hflags
    obtain ⟨⟨hrequested, hclosed⟩, herror⟩ := hflags
    rw [hclosed, herror] at hsource
    have hwants : s.wants = s.hasPull := by
      rw [WebStreamData.wants, hstarted, hopen]
      grind
    rw [hsource, hwants]
    cases hpull : s.hasPull with
    | false => rfl
    | true =>
      cases hpulling : s.pulling with
      | true => rfl
      | false =>
        have hunsettled : s.calls.length - s.settled = 0 := by
          have hpulls := h.pulls
          rw [hpulling] at hpulls
          simp [hpulls]
        have hfailed : s.error.isSome = false := by simpa using herror
        rw [hunsettled, hstarted, hrequested, hclosed, hfailed]
        rfl

theorem WebStreamData.Kept.pull (h : s.Kept) : s.pull.Sound := by
  rw [pull_eq h]
  split
  · next hwants =>
    split
    · next hpulling => exact { h with asks := fun _ _ => ⟨hpulling, rfl⟩ }
    · next hpulling =>
      exact { h with
        pulls := by
          have hpulls := h.pulls
          simp only [hpulling] at hpulls
          simp [hpulls]
        called := fun call hc => by
          rcases mem_append.mp hc with hc | hc
          · exact h.called call hc
          · exact mem_singleton.mp hc
        asks := fun _ ha => by cases ha }
  · next hwants => exact { h with asks := fun hw => absurd hw hwants }

/-! ### Reads that wait -/

@[simp]
theorem pending_withPending_nil (s : WebStreamData T E) : (s.withPending []).pending = [] := by
  unfold WebStreamData.withPending WebStreamData.pending
  cases s.reader <;> rfl

theorem pending_withPending {pending : List ℕ} (h : s.reader.isSome = true) : (s.withPending pending).pending = pending := by
  obtain ⟨reader, hreader⟩ := Option.isSome_iff_exists.mp h
  simp [WebStreamData.withPending, WebStreamData.pending, hreader]

theorem reader_of_pending (h : s.pending ≠ []) : s.reader.isSome = true := by
  unfold WebStreamData.pending at h
  cases hreader : s.reader with
  | none => simp [hreader] at h
  | some reader => rfl

/-- Answers without a chunk. -/
theorem filterMap_chunkOf {answer : Answer T} (h : ∀ request, chunkOf (request, answer) = none) (requests : List ℕ) :
    (requests.map (·, answer)).filterMap chunkOf = [] := by
  rw [filterMap_map, filterMap_eq_nil_iff]
  exact fun request _ => h request

/-- Reads that wait are answered without a chunk. -/
theorem WebStreamData.Books.drop (h : s.Books) (answer : Answer T) (ha : ∀ request, chunkOf (request, answer) = none)
    (hs : s'.pending = []) (hanswers : s'.answers = s.answers ++ s.pending.map (·, answer)) (hreads : s'.reads = s.reads)
    (hqueue : s'.queue = s.queue ∨ s'.queue = [] ∧ (s'.error.isSome = true ∨ s'.cancelled = true))
    (henqueued : s'.enqueued = s.enqueued) (herror : s'.error = none → s.error = none)
    (hcancelled : s'.cancelled = false → s.cancelled = false)
    (hpulls : s'.started = s.started ∧ s'.starting = s.starting ∧ s'.calls = s.calls ∧ s'.settled = s.settled ∧
      s'.pulling = s.pulling) : s'.Books := by
  obtain ⟨hstarted, hstarting, hcalls, hsettled, hpulling⟩ := hpulls
  have hchunks : s'.chunks = s.chunks := by
    rw [WebStreamData.chunks, hanswers, filterMap_append, filterMap_chunkOf ha, append_nil]
    rfl
  have hprefix : s'.chunks.map Prod.snd ++ s'.queue <+: s.chunks.map Prod.snd ++ s.queue := by
    rw [hchunks]
    rcases hqueue with hqueue | ⟨hqueue, -⟩
    · exact hqueue ▸ prefix_rfl
    · rw [hqueue, append_nil]
      exact prefix_append ..
  refine ⟨?_, ?_, hcalls ▸ h.called, hreads ▸ h.distinct, ?_, ?_, henqueued ▸ hprefix.trans h.chunks, fun he hc => ?_⟩
  · rw [hstarted, hstarting]
    exact h.starting
  · rw [hcalls, hsettled, hpulling]
    exact h.pulls
  · rw [hs, hanswers, hreads, map_append, map_map]
    have hmap : (s.pending.map (Prod.fst ∘ (·, answer))) = s.pending := by simp [Function.comp_def]
    rw [hmap, nil_append]
    exact perm_append_comm.trans h.places
  · rw [hs, hchunks, hreads]
    exact (sublist_append_left ..).trans (by simpa using h.order)
  · rw [hchunks, henqueued, ← h.all (herror he) (hcancelled hc)]
    rcases hqueue with hqueue | ⟨-, hfailed | hdropped⟩
    · rw [hqueue]
    · rw [he] at hfailed
      cases hfailed
    · cases hc.symm.trans hdropped

/-! ### Steps -/

theorem WebStreamData.Kept.fail (h : s.Kept) (error : E) : (s.fail error).Sound := by
  unfold WebStreamData.fail
  split
  · next hgone =>
    refine { h with asks := fun hw => ?_ }
    obtain ⟨-, hclosed, herror⟩ := wants_open hw
    simp [hclosed, herror] at hgone
  · next hgone =>
    simp only [Bool.or_eq_true, not_or, Bool.not_eq_true] at hgone
    obtain ⟨hclosed, herror⟩ := hgone
    have hnone : s.error = none := by simpa using herror
    exact {
      toBooks := h.toBooks.drop .failed (fun _ => rfl) (pending_withPending_nil s) rfl rfl
        (.inr ⟨rfl, .inl rfl⟩) rfl (fun _ => hnone) id ⟨rfl, rfl, rfl, rfl, rfl⟩
      waits := fun hp => absurd (pending_withPending_nil s) hp
      ended := fun hc => by cases hc.symm.trans hclosed
      failed := fun _ => rfl
      source := by
        change false = (!s.closed && (some error).isNone)
        simp
      closing := fun _ _ he => by cases he
      cancels := h.cancels
      cancelled := h.cancelled
      done := fun request hm => by
        rcases mem_append.mp hm with hm | hm
        · exact h.done request hm
        · obtain ⟨_, -, heq⟩ := mem_map.mp hm
          cases heq
      asks := fun hw => by cases (wants_open hw).2.2 }

/-- A stream is closed once nothing is left in it. -/
theorem WebStreamData.Books.finish (h : s.Books) (hqueue : s.queue = []) (herror : s.error = none)
    (hcancels : s.cancels = if s.cancelled then 1 else 0) : s.finish.Sound where
  toBooks := h.drop .done (fun _ => rfl) (pending_withPending_nil s) rfl rfl (.inl rfl) rfl id id
    ⟨rfl, rfl, rfl, rfl, rfl⟩
  waits hp := absurd (pending_withPending_nil s) hp
  ended _ := ⟨hqueue, herror⟩
  failed _ := hqueue
  source := rfl
  closing _ _ _ := rfl
  cancels := hcancels
  cancelled _ := rfl
  done _ _ := rfl
  asks hw := by cases (wants_open hw).2.1

theorem isOpen_iff : s.isOpen = true ↔ s.closeRequested = false ∧ s.closed = false ∧ s.error = none := by
  simp only [WebStreamData.isOpen, Bool.and_eq_true, Bool.not_eq_true', Option.isNone_iff_eq_none, and_assoc]

theorem WebStreamData.Sound.close (h : s.Sound) : s.close.Sound := by
  unfold WebStreamData.close
  split
  · exact h
  · next hopen =>
    obtain ⟨hrequested, hclosed, herror⟩ := isOpen_iff.mp (by simpa using hopen)
    split
    · next hempty =>
      have hbooks : WebStreamData.Books { s with closeRequested := true } := { h.toBooks with }
      exact hbooks.finish (by simpa using hempty) herror h.cancels
    · next hempty =>
      exact { h with
        closing := fun _ hq _ => absurd (by rw [show s.queue = [] from hq]; rfl) hempty
        asks := fun hw => by cases (wants_open hw).1 }

theorem WebStreamData.Sound.cancelInternal (h : s.Sound) : s.cancelInternal.Sound := by
  unfold WebStreamData.cancelInternal
  split
  · exact h
  · next hgone =>
    simp only [Bool.or_eq_true, not_or, Bool.not_eq_true] at hgone
    obtain ⟨herror, hclosed⟩ := hgone
    have hnone : s.error = none := by simpa using herror
    have hcancelled : s.cancelled = false := by
      cases hc : s.cancelled with
      | true => cases (h.cancelled hc).symm.trans hclosed
      | false => rfl
    have hbooks : WebStreamData.Books { s with
        queue := [], cancelled := true, cancels := s.cancels + if s.source then 1 else 0 } := by
      refine { h.toBooks with chunks := ?_, all := fun _ hc => by cases hc }
      change s.chunks.map Prod.snd ++ [] <+: s.enqueued
      rw [append_nil]
      exact (prefix_append ..).trans h.chunks
    refine hbooks.finish rfl hnone ?_
    · change s.cancels + (if s.source then 1 else 0) = 1
      rw [h.cancels, hcancelled, h.source, hclosed, hnone]
      rfl

theorem WebStreamData.Sound.getReader (h : s.Sound) (id : ℕ) : (s.getReader id).Sound := by
  unfold WebStreamData.getReader
  split
  · exact h
  · next hreader =>
    have hnone : s.pending = [] := by
      unfold WebStreamData.pending
      cases hr : s.reader with
      | none => rfl
      | some reader => simp [hr] at hreader
    have hplaces := h.places
    have horder := h.order
    have hasks := h.asks
    rw [WebStreamData.wants, hnone] at hasks
    rw [hnone] at hplaces horder
    exact { h with
      waits := fun hp => absurd rfl hp
      places := hplaces
      order := horder
      asks := hasks }

theorem WebStreamData.Sound.release (h : s.Sound) (id : ℕ) : (s.release id).Sound := by
  unfold WebStreamData.release
  split
  · refine {
      toBooks := h.toBooks.drop .failed (fun _ => rfl) rfl rfl rfl (.inl rfl) rfl (fun he => he) (fun hc => hc)
        ⟨rfl, rfl, rfl, rfl, rfl⟩
      waits := fun hp => absurd rfl hp
      ended := h.ended
      failed := h.failed
      source := h.source
      closing := h.closing
      cancels := h.cancels
      cancelled := h.cancelled
      done := fun request hm => ?_
      asks := fun hw ha => h.asks ?_ ha }
    · rcases mem_append.mp hm with hm | hm
      · exact h.done request hm
      · obtain ⟨_, -, heq⟩ := mem_map.mp hm
        cases heq
    · have hwants : (s.started && s.isOpen && s.hasPull &&
          (!([] : List ℕ).isEmpty || (s.prefetch && s.queue.isEmpty))) = true := hw
      rw [WebStreamData.wants]
      simp only [isEmpty_nil, Bool.not_true, Bool.false_or] at hwants
      simp only [Bool.and_eq_true, Bool.or_eq_true] at hwants ⊢
      exact ⟨hwants.1, .inr hwants.2⟩
  · exact h

theorem WebStreamData.Sound.start (h : s.Sound) (outcome : Option E) : (s.start outcome).Sound := by
  cases outcome with
  | none =>
    have hkept : WebStreamData.Kept { s with starting := false, started := true, asked := true } :=
      { h.toKept with starting := fun _ => rfl }
    exact hkept.pull
  | some error =>
    have hkept : WebStreamData.Kept { s with starting := false } := { h.toKept with starting := fun _ => rfl }
    exact hkept.fail error

theorem WebStreamData.Sound.settle (h : s.Sound) (hs : s.settled < s.calls.length) (outcome : Option E) :
    (s.settle outcome).Sound := by
  have hkept : WebStreamData.Kept { s with pulling := false, pullAgain := false, settled := s.settled + 1 } := by
    refine { h.toKept with pulls := ?_ }
    have hpulls := h.pulls
    change s.calls.length = s.settled + 1 + 0
    cases hp : s.pulling with
    | true => simpa [hp] using hpulls
    | false =>
      rw [hp] at hpulls
      exact absurd hpulls.symm (Nat.ne_of_lt hs)
  cases outcome with
  | none =>
    unfold WebStreamData.settle
    cases hagain : s.pullAgain with
    | true => exact hkept.pull
    | false =>
      refine { hkept with asks := fun hw ha => ?_ }
      cases hagain.symm.trans (h.asks hw ha).2
  | some error => exact hkept.fail error

theorem chunks_snoc (request : ℕ) (value : T) (answers : List (ℕ × Answer T)) :
    (answers ++ [(request, Answer.chunk value)]).filterMap chunkOf = answers.filterMap chunkOf ++ [(request, value)] := by
  rw [filterMap_append]
  rfl

theorem WebStreamData.Sound.enqueue (h : s.Sound) (value : T) : (s.enqueue value).Sound := by
  unfold WebStreamData.enqueue
  split
  · exact h
  · next hopen =>
    obtain ⟨hrequested, hclosed, herror⟩ := isOpen_iff.mp (by simpa using hopen)
    have hcancelled : s.cancelled = false := by
      cases hc : s.cancelled with
      | true => cases (h.cancelled hc).symm.trans hclosed
      | false => rfl
    have hall := h.all herror hcancelled
    split
    · next request pending hp =>
      have hne : s.pending ≠ [] := by
        rw [hp]
        exact cons_ne_nil _ _
      have hqueue := (h.waits hne).1
      have hpending : (s.withPending pending).pending = pending := pending_withPending (reader_of_pending hne)
      rw [hqueue, append_nil] at hall
      have hchunks : (WebStreamData.chunks { s.withPending pending with
          enqueued := s.enqueued ++ [value], answers := s.answers ++ [(request, .chunk value)], asked := true }) =
          s.chunks ++ [(request, value)] := chunks_snoc ..
      have hsame : (s.chunks ++ [(request, value)]).map Prod.snd ++ s.queue = s.enqueued ++ [value] := by
        rw [map_append, hall, hqueue, append_nil]
        rfl
      refine WebStreamData.Kept.pull ⟨⟨h.starting, h.pulls, h.called, h.distinct, ?_, ?_, ?_, fun _ _ => ?_⟩,
        ⟨fun _ => h.waits hne, h.ended, h.failed, h.source, h.closing, h.cancels, h.cancelled, fun r hm => ?_⟩⟩
      · change ((s.withPending pending).pending ++ _).Perm s.reads
        rw [hpending, map_append, ← append_assoc]
        exact (perm_append_singleton ..).trans (by simpa [hp] using h.places)
      · change (_ ++ (s.withPending pending).pending).Sublist s.reads
        rw [hpending, hchunks, map_append, append_assoc]
        simpa [hp] using h.order
      · rw [hchunks]
        exact hsame ▸ prefix_rfl
      · rw [hchunks]
        exact hsame
      · rcases mem_append.mp hm with hm | hm
        · exact h.done r hm
        · cases mem_singleton.mp hm
    · next hp =>
      have hsame : s.chunks.map Prod.snd ++ (s.queue ++ [value]) = s.enqueued ++ [value] := by
        rw [← append_assoc, hall]
      refine WebStreamData.Kept.pull ⟨⟨h.starting, h.pulls, h.called, h.distinct, h.places, h.order, hsame ▸ prefix_rfl,
        fun _ _ => hsame⟩, ⟨fun hw => absurd hp hw, fun hc => ?_, fun he => ?_, h.source, fun hc => ?_, h.cancels,
        h.cancelled, h.done⟩⟩
      · cases hc.symm.trans hclosed
      · rw [herror] at he
        cases he
      · cases hc.symm.trans hrequested

theorem WebStreamData.Sound.read (h : s.Sound) (id : ℕ) {request : ℕ} (hr : request ∉ s.reads) :
    (s.read id request).Sound := by
  have hdistinct : (s.reads ++ [request]).Nodup :=
    h.distinct.append (nodup_singleton request) (by simpa using hr)
  have hplaces (answer : Answer T) :
      (s.pending ++ (s.answers ++ [(request, answer)]).map Prod.fst).Perm (s.reads ++ [request]) := by
    rw [map_append, ← append_assoc]
    exact h.places.append_right [request]
  have hanswer {answer : Answer T} (ha : chunkOf (request, answer) = none) (hd : answer = .done → s.closed = true) :
      WebStreamData.Sound { s with reads := s.reads ++ [request], answers := s.answers ++ [(request, answer)] } := by
    have hchunks : WebStreamData.chunks { s with
        reads := s.reads ++ [request], answers := s.answers ++ [(request, answer)] } = s.chunks := by
      change (s.answers ++ [(request, answer)]).filterMap chunkOf = _
      rw [filterMap_append, filterMap_cons_none ha]
      exact append_nil _
    refine { h with
      distinct := hdistinct, places := hplaces answer, order := ?_, chunks := ?_, all := fun he hc => ?_
      done := fun r hm => ?_ }
    · rw [hchunks]
      exact h.order.trans (sublist_append_left ..)
    · rw [hchunks]
      exact h.chunks
    · rw [hchunks]
      exact h.all he hc
    · rcases mem_append.mp hm with hm | hm
      · exact h.done r hm
      · cases mem_singleton.mp hm
        exact hd rfl
  unfold WebStreamData.read
  dsimp only
  split
  · exact hanswer rfl fun hn => by cases hn
  · next hattached =>
    simp only [Bool.or_eq_true, Bool.not_eq_true', not_or, Bool.not_eq_false, Bool.not_eq_true] at hattached
    have herror : s.error = none := by simpa using hattached.2
    split
    · next hclosed => exact hanswer rfl fun _ => hclosed
    · next hclosed =>
      have hopen : s.closed = false := by simpa using hclosed
      split
      · next value queue hq =>
        have hnone : s.pending = [] := by
          by_contra hne
          cases hq.symm.trans (h.waits hne).1
        have hchunks : WebStreamData.chunks { s with
            reads := s.reads ++ [request], queue := queue, answers := s.answers ++ [(request, .chunk value)]
            asked := true } = s.chunks ++ [(request, value)] := chunks_snoc ..
        have hsame : (s.chunks ++ [(request, value)]).map Prod.snd ++ queue = s.chunks.map Prod.snd ++ s.queue := by
          rw [show s.queue = _ from hq, map_append, append_assoc]
          rfl
        have horder := h.order
        rw [hnone, append_nil] at horder
        have hbooks : WebStreamData.Books { s with
            reads := s.reads ++ [request], queue := queue, answers := s.answers ++ [(request, .chunk value)]
            asked := true } := by
          refine ⟨h.starting, h.pulls, h.called, hdistinct, hplaces _, ?_, ?_, fun he hc => ?_⟩
          · rw [hchunks]
            change ((s.chunks ++ [(request, value)]).map Prod.fst ++ s.pending).Sublist _
            rw [hnone, append_nil, map_append]
            exact horder.append (List.Sublist.refl _)
          · rw [hchunks]
            exact hsame ▸ h.chunks
          · rw [hchunks]
            exact hsame.trans (h.all he hc)
        split
        · next hlast =>
          obtain ⟨-, hempty⟩ := Bool.and_eq_true_iff.mp hlast
          exact hbooks.finish (by simpa using hempty) herror h.cancels
        · next hlast =>
          refine WebStreamData.Kept.pull ⟨hbooks, ⟨fun hw => absurd hnone hw, fun hc => ?_, fun he => ?_, h.source,
            fun hc he _ => ?_, h.cancels, h.cancelled, fun r hm => ?_⟩⟩
          · cases hc.symm.trans hopen
          · rw [herror] at he
            cases he
          · exact absurd (Bool.and_eq_true_iff.mpr ⟨hc, by rw [show queue = [] from he]; rfl⟩) hlast
          · rcases mem_append.mp hm with hm | hm
            · exact h.done r hm
            · cases mem_singleton.mp hm
      · next hq =>
        have hqueue : s.queue = [] := hq
        have hreader : s.reader.isSome = true := by
          cases hr : s.reader with
          | none => simp [WebStreamData.attached, hr] at hattached
          | some reader => rfl
        have hpending : (s.withPending (s.pending ++ [request])).pending = s.pending ++ [request] :=
          pending_withPending hreader
        refine WebStreamData.Kept.pull ⟨⟨h.starting, h.pulls, h.called, hdistinct, ?_, ?_, h.chunks, h.all⟩,
          ⟨fun _ => ⟨hqueue, hopen, herror⟩, h.ended, h.failed, h.source, h.closing, h.cancels, h.cancelled, h.done⟩⟩
        · change ((s.withPending (s.pending ++ [request])).pending ++ _).Perm (s.reads ++ [request])
          rw [hpending, append_assoc]
          refine List.Perm.trans ?_ (h.places.append_right [request])
          rw [append_assoc]
          exact .append_left _ perm_append_comm
        · change (s.chunks.map Prod.fst ++ (s.withPending (s.pending ++ [request])).pending).Sublist (s.reads ++ [request])
          rw [hpending, ← append_assoc]
          exact h.order.append (List.Sublist.refl _)

theorem Step.sound (h : s.Sound) (hs : Step s s') : s'.Sound := by
  cases hs with
  | start outcome hs => exact h.start outcome
  | enqueue value => exact h.enqueue value
  | close => exact h.close
  | fail error => exact h.toKept.fail error
  | settle outcome hs => exact h.settle hs outcome
  | getReader id => exact h.getReader id
  | read id request hr => exact h.read id hr
  | cancel =>
    unfold WebStreamData.cancel
    split
    · exact h
    · exact h.cancelInternal
  | readerCancel id =>
    unfold WebStreamData.readerCancel
    split
    · exact h.cancelInternal
    · exact h
  | release id => exact h.release id

theorem Run.sound {hasPull prefetch : Bool} (h : Run (.new hasPull prefetch) s) : s.Sound := by
  induction h with
  | nil => exact new_sound hasPull prefetch
  | snoc _ hs ih => exact hs.sound ih

/-! ### What a stream keeps -/

theorem stream_keeps {hasPull prefetch : Bool} (h : Run (.new hasPull prefetch) s) :
    s.Sound ∧ s.cancels ≤ 1 ∧ s.calls.length ≤ s.settled + 1 ∧
      (s.wants = true → s.pulling = true ∨ s.asked = false) ∧
      ∀ id request, s.attached id = true →
        s.closed = true ∨ s.closeRequested = true ∧ s.queue = [] ∧ s.error = none →
        (s.read id request).answers = s.answers ++ [(request, .done)] := by
  have hsound := h.sound
  refine ⟨hsound, ?_, ?_, fun hw => ?_, fun id request hattached hclosed => ?_⟩
  · rw [hsound.cancels]
    split <;> omega
  · rw [hsound.pulls]
    split <;> omega
  · cases ha : s.asked with
    | true => exact .inl (hsound.asks hw ha).1
    | false => exact .inr rfl
  · have hclosed : s.closed = true := by
      rcases hclosed with hclosed | ⟨hrequested, hqueue, herror⟩
      · exact hclosed
      · exact hsound.closing hrequested hqueue herror
    have herror := (hsound.ended hclosed).2
    have hattached' : WebStreamData.attached { s with reads := s.reads ++ [request] } id = true := hattached
    unfold WebStreamData.read
    dsimp only
    rw [hattached', herror]
    simp [hclosed]

/-- A chunk for a read that waits. -/
theorem stream_keeps_chunk :
    (((((WebStreamData.new true true : WebStreamData ℕ ℕ).start none).getReader 0).read 0 5).enqueue 7).Sound :=
  (stream_keeps (.snoc (.snoc (.snoc (.snoc .nil (.start none rfl)) (.getReader 0)) (.read 0 5 (by decide)))
    (.enqueue 7))).1

/-- A pull that settles without a chunk is not called again, though a read waits for it. -/
theorem stream_idles :
    ¬ ∀ (s : WebStreamData ℕ ℕ), Run (.new true true) s → s.started = true → s.pending ≠ [] → s.pulling = true := by
  intro h
  have hstart : Run (.new true true) ((WebStreamData.new true true : WebStreamData ℕ ℕ).start none) :=
    .snoc .nil (.start none rfl)
  have hread := ((hstart.snoc (.settle none (by decide))).snoc (.getReader 0)).snoc (.read 0 5 (by decide))
  exact absurd (h _ (hread.snoc (.settle none (by decide))) (by decide) (by decide)) (by decide)

end Scriptc.RuntimeRust.WebStream
