import Scriptc.Lib.Graph
import Scriptc.Lib.Loop

/-!
# The heap of the Rust runtime

A `Gc` handle is a counted reference to a node. Nodes that only point at each other keep their
counts above zero for ever, so a handle that is dropped while others remain records its node as a
cycle candidate, and `collect_cycles` looks for dead cycles among what the candidates reach.

A node is known by its id, which is never given out twice; a weak reference is the id alone. What
a payload holds is the list of its handles, in the order in which `trace` visits them. The handles
held outside of all payloads are part of the state, so that it is known which nodes are in use.
-/

namespace Scriptc.RuntimeRust

open List Function

abbrev Id := ℕ

/-- The nodes with their fields, and what the runtime keeps per thread. -/
structure Heap where
  /-- The nodes that are allocated. -/
  nodes : List Id
  /-- `Rc::strong_count`. -/
  strong : Id → ℕ
  /-- `Node::candidate`. -/
  candidate : Id → Bool
  /-- The handles in the payload. -/
  edges : Id → List Id
  /-- `NEXT_NODE_ID`. -/
  nextId : ℕ
  /-- `CYCLE_CANDIDATES`. -/
  candidates : List Id
  /-- `CYCLE_DROPS`. -/
  drops : ℕ
  /-- `CYCLE_PRUNE_AT`. -/
  pruneAt : ℕ
  /-- The handles held outside of the payloads. -/
  handles : List Id

/-- `CYCLE_PRESSURE_THRESHOLD`. -/
def cyclePressureThreshold : ℕ := 4096

/-- The heap of a thread that has allocated nothing. -/
def Heap.empty : Heap where
  nodes := []
  strong := fun _ => 0
  candidate := fun _ => false
  edges := fun _ => []
  nextId := 1
  candidates := []
  drops := 0
  pruneAt := cyclePressureThreshold
  handles := []

namespace Heap

variable (h : Heap) (x : Id)

/-- `Rc::clone`: one more strong reference. -/
def retain : Heap := { h with strong := update h.strong x (h.strong x + 1) }

/-- One strong reference less, where others remain. -/
def unretain : Heap := { h with strong := update h.strong x (h.strong x - 1) }

/-- The last strong reference went: the node goes, and with it the payload. -/
def free : Heap := { h with nodes := h.nodes.erase x, edges := update h.edges x [] }

/-- `Weak::upgrade` succeeds on a node that is allocated. -/
def alive : Bool := h.nodes.contains x

/-! ### Dropping handles -/

/-- The end of `Gc::drop` for a handle that is not the last: the node is recorded, at most once, and
a full buffer is rid of the nodes that are gone. -/
def record : Heap :=
  let h := { h with drops := h.drops + 1 }
  if h.candidate x then h
  else
    let h := { h with candidate := update h.candidate x true, candidates := h.candidates ++ [x] }
    if h.pruneAt ≤ h.candidates.length then
      let kept := h.candidates.filter h.alive
      { h with candidates := kept, pruneAt := max (kept.length * 2) cyclePressureThreshold }
    else h

/-- One `Gc::drop`. The payload of a node that goes drops its own handles next. -/
def dropStep : List Id × Heap → Option (List Id × Heap)
  | ([], _) => none
  | (x :: rest, h) =>
    if h.strong x = 1 then some (h.edges x ++ rest, h.free x) else some (rest, (h.record x).unretain x)

/-- Drop handles in order, with all that goes with them. Every handle of the heap is dropped at most
once. -/
def dropAll (pending : List Id) (h : Heap) : Heap :=
  (Loop.run dropStep (pending.length + (h.nodes.flatMap h.edges).length) (pending, h)).2

/-- The drop of an `Rc<dyn DynNode>` that is no `Gc`: nothing is recorded. -/
def dropRc : Heap := if h.strong x = 1 then dropAll (h.edges x) (h.free x) else h.unretain x

/-! ### `collect_cycles` -/

/-- The loop over the candidates taken from the buffer: the nodes still there, each once, with the
references that `nodes` and `queue` hold. -/
def seed : List Id → List Id × Heap → List Id × Heap
  | [], s => s
  | c :: rest, (nodes, h) =>
    if h.alive c then
      let h := { h with candidate := update h.candidate c false }
      if nodes.contains c then seed rest (nodes, h) else seed rest (nodes ++ [c], (h.retain c).retain c)
    else seed rest (nodes, h)

/-- The visitor of the closing walk: a child not seen yet is noted and queued. -/
def discover : List Id → List Id × List Id × Heap → List Id × List Id × Heap
  | [], s => s
  | c :: rest, (nodes, queue, h) =>
    if h.alive c && !nodes.contains c then discover rest (nodes ++ [c], queue ++ [c], (h.retain c).retain c)
    else discover rest (nodes, queue, h)

/-- One turn of the closing walk: the node popped from the queue is traced, then let go. -/
def walkStep : List Id × List Id × Heap → Option (List Id × List Id × Heap)
  | (_, [], _) => none
  | (nodes, x :: queue, h) =>
    let r := discover (h.edges x) (nodes, queue, h)
    some (r.1, r.2.1, r.2.2.dropRc x)

/-- The visitor that counts: an edge to a node of the snapshot. -/
def countEdge (nodes : List Id) (incoming : Id → ℕ) (c : Id) : Id → ℕ :=
  if nodes.contains c then update incoming c (incoming c + 1) else incoming

/-- The edges that come in from the snapshot. -/
def incoming (nodes : List Id) : Id → ℕ :=
  nodes.foldl (fun inc n => (h.edges n).foldl (countEdge nodes) inc) fun _ => 0

/-- The references to a node that are neither such edges nor the one held by `nodes`. -/
def outside (nodes : List Id) (x : Id) : ℕ := h.strong x - (1 + h.incoming nodes x)

/-- The visitor of the marking walk. -/
def mark (nodes : List Id) : List Id → List Id × List Id → List Id × List Id
  | [], s => s
  | c :: rest, (live, queue) =>
    if nodes.contains c && !live.contains c then mark nodes rest (live ++ [c], queue ++ [c])
    else mark nodes rest (live, queue)

/-- One turn of the marking walk. -/
def markStep (nodes : List Id) : List Id × List Id → Option (List Id × List Id)
  | (_, []) => none
  | (live, x :: queue) => some (mark nodes (h.edges x) (live, queue))

/-- `clear_edges` of one node: its handles are dropped. -/
def clearEdges : Heap := dropAll (h.edges x) { h with edges := update h.edges x [] }

/-- `collect_cycles`: the heap after it, and how many nodes it cleared. -/
def collectCycles : Heap × ℕ :=
  let h₀ := { h with candidates := [], drops := 0, pruneAt := cyclePressureThreshold }
  let seeded := seed h.candidates ([], h₀)
  let walked := Loop.run walkStep h.nodes.length (seeded.1, seeded.1, seeded.2)
  let nodes := walked.1
  let h₁ := walked.2.2
  if nodes.isEmpty then (h₁, 0)
  else
    let rooted := nodes.filter fun n => 0 < h₁.outside nodes n
    let live := (Loop.run (h₁.markStep nodes) nodes.length (rooted, rooted)).1
    let garbage := nodes.filter fun n => !live.contains n
    -- `garbage` holds clones, and lets them go before `nodes` does
    let h₂ := garbage.foldl retain h₁
    let h₃ := garbage.foldl clearEdges h₂
    (nodes.foldl dropRc (garbage.foldl dropRc h₃), garbage.length)

end Heap

end Scriptc.RuntimeRust

/-!
## The counts of the heap

The strong count of a node is the number of handles on it: those outside of the payloads, those in
payloads, and those that the runtime holds while it works. Dropping handles keeps the counts right,
changes no payload that stays, and leaves every node within reach of what may still find it.
-/

namespace Scriptc.RuntimeRust

open Graph List Function

/-- The heap is in order while the runtime itself holds the references `held`. -/
structure Ok (held : List Id) (h : Heap) : Prop where
  nodup : h.nodes.Nodup
  fresh : ∀ x ∈ h.nodes, x < h.nextId
  dead : ∀ x, x ∉ h.nodes → h.edges x = []
  handle : ∀ x ∈ h.handles, x ∈ h.nodes
  hold : ∀ x ∈ held, x ∈ h.nodes
  edge : ∀ a, ∀ x ∈ h.edges a, x ∈ h.nodes
  /-- Every reference is counted. -/
  count : ∀ x ∈ h.nodes, h.strong x = h.handles.count x + indegree h.edges h.nodes x + held.count x
  used : ∀ x ∈ h.nodes, 0 < h.strong x
  /-- A node is flagged as long as it is in the buffer. -/
  flag : ∀ x ∈ h.nodes, h.candidate x = true ↔ x ∈ h.candidates
  bound : ∀ x ∈ h.candidates, x < h.nextId

/-- Nodes may have gone, but those that stay have their payloads. -/
structure Kept (h h' : Heap) : Prop where
  handles : h'.handles = h.handles
  nextId : h'.nextId = h.nextId
  nodes : ∀ x ∈ h'.nodes, x ∈ h.nodes
  edges : ∀ x ∈ h'.nodes, h'.edges x = h.edges x

/-- Every node is within reach of a handle, of what the runtime holds, or of a recorded candidate. -/
def Covered (held : List Id) (h : Heap) : Prop :=
  ∀ x ∈ h.nodes, Reach h.edges (h.handles ++ held ++ h.candidates) x

variable {h h' h'' : Heap} {held held' rest : List Id} {x y : Id}

theorem Kept.refl (h : Heap) : Kept h h := ⟨rfl, rfl, fun _ hx => hx, fun _ _ => rfl⟩

theorem Kept.trans (a : Kept h h') (b : Kept h' h'') : Kept h h'' where
  handles := b.handles.trans a.handles
  nextId := b.nextId.trans a.nextId
  nodes x hx := a.nodes x (b.nodes x hx)
  edges x hx := (b.edges x hx).trans (a.edges x (b.nodes x hx))

/-- Only how often a reference is held matters. -/
theorem Ok.perm (hp : held.Perm held') (ok : Ok held h) : Ok held' h :=
  { ok with
    hold := fun x hx => ok.hold x (hp.mem_iff.mpr hx)
    count := fun x hx => by rw [ok.count x hx, hp.count_eq] }

/-! ### The operations -/

theorem retain_strong (h : Heap) (x y : Id) : (h.retain x).strong y = h.strong y + [x].count y := by
  by_cases hy : y = x
  · subst hy; simp [Heap.retain]
  · simp [Heap.retain, hy, Ne.symm hy]

theorem Ok.retain (ok : Ok held h) (hx : x ∈ h.nodes) : Ok (x :: held) (h.retain x) :=
  { ok with
    hold := fun y hy => by
      rcases mem_cons.mp hy with rfl | hy
      · exact hx
      · exact ok.hold y hy
    count := fun y hy => by
      have hc : (h.retain x).strong y = _ := retain_strong h x y
      rw [hc, ok.count y hy]
      simp only [Heap.retain, count_cons, count_nil]
      omega
    used := fun y hy => by
      have := ok.used y hy
      rw [retain_strong]
      omega }

theorem Ok.unretain (ok : Ok (x :: held) h) (hx : h.strong x ≠ 1) : Ok held (h.unretain x) := by
  have hmem : x ∈ h.nodes := ok.hold x mem_cons_self
  have hpos := ok.used x hmem
  refine { ok with hold := fun y hy => ok.hold y (mem_cons_of_mem _ hy), count := ?_, used := ?_ }
  · intro y hy
    have hc := ok.count y hy
    by_cases hyx : y = x
    · subst hyx
      simp only [count_cons_self] at hc
      simp only [Heap.unretain, update_self]
      omega
    · rw [count_cons_of_ne (Ne.symm hyx)] at hc
      simpa [Heap.unretain, hyx] using hc
  · intro y hy
    by_cases hyx : y = x
    · subst hyx
      simp only [Heap.unretain, update_self]
      omega
    · simpa [Heap.unretain, hyx] using ok.used y hy

/-- A node whose last reference goes is referred to by nothing else. -/
theorem Ok.last (ok : Ok (x :: held) h) (hx : h.strong x = 1) :
    x ∉ h.handles ∧ x ∉ held ∧ ∀ a, x ∉ h.edges a := by
  have hmem : x ∈ h.nodes := ok.hold x mem_cons_self
  have hc := ok.count x hmem
  rw [hx, count_cons_self] at hc
  have h1 : h.handles.count x = 0 := by omega
  have h2 : held.count x = 0 := by omega
  have h3 : indegree h.edges h.nodes x = 0 := by omega
  refine ⟨count_eq_zero.mp h1, count_eq_zero.mp h2, fun a ha => ?_⟩
  have hn : a ∈ h.nodes := by
    by_contra hn
    rw [ok.dead a hn] at ha
    exact not_mem_nil ha
  have := indegree_pos.mpr ⟨a, hn, ha⟩
  omega

theorem free_edges_of_ne (h : Heap) (hy : y ≠ x) : (h.free x).edges y = h.edges y := update_of_ne hy ..

/-- The payload of a node that goes leaves its handles to be dropped. -/
theorem Ok.free (ok : Ok (x :: held) h) (hx : h.strong x = 1) : Ok (h.edges x ++ held) (h.free x) := by
  obtain ⟨hh, hd, he⟩ := ok.last hx
  have hmem : x ∈ h.nodes := ok.hold x mem_cons_self
  have hother : ∀ {y}, y ≠ x → y ∈ h.nodes → y ∈ (h.free x).nodes := fun hne hy => (mem_erase_of_ne hne).mpr hy
  have hin : ∀ {y}, y ∈ (h.free x).nodes → y ∈ h.nodes ∧ y ≠ x := by
    intro y hy
    refine ⟨mem_of_mem_erase hy, ?_⟩
    rintro rfl
    exact ok.nodup.not_mem_erase hy
  refine ⟨ok.nodup.erase x, fun y hy => ok.fresh y (hin hy).1, fun y hy => ?_, fun y hy => ?_, fun y hy => ?_,
    fun a y hy => ?_, fun y hy => ?_, fun y hy => ok.used y (hin hy).1, fun y hy => ok.flag y (hin hy).1, ok.bound⟩
  · by_cases hyx : y = x
    · subst hyx
      simp [Heap.free]
    · rw [free_edges_of_ne h hyx]
      exact ok.dead y fun hn => hy (hother hyx hn)
  · exact hother (fun e => hh (e ▸ hy)) (ok.handle y hy)
  · rcases mem_append.mp hy with hy | hy
    · exact hother (fun e => he x (e ▸ hy)) (ok.edge x y hy)
    · exact hother (fun e => hd (e ▸ hy)) (ok.hold y (mem_cons_of_mem _ hy))
  · by_cases hax : a = x
    · subst hax
      simp [Heap.free] at hy
    · rw [free_edges_of_ne h hax] at hy
      exact hother (fun e => he a (e ▸ hy)) (ok.edge a y hy)
  · obtain ⟨hy, hyx⟩ := hin hy
    have hc := ok.count y hy
    rw [count_cons_of_ne (Ne.symm hyx), indegree_erase hmem] at hc
    have hcongr : indegree (h.free x).edges (h.free x).nodes y = indegree h.edges (h.nodes.erase x) y := by
      refine indegree_congr fun a ha => ?_
      rw [free_edges_of_ne h (hin ha).2]
    rw [hcongr, count_append]
    simp only [Heap.free]
    omega

theorem Ok.record (ok : Ok held h) (hx : x ∈ h.nodes) : Ok held (h.record x) := by
  unfold Heap.record
  simp only
  split_ifs with hc hp
  · exact { ok with }
  · refine { ok with flag := fun y hy => ?_, bound := fun y hy => ?_ }
    · have := ok.flag y hy
      by_cases hyx : y = x
      · subst hyx
        simp [Heap.alive, hx]
      · simp [hyx, Heap.alive, this, hy]
    · simp only [mem_filter, mem_append, mem_singleton] at hy
      rcases hy.1 with hy | rfl
      · exact ok.bound y hy
      · exact ok.fresh y hx
  · refine { ok with flag := fun y hy => ?_, bound := fun y hy => ?_ }
    · have := ok.flag y hy
      by_cases hyx : y = x
      · subst hyx
        simp
      · simp [hyx, this]
    · rcases mem_append.mp hy with hy | hy
      · exact ok.bound y hy
      · obtain rfl : y = x := by simpa using hy
        exact ok.fresh y hx

theorem record_graph (h : Heap) (x : Id) : (h.record x).nodes = h.nodes ∧ (h.record x).edges = h.edges ∧
    (h.record x).handles = h.handles ∧ (h.record x).nextId = h.nextId ∧ (h.record x).strong = h.strong := by
  unfold Heap.record
  simp only
  split_ifs <;> exact ⟨rfl, rfl, rfl, rfl, rfl⟩

/-- A recorded node is in the buffer, and only nodes that are gone leave it. -/
theorem mem_record (ok : Ok held h) (hx : x ∈ h.nodes) : x ∈ (h.record x).candidates ∧
    ∀ y ∈ h.candidates, y ∈ h.nodes → y ∈ (h.record x).candidates := by
  have hr := ok.record hx
  unfold Heap.record at hr ⊢
  simp only at hr ⊢
  split_ifs with hc hp
  · exact ⟨(ok.flag x hx).mp hc, fun y hy _ => hy⟩
  · refine ⟨by simp [Heap.alive, hx], fun y hy hn => ?_⟩
    simp [Heap.alive, hy, hn]
  · exact ⟨by simp, fun y hy _ => by simp [hy]⟩

/-! ### Dropping -/

theorem length_free (ok : Ok (x :: held) h) : ((h.free x).nodes.flatMap (h.free x).edges).length +
    (h.edges x).length = (h.nodes.flatMap h.edges).length := by
  have hmem : x ∈ h.nodes := ok.hold x mem_cons_self
  have hperm := (perm_cons_erase hmem).flatMap_right h.edges
  have hsame : (h.free x).nodes.flatMap (h.free x).edges = (h.nodes.erase x).flatMap h.edges := by
    refine flatMap_congr fun a ha => ?_
    refine free_edges_of_ne h ?_
    rintro rfl
    exact ok.nodup.not_mem_erase ha
  rw [hsame, hperm.length_eq, flatMap_cons, length_append]
  omega

theorem Kept.free (ok : Ok (x :: held) h) : Kept h (h.free x) where
  handles := rfl
  nextId := rfl
  nodes y hy := mem_of_mem_erase hy
  edges y hy := by
    refine free_edges_of_ne h ?_
    rintro rfl
    exact ok.nodup.not_mem_erase hy

theorem Kept.recorded (h : Heap) (x : Id) : Kept h ((h.record x).unretain x) := by
  obtain ⟨hn, he, hh, hi, -⟩ := record_graph h x
  exact ⟨hh, hi, fun y hy => hn ▸ hy, fun y _ => congrFun he y⟩

/-- What was within reach of a node that goes is within reach of the handles it leaves. -/
theorem Covered.free (ok : Ok (x :: held) h) (hx : h.strong x = 1) (c : Covered (x :: held) h) :
    Covered (h.edges x ++ held) (h.free x) := by
  obtain ⟨-, -, he⟩ := ok.last hx
  intro y hy
  have hyx : y ≠ x := by
    rintro rfl
    exact ok.nodup.not_mem_erase hy
  suffices hs : y = x ∨ Reach (h.free x).edges (h.handles ++ (h.edges x ++ held) ++ h.candidates) y by
    exact hs.resolve_left hyx
  refine (c y (mem_of_mem_erase hy)).induct
    (S := fun z => z = x ∨ Reach (h.free x).edges (h.handles ++ (h.edges x ++ held) ++ h.candidates) z)
    (fun r hr => ?_) fun a ha b hb => ?_
  · simp only [mem_append, mem_cons] at hr
    by_cases hrx : r = x
    · exact .inl hrx
    · refine .inr (.root ?_)
      simp only [mem_append]
      tauto
  · refine .inr ?_
    by_cases hax : a = x
    · subst hax
      refine .root ?_
      simp [hb]
    · refine (ha.resolve_left hax).tail ?_
      rwa [free_edges_of_ne h hax]

theorem Covered.recorded (ok : Ok (x :: held) h) (c : Covered (x :: held) h) :
    Covered held ((h.record x).unretain x) := by
  have hmem : x ∈ h.nodes := ok.hold x mem_cons_self
  obtain ⟨hn, he, hh, -, -⟩ := record_graph h x
  obtain ⟨hself, hstay⟩ := mem_record ok hmem
  intro y hy
  have hy' : y ∈ h.nodes := hn ▸ hy
  show Reach (h.record x).edges ((h.record x).handles ++ held ++ (h.record x).candidates) y
  rw [he, hh]
  -- a candidate that is gone reaches nothing
  suffices hs : y ∉ h.nodes ∨ Reach h.edges (h.handles ++ held ++ (h.record x).candidates) y by
    exact hs.resolve_left (not_not_intro hy')
  refine (c y hy').induct
    (S := fun z => z ∉ h.nodes ∨ Reach h.edges (h.handles ++ held ++ (h.record x).candidates) z)
    (fun r hr => ?_) fun a ha b hb => ?_
  · by_cases hr' : r ∈ h.nodes
    · refine .inr (.root ?_)
      simp only [mem_append, mem_cons] at hr ⊢
      rcases hr with (hr | rfl | hr) | hr
      · exact .inl (.inl hr)
      · exact .inr hself
      · exact .inl (.inr hr)
      · exact .inr (hstay r hr hr')
    · exact .inl hr'
  · by_cases ha' : a ∈ h.nodes
    · exact .inr ((ha.resolve_left (not_not_intro ha')).tail hb)
    · rw [ok.dead a ha'] at hb
      exact absurd hb not_mem_nil

/-- **Dropping handles** leaves the heap in order without them, keeps the payloads of what stays, and
leaves every node within reach. -/
theorem Ok.dropAll {pending : List Id} (ok : Ok (pending ++ held) h) : Ok held (Heap.dropAll pending h) ∧
    Kept h (Heap.dropAll pending h) ∧ (Covered (pending ++ held) h → Covered held (Heap.dropAll pending h)) := by
  have hstep : ∀ s s' : List Id × Heap,
      (Ok (s.1 ++ held) s.2 ∧ Kept h s.2 ∧ (Covered (pending ++ held) h → Covered (s.1 ++ held) s.2)) →
      Heap.dropStep s = some s' →
      (Ok (s'.1 ++ held) s'.2 ∧ Kept h s'.2 ∧ (Covered (pending ++ held) h → Covered (s'.1 ++ held) s'.2)) ∧
        s'.1.length + (s'.2.nodes.flatMap s'.2.edges).length < s.1.length + (s.2.nodes.flatMap s.2.edges).length := by
    rintro ⟨_ | ⟨x, rest⟩, g⟩ s' ⟨hok, hk, hc⟩ hs
    · cases hs
    · simp only [Heap.dropStep] at hs
      simp only [cons_append] at hok hc
      split_ifs at hs with h1 <;> cases hs
      · have hl := length_free hok
        refine ⟨⟨?_, hk.trans (.free hok), fun hcov => ?_⟩, ?_⟩
        · rw [append_assoc]
          exact hok.free h1
        · rw [append_assoc]
          exact .free hok h1 (hc hcov)
        · simp only [length_append, length_cons]
          omega
      · obtain ⟨hn, he, -, -, hst⟩ := record_graph g x
        have hmem : x ∈ g.nodes := hok.hold x mem_cons_self
        refine ⟨⟨(hok.record hmem).unretain (by rwa [hst]), hk.trans (.recorded g x), fun hcov => ?_⟩, ?_⟩
        · exact .recorded hok (hc hcov)
        · simp only [Heap.unretain, hn, he, length_cons]
          omega
  obtain ⟨⟨hok, hk, hc⟩, hend⟩ := Loop.run_spec hstep _ (s := (pending, h)) ⟨ok, .refl h, id⟩ le_rfl
  unfold Heap.dropAll
  generalize Loop.run Heap.dropStep _ (pending, h) = r at hok hk hc hend
  obtain ⟨_ | ⟨x, rest⟩, g⟩ := r
  · exact ⟨hok, hk, hc⟩
  · simp only [Heap.dropStep] at hend
    split_ifs at hend

/-- Letting go of a reference that the runtime holds. -/
theorem Ok.dropRc (ok : Ok (x :: held) h) : Ok held (h.dropRc x) ∧ Kept h (h.dropRc x) := by
  unfold Heap.dropRc
  split_ifs with h1
  · obtain ⟨hok, hk, -⟩ := (ok.free h1).dropAll
    exact ⟨hok, (Kept.free ok).trans hk⟩
  · exact ⟨ok.unretain h1, ⟨rfl, rfl, fun _ hy => hy, fun _ _ => rfl⟩⟩

end Scriptc.RuntimeRust
