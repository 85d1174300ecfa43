import Scriptc.RuntimeRust.HeapWalk

/-!
# Collecting cycles

In a heap that any sequence of handle operations has made, every node is within reach of a handle
or of a recorded candidate. A collection then clears exactly the nodes that no handle outside of
the payloads reaches, and leaves a heap of the same kind.
-/

namespace Scriptc.RuntimeRust

open Graph List Function

variable {h h' : Heap} {held nodes garbage l : List Id} {x y : Id}

/-! ### Clearing -/

theorem Ok.retainAll (ok : Ok held h) (hl : ∀ x ∈ l, x ∈ h.nodes) :
    Ok (l ++ held) (l.foldl Heap.retain h) ∧ SameGraph h (l.foldl Heap.retain h) := by
  induction l generalizing held h with
  | nil => exact ⟨ok, .refl h⟩
  | cons x l ih =>
    obtain ⟨hok, hs⟩ := ih (ok.retain (hl x mem_cons_self)) fun y hy => hl y (mem_cons_of_mem _ hy)
    exact ⟨hok.perm perm_middle, (SameGraph.retain h x).trans hs⟩

theorem Ok.dropRcAll (ok : Ok (l ++ held) h) : Ok held (l.foldl Heap.dropRc h) ∧ Kept h (l.foldl Heap.dropRc h) := by
  induction l generalizing h with
  | nil => exact ⟨ok, .refl h⟩
  | cons x l ih =>
    obtain ⟨hok, hk⟩ := ok.dropRc
    obtain ⟨hok', hk'⟩ := ih hok
    exact ⟨hok', hk.trans hk'⟩

/-- The nodes `l` have been cleared. -/
structure Cleared (l : List Id) (h h' : Heap) : Prop where
  handles : h'.handles = h.handles
  nextId : h'.nextId = h.nextId
  nodes : ∀ x ∈ h'.nodes, x ∈ h.nodes
  edges : ∀ x ∈ h'.nodes, h'.edges x = if x ∈ l then [] else h.edges x

/-- Clearing a node drops what its payload held, and nothing that the runtime holds goes. -/
theorem Ok.clearEdges (ok : Ok held h) (hx : x ∈ held) :
    Ok held (h.clearEdges x) ∧ Cleared [x] h (h.clearEdges x) := by
  have hmem : x ∈ h.nodes := ok.hold x hx
  have hok : Ok (h.edges x ++ held) { h with edges := update h.edges x [] } := by
    refine { ok with dead := fun y hy => ?_, hold := fun y hy => ?_, edge := fun a y hy => ?_, count := fun y hy => ?_ }
    · by_cases hyx : y = x
      · subst hyx
        simp
      · simpa [hyx] using ok.dead y hy
    · rcases mem_append.mp hy with hy | hy
      · exact ok.edge x y hy
      · exact ok.hold y hy
    · by_cases hax : a = x
      · subst hax
        simp at hy
      · exact ok.edge a y (by simpa [hax] using hy)
    · have hu := indegree_update h.edges (x := y) ok.nodup hmem []
      have hc := ok.count y hy
      rw [count_nil] at hu
      show h.strong y = h.handles.count y + indegree (update h.edges x []) h.nodes y + _
      rw [count_append]
      omega
  obtain ⟨hok', hk, -⟩ := hok.dropAll
  refine ⟨hok', hk.handles, hk.nextId, hk.nodes, fun y hy => ?_⟩
  rw [show (h.clearEdges x).edges y = update h.edges x [] y from hk.edges y hy]
  by_cases hyx : y = x
  · subst hyx
    simp
  · simp [hyx]

theorem Ok.clearAll (ok : Ok held h) (hl : ∀ x ∈ l, x ∈ held) :
    Ok held (l.foldl Heap.clearEdges h) ∧ Cleared l h (l.foldl Heap.clearEdges h) := by
  induction l generalizing h with
  | nil => exact ⟨ok, rfl, rfl, fun _ hx => hx, fun _ _ => by simp⟩
  | cons x l ih =>
    obtain ⟨hok, hc⟩ := ok.clearEdges (hl x mem_cons_self)
    obtain ⟨hok', hc'⟩ := ih hok fun y hy => hl y (mem_cons_of_mem _ hy)
    refine ⟨hok', hc'.handles.trans hc.handles, hc'.nextId.trans hc.nextId, fun y hy => hc.nodes y (hc'.nodes y hy),
      fun y hy => ?_⟩
    rw [foldl_cons, hc'.edges y hy, hc.edges y (hc'.nodes y hy)]
    by_cases hyl : y ∈ l
    · simp [hyl]
    · by_cases hyx : y = x <;> simp [hyl, hyx]

/-! ### What is garbage -/

/-- A snapshot that is closed along edges and holds every recorded node. -/
structure Snapshot (h : Heap) (nodes : List Id) : Prop where
  nodup : nodes.Nodup
  sub : ∀ x ∈ nodes, x ∈ h.nodes
  closed : ∀ x ∈ nodes, ∀ c ∈ h.edges x, c ∈ nodes
  candidates : ∀ x ∈ h.candidates, x ∈ h.nodes → x ∈ nodes

/-- A node that is not in the snapshot is in use. -/
theorem Snapshot.reach_of_not_mem (s : Snapshot h nodes) (ok : Ok held h) (c : Covered [] h) (hx : x ∈ h.nodes)
    (hn : x ∉ nodes) : Reach h.edges h.handles x := by
  have hs : x ∉ h.nodes ∨ x ∈ nodes ∨ Reach h.edges h.handles x := by
    refine (c x hx).induct (S := fun z => z ∉ h.nodes ∨ z ∈ nodes ∨ Reach h.edges h.handles z) (fun r hr => ?_) ?_
    · rw [append_nil] at hr
      rcases mem_append.mp hr with hr | hr
      · exact .inr (.inr (.root hr))
      · by_cases hrn : r ∈ h.nodes
        · exact .inr (.inl (s.candidates r hr hrn))
        · exact .inl hrn
    · rintro a (ha | ha | ha) b hb
      · rw [ok.dead a ha] at hb
        exact absurd hb not_mem_nil
      · exact .inr (.inl (s.closed a ha b hb))
      · exact .inr (.inr (ha.tail hb))
  exact (hs.resolve_left (not_not_intro hx)).resolve_left hn

/-- **What the marking leaves out is what no handle reaches.** -/
theorem Snapshot.live_iff (s : Snapshot h nodes) (ok : Ok held h) (c : Covered [] h) {rooted : List Id}
    (hr : ∀ x, x ∈ rooted ↔ x ∈ nodes ∧ (x ∈ h.handles ∨ ∃ a ∈ h.nodes, a ∉ nodes ∧ x ∈ h.edges a))
    (hx : x ∈ nodes) : Reach h.edges rooted x ↔ Reach h.edges h.handles x := by
  refine ⟨fun hl => hl.mono fun r hrr => ?_, fun hh => ?_⟩
  · obtain ⟨-, hin | ⟨a, ha, han, hra⟩⟩ := (hr r).mp hrr
    · exact .root hin
    · exact (s.reach_of_not_mem ok c ha han).tail hra
  · obtain ⟨y, hy, hyx, hin⟩ := hh.enters (S := (· ∈ nodes)) hx
    have hyr : y ∈ rooted := by
      refine (hr y).mpr ⟨hy, ?_⟩
      rcases hin with hin | ⟨a, han, -, hya⟩
      · exact .inl hin
      · refine .inr ⟨a, ?_, han, hya⟩
        by_contra hda
        rw [ok.dead a hda] at hya
        exact not_mem_nil hya
    exact (Reach.root hyr).trans hyx

/-! ### The collection -/

/-- What a collection leaves: the nodes that the handles reach, as they were, and no others. -/
structure Collected (h h' : Heap) : Prop where
  handles : h'.handles = h.handles
  kept : ∀ x, Reach h.edges h.handles x → x ∈ h'.nodes ∧ h'.edges x = h.edges x
  gone : ∀ x ∈ h'.nodes, x ∈ h.nodes ∧ Reach h.edges h.handles x

/-- Clearing what no handle reaches, and letting go of what is held, leaves the rest. -/
theorem collected_of_cleared {h₃ : Heap} (ok : Ok [] h') (c : Cleared garbage h h₃) (k : Kept h₃ h')
    (hg : ∀ x, x ∈ garbage ↔ x ∈ h.nodes ∧ ¬ Reach h.edges h.handles x) : Collected h h' := by
  have hhand : h'.handles = h.handles := k.handles.trans c.handles
  have hnode : ∀ x ∈ h'.nodes, x ∈ h.nodes := fun x hx => c.nodes x (k.nodes x hx)
  have hedge : ∀ x ∈ h'.nodes, h'.edges x = if x ∈ garbage then [] else h.edges x := fun x hx =>
    (k.edges x hx).trans (c.edges x (k.nodes x hx))
  have hkept : ∀ x ∈ h'.nodes, Reach h.edges h.handles x → h'.edges x = h.edges x := by
    intro x hx hr
    rw [hedge x hx, if_neg fun hin => ((hg x).mp hin).2 hr]
  refine ⟨hhand, fun x hr => ?_, fun x hx => ⟨hnode x hx, ?_⟩⟩
  · have hx : x ∈ h'.nodes := by
      refine hr.induct' (fun r hrr => ok.handle r (hhand ▸ hrr)) fun a har ha b hb => ?_
      rw [← hkept a ha har] at hb
      exact ok.edge a b hb
    exact ⟨hx, hkept x hx hr⟩
  · -- an unreachable node would have no reference left, but every node has one
    by_contra hnr
    have hxg : x ∈ garbage := (hg x).mpr ⟨hnode x hx, hnr⟩
    have hcount := ok.count x hx
    have hpos := ok.used x hx
    have hzero : h'.handles.count x = 0 := by
      rw [hhand]
      exact count_eq_zero.mpr fun hin => hnr (.root hin)
    have hin : 0 < indegree h'.edges h'.nodes x := by
      rw [count_nil] at hcount
      omega
    obtain ⟨a, ha, hxa⟩ := indegree_pos.mp hin
    rw [hedge a ha] at hxa
    split_ifs at hxa with hag
    · exact not_mem_nil hxa
    · have har : Reach h.edges h.handles a := by
        by_contra hna
        exact hag ((hg a).mpr ⟨hnode a ha, hna⟩)
      exact hnr (har.tail hxa)

/-- **A collection clears exactly what no handle reaches**, and the heap is in order after it. -/
theorem Ok.collectCycles (ok : Ok [] h) (c : Covered [] h) :
    Ok [] h.collectCycles.1 ∧ Collected h h.collectCycles.1 := by
  have hseed := seeded h.candidates [] { h with candidates := [], drops := 0, pruneAt := cyclePressureThreshold }
  have hsok := ok.seed 0 cyclePressureThreshold
  unfold Heap.collectCycles
  simp only
  generalize Heap.seed h.candidates ([], _) = r at hseed hsok ⊢
  obtain ⟨seeds, g⟩ := r
  simp only at hseed hsok ⊢
  have hw : Walking g seeds (seeds, seeds, g) :=
    ⟨.refl g, hsok, hseed.nodup nodup_nil, fun _ hx => hx, fun _ hx => hx, fun _ hx hn => absurd hx hn⟩
  obtain ⟨nodes, h₁, hrun, hsame, hok₁, hnd, hsin, hclosed⟩ := hw.run le_rfl
  rw [show h.nodes.length = g.nodes.length by rw [hseed.same.nodes], hrun]
  simp only
  have hn₁ : h₁.nodes = h.nodes := hsame.nodes.trans hseed.same.nodes
  have he₁ : h₁.edges = h.edges := hsame.edges.trans hseed.same.edges
  have hh₁ : h₁.handles = h.handles := hsame.handles.trans hseed.same.handles
  have hsnap : Snapshot h nodes := by
    refine ⟨hnd, fun x hx => hn₁ ▸ hok₁.hold x hx, fun x hx a ha => hclosed x hx a (by rwa [he₁]), fun x hx hxn => ?_⟩
    exact hsin x (hseed.mem x (.inr ⟨hx, hxn⟩))
  set rooted := nodes.filter fun n => decide (0 < h₁.outside nodes n) with hrooted
  have hr : ∀ x, x ∈ rooted ↔ x ∈ nodes ∧ (x ∈ h.handles ∨ ∃ a ∈ h.nodes, a ∉ nodes ∧ x ∈ h.edges a) := by
    intro x
    rw [hrooted, mem_filter, decide_eq_true_eq]
    refine and_congr_right fun hx => ?_
    rw [outside_pos hok₁ hnd hx, hh₁, hn₁, he₁]
  have hlive : ∀ x, x ∈ (Loop.run (h₁.markStep nodes) nodes.length (rooted, rooted)).1 ↔ Reach h.edges rooted x := by
    intro x
    rw [← he₁]
    exact mem_live (hnd.filter _) (fun x hx => (mem_filter.mp hx).1) hclosed
  generalize (Loop.run (h₁.markStep nodes) nodes.length (rooted, rooted)).1 = live at hlive
  set garbage := nodes.filter fun n => !live.contains n with hgarbage
  have hg : ∀ x, x ∈ garbage ↔ x ∈ h.nodes ∧ ¬ Reach h.edges h.handles x := by
    intro x
    rw [hgarbage, mem_filter, Bool.not_eq_true', ← Bool.not_eq_true, contains_iff_mem, hlive]
    constructor
    · rintro ⟨hx, hnl⟩
      exact ⟨hsnap.sub x hx, fun hh => hnl ((hsnap.live_iff ok c hr hx).mpr hh)⟩
    · rintro ⟨hx, hnr⟩
      have hxn : x ∈ nodes := by
        by_contra hn
        exact hnr (hsnap.reach_of_not_mem ok c hx hn)
      exact ⟨hxn, fun hl => hnr ((hsnap.live_iff ok c hr hxn).mp hl)⟩
  obtain ⟨hok₂, hs₂⟩ := hok₁.retainAll (l := garbage) fun x hx => hn₁ ▸ ((hg x).mp hx).1
  obtain ⟨hok₃, hc₃⟩ := hok₂.clearAll (l := garbage) fun x hx => mem_append_left _ hx
  obtain ⟨hok₄, hk₄⟩ := hok₃.dropRcAll
  obtain ⟨hok₅, hk₅⟩ := (show Ok (nodes ++ []) _ by simpa using hok₄).dropRcAll
  have hc : Cleared garbage h (garbage.foldl Heap.clearEdges (garbage.foldl Heap.retain h₁)) :=
    ⟨hc₃.handles.trans (hs₂.handles.trans hh₁),
      hc₃.nextId.trans (hs₂.nextId.trans (hsame.nextId.trans hseed.same.nextId)),
      fun x hx => hn₁ ▸ hs₂.nodes ▸ hc₃.nodes x hx, fun x hx => by rw [hc₃.edges x hx, hs₂.edges, he₁]⟩
  have hdone := collected_of_cleared hok₅ hc (hk₄.trans hk₅) hg
  split_ifs with hempty
  · obtain rfl : nodes = [] := by simpa using hempty
    simp only [hgarbage, filter_nil, foldl_nil] at hok₅ hdone
    exact ⟨hok₅, hdone⟩
  · exact ⟨hok₅, hdone⟩

/-! ### The operations on handles -/

namespace Heap

/-- `Gc::new`: the payload takes the handles `l`, and `rest` is left. -/
def gcNew (h : Heap) (l rest : List Id) : Heap :=
  { h with
    nodes := h.nextId :: h.nodes
    strong := update h.strong h.nextId 1
    candidate := update h.candidate h.nextId false
    edges := update h.edges h.nextId l
    nextId := h.nextId + 1
    handles := h.nextId :: rest }

/-- `Gc::clone`, and `GcWeak::upgrade` on a node that is there. -/
def gcClone (h : Heap) (x : Id) : Heap := { h.retain x with handles := x :: h.handles }

/-- The drop of a handle. -/
def gcDrop (h : Heap) (x : Id) : Heap := dropAll [x] { h with handles := h.handles.erase x }

/-- `Gc::with_mut`: handles move between the payload and the outside. -/
def gcWithMut (h : Heap) (x : Id) (l rest : List Id) : Heap :=
  { h with edges := update h.edges x l, handles := rest }

end Heap

/-- One operation. A payload is reached through handles that stay where they are while it is changed. -/
inductive Step : Heap → Heap → Prop where
  | new {h : Heap} {l rest : List Id} (hp : (l ++ rest).Perm h.handles) : Step h (h.gcNew l rest)
  | clone {h : Heap} {x : Id} (hx : x ∈ h.nodes) : Step h (h.gcClone x)
  | drop {h : Heap} {x : Id} (hx : x ∈ h.handles) : Step h (h.gcDrop x)
  | withMut {h : Heap} {x : Id} {l rest : List Id} (hp : (l ++ rest).Perm (h.edges x ++ h.handles))
      (hx : Reach h.edges rest x) : Step h (h.gcWithMut x l rest)
  | collect {h : Heap} : Step h h.collectCycles.1

/-- What holds between operations. -/
structure Inv (h : Heap) : Prop where
  ok : Ok [] h
  covered : Covered [] h

theorem inv_empty : Inv .empty := by
  refine ⟨⟨nodup_nil, ?_, ?_, ?_, ?_, ?_, ?_, ?_, ?_, ?_⟩, ?_⟩ <;> simp [Heap.empty, Covered]

theorem Inv.new {rest : List Id} (i : Inv h) (hp : (l ++ rest).Perm h.handles) : Inv (h.gcNew l rest) := by
  obtain ⟨ok, c⟩ := i
  have hfresh : h.nextId ∉ h.nodes := fun hn => lt_irrefl _ (ok.fresh _ hn)
  have hne : ∀ {y}, y ∈ h.nodes → y ≠ h.nextId := fun hy e => hfresh (e ▸ hy)
  have hl : ∀ y ∈ l, y ∈ h.nodes := fun y hy => ok.handle y (hp.mem_iff.mp (mem_append_left _ hy))
  have hrest : ∀ y ∈ rest, y ∈ h.nodes := fun y hy => ok.handle y (hp.mem_iff.mp (mem_append_right _ hy))
  have hedges : ∀ {a}, a ≠ h.nextId → (h.gcNew l rest).edges a = h.edges a := fun ha => update_of_ne ha ..
  have hself : (h.gcNew l rest).edges h.nextId = l := update_self ..
  have hin : ∀ y, indegree (h.gcNew l rest).edges (h.gcNew l rest).nodes y =
      l.count y + indegree h.edges h.nodes y := by
    intro y
    rw [show (h.gcNew l rest).nodes = h.nextId :: h.nodes from rfl, indegree_cons, hself,
      indegree_congr fun a ha => hedges (hne ha)]
  refine ⟨⟨?_, ?_, ?_, ?_, ?_, ?_, ?_, ?_, ?_, ?_⟩, ?_⟩
  · exact nodup_cons.mpr ⟨hfresh, ok.nodup⟩
  · intro y hy
    rcases mem_cons.mp hy with rfl | hy
    · exact Nat.lt_succ_self _
    · exact Nat.lt_succ_of_lt (ok.fresh y hy)
  · intro y hy
    obtain ⟨hyn, hy⟩ := not_or.mp (mt mem_cons.mpr hy)
    rw [hedges hyn, ok.dead y hy]
  · intro y hy
    rcases mem_cons.mp hy with rfl | hy
    · exact mem_cons_self
    · exact mem_cons_of_mem _ (hrest y hy)
  · simp
  · intro a y hy
    refine mem_cons_of_mem _ ?_
    by_cases ha : a = h.nextId
    · subst ha
      exact hl y (hself ▸ hy)
    · exact ok.edge a y (hedges ha ▸ hy)
  · intro y hy
    rw [hin, count_nil, show (h.gcNew l rest).handles = h.nextId :: rest from rfl]
    rcases mem_cons.mp hy with rfl | hy
    · have h1 : rest.count h.nextId = 0 := count_eq_zero.mpr fun hm => hfresh (hrest _ hm)
      have h2 : l.count h.nextId = 0 := count_eq_zero.mpr fun hm => hfresh (hl _ hm)
      have h3 : indegree h.edges h.nodes h.nextId = 0 := by
        by_contra hpos
        obtain ⟨a, -, ha⟩ := indegree_pos.mp (Nat.pos_of_ne_zero hpos)
        exact hfresh (ok.edge a _ ha)
      rw [count_cons_self, h1, h2, h3]
      exact update_self ..
    · have hc := ok.count y hy
      rw [← hp.count_eq, count_append, count_nil] at hc
      rw [count_cons_of_ne (Ne.symm (hne hy)), show (h.gcNew l rest).strong y = h.strong y from
        update_of_ne (hne hy) .., hc]
      omega
  · intro y hy
    rcases mem_cons.mp hy with rfl | hy
    · simp [Heap.gcNew]
    · rw [show (h.gcNew l rest).strong y = h.strong y from update_of_ne (hne hy) ..]
      exact ok.used y hy
  · intro y hy
    rcases mem_cons.mp hy with rfl | hy
    · have : h.nextId ∉ h.candidates := fun hc => lt_irrefl _ (ok.bound _ hc)
      simp [Heap.gcNew, this]
    · rw [show (h.gcNew l rest).candidate y = h.candidate y from update_of_ne (hne hy) ..]
      exact ok.flag y hy
  · intro y hy
    exact Nat.lt_succ_of_lt (ok.bound y hy)
  · -- what a moved handle reached is reached through the new node
    have hroot : Reach (h.gcNew l rest).edges ((h.gcNew l rest).handles ++ [] ++ h.candidates) h.nextId :=
      .root (by simp [Heap.gcNew])
    intro y hy
    rcases mem_cons.mp hy with rfl | hy
    · exact hroot
    · refine (c y hy).induct (fun r hr => ?_) fun a ha b hb => ha.tail ?_
      · simp only [append_nil, mem_append] at hr
        rcases hr with hr | hr
        · rcases mem_append.mp (hp.mem_iff.mpr hr) with hr | hr
          · exact hroot.tail (by rwa [hself])
          · exact .root (by simp [Heap.gcNew, hr])
        · exact .root (by simp [Heap.gcNew, hr])
      · have han : a ≠ h.nextId := by
          rintro rfl
          rw [ok.dead _ hfresh] at hb
          exact not_mem_nil hb
        rwa [hedges han]

theorem Inv.clone (i : Inv h) (hx : x ∈ h.nodes) : Inv (h.gcClone x) := by
  obtain ⟨ok, c⟩ := i
  have hok := ok.retain hx
  refine ⟨{ hok with handle := ?_, hold := by simp, count := ?_ }, ?_⟩
  · intro y hy
    rcases mem_cons.mp hy with rfl | hy
    · exact hx
    · exact ok.handle y hy
  · intro y hy
    have hc := hok.count y hy
    simp only [Heap.gcClone, count_cons, count_nil] at hc ⊢
    rw [hc]
    simp only [Heap.retain]
    omega
  · intro y hy
    refine (c y hy).mono fun r hr => .root ?_
    simp only [append_nil, mem_append] at hr
    rcases hr with hr | hr <;> simp [Heap.gcClone, Heap.retain, hr]

theorem Inv.drop (i : Inv h) (hx : x ∈ h.handles) : Inv (h.gcDrop x) := by
  obtain ⟨ok, c⟩ := i
  have hok : Ok ([x] ++ []) { h with handles := h.handles.erase x } := by
    refine { ok with handle := ?_, hold := ?_, count := ?_ }
    · exact fun y hy => ok.handle y (mem_of_mem_erase hy)
    · simpa using ok.handle x hx
    · intro y hy
      have hc := ok.count y hy
      rw [(perm_cons_erase hx).count_eq, count_cons, count_nil] at hc
      simp only [append_nil, count_cons, count_nil]
      omega
  obtain ⟨hok', -, hc⟩ := hok.dropAll
  refine ⟨hok', hc fun y hy => (c y hy).mono fun r hr => .root ?_⟩
  simp only [append_nil, mem_append] at hr ⊢
  rcases hr with hr | hr
  · rcases mem_cons.mp ((perm_cons_erase hx).mem_iff.mp hr) with rfl | hr
    · simp
    · simp [hr]
  · simp [hr]

theorem Inv.withMut {rest : List Id} (i : Inv h) (hp : (l ++ rest).Perm (h.edges x ++ h.handles))
    (hx : Reach h.edges rest x) : Inv (h.gcWithMut x l rest) := by
  obtain ⟨ok, c⟩ := i
  have hin : ∀ y, y ∈ l ∨ y ∈ rest ↔ y ∈ h.edges x ∨ y ∈ h.handles := by
    intro y
    rw [← mem_append, hp.mem_iff, mem_append]
  have hall : ∀ y, y ∈ l ∨ y ∈ rest → y ∈ h.nodes := by
    intro y hy
    rcases (hin y).mp hy with hy | hy
    · exact ok.edge x y hy
    · exact ok.handle y hy
  have hmem : x ∈ h.nodes := hx.induct (fun r hr => hall r (.inr hr)) fun a _ b hb => ok.edge a b hb
  have hedges : ∀ {a}, a ≠ x → (h.gcWithMut x l rest).edges a = h.edges a := fun ha => update_of_ne ha ..
  have hself : (h.gcWithMut x l rest).edges x = l := update_self ..
  -- the way to the payload does not lead through it
  have hway : Reach (h.gcWithMut x l rest).edges rest x := by
    have := hx.induct (S := fun z => Reach (h.gcWithMut x l rest).edges rest x ∨
      Reach (h.gcWithMut x l rest).edges rest z) (fun r hr => .inr (.root hr)) ?_
    · exact this.elim id id
    · rintro a (ha | ha) b hb
      · exact .inl ha
      · by_cases hax : a = x
        · subst hax
          exact .inl ha
        · exact .inr (ha.tail (by rwa [hedges hax]))
  refine ⟨{ ok with dead := ?_, handle := fun y hy => hall y (.inr hy), edge := ?_, count := ?_ }, ?_⟩
  · intro y hy
    have hyx : y ≠ x := by
      rintro rfl
      exact hy hmem
    rw [hedges hyx]
    exact ok.dead y hy
  · intro a y hy
    by_cases hax : a = x
    · subst hax
      exact hall y (.inl (hself ▸ hy))
    · exact ok.edge a y (hedges hax ▸ hy)
  · intro y hy
    have hu := indegree_update h.edges (x := y) ok.nodup hmem l
    have hc := ok.count y hy
    have hpc := hp.count_eq y
    rw [count_append, count_append] at hpc
    show h.strong y = rest.count y + indegree (update h.edges x l) h.nodes y + _
    rw [hc]
    omega
  · have hroot : ∀ y, y ∈ l ∨ y ∈ rest →
        Reach (h.gcWithMut x l rest).edges (rest ++ [] ++ h.candidates) y := by
      rintro y (hy | hy)
      · exact (hway.mono fun r hr => .root (by simp [hr])).tail (by rwa [hself])
      · exact .root (by simp [hy])
    intro y hy
    refine (c y hy).induct (fun r hr => ?_) fun a ha b hb => ?_
    · simp only [append_nil, mem_append] at hr
      rcases hr with hr | hr
      · exact hroot r ((hin r).mpr (.inr hr))
      · exact .root (by simp [Heap.gcWithMut, hr])
    · by_cases hax : a = x
      · subst hax
        exact hroot b ((hin b).mpr (.inl hb))
      · exact ha.tail (by rwa [hedges hax])

theorem Inv.collect (i : Inv h) : Inv h.collectCycles.1 := by
  obtain ⟨hok, hd⟩ := i.ok.collectCycles i.covered
  refine ⟨hok, fun x hx => ?_⟩
  have hr := (hd.gone x hx).2
  rw [hd.handles]
  refine (hr.congr fun a ha => (hd.kept a ha).2).mono fun r hr => .root (by simp [hr])

theorem Step.inv (hs : Step h h') (i : Inv h) : Inv h' := by
  cases hs with
  | new hp => exact i.new hp
  | clone hx => exact i.clone hx
  | drop hx => exact i.drop hx
  | withMut hp hx => exact i.withMut hp hx
  | collect => exact i.collect

theorem inv_of_steps (hs : Relation.ReflTransGen Step .empty h) : Inv h := by
  induction hs with
  | refl => exact inv_empty
  | tail _ hstep ih => exact hstep.inv ih

/-- **The collector is safe and complete.** After any sequence of operations and collections, a
collection leaves every node that a handle outside of the payloads reaches, with its payload, and
no other node; counts, flags and the buffer are in order for the next one. -/
theorem collect_safe_complete (hs : Relation.ReflTransGen Step .empty h) :
    (∀ x, Reach h.edges h.handles x → x ∈ h.collectCycles.1.nodes ∧ h.collectCycles.1.edges x = h.edges x) ∧
    (∀ x ∈ h.nodes, ¬ Reach h.edges h.handles x →
      x ∉ h.collectCycles.1.nodes ∧ h.collectCycles.1.edges x = []) ∧
    h.collectCycles.1.handles = h.handles ∧ Inv h.collectCycles.1 := by
  have i := inv_of_steps hs
  obtain ⟨hok, hd⟩ := i.ok.collectCycles i.covered
  refine ⟨hd.kept, fun x _ hn => ?_, hd.handles, i.collect⟩
  have hgone : x ∉ h.collectCycles.1.nodes := fun hin => hn (hd.gone x hin).2
  exact ⟨hgone, hok.dead x hgone⟩

/-- A node that holds itself, and on which no other handle is left. -/
def selfCycle : Heap := (((Heap.empty.gcNew [] []).gcClone 1).gcWithMut 1 [1] [1]).gcDrop 1

/-- The collection clears it. -/
theorem collect_selfCycle : 1 ∈ selfCycle.nodes ∧ 1 ∉ selfCycle.collectCycles.1.nodes := by
  have hs : Relation.ReflTransGen Step .empty selfCycle := by
    have hnew : Step .empty (Heap.empty.gcNew [] []) := .new (by decide)
    exact .tail (.tail (.tail (.single hnew) (.clone (by decide))) (.withMut (by decide) (.root (by decide))))
      (.drop (by decide))
  have hmem : 1 ∈ selfCycle.nodes := by decide
  have hnone : ¬ Reach selfCycle.edges selfCycle.handles 1 := by
    rintro ⟨r, hr, -⟩
    have : selfCycle.handles = [] := by decide
    rw [this] at hr
    exact not_mem_nil hr
  exact ⟨hmem, ((collect_safe_complete hs).2.1 1 hmem hnone).1⟩

end Scriptc.RuntimeRust
