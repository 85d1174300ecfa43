import Mathlib.Data.List.Perm.Subperm
import Scriptc.RuntimeRust.Heap

/-!
# What the collector finds

The walk from the candidates ends with a snapshot that is closed along edges and holds one
reference to each of its nodes. A node of the snapshot with more references than these and the
edges from the snapshot is in use from outside, and the marking walk finds what such nodes reach.
-/

namespace Scriptc.RuntimeRust

open Graph List Function

/-- Only counts and flags differ. -/
structure SameGraph (h h' : Heap) : Prop where
  nodes : h'.nodes = h.nodes
  edges : h'.edges = h.edges
  handles : h'.handles = h.handles
  nextId : h'.nextId = h.nextId
  candidates : h'.candidates = h.candidates

variable {h h' h'' : Heap} {held nodes queue live : List Id} {x y : Id}

theorem SameGraph.refl (h : Heap) : SameGraph h h := ⟨rfl, rfl, rfl, rfl, rfl⟩

theorem SameGraph.trans (a : SameGraph h h') (b : SameGraph h' h'') : SameGraph h h'' :=
  ⟨b.nodes.trans a.nodes, b.edges.trans a.edges, b.handles.trans a.handles, b.nextId.trans a.nextId,
    b.candidates.trans a.candidates⟩

theorem SameGraph.retain (h : Heap) (x : Id) : SameGraph h (h.retain x) := ⟨rfl, rfl, rfl, rfl, rfl⟩

/-! ### The candidates -/

/-- What the loop over the candidates has done. -/
structure Seeded (cs nodes : List Id) (h : Heap) (nodes' : List Id) (h' : Heap) : Prop where
  same : SameGraph h h'
  nodup : nodes.Nodup → nodes'.Nodup
  sub : ∀ x ∈ nodes', x ∈ nodes ∨ x ∈ h.nodes
  mem : ∀ x, x ∈ nodes ∨ x ∈ cs ∧ x ∈ h.nodes → x ∈ nodes'
  strong : ∀ x, h'.strong x + 2 * nodes.count x = h.strong x + 2 * nodes'.count x
  flag : ∀ x ∈ h.nodes, h'.candidate x = true ↔ h.candidate x = true ∧ x ∉ cs

theorem seeded : ∀ (cs nodes : List Id) (h : Heap),
    Seeded cs nodes h (Heap.seed cs (nodes, h)).1 (Heap.seed cs (nodes, h)).2
  | [], nodes, h => ⟨.refl h, id, fun _ hx => .inl hx, fun x hx => by simpa [Heap.seed] using hx, fun _ => rfl,
      by simp [Heap.seed]⟩
  | c :: cs, nodes, h => by
    have hflag : ∀ (g : Heap), (∀ x ∈ h.nodes, g.candidate x = true ↔ (update h.candidate c false) x = true ∧
        x ∉ cs) → ∀ x ∈ h.nodes, g.candidate x = true ↔ h.candidate x = true ∧ x ∉ c :: cs := by
      intro g hg x hx
      rw [hg x hx]
      by_cases hxc : x = c
      · subst hxc; simp
      · simp [hxc]
    simp only [Heap.seed]
    split_ifs with ha hn
    · obtain ⟨h1, h2, h3, h4, h5, h6⟩ := seeded cs nodes { h with candidate := update h.candidate c false }
      have hc : c ∈ nodes := by simpa using hn
      refine ⟨⟨h1.nodes, h1.edges, h1.handles, h1.nextId, h1.candidates⟩, h2, h3, fun x hx => h4 x ?_, h5, hflag _ h6⟩
      rcases hx with hx | ⟨hx, hxn⟩
      · exact .inl hx
      · rcases mem_cons.mp hx with rfl | hx
        · exact .inl hc
        · exact .inr ⟨hx, hxn⟩
    · have hc : c ∉ nodes := by simpa using hn
      have hal : c ∈ h.nodes := by simpa [Heap.alive] using ha
      obtain ⟨h1, h2, h3, h4, h5, h6⟩ := seeded cs (nodes ++ [c])
        (({ h with candidate := update h.candidate c false }.retain c).retain c)
      refine ⟨⟨h1.nodes, h1.edges, h1.handles, h1.nextId, h1.candidates⟩, fun hnd => h2 ?_, fun x hx => ?_,
        fun x hx => h4 x ?_, fun x => ?_, hflag _ h6⟩
      · exact hnd.append (nodup_singleton c) (by simpa using hc)
      · rcases h3 x hx with hx | hx
        · rcases mem_append.mp hx with hx | hx
          · exact .inl hx
          · obtain rfl : x = c := by simpa using hx
            exact .inr hal
        · exact .inr hx
      · rcases hx with hx | ⟨hx, hxn⟩
        · exact .inl (mem_append_left _ hx)
        · rcases mem_cons.mp hx with rfl | hx
          · exact .inl (by simp)
          · exact .inr ⟨hx, hxn⟩
      · have := h5 x
        rw [retain_strong, retain_strong, count_append] at this
        simp only at this
        omega
    · have hal : c ∉ h.nodes := by simpa [Heap.alive] using ha
      obtain ⟨h1, h2, h3, h4, h5, h6⟩ := seeded cs nodes h
      refine ⟨h1, h2, h3, fun x hx => h4 x ?_, h5, fun x hx => ?_⟩
      · rcases hx with hx | ⟨hx, hxn⟩
        · exact .inl hx
        · rcases mem_cons.mp hx with rfl | hx
          · exact absurd hxn hal
          · exact .inr ⟨hx, hxn⟩
      · have hxc : x ≠ c := fun e => hal (e ▸ hx)
        rw [h6 x hx]
        simp [hxc]

/-- Taking the candidates leaves nothing recorded and nothing flagged, and two references to each. -/
theorem Ok.seed (ok : Ok [] h) (drops pruneAt : ℕ) :
    Ok ((Heap.seed h.candidates ([], { h with candidates := [], drops := drops, pruneAt := pruneAt })).1 ++
      (Heap.seed h.candidates ([], { h with candidates := [], drops := drops, pruneAt := pruneAt })).1)
      (Heap.seed h.candidates ([], { h with candidates := [], drops := drops, pruneAt := pruneAt })).2 := by
  obtain ⟨h1, h2, h3, h4, h5, h6⟩ :=
    seeded h.candidates [] { h with candidates := [], drops := drops, pruneAt := pruneAt }
  generalize Heap.seed h.candidates ([], _) = r at h1 h2 h3 h4 h5 h6 ⊢
  have hsub : ∀ x ∈ r.1, x ∈ h.nodes := fun x hx => (h3 x hx).resolve_left not_mem_nil
  obtain ⟨hn, he, hh, hi, hc⟩ := h1
  simp only at hn he hh hi hc h5 h6
  refine ⟨hn ▸ ok.nodup, by rw [hn, hi]; exact ok.fresh, by rw [hn, he]; exact ok.dead,
    by rw [hn, hh]; exact ok.handle, fun x hx => ?_, by rw [hn, he]; exact ok.edge, fun x hx => ?_, fun x hx => ?_,
    fun x hx => ?_, by simp [hc]⟩
  · rw [hn]
    rcases mem_append.mp hx with hx | hx <;> exact hsub x hx
  · rw [hn] at hx
    have hs := h5 x
    have hcnt := ok.count x hx
    rw [count_nil] at hs hcnt
    rw [hh, he, hn, count_append]
    omega
  · rw [hn] at hx
    have := h5 x
    have := ok.used x hx
    rw [count_nil] at *
    omega
  · rw [hn] at hx
    rw [h6 x hx, ok.flag x hx, hc]
    simp

/-! ### Working off a queue -/

section Queue

variable {seen queue l : List Id} {y : Id}

/-- The head of the queue is dealt with, and what it led to is seen and queued. -/
theorem queued_step (h : ∀ y ∈ x :: queue, y ∈ seen) (hy : y ∈ queue ++ l) : y ∈ seen ++ l := by
  rcases mem_append.mp hy with hy | hy
  · exact mem_append_left _ (h y (mem_cons_of_mem _ hy))
  · exact mem_append_right _ hy

theorem closed_step {next : Id → Id → Prop} (h : ∀ y ∈ seen, y ∉ x :: queue → ∀ c, next y c → c ∈ seen)
    (hx : ∀ c, next x c → c ∈ seen ++ l) (hy : y ∈ seen ++ l) (hyq : y ∉ queue ++ l) {c : Id} (hc : next y c) :
    c ∈ seen ++ l := by
  rw [mem_append, not_or] at hyq
  by_cases hyx : y = x
  · exact hx c (hyx ▸ hc)
  · have hseen : y ∈ seen := (mem_append.mp hy).resolve_right hyq.2
    have hrest : y ∉ x :: queue := by
      rw [mem_cons, not_or]
      exact ⟨hyx, hyq.1⟩
    exact mem_append_left _ (h y hseen hrest c hc)

end Queue

/-! ### The closing walk -/

/-- The visitor queues what it notes, and notes every child. -/
structure Discovered (cs : List Id) (s s' : List Id × List Id × Heap) : Prop where
  same : SameGraph s.2.2 s'.2.2
  ok : ∀ {held}, Ok (s.2.1 ++ s.1 ++ held) s.2.2 → Ok (s'.2.1 ++ s'.1 ++ held) s'.2.2
  nodup : s.1.Nodup → s'.1.Nodup
  news : ∃ l, s'.1 = s.1 ++ l ∧ s'.2.1 = s.2.1 ++ l ∧ ∀ x ∈ l, x ∈ s.2.2.nodes
  mem : ∀ x ∈ cs, x ∈ s.2.2.nodes → x ∈ s'.1

theorem discovered : ∀ (cs : List Id) (s : List Id × List Id × Heap), Discovered cs s (Heap.discover cs s)
  | [], s => ⟨.refl _, id, id, ⟨[], by simp [Heap.discover], by simp [Heap.discover], by simp⟩, by simp⟩
  | c :: cs, (nodes, queue, h) => by
    simp only [Heap.discover]
    split_ifs with hc
    · simp only [Bool.and_eq_true, Heap.alive, contains_iff_mem, Bool.not_eq_true', ← Bool.not_eq_true] at hc
      obtain ⟨hal, hn⟩ := hc
      obtain ⟨h1, h2, h3, ⟨l, hl1, hl2, hl3⟩, h5⟩ := discovered cs (nodes ++ [c], queue ++ [c], (h.retain c).retain c)
      refine ⟨⟨h1.nodes, h1.edges, h1.handles, h1.nextId, h1.candidates⟩, fun hok => h2 ?_, fun hnd => h3 ?_,
        ⟨c :: l, by simp [hl1], by simp [hl2], ?_⟩, ?_⟩
      · refine ((hok.retain hal).retain (x := c) hal).perm ?_
        simp only
        refine perm_iff_count.mpr fun a => ?_
        simp only [count_cons, count_append, count_nil]
        omega
      · exact hnd.append (nodup_singleton c) (by simpa using hn)
      · intro x hx
        rcases mem_cons.mp hx with rfl | hx
        · exact hal
        · exact hl3 x hx
      · intro x hx hxn
        rcases mem_cons.mp hx with rfl | hx
        · rw [hl1]
          simp
        · exact h5 x hx hxn
    · obtain ⟨h1, h2, h3, ⟨l, hl1, hl2, hl3⟩, h5⟩ := discovered cs (nodes, queue, h)
      refine ⟨h1, h2, h3, ⟨l, hl1, hl2, hl3⟩, fun x hx hxn => ?_⟩
      rcases mem_cons.mp hx with rfl | hx
      · have : x ∈ nodes := by simpa [Heap.alive, hxn] using hc
        rw [hl1]
        exact mem_append_left _ this
      · exact h5 x hx hxn

/-- What holds while the queue is worked off. -/
structure Walking (h₀ : Heap) (seeds : List Id) (s : List Id × List Id × Heap) : Prop where
  same : SameGraph h₀ s.2.2
  ok : Ok (s.2.1 ++ s.1) s.2.2
  nodup : s.1.Nodup
  seeds : ∀ x ∈ seeds, x ∈ s.1
  queued : ∀ x ∈ s.2.1, x ∈ s.1
  closed : ∀ x ∈ s.1, x ∉ s.2.1 → ∀ c ∈ s.2.2.edges x, c ∈ s.1

variable {seeds : List Id}

theorem Walking.length_le {h₀ : Heap} {s : List Id × List Id × Heap} (w : Walking h₀ seeds s) :
    s.1.length ≤ s.2.2.nodes.length :=
  (w.nodup.subperm fun x hx => w.ok.hold x (mem_append_right _ hx)).length_le

theorem Walking.step {h₀ : Heap} {s s' : List Id × List Id × Heap} (w : Walking h₀ seeds s)
    (hs : Heap.walkStep s = some s') : Walking h₀ seeds s' ∧
      s'.2.1.length + (s'.2.2.nodes.length - s'.1.length) < s.2.1.length + (s.2.2.nodes.length - s.1.length) := by
  obtain ⟨nodes, _ | ⟨x, queue⟩, g⟩ := s
  · cases hs
  simp only [Heap.walkStep, Option.some.injEq] at hs
  subst hs
  obtain ⟨hsame, hok, hnd, ⟨l, hl1, hl2, hl3⟩, hmem⟩ := discovered (g.edges x) (nodes, queue, g)
  generalize Heap.discover (g.edges x) (nodes, queue, g) = r at hsame hok hnd hl1 hl2 hmem ⊢
  obtain ⟨nodes', queue', g'⟩ := r
  simp only at hsame hok hnd hl1 hl2 hl3 hmem ⊢
  have hx : x ∈ nodes := w.queued x mem_cons_self
  have hxn : x ∈ nodes' := by
    rw [hl1]
    exact mem_append_left _ hx
  have hok' : Ok (x :: (queue' ++ nodes')) g' := by
    have hgot : Ok (queue' ++ nodes' ++ [x]) g' := by
      refine hok (w.ok.perm ?_)
      simp only [cons_append]
      refine perm_iff_count.mpr fun a => ?_
      simp only [count_cons, count_append, count_nil]
      omega
    refine hgot.perm (perm_iff_count.mpr fun a => ?_)
    simp only [count_cons, count_append, count_nil]
    omega
  -- `nodes` still holds the node that the queue gives up
  have hst : g'.strong x ≠ 1 := by
    rw [hok'.count x (hok'.hold x mem_cons_self), count_cons_self, count_append]
    have := count_pos_iff.mpr hxn
    omega
  have hdrop : g'.dropRc x = g'.unretain x := by rw [Heap.dropRc, if_neg hst]
  rw [hdrop]
  have hw : Walking h₀ seeds (nodes', queue', g'.unretain x) := by
    refine ⟨w.same.trans ⟨hsame.nodes, hsame.edges, hsame.handles, hsame.nextId, hsame.candidates⟩,
      hok'.unretain hst, hnd w.nodup, fun y hy => ?_, fun y hy => ?_, fun y hy hyq c hc => ?_⟩
    · rw [hl1]
      exact mem_append_left _ (w.seeds y hy)
    · rw [hl2] at hy
      rw [hl1]
      exact queued_step w.queued hy
    · simp only [Heap.unretain, hsame.edges] at hc
      rw [hl1] at hy hmem ⊢
      rw [hl2] at hyq
      apply closed_step (fun y hy hyq c hc => w.closed y hy hyq c hc) (fun c hc => ?_) hy hyq hc
      exact hmem c hc (w.ok.edge x c hc)
  refine ⟨hw, ?_⟩
  have hlen := hw.length_le
  simp only [Heap.unretain, hsame.nodes] at hlen ⊢
  rw [hl1, length_append] at hlen ⊢
  rw [hl2, length_append, length_cons]
  omega

/-- **The closing walk** ends with a snapshot that holds what it started from, is closed along edges,
and has one reference to each of its nodes. -/
theorem Walking.run {h₀ : Heap} {s : List Id × List Id × Heap} (w : Walking h₀ seeds s)
    (hlen : s.2.1.length ≤ s.1.length) :
    ∃ nodes h', Loop.run Heap.walkStep h₀.nodes.length s = (nodes, [], h') ∧ SameGraph h₀ h' ∧ Ok nodes h' ∧
      nodes.Nodup ∧ (∀ x ∈ seeds, x ∈ nodes) ∧ ∀ x ∈ nodes, ∀ c ∈ h'.edges x, c ∈ nodes := by
  have hle := w.length_le
  have hmu : s.2.1.length + (s.2.2.nodes.length - s.1.length) ≤ h₀.nodes.length := by
    rw [w.same.nodes] at hle ⊢
    omega
  obtain ⟨hw, hend⟩ := Loop.run_spec (fun _ _ hs he => Walking.step hs he) _ w hmu
  generalize Loop.run Heap.walkStep _ s = r at hw hend
  obtain ⟨nodes, _ | ⟨x, queue⟩, g⟩ := r
  · exact ⟨nodes, g, rfl, hw.same, by simpa using hw.ok, hw.nodup, hw.seeds,
      fun x hx c hc => hw.closed x hx not_mem_nil c hc⟩
  · cases hend

/-! ### The edges of the snapshot -/

theorem countEdges (nodes l : List Id) (inc : Id → ℕ) (hx : x ∈ nodes) :
    l.foldl (Heap.countEdge nodes) inc x = inc x + l.count x := by
  induction l generalizing inc with
  | nil => rfl
  | cons c l ih =>
    rw [foldl_cons, ih, Heap.countEdge]
    by_cases hxc : c = x
    · subst hxc
      rw [if_pos (by simpa using hx), update_self, count_cons_self]
      omega
    · rw [count_cons_of_ne hxc]
      split_ifs
      · rw [update_of_ne (Ne.symm hxc)]
      · rfl

/-- The count of a node of the snapshot is that of the edges to it. -/
theorem incoming_eq (h : Heap) (hx : x ∈ nodes) : h.incoming nodes x = indegree h.edges nodes x := by
  have hfold : ∀ (l : List Id) (inc : Id → ℕ),
      l.foldl (fun inc n => (h.edges n).foldl (Heap.countEdge nodes) inc) inc x = inc x + indegree h.edges l x := by
    intro l
    induction l with
    | nil => intro inc; simp
    | cons n l ih =>
      intro inc
      rw [foldl_cons, ih, countEdges nodes _ _ hx, indegree_cons]
      omega
  rw [Heap.incoming, hfold]
  simp

/-- A node of the snapshot is in use from outside when there is a handle on it, or an edge from a
node that is not of the snapshot. -/
theorem outside_pos (ok : Ok nodes h) (hnd : nodes.Nodup) (hx : x ∈ nodes) :
    0 < h.outside nodes x ↔ x ∈ h.handles ∨ ∃ a ∈ h.nodes, a ∉ nodes ∧ x ∈ h.edges a := by
  have hsub : nodes ⊆ h.nodes := ok.hold
  have hone : nodes.count x = 1 := count_eq_one_of_mem hnd hx
  have hsplit := indegree_split h.edges (x := x) ok.nodup hnd hsub
  have hval : h.outside nodes x = h.handles.count x + indegree h.edges (h.nodes.filter (· ∉ nodes)) x := by
    rw [Heap.outside, ok.count x (hsub hx), incoming_eq h hx, hone, hsplit]
    omega
  rw [hval, Nat.add_pos_iff_pos_or_pos, count_pos_iff, indegree_pos]
  simp [and_assoc]

/-! ### The marking walk -/

/-- A walk over some nodes has marked those that count, once each. -/
structure Marked (nodes cs : List Id) (s s' : List Id × List Id) : Prop where
  nodup : s.1.Nodup → s'.1.Nodup
  news : ∃ l, s'.1 = s.1 ++ l ∧ s'.2 = s.2 ++ l ∧ ∀ x ∈ l, x ∈ nodes ∧ x ∈ cs
  mem : ∀ x ∈ cs, x ∈ nodes → x ∈ s'.1

theorem marked (nodes : List Id) : ∀ (cs : List Id) (s : List Id × List Id), Marked nodes cs s (Heap.mark nodes cs s)
  | [], s => ⟨id, ⟨[], by simp [Heap.mark], by simp [Heap.mark], by simp⟩, by simp⟩
  | c :: cs, (live, queue) => by
    simp only [Heap.mark]
    split_ifs with hc
    · simp only [Bool.and_eq_true, contains_iff_mem, Bool.not_eq_true', ← Bool.not_eq_true] at hc
      obtain ⟨hn, hl⟩ := hc
      obtain ⟨h3, ⟨l, hl1, hl2, hl3⟩, h5⟩ := marked nodes cs (live ++ [c], queue ++ [c])
      refine ⟨fun hnd => h3 ?_, ⟨c :: l, by simp [hl1], by simp [hl2], ?_⟩, ?_⟩
      · exact hnd.append (nodup_singleton c) (by simpa using hl)
      · intro x hx
        rcases mem_cons.mp hx with rfl | hx
        · exact ⟨hn, mem_cons_self⟩
        · exact ⟨(hl3 x hx).1, mem_cons_of_mem _ (hl3 x hx).2⟩
      · intro x hx hxn
        rcases mem_cons.mp hx with rfl | hx
        · rw [hl1]
          simp
        · exact h5 x hx hxn
    · obtain ⟨h3, ⟨l, hl1, hl2, hl3⟩, h5⟩ := marked nodes cs (live, queue)
      refine ⟨h3, ⟨l, hl1, hl2, fun x hx => ⟨(hl3 x hx).1, mem_cons_of_mem _ (hl3 x hx).2⟩⟩, fun x hx hxn => ?_⟩
      rcases mem_cons.mp hx with rfl | hx
      · have : x ∈ live := by simpa [hxn] using hc
        rw [hl1]
        exact mem_append_left _ this
      · exact h5 x hx hxn

/-- What holds while the marking queue is worked off. -/
structure Marking (h : Heap) (nodes rooted : List Id) (s : List Id × List Id) : Prop where
  nodup : s.1.Nodup
  sub : ∀ x ∈ s.1, x ∈ nodes
  sound : ∀ x ∈ s.1, Reach h.edges rooted x
  rooted : ∀ x ∈ rooted, x ∈ s.1
  queued : ∀ x ∈ s.2, x ∈ s.1
  closed : ∀ x ∈ s.1, x ∉ s.2 → ∀ c ∈ h.edges x, c ∈ nodes → c ∈ s.1

theorem Marking.step {rooted : List Id} {s s' : List Id × List Id} (m : Marking h nodes rooted s)
    (hs : h.markStep nodes s = some s') : Marking h nodes rooted s' ∧
      s'.2.length + (nodes.length - s'.1.length) < s.2.length + (nodes.length - s.1.length) := by
  obtain ⟨live, _ | ⟨x, queue⟩⟩ := s
  · cases hs
  simp only [Heap.markStep, Option.some.injEq] at hs
  subst hs
  obtain ⟨hnd, ⟨l, hl1, hl2, hl3⟩, hmem⟩ := marked nodes (h.edges x) (live, queue)
  generalize Heap.mark nodes (h.edges x) (live, queue) = r at hnd hl1 hl2 hmem ⊢
  obtain ⟨live', queue'⟩ := r
  simp only at hnd hl1 hl2 hmem ⊢
  have hx : x ∈ live := m.queued x mem_cons_self
  have hm : Marking h nodes rooted (live', queue') := by
    refine ⟨hnd m.nodup, fun y hy => ?_, fun y hy => ?_, fun y hy => ?_, fun y hy => ?_, fun y hy hyq c hc hcn => ?_⟩
    · rcases mem_append.mp (hl1 ▸ hy) with hy | hy
      · exact m.sub y hy
      · exact (hl3 y hy).1
    · rcases mem_append.mp (hl1 ▸ hy) with hy | hy
      · exact m.sound y hy
      · exact (m.sound x hx).tail (hl3 y hy).2
    · rw [hl1]
      exact mem_append_left _ (m.rooted y hy)
    · rw [hl2] at hy
      rw [hl1]
      exact queued_step m.queued hy
    · rw [hl1] at hy hmem ⊢
      rw [hl2] at hyq
      have hclosed (y : Id) (hy : y ∈ live) (hyq : y ∉ x :: queue) (c : Id) (hc : c ∈ h.edges y ∧ c ∈ nodes) : c ∈ live :=
        m.closed y hy hyq c hc.1 hc.2
      exact closed_step hclosed (fun c hc => hmem c hc.1 hc.2) hy hyq ⟨hc, hcn⟩
  refine ⟨hm, ?_⟩
  have hlen : live'.length ≤ nodes.length := (hm.nodup.subperm hm.sub).length_le
  rw [hl1, length_append] at hlen ⊢
  rw [hl2, length_append, length_cons]
  omega

/-- **The marking walk** finds what is reachable from the nodes in use, inside a closed snapshot. -/
theorem mem_live {rooted : List Id} (hr : rooted.Nodup) (hsub : ∀ x ∈ rooted, x ∈ nodes)
    (hclosed : ∀ x ∈ nodes, ∀ c ∈ h.edges x, c ∈ nodes) :
    x ∈ (Loop.run (h.markStep nodes) nodes.length (rooted, rooted)).1 ↔ Reach h.edges rooted x := by
  have hlen := (hr.subperm hsub).length_le
  have m : Marking h nodes rooted (rooted, rooted) :=
    ⟨hr, hsub, fun _ hx => .root hx, fun _ hx => hx, fun _ hx => hx, fun _ hx hn => absurd hx hn⟩
  obtain ⟨hm, hend⟩ := Loop.run_spec (fun _ _ hs he => Marking.step hs he) nodes.length m (by simp only; omega)
  generalize Loop.run (h.markStep nodes) _ _ = r at hm hend ⊢
  obtain ⟨live, _ | ⟨y, queue⟩⟩ := r
  · refine ⟨hm.sound x, fun hx => hx.induct hm.rooted fun a ha b hb => ?_⟩
    exact hm.closed a ha not_mem_nil b hb (hclosed a (hm.sub a ha) b hb)
  · cases hend

end Scriptc.RuntimeRust
