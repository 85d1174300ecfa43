import Scriptc.Runtime.CycleCounts

/-!
# Trial deletion

The three walks of a pass over the objects that its candidates reach. The equation that carries all
of them says where the counts are: what the walks have taken off the count of an object are the
walked edges from objects that are not black (gray, white or doomed) at that moment. In the end
only doomed objects are not black, and they are the walked objects that nothing else leads to.
-/

namespace Scriptc.Runtime

open Graph List

/-- Only counts, colors, the survivors and the white set differ. -/
structure Shape (h h' : Heap) : Prop where
  objs : h'.objs = h.objs
  headered : h'.headered = h.headered
  gen : h'.gen = h.gen
  buffered : h'.buffered = h.buffered
  traced : h'.traced = h.traced
  untraced : h'.untraced = h.untraced
  roots : h'.roots = h.roots
  nextId : h'.nextId = h.nextId
  outside : h'.outside = h.outside

theorem Shape.refl (h : Heap) : Shape h h := ⟨rfl, rfl, rfl, rfl, rfl, rfl, rfl, rfl, rfl⟩

theorem Shape.trans {h h' h'' : Heap} (a : Shape h h') (b : Shape h' h'') : Shape h h'' :=
  ⟨b.objs.trans a.objs, b.headered.trans a.headered, b.gen.trans a.gen, b.buffered.trans a.buffered,
    b.traced.trans a.traced, b.untraced.trans a.untraced, b.roots.trans a.roots, b.nextId.trans a.nextId,
    b.outside.trans a.outside⟩

theorem Shape.kids {h h' : Heap} (s : Shape h h') (x : Id) (limit : Gen) : h'.kids x limit = h.kids x limit := by
  simp only [Heap.kids, s.traced, s.gen]

theorem Shape.turns {h h' : Heap} (s : Shape h h') (work : List Id) : h'.turns work = h.turns work := by
  simp only [Heap.turns, s.objs, s.traced]

/-- Walked and not black. -/
def Color.pale : Color → Bool
  | .gray | .white | .doomed => true
  | _ => false

/-- The objects of a pale color. -/
def Heap.pale (h : Heap) : List Id := h.objs.filter fun x => (h.color x).pale

section Walk

/- The heap before the walks, what the pass collects, and its candidates. -/
variable (h₀ : Heap) (limit : Gen) (cands : List Id)

/-- The edges that are walked. -/
def walk (x : Id) : List Id := h₀.kids x limit

/-- What the candidates reach. -/
def Walked (x : Id) : Prop := Reach (walk h₀ limit) cands x

/-- A walked object that something other than a walked edge from a walked object refers to. -/
def Held (x : Id) : Prop :=
  Walked h₀ limit cands x ∧ (x ∈ h₀.outside ∨ ∃ a ∈ h₀.objs, x ∈ h₀.untraced a ∨ x ∈ h₀.traced a ∧ ¬ Walked h₀ limit cands a)

/-- A walked object that such an object leads to. -/
def Rescued (x : Id) : Prop := ∃ y, Held h₀ limit cands y ∧ Reach (walk h₀ limit) [y] x

/-- The heap is fit to be walked: counts are right, and nothing has a color of the walk. -/
structure Fit : Prop where
  nodup : h₀.objs.Nodup
  count : ∀ x ∈ h₀.objs, h₀.rc x = h₀.outside.count x + indegree h₀.edges h₀.objs x
  edge : ∀ a ∈ h₀.objs, ∀ x ∈ h₀.edges a, x ∈ h₀.objs
  tone : ∀ x ∈ h₀.objs, h₀.color x = .black ∨ h₀.color x = .purple
  cands : ∀ x ∈ cands, x ∈ h₀.objs ∧ (h₀.gen x).above limit = false
  unbuffered : ∀ x ∈ h₀.objs, (h₀.gen x).above limit = false → h₀.buffered x = false
  promote : h₀.promote = []

end Walk

variable {h₀ h h' : Heap} {limit : Gen} {cands work rest : List Id} {x y c : Id}

theorem mem_walk : c ∈ walk h₀ limit x ↔ c ∈ h₀.traced x ∧ (h₀.gen c).above limit = false := by
  simp [walk, Heap.kids]

theorem walk_eq (s : Shape h₀ h) (x : Id) : h.kids x limit = walk h₀ limit x := s.kids x limit

/-- The walked objects are objects of the generations that the pass collects. -/
theorem Walked.spec (f : Fit h₀ limit cands) (hx : Walked h₀ limit cands x) :
    x ∈ h₀.objs ∧ (h₀.gen x).above limit = false := by
  refine hx.induct (S := fun z => z ∈ h₀.objs ∧ (h₀.gen z).above limit = false) f.cands fun a ha b hb => ?_
  obtain ⟨hb, hg⟩ := mem_walk.mp hb
  exact ⟨f.edge a ha.1 b (mem_append_left _ hb), hg⟩

theorem indegree_walk_le (f : Fit h₀ limit cands) (hx : x ∈ h₀.objs) (p : Id → Bool) :
    indegree (walk h₀ limit) (h₀.objs.filter p) x ≤ h₀.rc x := by
  have h1 : indegree (walk h₀ limit) (h₀.objs.filter p) x ≤ indegree (walk h₀ limit) h₀.objs x :=
    indegree_filter_le p
  have h2 : ∀ l : List Id, indegree (walk h₀ limit) l x ≤ indegree h₀.edges l x := by
    intro l
    induction l with
    | nil => simp
    | cons a l ih =>
      have : (walk h₀ limit a).count x ≤ (h₀.edges a).count x := by
        rw [Heap.edges, count_append]
        have := (filter_sublist (l := h₀.traced a) (p := fun c => !(h₀.gen c).above limit)).count_le x
        simp only [walk, Heap.kids]
        omega
      rw [indegree_cons, indegree_cons]
      omega
  have := f.count x hx
  have := h2 h₀.objs
  omega

/-! ### Painting -/

theorem paint_shape (h : Heap) (x : Id) (c : Color) : Shape h (h.paint x c) := ⟨rfl, rfl, rfl, rfl, rfl, rfl, rfl, rfl, rfl⟩
theorem dec_shape (h : Heap) (x : Id) : Shape h (h.dec x) := ⟨rfl, rfl, rfl, rfl, rfl, rfl, rfl, rfl, rfl⟩
theorem inc_shape (h : Heap) (x : Id) : Shape h (h.inc x) := ⟨rfl, rfl, rfl, rfl, rfl, rfl, rfl, rfl, rfl⟩

theorem blacken_shape (h : Heap) (x : Id) : Shape h (h.blacken x) := by
  unfold Heap.blacken
  simp only
  split_ifs <;> exact ⟨rfl, rfl, rfl, rfl, rfl, rfl, rfl, rfl, rfl⟩

@[simp] theorem paint_color_self (h : Heap) (x : Id) (c : Color) : (h.paint x c).color x = c := by simp [Heap.paint]

theorem paint_color_of_ne (h : Heap) (c : Color) (hy : y ≠ x) : (h.paint x c).color y = h.color y := by
  simp [Heap.paint, hy]

/-- A color that turns pale brings the edges of the object in. -/
theorem indegree_pale_of_paint (hn : h.objs.Nodup) (hx : x ∈ h.objs) {a : Color} (h1 : (h.color x).pale = false)
    (h2 : a.pale = true) (succ : Id → List Id) (y : Id) :
    indegree succ (h.paint x a).pale y = (succ x).count y + indegree succ h.pale y := by
  refine indegree_filter_insert hn hx h1 (by simpa using h2) fun b hb => ?_
  rw [paint_color_of_ne h a hb]

/-- A color that turns from pale takes them out. -/
theorem indegree_pale_of_blacken (hn : h.objs.Nodup) (hx : x ∈ h.objs) (h1 : (h.color x).pale = true)
    (succ : Id → List Id) (y : Id) :
    indegree succ h.pale y = (succ x).count y + indegree succ (h.paint x .black).pale y := by
  refine indegree_filter_insert hn hx (by simp [Color.pale]) h1 fun b hb => ?_
  rw [paint_color_of_ne h .black hb]

theorem pale_of_paint {a : Color} (h1 : (h.color x).pale = true) (h2 : a.pale = true) : (h.paint x a).pale = h.pale := by
  refine filter_congr fun b _ => ?_
  by_cases hb : b = x
  · subst hb
    simp [h1, h2]
  · rw [paint_color_of_ne h a hb]

/-! ### Marking gray -/

variable (h₀ limit cands) in
/-- While gray is being marked, with the visits still to come. -/
structure Marking (work : List Id) (h : Heap) : Prop where
  shape : Shape h₀ h
  promote : h.promote = []
  count : ∀ x, h.rc x + indegree (walk h₀ limit) h.pale x = h₀.rc x + work.count x
  tone : ∀ x ∈ h₀.objs, h.color x = .gray ∨ h.color x = h₀.color x
  sound : ∀ x ∈ h₀.objs, h.color x = .gray → Walked h₀ limit cands x
  visit : ∀ x ∈ work, Walked h₀ limit cands x
  closed : ∀ x ∈ h₀.objs, h.color x = .gray → ∀ c ∈ walk h₀ limit x, h.color c = .gray ∨ c ∈ work

/-- The objects that are not gray. -/
def Heap.ungray (h : Heap) : List Id := h.objs.filter fun x => h.color x ≠ .gray

theorem Marking.indegree_gray (f : Fit h₀ limit cands) (m : Marking h₀ limit cands work h)
    (hx : Walked h₀ limit cands x) (hg : h.color x ≠ .gray) (y : Id) : indegree (walk h₀ limit) (h.paint x .gray).pale y =
      (walk h₀ limit x).count y + indegree (walk h₀ limit) h.pale y := by
  have hobj := (hx.spec f).1
  have hpale : (h.color x).pale = false := by
    rcases m.tone x hobj with ht | ht
    · exact absurd ht hg
    · rw [ht]
      rcases f.tone x hobj with h | h <;> simp [h, Color.pale]
  have hmem : x ∈ h.objs := by rwa [m.shape.objs]
  have hnd : h.objs.Nodup := by
    rw [m.shape.objs]
    exact f.nodup
  exact indegree_pale_of_paint hnd hmem hpale rfl _ y

/-- Turning an object gray leaves its children to be visited. -/
theorem Marking.gray (f : Fit h₀ limit cands) (m : Marking h₀ limit cands work h) (hx : Walked h₀ limit cands x)
    (hg : h.color x ≠ .gray) : Marking h₀ limit cands (walk h₀ limit x ++ work) (h.paint x .gray) := by
  refine ⟨m.shape.trans (paint_shape h x .gray), m.promote, fun y => ?_, fun y hy => ?_, fun y hy hc => ?_,
    fun y hy => ?_, fun y hy hc c hk => ?_⟩
  · rw [m.indegree_gray f hx hg, count_append]
    have := m.count y
    show h.rc y + _ = _
    omega
  · by_cases hyx : y = x
    · subst hyx
      exact .inl (by simp)
    · rw [paint_color_of_ne h .gray hyx]
      exact m.tone y hy
  · by_cases hyx : y = x
    · exact hyx ▸ hx
    · rw [paint_color_of_ne h .gray hyx] at hc
      exact m.sound y hy hc
  · rcases mem_append.mp hy with hy | hy
    · exact hx.tail hy
    · exact m.visit y hy
  · by_cases hcx : c = x
    · subst hcx
      exact .inl (by simp)
    · rw [paint_color_of_ne h .gray hcx, mem_append]
      by_cases hyx : y = x
      · subst hyx
        exact .inr (.inl hk)
      · rw [paint_color_of_ne h .gray hyx] at hc
        exact (m.closed y hy hc c hk).imp_right .inr

theorem Marking.dec (f : Fit h₀ limit cands) (m : Marking h₀ limit cands (c :: rest) h) :
    (∀ x, (h.dec c).rc x + indegree (walk h₀ limit) h.pale x = h₀.rc x + rest.count x) := by
  have hc := m.visit c mem_cons_self
  have hle := indegree_walk_le f (hc.spec f).1 fun x => (h.color x).pale
  have hpale : h.pale = h₀.objs.filter fun x => (h.color x).pale := by rw [Heap.pale, m.shape.objs]
  intro x
  have hx := m.count x
  by_cases hxc : x = c
  · subst hxc
    rw [count_cons_self] at hx
    rw [hpale] at hx ⊢
    simp only [Heap.dec, Function.update_self]
    omega
  · rw [count_cons_of_ne (Ne.symm hxc)] at hx
    simpa [Heap.dec, hxc] using hx

/-- One visit. -/
theorem Marking.step (f : Fit h₀ limit cands) {s s' : List Id × Heap} (m : Marking h₀ limit cands s.1 s.2)
    (hs : Heap.markGrayStep limit s = some s') : Marking h₀ limit cands s'.1 s'.2 ∧
      s'.1.length + outdegree (walk h₀ limit) s'.2.ungray < s.1.length + outdegree (walk h₀ limit) s.2.ungray := by
  obtain ⟨_ | ⟨c, rest⟩, h⟩ := s
  · cases hs
  replace m : Marking h₀ limit cands (c :: rest) h := m
  have hc := m.visit c mem_cons_self
  have hobj : c ∈ h.objs := by
    rw [m.shape.objs]
    exact (hc.spec f).1
  have hcount := m.dec f
  simp only [Heap.markGrayStep] at hs
  split_ifs at hs with hg <;> cases hs
  · refine ⟨⟨m.shape.trans (dec_shape h c), m.promote, hcount, m.tone, m.sound,
      fun x hx => m.visit x (mem_cons_of_mem _ hx), fun x hx hxg k hk => ?_⟩, ?_⟩
    · rcases m.closed x hx hxg k hk with hk | hk
      · exact .inl hk
      · rcases mem_cons.mp hk with rfl | hk
        · exact .inl hg
        · exact .inr hk
    · simp only [length_cons]
      show rest.length + outdegree _ h.ungray < _
      omega
  · -- the visited object turns gray: what it was a child of is done
    have hg' : h.color c ≠ .gray := hg
    have m' : Marking h₀ limit cands (walk h₀ limit c ++ (c :: rest)) (h.paint c .gray) := m.gray f hc hg'
    rw [walk_eq (m.shape.trans (dec_shape h c))]
    refine ⟨⟨(m.shape.trans (dec_shape h c)).trans (paint_shape _ c .gray), m.promote, fun x => ?_, m'.tone, m'.sound,
      fun x hx => ?_, fun x hx hxg k hk => ?_⟩, ?_⟩
    · have := hcount x
      show (h.dec c).rc x + indegree _ (h.paint c .gray).pale x = _
      rw [m.indegree_gray f hc hg', count_append]
      omega
    · rcases mem_append.mp hx with hx | hx
      · exact hc.tail hx
      · exact m.visit x (mem_cons_of_mem _ hx)
    · show (h.paint c .gray).color k = .gray ∨ _
      rcases m'.closed x hx hxg k hk with hk | hk
      · exact .inl hk
      · rcases mem_append.mp hk with hk | hk
        · exact .inr (mem_append_left _ hk)
        · rcases mem_cons.mp hk with rfl | hk
          · exact .inl (by simp)
          · exact .inr (mem_append_right _ hk)
    · have := outdegree_lt (walk h₀ limit) (p := fun x => decide ((h.paint c .gray).color x ≠ .gray))
        (q := fun x => decide (h.color x ≠ .gray)) hobj (by simp) (by simpa using hg') fun a _ ha => by
          by_cases hac : a = c
          · subst hac
            simpa using hg'
          · rwa [paint_color_of_ne h .gray hac] at ha
      simp only [length_append, length_cons]
      show _ + outdegree _ (h.paint c .gray).ungray < _ + outdegree _ h.ungray
      unfold Heap.ungray
      show _ + outdegree _ (h.objs.filter _) < _
      omega

theorem outdegree_le_turns (limit : Gen) (s : Shape h₀ h) (p : Id → Bool) (work : List Id) :
    work.length + outdegree (walk h₀ limit) (h.objs.filter p) ≤ h.turns work := by
  have h1 : outdegree (walk h₀ limit) (h.objs.filter p) ≤ outdegree (walk h₀ limit) h.objs := outdegree_filter_le p
  have h2 : ∀ l : List Id, outdegree (walk h₀ limit) l ≤ outdegree h.traced l := by
    intro l
    induction l with
    | nil => simp [outdegree]
    | cons a l ih =>
      have : (walk h₀ limit a).length ≤ (h.traced a).length := by
        rw [s.traced]
        exact length_filter_le ..
      rw [outdegree_cons, outdegree_cons]
      omega
  have := h2 h.objs
  unfold Heap.turns
  unfold outdegree at *
  omega

/-- `scr_mark_gray` of one candidate. -/
theorem Marking.markGray (f : Fit h₀ limit cands) (m : Marking h₀ limit cands [] h) (hx : x ∈ cands) :
    Marking h₀ limit cands [] (h.markGray x limit) ∧ (h.markGray x limit).color x = .gray ∧
      ∀ y ∈ h₀.objs, h.color y = .gray → (h.markGray x limit).color y = .gray := by
  have hw : Walked h₀ limit cands x := .root hx
  unfold Heap.markGray
  split_ifs with hg
  · exact ⟨m, hg, fun _ _ hy => hy⟩
  have m' := m.gray f hw hg
  rw [append_nil, ← walk_eq m.shape] at m'
  -- the colors only turn gray
  have hstep : ∀ s s' : List Id × Heap,
      (Marking h₀ limit cands s.1 s.2 ∧ ∀ y, (h.paint x .gray).color y = .gray → s.2.color y = .gray) →
      Heap.markGrayStep limit s = some s' →
      (Marking h₀ limit cands s'.1 s'.2 ∧ ∀ y, (h.paint x .gray).color y = .gray → s'.2.color y = .gray) ∧
      s'.1.length + outdegree (walk h₀ limit) s'.2.ungray < s.1.length + outdegree (walk h₀ limit) s.2.ungray := by
    rintro s s' ⟨hm, hmono⟩ hs
    obtain ⟨hm', hlt⟩ := hm.step f hs
    refine ⟨⟨hm', fun y hy => ?_⟩, hlt⟩
    have hy := hmono y hy
    obtain ⟨_ | ⟨c, rest⟩, g⟩ := s
    · cases hs
    simp only [Heap.markGrayStep] at hs
    split_ifs at hs with hg <;> cases hs
    · exact hy
    · by_cases hyc : y = c
      · subst hyc
        simp
      · rw [paint_color_of_ne _ _ hyc]
        exact hy
  have hturns : (h.paint x .gray).turns (h.kids x limit) = h.turns (h.kids x limit) := rfl
  have hfuel := outdegree_le_turns limit m'.shape (fun y => decide ((h.paint x .gray).color y ≠ .gray))
    (h.kids x limit)
  rw [hturns] at hfuel
  obtain ⟨⟨hm, hmono⟩, hend⟩ := Loop.run_spec hstep _ (s := (h.kids x limit, h.paint x .gray)) ⟨m', fun _ hy => hy⟩ hfuel
  generalize Loop.run (Heap.markGrayStep limit) _ _ = r at hm hmono hend ⊢
  obtain ⟨_ | ⟨c, rest⟩, g⟩ := r
  · refine ⟨hm, hmono x (by simp), fun y _ hy => hmono y ?_⟩
    by_cases hyx : y = x
    · subst hyx
      simp
    · rwa [paint_color_of_ne _ _ hyx]
  · simp only [Heap.markGrayStep] at hend
    split_ifs at hend

/-- **Gray is what the candidates reach**, and the counts are without the walked edges. -/
theorem marked (f : Fit h₀ limit cands) :
    Marking h₀ limit cands [] (cands.foldl (fun h x => h.markGray x limit) h₀) ∧
    ∀ x ∈ h₀.objs, (cands.foldl (fun h x => h.markGray x limit) h₀).color x = .gray ↔ Walked h₀ limit cands x := by
  have m₀ : Marking h₀ limit cands [] h₀ := by
    have hne : ∀ x ∈ h₀.objs, (h₀.color x).pale = false := by
      intro x hx
      rcases f.tone x hx with h | h <;> simp [h, Color.pale]
    have hpale : h₀.pale = [] := filter_eq_nil_iff.mpr fun x hx => by simp [hne x hx]
    refine ⟨.refl h₀, f.promote, fun x => by simp [hpale], fun _ _ => .inr rfl, fun x hx hg => ?_, by simp,
      fun x hx hg => ?_⟩ <;>
    · have := hne x hx
      rw [hg] at this
      cases this
  have hfold : ∀ (l : List Id) (g : Heap), (∀ x ∈ l, x ∈ cands) → Marking h₀ limit cands [] g →
      Marking h₀ limit cands [] (l.foldl (fun h x => h.markGray x limit) g) ∧
      (∀ x ∈ l, (l.foldl (fun h x => h.markGray x limit) g).color x = .gray) ∧
      ∀ y ∈ h₀.objs, g.color y = .gray → (l.foldl (fun h x => h.markGray x limit) g).color y = .gray := by
    intro l
    induction l with
    | nil => exact fun g _ m => ⟨m, by simp, fun _ _ hy => hy⟩
    | cons x l ih =>
      intro g hl m
      obtain ⟨m1, hx, hmono⟩ := m.markGray f (hl x mem_cons_self)
      obtain ⟨m2, hall, hmono'⟩ := ih _ (fun y hy => hl y (mem_cons_of_mem _ hy)) m1
      refine ⟨m2, fun y hy => ?_, fun y hy hg => hmono' y hy (hmono y hy hg)⟩
      rcases mem_cons.mp hy with rfl | hy
      · exact hmono' y (f.cands y (hl y mem_cons_self)).1 hx
      · exact hall y hy
  obtain ⟨m, hall, -⟩ := hfold cands h₀ (fun _ hx => hx) m₀
  refine ⟨m, fun x hx => ⟨m.sound x hx, fun hw => ?_⟩⟩
  refine (hw.induct (S := fun z => z ∈ h₀.objs ∧ _ = Color.gray)
    (fun r hr => ⟨(f.cands r hr).1, hall r hr⟩) fun a ha b hb => ?_).2
  refine ⟨f.edge a ha.1 b (mem_append_left _ (mem_walk.mp hb).1), ?_⟩
  exact (m.closed a ha.1 ha.2 b hb).resolve_right not_mem_nil

end Scriptc.Runtime
