import Scriptc.Runtime.CycleTrial

/-!
# Scanning and gathering

A gray object whose count is still above zero is referred to by something that the walk did not
take off: it and all below it are black again, with their edges back on the counts. What is left is
white, and the gathering walk dooms all of it.
-/

namespace Scriptc.Runtime

open Graph List

variable {h₀ h h' : Heap} {limit : Gen} {cands work rest back done : List Id} {x y c : Id}

theorem Rescued.walked (hx : Rescued h₀ limit cands x) : Walked h₀ limit cands x := by
  obtain ⟨y, hy, hr⟩ := hx
  exact hy.1.trans hr

theorem Rescued.tail (hx : Rescued h₀ limit cands x) (hc : c ∈ walk h₀ limit x) : Rescued h₀ limit cands c := by
  obtain ⟨y, hy, hr⟩ := hx
  exact ⟨y, hy, hr.tail hc⟩

variable (h₀ limit cands) in
/-- While the scan is under way: the edges still to be put back, the calls still to come, and the
candidates that have been scanned. -/
structure Scanning (back work done : List Id) (h : Heap) : Prop where
  shape : Shape h₀ h
  count : ∀ x, h.rc x + indegree (walk h₀ limit) h.pale x + back.count x = h₀.rc x
  tone : ∀ x ∈ h₀.objs, Walked h₀ limit cands x → h.color x = .gray ∨ h.color x = .white ∨ h.color x = .black
  other : ∀ x ∈ h₀.objs, ¬ Walked h₀ limit cands x → h.color x = h₀.color x
  zero : ∀ x ∈ h₀.objs, h.color x = .white → h.rc x = 0
  visit : ∀ x ∈ back, Rescued h₀ limit cands x
  calls : ∀ x ∈ work, Walked h₀ limit cands x
  rescued : ∀ x ∈ h₀.objs, Walked h₀ limit cands x → h.color x = .black → Rescued h₀ limit cands x
  black : ∀ x ∈ h₀.objs, Walked h₀ limit cands x → h.color x = .black →
    ∀ c ∈ walk h₀ limit x, h.color c = .black ∨ c ∈ back
  white : ∀ x ∈ h₀.objs, h.color x = .white → ∀ c ∈ walk h₀ limit x, h.color c ≠ .gray ∨ c ∈ work
  finished : ∀ x ∈ done, h.color x ≠ .gray ∨ x ∈ work
  promote : ∀ x, x ∈ h.promote ↔ x ∈ h₀.objs ∧ Walked h₀ limit cands x ∧ h.color x = .black ∧ h₀.gen x = .nursery

theorem Scanning.perm {back' : List Id} (hp : back.Perm back') (s : Scanning h₀ limit cands back work done h) :
    Scanning h₀ limit cands back' work done h :=
  { s with
    count := fun x => by rw [← hp.count_eq]; exact s.count x
    visit := fun x hx => s.visit x (hp.mem_iff.mpr hx)
    black := fun x hx hw hb c hc => (s.black x hx hw hb c hc).imp_right hp.mem_iff.mp }

theorem Scanning.walked_of_white (f : Fit h₀ limit cands) (s : Scanning h₀ limit cands back work done h)
    (hx : x ∈ h₀.objs) (hc : h.color x = .white) : Walked h₀ limit cands x := by
  by_contra hn
  have := s.other x hx hn
  rw [hc] at this
  rcases f.tone x hx with h | h <;> rw [h] at this <;> cases this

/-! ### Putting edges back -/

theorem blacken_rc (h : Heap) (x : Id) : (h.blacken x).rc = h.rc := by
  unfold Heap.blacken
  simp only
  split_ifs <;> rfl

theorem blacken_color (h : Heap) (x : Id) : (h.blacken x).color = (h.paint x .black).color := by
  unfold Heap.blacken
  simp only
  split_ifs <;> rfl

theorem blacken_pale (h : Heap) (x : Id) : (h.blacken x).pale = (h.paint x .black).pale := by
  unfold Heap.pale
  rw [blacken_color, (blacken_shape h x).objs]
  rfl

theorem mem_blacken_promote (h : Heap) (x y : Id) :
    y ∈ (h.blacken x).promote ↔ y ∈ h.promote ∨ y = x ∧ h.gen x = .nursery := by
  unfold Heap.blacken
  simp only
  split_ifs with hg
  · have hg' : h.gen x = .nursery := hg
    simp [Heap.paint, hg']
  · have hg' : ¬ h.gen x = .nursery := hg
    simp [Heap.paint, hg']

theorem blacken_color_self (h : Heap) (x : Id) : (h.blacken x).color x = .black := by simp [blacken_color]

theorem blacken_color_of_ne (h : Heap) (hy : y ≠ x) : (h.blacken x).color y = h.color y := by
  rw [blacken_color, paint_color_of_ne h .black hy]

/-- An object turns black: the edges below it are to be put back. -/
theorem Scanning.blacken (f : Fit h₀ limit cands) (s : Scanning h₀ limit cands back work done h)
    (hx : Rescued h₀ limit cands x) (hb : h.color x ≠ .black) :
    Scanning h₀ limit cands (walk h₀ limit x ++ back) work done (h.blacken x) := by
  have hw := hx.walked
  obtain ⟨hobj, -⟩ := hw.spec f
  have hpale : (h.color x).pale = true := by
    rcases s.tone x hobj hw with h | h | h
    · simp [h, Color.pale]
    · simp [h, Color.pale]
    · exact absurd h hb
  have hmem : x ∈ h.objs := by rwa [s.shape.objs]
  have hnd : h.objs.Nodup := by
    rw [s.shape.objs]
    exact f.nodup
  refine ⟨s.shape.trans (blacken_shape h x), fun y => ?_, fun y hy hyw => ?_, fun y hy hyn => ?_, fun y hy hc => ?_,
    fun y hy => ?_, s.calls, fun y hy hyw hc => ?_, fun y hy hyw hc k hk => ?_, fun y hy hc k hk => ?_,
    fun y hy => ?_, fun y => ?_⟩
  · have h1 := s.count y
    rw [indegree_pale_of_blacken hnd hmem hpale] at h1
    rw [blacken_rc, blacken_pale, count_append]
    omega
  · by_cases hyx : y = x
    · subst hyx
      exact .inr (.inr (blacken_color_self h y))
    · rw [blacken_color_of_ne h hyx]
      exact s.tone y hy hyw
  · have hyx : y ≠ x := fun e => hyn (e ▸ hw)
    rw [blacken_color_of_ne h hyx]
    exact s.other y hy hyn
  · have hyx : y ≠ x := by
      rintro rfl
      rw [blacken_color_self] at hc
      cases hc
    rw [blacken_color_of_ne h hyx] at hc
    rw [blacken_rc]
    exact s.zero y hy hc
  · rcases mem_append.mp hy with hy | hy
    · exact hx.tail hy
    · exact s.visit y hy
  · by_cases hyx : y = x
    · exact hyx ▸ hx
    · rw [blacken_color_of_ne h hyx] at hc
      exact s.rescued y hy hyw hc
  · by_cases hkx : k = x
    · exact .inl (by rw [hkx, blacken_color_self])
    · rw [blacken_color_of_ne h hkx, mem_append]
      by_cases hyx : y = x
      · subst hyx
        exact .inr (.inl hk)
      · rw [blacken_color_of_ne h hyx] at hc
        exact (s.black y hy hyw hc k hk).imp_right .inr
  · by_cases hkx : k = x
    · refine .inl ?_
      rw [hkx, blacken_color_self]
      decide
    · have hyx : y ≠ x := by
        rintro rfl
        rw [blacken_color_self] at hc
        cases hc
      rw [blacken_color_of_ne h hyx] at hc
      rw [blacken_color_of_ne h hkx]
      exact s.white y hy hc k hk
  · by_cases hyx : y = x
    · refine .inl ?_
      rw [hyx, blacken_color_self]
      decide
    · rw [blacken_color_of_ne h hyx]
      exact s.finished y hy
  · rw [mem_blacken_promote, s.promote y, s.shape.gen]
    by_cases hyx : y = x
    · subst hyx
      rw [blacken_color_self]
      tauto
    · rw [blacken_color_of_ne h hyx]
      tauto

/-- One edge is put back. -/
theorem Scanning.inc (s : Scanning h₀ limit cands (c :: back) work done h) (hb : h.color c = .black) :
    Scanning h₀ limit cands back work done (h.inc c) := by
  refine ⟨s.shape.trans (inc_shape h c), fun y => ?_, s.tone, s.other, fun y hy hc => ?_,
    fun y hy => s.visit y (mem_cons_of_mem _ hy), s.calls, s.rescued, fun y hy hyw hc k hk => ?_, s.white,
    s.finished, s.promote⟩
  · have h1 := s.count y
    have h2 := inc_rc h c y
    rw [count_cons] at h1
    rw [count_cons, count_nil] at h2
    show (h.inc c).rc y + indegree _ h.pale y + _ = _
    omega
  · have hyc : y ≠ c := by
      rintro rfl
      have hc' : h.color y = .white := hc
      rw [hb] at hc'
      cases hc'
    have := s.zero y hy hc
    simpa [Heap.inc, hyc] using this
  · rcases s.black y hy hyw hc k hk with hk | hk
    · exact .inl hk
    · rcases mem_cons.mp hk with rfl | hk
      · exact .inl hb
      · exact .inr hk

theorem blacken_inc (h : Heap) (x : Id) : (h.inc x).blacken x = (h.blacken x).inc x := by
  unfold Heap.blacken
  simp only
  split_ifs with h1 h2 h2
  · rfl
  · exact absurd h1 h2
  · exact absurd h2 h1
  · rfl

/-- The objects that are not black. -/
def Heap.unblack (h : Heap) : List Id := h.objs.filter fun x => h.color x ≠ .black

theorem outdegree_blacken (h₀ : Heap) (limit : Gen) (hx : x ∈ h.objs) (hb : h.color x ≠ .black) :
    (walk h₀ limit x).length + outdegree (walk h₀ limit) (h.blacken x).unblack ≤
      outdegree (walk h₀ limit) h.unblack := by
  unfold Heap.unblack
  rw [(blacken_shape h x).objs]
  refine outdegree_lt _ hx (by simp [blacken_color_self]) (by simpa using hb) fun a _ ha => ?_
  by_cases hax : a = x
  · subst hax
    simpa using hb
  · rwa [blacken_color_of_ne h hax] at ha

/-- One visit of the walk that puts edges back. It turns no object gray. -/
theorem Scanning.backStep (f : Fit h₀ limit cands) {s s' : List Id × Heap}
    (m : Scanning h₀ limit cands s.1 work done s.2) (hs : Heap.scanBlackStep limit s = some s') :
    Scanning h₀ limit cands s'.1 work done s'.2 ∧
      (∀ y, s.2.color y ≠ .gray → s'.2.color y ≠ .gray) ∧ (∀ y, s.2.color y = .black → s'.2.color y = .black) ∧
      s'.1.length + outdegree (walk h₀ limit) s'.2.unblack < s.1.length + outdegree (walk h₀ limit) s.2.unblack := by
  obtain ⟨_ | ⟨c, rest⟩, h⟩ := s
  · cases hs
  replace m : Scanning h₀ limit cands (c :: rest) work done h := m
  have hc := m.visit c mem_cons_self
  simp only [Heap.scanBlackStep] at hs
  split_ifs at hs with hb <;> cases hs
  · refine ⟨m.inc hb, fun _ hy => hy, fun _ hy => hy, ?_⟩
    simp only [length_cons]
    show rest.length + outdegree _ h.unblack < _
    omega
  · have hb' : h.color c ≠ .black := hb
    have hmem : c ∈ h.objs := by
      rw [m.shape.objs]
      exact (hc.walked.spec f).1
    have hout := outdegree_blacken h₀ limit hmem hb'
    rw [walk_eq (m.shape.trans (inc_shape h c)), blacken_inc]
    refine ⟨?_, fun y hy => ?_, fun y hy => ?_, ?_⟩
    · exact ((m.blacken f hc hb').perm perm_middle).inc (blacken_color_self h c)
    · show (h.blacken c).color y ≠ .gray
      by_cases hyc : y = c
      · rw [hyc, blacken_color_self]
        decide
      · rwa [blacken_color_of_ne h hyc]
    · show (h.blacken c).color y = .black
      by_cases hyc : y = c
      · rw [hyc, blacken_color_self]
      · rwa [blacken_color_of_ne h hyc]
    · simp only [length_append, length_cons]
      show _ + outdegree _ (h.blacken c).unblack < _
      omega

/-- `scr_scan_black`. -/
theorem Scanning.scanBlack (f : Fit h₀ limit cands) (m : Scanning h₀ limit cands [] work done h)
    (hx : Rescued h₀ limit cands x) (hb : h.color x ≠ .black) :
    Scanning h₀ limit cands [] work done (h.scanBlack x limit) ∧ (h.scanBlack x limit).color x = .black ∧
      ∀ y, h.color y ≠ .gray → (h.scanBlack x limit).color y ≠ .gray := by
  have m' := m.blacken f hx hb
  rw [append_nil, ← walk_eq m.shape] at m'
  have hstep : ∀ s s' : List Id × Heap,
      (Scanning h₀ limit cands s.1 work done s.2 ∧ (∀ y, (h.blacken x).color y ≠ .gray → s.2.color y ≠ .gray) ∧
        s.2.color x = .black) → Heap.scanBlackStep limit s = some s' →
      (Scanning h₀ limit cands s'.1 work done s'.2 ∧ (∀ y, (h.blacken x).color y ≠ .gray → s'.2.color y ≠ .gray) ∧
        s'.2.color x = .black) ∧
      s'.1.length + outdegree (walk h₀ limit) s'.2.unblack < s.1.length + outdegree (walk h₀ limit) s.2.unblack := by
    rintro s s' ⟨hm, hng, hbl⟩ hs
    obtain ⟨h1, h2, h3, h4⟩ := hm.backStep f hs
    exact ⟨⟨h1, fun y hy => h2 y (hng y hy), h3 x hbl⟩, h4⟩
  have hfuel := outdegree_le_turns limit m'.shape (fun y => decide ((h.blacken x).color y ≠ .black))
    (h.kids x limit)
  rw [(blacken_shape h x).turns] at hfuel
  obtain ⟨⟨hm, hng, hbl⟩, hend⟩ := Loop.run_spec hstep _ (s := (h.kids x limit, h.blacken x))
    ⟨m', fun _ hy => hy, blacken_color_self h x⟩ hfuel
  unfold Heap.scanBlack
  generalize Loop.run (Heap.scanBlackStep limit) _ _ = r at hm hng hbl hend ⊢
  obtain ⟨_ | ⟨c, rest⟩, g⟩ := r
  · refine ⟨hm, hbl, fun y hy => hng y ?_⟩
    by_cases hyx : y = x
    · rw [hyx, blacken_color_self]
      decide
    · rwa [blacken_color_of_ne h hyx]
  · simp only [Heap.scanBlackStep] at hend
    split_ifs at hend

/-! ### Scanning -/

/-- A gray object with a count left is referred to from elsewhere. -/
theorem Scanning.rescued_of_pos (f : Fit h₀ limit cands) (m : Scanning h₀ limit cands [] work done h)
    (hx : Walked h₀ limit cands x) (hg : h.color x = .gray) (hpos : 0 < h.rc x) : Rescued h₀ limit cands x := by
  obtain ⟨hobj, hgen⟩ := hx.spec f
  refine ⟨x, ⟨hx, ?_⟩, .root (by simp)⟩
  by_contra hno
  push Not at hno
  obtain ⟨hout, hno⟩ := hno
  -- then every reference is a walked edge from a pale object
  have hedge : ∀ a ∈ h₀.objs, (h₀.edges a).count x = if (h.color a).pale then (walk h₀ limit a).count x else 0 := by
    intro a ha
    obtain ⟨hu, ht⟩ := hno a ha
    have hwalk : (walk h₀ limit a).count x = (h₀.traced a).count x :=
      count_filter (by simp [hgen])
    rw [Heap.edges, count_append, count_eq_zero.mpr hu, hwalk]
    split_ifs with hp
    · rfl
    · rw [Nat.add_zero]
      refine count_eq_zero.mpr fun hin => ?_
      have hwa := ht hin
      rcases m.tone a ha hwa with hc | hc | hc
      · simp [hc, Color.pale] at hp
      · simp [hc, Color.pale] at hp
      · rcases m.black a ha hwa hc x (mem_walk.mpr ⟨hin, hgen⟩) with hb | hb
        · rw [hg] at hb
          cases hb
        · exact not_mem_nil hb
  have hsum : ∀ l : List Id, (∀ a ∈ l, a ∈ h₀.objs) →
      indegree h₀.edges l x = indegree (walk h₀ limit) (l.filter fun a => (h.color a).pale) x := by
    intro l hl
    induction l with
    | nil => simp
    | cons a l ih =>
      have ih := ih fun b hb => hl b (mem_cons_of_mem _ hb)
      rw [indegree_cons, ih, hedge a (hl a mem_cons_self)]
      by_cases hp : (h.color a).pale = true
      · simp only [filter_cons, hp, if_true, indegree_cons]
      · simp only [filter_cons, hp, if_false, Bool.false_eq_true, Nat.zero_add]
  have h1 := m.count x
  have h2 := f.count x hobj
  rw [hsum _ fun _ ha => ha, count_eq_zero.mpr hout] at h2
  rw [count_nil, show h.pale = h₀.objs.filter fun a => (h.color a).pale by rw [Heap.pale, m.shape.objs]] at h1
  omega

/-- The gray objects. -/
def Heap.grays (h : Heap) : List Id := h.objs.filter fun x => h.color x = .gray

/-- One call of `scr_scan`. -/
theorem Scanning.step (f : Fit h₀ limit cands) {s s' : List Id × Heap}
    (m : Scanning h₀ limit cands [] s.1 done s.2) (hs : Heap.scanStep limit s = some s') :
    Scanning h₀ limit cands [] s'.1 done s'.2 ∧
      s'.1.length + outdegree (walk h₀ limit) s'.2.grays < s.1.length + outdegree (walk h₀ limit) s.2.grays := by
  obtain ⟨_ | ⟨x, rest⟩, h⟩ := s
  · cases hs
  replace m : Scanning h₀ limit cands [] (x :: rest) done h := m
  have hw := m.calls x mem_cons_self
  obtain ⟨hobj, -⟩ := hw.spec f
  -- a call on an object that is not gray any more can be taken off
  have hpop : ∀ {g : Heap}, Scanning h₀ limit cands [] (x :: rest) done g → g.color x ≠ .gray →
      Scanning h₀ limit cands [] rest done g := by
    intro g n hn
    refine { n with calls := fun y hy => n.calls y (mem_cons_of_mem _ hy), white := fun y hy hc k hk => ?_,
                    finished := fun y hy => ?_ }
    · rcases n.white y hy hc k hk with hk | hk
      · exact .inl hk
      · rcases mem_cons.mp hk with rfl | hk
        · exact .inl hn
        · exact .inr hk
    · rcases n.finished y hy with hy | hy
      · exact .inl hy
      · rcases mem_cons.mp hy with rfl | hy
        · exact .inl hn
        · exact .inr hy
  simp only [Heap.scanStep] at hs
  split_ifs at hs with h1 h2 <;> cases hs
  · refine ⟨hpop m h1, ?_⟩
    simp only [length_cons]
    omega
  · have h1 : h.color x = .gray := not_not.mp h1
    obtain ⟨m', hb, hng⟩ := m.scanBlack f (m.rescued_of_pos f hw h1 h2) (by rw [h1]; decide)
    refine ⟨hpop m' (by rw [hb]; decide), ?_⟩
    have hmono : outdegree (walk h₀ limit) (h.scanBlack x limit).grays ≤ outdegree (walk h₀ limit) h.grays := by
      unfold Heap.grays
      rw [m'.shape.objs, m.shape.objs]
      refine outdegree_mono _ fun a _ ha => ?_
      by_contra hn
      exact hng a (by simpa using hn) (by simpa using ha)
    simp only [length_cons]
    omega
  · have h1 : h.color x = .gray := not_not.mp h1
    have hmem : x ∈ h.objs := by rwa [m.shape.objs]
    have hpale : (h.paint x .white).pale = h.pale := pale_of_paint (by simp [h1, Color.pale]) rfl
    rw [walk_eq m.shape]
    refine ⟨⟨m.shape.trans (paint_shape h x .white), fun y => ?_, fun y hy hyw => ?_, fun y hy hyn => ?_,
      fun y hy hc => ?_, by simp, fun y hy => ?_, fun y hy hyw hc => ?_, fun y hy hyw hc k hk => ?_,
      fun y hy hc k hk => ?_, fun y hy => ?_, fun y => ?_⟩, ?_⟩
    · rw [hpale]
      exact m.count y
    · by_cases hyx : y = x
      · subst hyx
        exact .inr (.inl (by simp))
      · rw [paint_color_of_ne h .white hyx]
        exact m.tone y hy hyw
    · have hyx : y ≠ x := fun e => hyn (e ▸ hw)
      rw [paint_color_of_ne h .white hyx]
      exact m.other y hy hyn
    · by_cases hyx : y = x
      · subst hyx
        show h.rc y = 0
        omega
      · rw [paint_color_of_ne h .white hyx] at hc
        exact m.zero y hy hc
    · rcases mem_append.mp hy with hy | hy
      · exact hw.tail hy
      · exact m.calls y (mem_cons_of_mem _ hy)
    · have hyx : y ≠ x := by
        rintro rfl
        simp at hc
      rw [paint_color_of_ne h .white hyx] at hc
      exact m.rescued y hy hyw hc
    · have hyx : y ≠ x := by
        rintro rfl
        simp at hc
      rw [paint_color_of_ne h .white hyx] at hc
      have hk' := m.black y hy hyw hc k hk
      have hkx : k ≠ x := by
        rintro rfl
        rcases hk' with hk' | hk'
        · rw [h1] at hk'
          cases hk'
        · exact not_mem_nil hk'
      rwa [paint_color_of_ne h .white hkx]
    · by_cases hkx : k = x
      · subst hkx
        exact .inl (by simp)
      · rw [paint_color_of_ne h .white hkx]
        by_cases hyx : y = x
        · subst hyx
          exact .inr (mem_append_left _ hk)
        · rw [paint_color_of_ne h .white hyx] at hc
          rcases m.white y hy hc k hk with hk | hk
          · exact .inl hk
          · exact .inr (mem_append_right _ ((mem_cons.mp hk).resolve_left hkx))
    · by_cases hyx : y = x
      · subst hyx
        exact .inl (by simp)
      · rw [paint_color_of_ne h .white hyx]
        rcases m.finished y hy with hy | hy
        · exact .inl hy
        · exact .inr (mem_append_right _ ((mem_cons.mp hy).resolve_left hyx))
    · rw [show (h.paint x .white).promote = h.promote from rfl, m.promote y]
      by_cases hyx : y = x
      · subst hyx
        simp [h1]
      · rw [paint_color_of_ne h .white hyx]
    · have := outdegree_lt (walk h₀ limit) (p := fun y => decide ((h.paint x .white).color y = .gray))
        (q := fun y => decide (h.color y = .gray)) hmem (by simp) (by simpa using h1) fun a _ ha => by
          by_cases hax : a = x
          · subst hax
            simp at ha
          · rwa [paint_color_of_ne h .white hax] at ha
      simp only [length_append, length_cons]
      show _ + outdegree _ (h.objs.filter _) < _ + outdegree _ (h.objs.filter _)
      omega

/-- `scr_scan` of one candidate. -/
theorem Scanning.scan (f : Fit h₀ limit cands) (m : Scanning h₀ limit cands [] [] done h) (hx : x ∈ cands) :
    Scanning h₀ limit cands [] [] (x :: done) (h.scan x limit) := by
  have m' : Scanning h₀ limit cands [] [x] (x :: done) h := by
    refine { m with calls := fun y hy => ?_, white := fun y hy hc k hk => ?_, finished := fun y hy => ?_ }
    · obtain rfl : y = x := by simpa using hy
      exact .root hx
    · exact .inl ((m.white y hy hc k hk).resolve_right not_mem_nil)
    · rcases mem_cons.mp hy with rfl | hy
      · exact .inr (by simp)
      · exact .inl ((m.finished y hy).resolve_right not_mem_nil)
  have hfuel := outdegree_le_turns limit m.shape (fun y => decide (h.color y = .gray)) [x]
  obtain ⟨hm, hend⟩ := Loop.run_spec (fun _ _ hs he => Scanning.step f hs he) _ (s := ([x], h)) m' hfuel
  unfold Heap.scan
  generalize Loop.run (Heap.scanStep limit) _ _ = r at hm hend ⊢
  obtain ⟨_ | ⟨c, rest⟩, g⟩ := r
  · exact hm
  · simp only [Heap.scanStep] at hend
    split_ifs at hend

/-- **After the scan** nothing is gray, and what is white has no reference left. -/
theorem scanned (f : Fit h₀ limit cands) {g : Heap} (m : Marking h₀ limit cands [] g)
    (hg : ∀ x ∈ h₀.objs, g.color x = .gray ↔ Walked h₀ limit cands x) :
    Scanning h₀ limit cands [] [] cands.reverse (cands.foldl (fun h x => h.scan x limit) g) ∧
    ∀ x ∈ h₀.objs, (cands.foldl (fun h x => h.scan x limit) g).color x ≠ .gray := by
  have hgray : ∀ x ∈ h₀.objs, Walked h₀ limit cands x → g.color x = .gray := fun x hx => (hg x hx).mpr
  have s₀ : Scanning h₀ limit cands [] [] [] g := by
    have hw : ∀ x ∈ h₀.objs, g.color x = .white → False := by
      intro x hx hc
      rcases m.tone x hx with h | h
      · rw [h] at hc
        cases hc
      · rw [hc] at h
        rcases f.tone x hx with h' | h' <;> rw [h'] at h <;> cases h
    refine ⟨m.shape, fun x => m.count x, fun x hx h => .inl (hgray x hx h), fun x hx hn => ?_,
      fun x hx hc => (hw x hx hc).elim, by simp, by simp, fun x hx h hb => ?_, fun x hx h hb => ?_,
      fun x hx hc => (hw x hx hc).elim, by simp, fun x => ?_⟩
    · exact (m.tone x hx).resolve_left fun h => hn ((hg x hx).mp h)
    · rw [hgray x hx h] at hb
      cases hb
    · rw [hgray x hx h] at hb
      cases hb
    · rw [m.promote]
      constructor
      · intro hx
        exact absurd hx not_mem_nil
      · rintro ⟨hx, h, hb, -⟩
        rw [hgray x hx h] at hb
        cases hb
  have hfold : ∀ (l done : List Id) (g : Heap), (∀ x ∈ l, x ∈ cands) → Scanning h₀ limit cands [] [] done g →
      Scanning h₀ limit cands [] [] (l.reverse ++ done) (l.foldl (fun h x => h.scan x limit) g) := by
    intro l
    induction l with
    | nil => exact fun done g _ s => s
    | cons x l ih =>
      intro done g hl s
      have := ih (x :: done) _ (fun y hy => hl y (mem_cons_of_mem _ hy)) (s.scan f (hl x mem_cons_self))
      simpa using this
  have s := hfold cands [] g (fun _ hx => hx) s₀
  rw [append_nil] at s
  refine ⟨s, fun x hx hc => ?_⟩
  have hw : Walked h₀ limit cands x := by
    by_contra hn
    have := s.other x hx hn
    rw [hc] at this
    rcases f.tone x hx with h | h <;> rw [h] at this <;> cases this
  refine (hw.induct (S := fun z => (z ∈ h₀.objs ∧ Walked h₀ limit cands z) ∧
    (cands.foldl (fun h x => h.scan x limit) g).color z ≠ .gray) (fun r hr => ?_) fun a ha b hb => ?_).2 hc
  · exact ⟨⟨(f.cands r hr).1, .root hr⟩,
      (s.finished r (mem_reverse.mpr hr)).resolve_right not_mem_nil⟩
  · obtain ⟨⟨hao, haw⟩, hng⟩ := ha
    have hbo := f.edge a hao b (mem_append_left _ (mem_walk.mp hb).1)
    refine ⟨⟨hbo, haw.tail hb⟩, ?_⟩
    rcases s.tone a hao haw with h | h | h
    · exact absurd h hng
    · exact (s.white a hao h b hb).resolve_right not_mem_nil
    · rw [(s.black a hao haw h b hb).resolve_right not_mem_nil]
      decide

/-! ### Gathering -/

variable (h₀ limit) in
/-- While the white objects are gathered: what has been doomed, in the list or on its way there. -/
structure Gathering (g : Heap) (work : List Heap.Gather) (done : List Id) (h : Heap) : Prop where
  shape : Shape g h
  rc : h.rc = g.rc
  promote : h.promote = g.promote
  color : ∀ x, h.color x = g.color x ∨ g.color x = .white ∧ h.color x = .doomed
  calls : ∀ x, .enter x ∈ work → x ∈ h₀.objs
  closed : ∀ x ∈ h₀.objs, h.color x = .doomed → ∀ c ∈ walk h₀ limit x, h.color c ≠ .white ∨ .enter c ∈ work
  listed : ∀ x ∈ h₀.objs, h.color x = .doomed → x ∈ h.white ∨ .leave x ∈ work
  doomed : ∀ x, x ∈ h.white ∨ .leave x ∈ work → x ∈ h₀.objs ∧ h.color x = .doomed
  nodup : h.white.Nodup
  once : ∀ x, .leave x ∈ work → x ∉ h.white
  single : ∀ x, work.count (.leave x) ≤ 1
  finished : ∀ x ∈ done, h.color x ≠ .white ∨ .enter x ∈ work

/-- The white objects. -/
def Heap.whites (h : Heap) : List Id := h.objs.filter fun x => h.color x = .white

/-- One call of `scr_collect_white`, or the end of one. -/
theorem Gathering.step {g : Heap} (f : Fit h₀ limit cands) (hg : Shape h₀ g)
    (hgw : ∀ x ∈ h₀.objs, g.color x = .white → Walked h₀ limit cands x) {s s' : List Heap.Gather × Heap}
    (m : Gathering h₀ limit g s.1 done s.2) (hs : Heap.gatherStep limit s = some s') :
    Gathering h₀ limit g s'.1 done s'.2 ∧ s'.1.length + outdegree (fun x => x :: walk h₀ limit x) s'.2.whites <
      s.1.length + outdegree (fun x => x :: walk h₀ limit x) s.2.whites := by
  obtain ⟨_ | ⟨_ | _, rest⟩, h⟩ := s
  · cases hs
  · rename_i x
    replace m : Gathering h₀ limit g (.enter x :: rest) done h := m
    have hobj := m.calls x mem_cons_self
    have hne : ∀ {y}, Heap.Gather.leave y ≠ .enter x := by simp
    simp only [Heap.gatherStep] at hs
    split_ifs at hs with hc <;> cases hs
    · -- a white object is not buffered
      have hn : h.color x ≠ .white := by
        intro hw
        have hgx : g.color x = .white := by
          rcases m.color x with h' | ⟨h', -⟩
          · rw [← h', hw]
          · exact h'
        have hb := f.unbuffered x hobj ((hgw x hobj hgx).spec f).2
        simp [hw, m.shape.buffered, hg.buffered, hb] at hc
      refine ⟨{ m with calls := fun y hy => m.calls y (mem_cons_of_mem _ hy), closed := fun y hy hd k hk => ?_,
                       listed := fun y hy hd => ?_, doomed := fun y hy => ?_, once := fun y hy => ?_,
                       single := fun y => ?_, finished := fun y hy => ?_ }, ?_⟩
      · rcases m.closed y hy hd k hk with hk | hk
        · exact .inl hk
        · rcases mem_cons.mp hk with hk | hk
          · cases hk
            exact .inl hn
          · exact .inr hk
      · exact (m.listed y hy hd).imp_right fun hy => (mem_cons.mp hy).resolve_left hne
      · exact m.doomed y (hy.imp_right (mem_cons_of_mem _))
      · exact m.once y (mem_cons_of_mem _ hy)
      · have := m.single y
        rwa [count_cons_of_ne hne.symm] at this
      · rcases m.finished y hy with hy | hy
        · exact .inl hy
        · rcases mem_cons.mp hy with hy | hy
          · cases hy
            exact .inl hn
          · exact .inr hy
      · simp only [length_cons]
        omega
    · simp only [ne_eq, Bool.or_eq_true, decide_eq_true_eq, not_or, not_not, Bool.not_eq_true] at hc
      obtain ⟨hw, -⟩ := hc
      have hmem : x ∈ h.objs := by rwa [m.shape.objs, hg.objs]
      have hgx : g.color x = .white := by
        rcases m.color x with h' | ⟨h', -⟩
        · rw [← h', hw]
        · exact h'
      have hnew : x ∉ h.white ∧ .leave x ∉ rest := by
        refine ⟨fun hin => ?_, fun hin => ?_⟩
        · have := (m.doomed x (.inl hin)).2
          rw [hw] at this
          cases this
        · have := (m.doomed x (.inr (mem_cons_of_mem _ hin))).2
          rw [hw] at this
          cases this
      have hleave : ∀ y, .leave y ∉ (walk h₀ limit x).map Heap.Gather.enter := by simp
      rw [walk_eq (hg.trans m.shape)]
      refine ⟨⟨m.shape.trans (paint_shape h x .doomed), m.rc, m.promote, fun y => ?_, fun y hy => ?_,
        fun y hy hd k hk => ?_, fun y hy hd => ?_, fun y hy => ?_, m.nodup, fun y hy => ?_, fun y => ?_,
        fun y hy => ?_⟩, ?_⟩
      · by_cases hyx : y = x
        · subst hyx
          exact .inr ⟨hgx, by simp⟩
        · rw [paint_color_of_ne h .doomed hyx]
          exact m.color y
      · rcases mem_append.mp hy with hy | hy
        · obtain ⟨k, hk, he⟩ := mem_map.mp hy
          cases he
          exact f.edge x hobj y (mem_append_left _ (mem_walk.mp hk).1)
        · refine m.calls y (mem_cons_of_mem _ ((mem_cons.mp hy).resolve_left (by simp)))
      · by_cases hkx : k = x
        · subst hkx
          exact .inl (by simp)
        · rw [paint_color_of_ne h .doomed hkx]
          by_cases hyx : y = x
          · subst hyx
            exact .inr (mem_append_left _ (mem_map_of_mem hk))
          · rw [paint_color_of_ne h .doomed hyx] at hd
            rcases m.closed y hy hd k hk with hk | hk
            · exact .inl hk
            · refine .inr (mem_append_right _ (mem_cons_of_mem _ ?_))
              rcases mem_cons.mp hk with hk | hk
              · cases hk
                exact absurd rfl hkx
              · exact hk
      · by_cases hyx : y = x
        · subst hyx
          exact .inr (by simp)
        · rw [paint_color_of_ne h .doomed hyx] at hd
          refine (m.listed y hy hd).imp_right fun hy => ?_
          exact mem_append_right _ (mem_cons_of_mem _ ((mem_cons.mp hy).resolve_left hne))
      · by_cases hyx : y = x
        · subst hyx
          exact ⟨hobj, by simp⟩
        · rw [paint_color_of_ne h .doomed hyx]
          refine m.doomed y (hy.imp_right fun hy => ?_)
          rcases mem_append.mp hy with hy | hy
          · exact absurd hy (hleave y)
          · rcases mem_cons.mp hy with hy | hy
            · cases hy
              exact absurd rfl hyx
            · exact mem_cons_of_mem _ hy
      · rcases mem_append.mp hy with hy | hy
        · exact absurd hy (hleave y)
        · rcases mem_cons.mp hy with hy | hy
          · cases hy
            exact hnew.1
          · exact m.once y (mem_cons_of_mem _ hy)
      · have := m.single y
        rw [count_cons_of_ne hne.symm] at this
        rw [count_append, count_eq_zero.mpr (hleave y), Nat.zero_add]
        by_cases hyx : y = x
        · subst hyx
          rw [count_cons_self, count_eq_zero.mpr hnew.2]
        · rw [count_cons_of_ne (by simpa using Ne.symm hyx)]
          exact this
      · by_cases hyx : y = x
        · subst hyx
          exact .inl (by simp)
        · rw [paint_color_of_ne h .doomed hyx]
          rcases m.finished y hy with hy | hy
          · exact .inl hy
          · refine .inr (mem_append_right _ (mem_cons_of_mem _ ?_))
            rcases mem_cons.mp hy with hy | hy
            · cases hy
              exact absurd rfl hyx
            · exact hy
      · have := outdegree_lt (fun x => x :: walk h₀ limit x)
          (p := fun y => decide ((h.paint x .doomed).color y = .white)) (q := fun y => decide (h.color y = .white))
          hmem (by simp) (by simpa using hw) fun a _ ha => by
            by_cases hax : a = x
            · subst hax
              simp at ha
            · rwa [paint_color_of_ne h .doomed hax] at ha
        simp only [length_append, length_cons, length_map] at this ⊢
        show _ + outdegree _ (h.objs.filter _) < _ + outdegree _ (h.objs.filter _)
        omega
  · rename_i x
    replace m : Gathering h₀ limit g (.leave x :: rest) done h := m
    have hne : ∀ {y}, Heap.Gather.enter y ≠ .leave x := by simp
    cases hs
    have hx := m.single x
    rw [count_cons_self] at hx
    have hxr : .leave x ∉ rest := count_eq_zero.mp (by omega)
    have hxw := m.once x mem_cons_self
    refine ⟨⟨⟨m.shape.objs, m.shape.headered, m.shape.gen, m.shape.buffered, m.shape.traced, m.shape.untraced,
      m.shape.roots, m.shape.nextId, m.shape.outside⟩, m.rc, m.promote, m.color,
      fun y hy => m.calls y (mem_cons_of_mem _ hy), fun y hy hd k hk => ?_, fun y hy hd => ?_, fun y hy => ?_, ?_,
      fun y hy => ?_, fun y => ?_, fun y hy => ?_⟩, ?_⟩
    · exact (m.closed y hy hd k hk).imp_right fun hk => (mem_cons.mp hk).resolve_left hne
    · rcases m.listed y hy hd with hy | hy
      · exact .inl (mem_append_left _ hy)
      · rcases mem_cons.mp hy with hy | hy
        · cases hy
          exact .inl (by simp)
        · exact .inr hy
    · refine m.doomed y ?_
      rcases hy with hy | hy
      · rcases mem_append.mp hy with hy | hy
        · exact .inl hy
        · obtain rfl : y = x := by simpa using hy
          exact .inr mem_cons_self
      · exact .inr (mem_cons_of_mem _ hy)
    · exact m.nodup.append (nodup_singleton x) (by simpa using hxw)
    · intro hin
      rcases mem_append.mp hin with hin | hin
      · exact m.once y (mem_cons_of_mem _ hy) hin
      · obtain rfl : y = x := by simpa using hin
        exact hxr hy
    · have := m.single y
      rw [count_cons] at this
      show rest.count (.leave y) ≤ 1
      omega
    · exact (m.finished y hy).imp_right fun hy => (mem_cons.mp hy).resolve_left hne
    · simp only [length_cons]
      show rest.length + outdegree _ h.whites < _
      omega

/-- `scr_collect_white` of one candidate. -/
theorem Gathering.collectWhite {g : Heap} (f : Fit h₀ limit cands) (hg : Shape h₀ g)
    (hgw : ∀ x ∈ h₀.objs, g.color x = .white → Walked h₀ limit cands x) (m : Gathering h₀ limit g [] done h)
    (hx : x ∈ cands) : Gathering h₀ limit g [] (x :: done) (h.collectWhite x limit) := by
  have m' : Gathering h₀ limit g [.enter x] (x :: done) h := by
    refine { m with calls := fun y hy => ?_, closed := fun y hy hd k hk => ?_, listed := fun y hy hd => ?_,
                    doomed := fun y hy => ?_, once := by simp, single := by simp, finished := fun y hy => ?_ }
    · obtain rfl : y = x := by simpa using hy
      exact (f.cands y hx).1
    · exact .inl ((m.closed y hy hd k hk).resolve_right not_mem_nil)
    · exact .inl ((m.listed y hy hd).resolve_right not_mem_nil)
    · exact m.doomed y (.inl (hy.resolve_right (by simp)))
    · rcases mem_cons.mp hy with rfl | hy
      · exact .inr (by simp)
      · exact .inl ((m.finished y hy).resolve_right not_mem_nil)
  have hfuel : [Heap.Gather.enter x].length + outdegree (fun x => x :: walk h₀ limit x) h.whites ≤
      h.turns [x] + h.objs.length := by
    have h1 : outdegree (fun x => x :: walk h₀ limit x) h.whites ≤ outdegree (fun x => x :: walk h₀ limit x) h.objs :=
      outdegree_filter_le _
    have h2 : ∀ l : List Id, outdegree (fun x => x :: walk h₀ limit x) l = outdegree (walk h₀ limit) l + l.length := by
      intro l
      induction l with
      | nil => rfl
      | cons a l ih =>
        rw [outdegree_cons, outdegree_cons, ih]
        simp only [length_cons]
        omega
    have h3 := outdegree_le_turns limit (hg.trans m.shape) (fun _ => true) [x]
    rw [filter_eq_self.mpr (by simp)] at h3
    have := h2 h.objs
    simp only [length_singleton] at h3 ⊢
    omega
  obtain ⟨hm, hend⟩ := Loop.run_spec (fun _ _ hs he => Gathering.step f hg hgw hs he) _ (s := ([.enter x], h)) m' hfuel
  unfold Heap.collectWhite
  generalize Loop.run (Heap.gatherStep limit) _ _ = r at hm hend ⊢
  obtain ⟨_ | ⟨_ | _, rest⟩, g⟩ := r
  · exact hm
  · simp only [Heap.gatherStep] at hend
    split_ifs at hend
  · cases hend

/-! ### The three walks together -/

variable (h₀ limit cands) in
/-- What the walks leave. -/
structure Tried (h : Heap) : Prop where
  shape : Shape h₀ h
  /-- The white set holds the doomed objects, each once: the walked ones that are not rescued. -/
  white : ∀ x, x ∈ h.white ↔ x ∈ h₀.objs ∧ h.color x = .doomed
  nodup : h.white.Nodup
  doomed : ∀ x ∈ h₀.objs, h.color x = .doomed ↔ Walked h₀ limit cands x ∧ ¬ Rescued h₀ limit cands x
  black : ∀ x ∈ h₀.objs, Walked h₀ limit cands x → Rescued h₀ limit cands x → h.color x = .black
  other : ∀ x ∈ h₀.objs, ¬ Walked h₀ limit cands x → h.color x = h₀.color x
  /-- The counts are without the walked edges of the white set. -/
  count : ∀ x, h.rc x + indegree (walk h₀ limit) h.white x = h₀.rc x
  promote : ∀ x, x ∈ h.promote ↔ x ∈ h₀.objs ∧ Rescued h₀ limit cands x ∧ h₀.gen x = .nursery

/-- **Trial deletion** dooms exactly the walked objects that nothing outside of the walk leads to. -/
theorem tried (f : Fit h₀ limit cands) : Tried h₀ limit cands (h₀.trial limit cands) := by
  obtain ⟨hm, hgray⟩ := marked f
  obtain ⟨s, hng⟩ := scanned f hm hgray
  unfold Heap.trial
  simp only
  generalize cands.foldl (fun (h : Heap) x => h.scan x limit) _ = g at s hng ⊢
  have hgw : ∀ x ∈ h₀.objs, g.color x = .white → Walked h₀ limit cands x := fun x hx => s.walked_of_white f hx
  have hcolor : ∀ x ∈ h₀.objs, Walked h₀ limit cands x → g.color x = .white ∨ g.color x = .black := fun x hx hw =>
    (s.tone x hx hw).resolve_left (hng x hx)
  have hnd : ∀ x ∈ h₀.objs, g.color x ≠ .doomed := by
    intro x hx hd
    by_cases hw : Walked h₀ limit cands x
    · rcases hcolor x hx hw with h | h <;> rw [hd] at h <;> cases h
    · have := s.other x hx hw
      rw [hd] at this
      rcases f.tone x hx with h | h <;> rw [h] at this <;> cases this
  have hstart : Gathering h₀ limit { g with white := [] } [] [] { g with white := [] } := by
    refine ⟨.refl _, rfl, rfl, fun _ => .inl rfl, by simp, fun x hx hd => absurd hd (hnd x hx),
      fun x hx hd => absurd hd (hnd x hx), by simp, nodup_nil, by simp, by simp, by simp⟩
  have hgs : Shape h₀ { g with white := [] } := ⟨s.shape.objs, s.shape.headered, s.shape.gen, s.shape.buffered,
    s.shape.traced, s.shape.untraced, s.shape.roots, s.shape.nextId, s.shape.outside⟩
  have hfold : ∀ (l done : List Id) (k : Heap), (∀ x ∈ l, x ∈ cands) →
      Gathering h₀ limit { g with white := [] } [] done k →
      Gathering h₀ limit { g with white := [] } [] (l.reverse ++ done) (l.foldl (fun h x => h.collectWhite x limit) k) := by
    intro l
    induction l with
    | nil => exact fun done k _ m => m
    | cons x l ih =>
      intro done k hl m
      have := ih (x :: done) _ (fun y hy => hl y (mem_cons_of_mem _ hy))
        (m.collectWhite f hgs hgw (hl x mem_cons_self))
      simpa using this
  have m := hfold cands [] _ (fun _ hx => hx) hstart
  rw [append_nil] at m
  generalize cands.foldl (fun (h : Heap) x => h.collectWhite x limit) _ = e at m ⊢
  -- every white object is doomed in the end: its walked parents were white too
  have hall : ∀ x ∈ h₀.objs, g.color x = .white → e.color x = .doomed := by
    intro x hx hc
    refine ((hgw x hx hc).induct (S := fun z => (z ∈ h₀.objs ∧ Walked h₀ limit cands z) ∧
      (g.color z = .white → e.color z = .doomed)) (fun r hr => ?_) fun a ha b hb => ?_).2 hc
    · refine ⟨⟨(f.cands r hr).1, .root hr⟩, fun hw => ?_⟩
      have hn := (m.finished r (mem_reverse.mpr hr)).resolve_right not_mem_nil
      rcases m.color r with h | ⟨-, h⟩
      · rw [h] at hn
        exact absurd hw hn
      · exact h
    · obtain ⟨⟨hao, haw⟩, ha⟩ := ha
      have hbo := f.edge a hao b (mem_append_left _ (mem_walk.mp hb).1)
      refine ⟨⟨hbo, haw.tail hb⟩, fun hw => ?_⟩
      have hga : g.color a = .white := by
        refine (hcolor a hao haw).resolve_right fun hblack => ?_
        have := (s.black a hao haw hblack b hb).resolve_right not_mem_nil
        rw [hw] at this
        cases this
      have hn := (m.closed a hao (ha hga) b hb).resolve_right not_mem_nil
      rcases m.color b with h | ⟨-, h⟩
      · rw [h] at hn
        exact absurd hw hn
      · exact h
  have hdoom : ∀ x ∈ h₀.objs, e.color x = .doomed ↔ g.color x = .white := by
    intro x hx
    refine ⟨fun hd => ?_, hall x hx⟩
    rcases m.color x with h | ⟨h, -⟩
    · rw [hd] at h
      exact absurd h.symm (hnd x hx)
    · exact h
  have hkeep : ∀ x ∈ h₀.objs, g.color x ≠ .white → e.color x = g.color x := by
    intro x hx hn
    rcases m.color x with h | ⟨h, -⟩
    · exact h
    · exact absurd h hn
  have hwhite : ∀ x, x ∈ e.white ↔ x ∈ h₀.objs ∧ e.color x = .doomed := by
    intro x
    constructor
    · intro hx
      exact m.doomed x (.inl hx)
    · rintro ⟨hx, hd⟩
      exact (m.listed x hx hd).resolve_right not_mem_nil
  -- a white object has all its references from white objects, so nothing rescues it
  have hpale : e.white.Perm g.pale := by
    have hnp : g.pale.Nodup := by
      unfold Heap.pale
      rw [s.shape.objs]
      exact f.nodup.filter _
    refine (perm_ext_iff_of_nodup m.nodup hnp).mpr fun x => ?_
    rw [hwhite, Heap.pale, mem_filter, s.shape.objs]
    refine and_congr_right fun hx => ?_
    rw [hdoom x hx]
    constructor
    · intro h
      simp [h, Color.pale]
    · intro h
      by_cases hw : Walked h₀ limit cands x
      · refine (hcolor x hx hw).resolve_right fun hb => ?_
        simp [hb, Color.pale] at h
      · rw [s.other x hx hw] at h
        rcases f.tone x hx with h' | h' <;> simp [h', Color.pale] at h
  have hcount : ∀ x, e.rc x + indegree (walk h₀ limit) e.white x = h₀.rc x := by
    intro x
    have := s.count x
    rw [count_nil] at this
    rw [m.rc, indegree_perm hpale]
    exact this
  have hheld : ∀ x ∈ h₀.objs, Held h₀ limit cands x → g.color x = .black := by
    rintro x hx ⟨hw, hout⟩
    refine (hcolor x hx hw).resolve_left fun hwh => ?_
    -- the count of a white object is zero, so all its references are walked edges of white ones
    have hz := s.zero x hx hwh
    have hc := s.count x
    rw [hz, count_nil, f.count x hx] at hc
    obtain ⟨-, hgen⟩ := hw.spec f
    have hle : ∀ l : List Id, indegree (walk h₀ limit) (l.filter fun a => (g.color a).pale) x +
        indegree h₀.untraced l x + indegree h₀.traced (l.filter fun a => !(g.color a).pale) x =
          indegree h₀.edges l x := by
      intro l
      induction l with
      | nil => simp
      | cons a l ih =>
        have hwalk : (walk h₀ limit a).count x = (h₀.traced a).count x := count_filter (by simp [hgen])
        have he : (h₀.edges a).count x = (h₀.traced a).count x + (h₀.untraced a).count x := count_append ..
        cases hp : (g.color a).pale <;>
          simp only [filter_cons, hp, indegree_cons, Bool.not_true, Bool.not_false, if_true, if_false,
            Bool.false_eq_true] <;> omega
    have hsum := hle h₀.objs
    rw [show g.pale = h₀.objs.filter fun a => (g.color a).pale by rw [Heap.pale, s.shape.objs]] at hc
    rcases hout with hout | ⟨a, ha, hu | ⟨ht, han⟩⟩
    · have := count_pos_iff.mpr hout
      omega
    · have := indegree_pos.mpr ⟨a, ha, hu⟩
      omega
    · have hap : (g.color a).pale = false := by
        rw [s.other a ha han]
        rcases f.tone a ha with h | h <;> simp [h, Color.pale]
      have hin : a ∈ h₀.objs.filter fun a => !(g.color a).pale := mem_filter.mpr ⟨ha, by simp [hap]⟩
      have := indegree_pos.mpr ⟨a, hin, ht⟩
      omega
  have hresc : ∀ x ∈ h₀.objs, Rescued h₀ limit cands x → g.color x = .black := by
    rintro x - ⟨y, hy, hr⟩
    refine (hr.induct (S := fun z => (z ∈ h₀.objs ∧ Walked h₀ limit cands z) ∧ g.color z = .black)
      (fun r hr => ?_) fun a ha b hb => ?_).2
    · obtain rfl : r = y := by simpa using hr
      obtain ⟨ho, -⟩ := hy.1.spec f
      exact ⟨⟨ho, hy.1⟩, hheld r ho hy⟩
    · obtain ⟨⟨hao, haw⟩, hab⟩ := ha
      refine ⟨⟨f.edge a hao b (mem_append_left _ (mem_walk.mp hb).1), haw.tail hb⟩, ?_⟩
      exact (s.black a hao haw hab b hb).resolve_right not_mem_nil
  refine ⟨hgs.trans m.shape, hwhite, m.nodup, fun x hx => ?_, fun x hx hw hr => ?_, fun x hx hn => ?_, hcount,
    fun x => ?_⟩
  · rw [hdoom x hx]
    constructor
    · intro h
      refine ⟨hgw x hx h, fun hr => ?_⟩
      rw [hresc x hx hr] at h
      cases h
    · rintro ⟨hw, hn⟩
      exact (hcolor x hx hw).resolve_right fun hb => hn (s.rescued x hx hw hb)
  · have hb := hresc x hx hr
    rw [hkeep x hx (by rw [hb]; decide), hb]
  · have ho := s.other x hx hn
    rw [hkeep x hx, ho]
    rw [ho]
    rcases f.tone x hx with h | h <;> rw [h] <;> decide
  · rw [m.promote, show ({ g with white := [] } : Heap).promote = g.promote from rfl, s.promote x]
    refine and_congr_right fun hx => ?_
    constructor
    · rintro ⟨hw, hb, hn⟩
      exact ⟨s.rescued x hx hw hb, hn⟩
    · rintro ⟨hr, hn⟩
      exact ⟨hr.walked, hresc x hx hr, hn⟩

end Scriptc.Runtime
