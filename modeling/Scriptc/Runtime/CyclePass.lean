import Scriptc.Runtime.CycleScan

/-!
# A pass of the collector

After the walks, the references that the white set still has to give up are its untraced edges and
its edges into a generation that the pass skipped. The teardowns and the pins pay each of them
once, so that the counts are right again for what is left, and nothing that an outside reference
reaches is freed.
-/

namespace Scriptc.Runtime

open Graph List Function

variable {h h' h'' : Heap} {limit : Gen} {held l : List Id} {x y : Id}

/-- The heap between the steps of the program. -/
structure AtRest (h : Heap) : Prop where
  ok : Ok [] h
  calm : ∀ x ∈ h.objs, h.color x ≠ .doomed
  promote : h.promote = []

theorem AtRest.live (r : AtRest h) : h.live = h.objs :=
  filter_eq_self.mpr fun x hx => by simpa using r.calm x hx

/-! ### Draining the buffers -/

theorem mem_due (b : Buffers h) (hx : x ∈ h.live) (hg : (h.gen x).above limit = false) :
    x ∈ h.due limit ↔ h.buffered x = true := by
  rw [b.buffered x hx]
  unfold Heap.due
  have hn : ∀ g, x ∈ h.roots g → h.gen x = g := fun g hin => (b.mem g x hin).2
  cases hgx : h.gen x with
  | nursery =>
    rw [mem_append]
    refine ⟨fun hin => ?_, .inl⟩
    rcases hin with hin | hin
    · exact hin
    · split_ifs at hin with hl
      · have := hn _ hin
        rw [hgx] at this
        cases this
      · exact absurd hin not_mem_nil
  | mature =>
    have hl : limit = .mature := by
      cases limit with
      | nursery =>
        rw [hgx] at hg
        cases hg
      | mature => rfl
    rw [mem_append, if_pos hl]
    refine ⟨fun hin => ?_, .inr⟩
    rcases hin with hin | hin
    · have := hn _ hin
      rw [hgx] at this
      cases this
    · exact hin

theorem due_spec (b : Buffers h) (hx : x ∈ h.due limit) : x ∈ h.live ∧ (h.gen x).above limit = false := by
  unfold Heap.due at hx
  rcases mem_append.mp hx with hx | hx
  · obtain ⟨hl, hg⟩ := b.mem _ x hx
    rw [hg]
    exact ⟨hl, by cases limit <;> rfl⟩
  · split_ifs at hx with hm
    · obtain ⟨hl, hg⟩ := b.mem _ x hx
      rw [hg, hm]
      exact ⟨hl, rfl⟩
    · exact absurd hx not_mem_nil

/-- The drained heap is fit for the walks. -/
theorem AtRest.fit (r : AtRest h) (limit : Gen) : Fit (h.drain limit) limit (h.cands limit) := by
  have hl := r.live
  refine ⟨r.ok.nodup, fun x hx => ?_, fun a ha x hx => ?_, fun x hx => ?_, fun x hx => ?_, fun x hx hg => ?_, r.promote⟩
  · have := r.ok.count x (hl ▸ hx)
    rw [hl, count_nil, Nat.add_zero] at this
    exact this
  · have := r.ok.edge a (hl ▸ ha) x hx
    rwa [hl] at this
  · exact r.ok.tone x (hl ▸ hx)
  · obtain ⟨hlive, hg⟩ := due_spec r.ok.buffers (mem_filter.mp hx).1
    exact ⟨(mem_live.mp hlive).1, hg⟩
  · show (if (h.due limit).contains x then false else h.buffered x) = false
    split_ifs with hd
    · rfl
    · have hnd : x ∉ h.due limit := by simpa using hd
      rw [mem_due r.ok.buffers (hl ▸ hx) hg] at hnd
      simpa using hnd

/-- The buffers above the limit stay as they are. -/
theorem AtRest.drained (r : AtRest h) (limit : Gen) : Buffers (h.drain limit) := by
  have b := r.ok.buffers
  refine ⟨fun g => ?_, fun g x hx => ?_, fun x hx => ?_⟩
  · show (if g.above limit then h.roots g else []).Nodup
    split_ifs
    · exact b.nodup g
    · exact nodup_nil
  · show x ∈ h.live ∧ h.gen x = g
    have hx' : x ∈ (if g.above limit then h.roots g else []) := hx
    split_ifs at hx'
    · exact b.mem g x hx'
    · exact absurd hx' not_mem_nil
  · have hx' : x ∈ h.live := hx
    show (if (h.due limit).contains x then false else h.buffered x) = true ↔
      x ∈ if (h.gen x).above limit then h.roots (h.gen x) else []
    cases hg : (h.gen x).above limit with
    | false =>
      have hd := mem_due b hx' hg
      by_cases hin : x ∈ h.due limit
      · simp [hin]
      · have : h.buffered x = false := by
          rw [hd] at hin
          simpa using hin
        simp [this]
    | true =>
      have hnd : x ∉ h.due limit := by
        intro hin
        have := (due_spec b hin).2
        rw [hg] at this
        cases this
      simp only [contains_iff_mem, hnd, if_false, if_true]
      exact b.buffered x hx'

/-! ### Between the walks and the teardowns -/

theorem incAll_rc (l : List Id) (h : Heap) (x : Id) : (l.foldl Heap.inc h).rc x = h.rc x + l.count x := by
  induction l generalizing h with
  | nil => rfl
  | cons a l ih =>
    rw [foldl_cons, ih, inc_rc, count_cons, count_cons, count_nil]
    omega

theorem incAll_shape (l : List Id) (h : Heap) : Shape h (l.foldl Heap.inc h) ∧
    (l.foldl Heap.inc h).color = h.color ∧ (l.foldl Heap.inc h).promote = h.promote ∧
    (l.foldl Heap.inc h).white = h.white := by
  induction l generalizing h with
  | nil => exact ⟨.refl h, rfl, rfl, rfl⟩
  | cons a l ih =>
    obtain ⟨h1, h2, h3, h4⟩ := ih (h.inc a)
    exact ⟨(inc_shape h a).trans h1, h2, h3, h4⟩

theorem count_crossing {g : Heap} (limit : Gen) (white : List Id) (hw : g.white = white) (x : Id) :
    (g.crossing limit).count x + indegree (fun a => g.kids a limit) white x = indegree g.traced white x := by
  have hsum : ∀ l : List Id, (l.flatMap fun w => (g.traced w).filter fun c => (g.gen c).above limit).count x +
      indegree (fun a => g.kids a limit) l x = indegree g.traced l x := by
    intro l
    induction l with
    | nil => simp
    | cons a l ih =>
      have hsplit : ((g.traced a).filter fun c => (g.gen c).above limit).count x + (g.kids a limit).count x =
          (g.traced a).count x := by
        unfold Heap.kids
        cases hx : (g.gen x).above limit
        · have h1 : ((g.traced a).filter fun c => (g.gen c).above limit).count x = 0 :=
            count_eq_zero.mpr (by simp [hx])
          rw [h1, count_filter (by simp [hx]), Nat.zero_add]
        · have h1 : ((g.traced a).filter fun c => !(g.gen c).above limit).count x = 0 :=
            count_eq_zero.mpr (by simp [hx])
          rw [h1, count_filter (by simp [hx]), Nat.add_zero]
      rw [flatMap_cons, count_append, indegree_cons, indegree_cons]
      omega
  unfold Heap.crossing
  split_ifs with hl
  · have := hsum white
    have hnil : (white.flatMap fun w => (g.traced w).filter fun c => (g.gen c).above limit) = [] := by
      rw [flatMap_eq_nil_iff]
      intro w _
      rw [filter_eq_nil_iff]
      intro c _
      rw [hl]
      cases g.gen c <;> simp [Gen.above]
    rw [hnil] at this
    simpa using this
  · rw [hw]
    exact hsum white

theorem Rescued.cases {h₀ : Heap} {cands : List Id} (hx : Rescued h₀ limit cands x) :
    Held h₀ limit cands x ∨ ∃ a, Rescued h₀ limit cands a ∧ x ∈ walk h₀ limit a := by
  obtain ⟨y, hy, r, hr, hp⟩ := hx
  obtain rfl : r = y := by simpa using hr
  rcases Relation.ReflTransGen.cases_tail hp with rfl | ⟨a, ha, hax⟩
  · exact .inl hy
  · exact .inr ⟨a, ⟨r, hy, r, by simp, ha⟩, hax⟩

section Middle

/- A heap at rest, drained and walked. -/
variable {g : Heap} (r : AtRest h) (t : Tried (h.drain limit) limit (h.cands limit) g)
include r t

omit r in
theorem Tried.live_iff : x ∈ g.live ↔ x ∈ h.objs ∧
    (Walked (h.drain limit) limit (h.cands limit) x → Rescued (h.drain limit) limit (h.cands limit) x) := by
  rw [mem_live, t.shape.objs]
  refine and_congr_right fun hx => ?_
  rw [ne_eq, t.doomed x hx]
  tauto

/-- Nothing but the white set refers to the white set. -/
theorem Tried.live_of_ref (hx : x ∈ h.outside ∨ (∃ a ∈ h.objs, x ∈ h.untraced a) ∨ ∃ a ∈ g.live, x ∈ h.traced a) :
    x ∈ g.live := by
  have f := r.fit limit
  have hl := r.live
  have hobj : x ∈ h.objs := by
    rcases hx with hx | ⟨a, ha, hx⟩ | ⟨a, ha, hx⟩
    · rw [← hl]
      exact r.ok.out x hx
    · exact f.edge a ha x (mem_append_right _ hx)
    · exact f.edge a (t.live_iff.mp ha).1 x (mem_append_left _ hx)
  refine t.live_iff.mpr ⟨hobj, fun hw => ?_⟩
  rcases hx with hx | ⟨a, ha, hx⟩ | ⟨a, ha, hx⟩
  · exact ⟨x, ⟨hw, .inl hx⟩, .root (by simp)⟩
  · exact ⟨x, ⟨hw, .inr ⟨a, ha, .inl hx⟩⟩, .root (by simp)⟩
  · obtain ⟨hao, har⟩ := t.live_iff.mp ha
    by_cases haw : Walked (h.drain limit) limit (h.cands limit) a
    · exact (har haw).tail (mem_walk.mpr ⟨hx, (hw.spec f).2⟩)
    · exact ⟨x, ⟨hw, .inr ⟨a, hao, .inr ⟨hx, haw⟩⟩⟩, .root (by simp)⟩

theorem Tried.objs_perm : h.objs.Perm (g.live ++ g.white) := by
  have hw : g.white.Perm (h.objs.filter fun x => decide (g.color x = .doomed)) := by
    refine (perm_ext_iff_of_nodup t.nodup (r.ok.nodup.filter _)).mpr fun x => ?_
    rw [t.white, mem_filter, decide_eq_true_eq]
    rfl
  have hl : g.live = h.objs.filter fun x => !decide (g.color x = .doomed) := by
    rw [Heap.live, t.shape.objs]
    refine filter_congr fun x _ => ?_
    simp
  rw [hl]
  refine (List.Perm.trans ?_ (perm_append_comm)).trans (List.Perm.append_left _ hw.symm)
  exact (filter_append_perm _ h.objs).symm

/-- What the white set has to give up, and the pins. -/
theorem Tried.count_live (hx : x ∈ g.live) : g.rc x + (g.crossing limit).count x = h.outside.count x +
    indegree h.edges g.live x + (g.white.flatMap h.untraced ++ (g.crossing limit ++ g.crossing limit)).count x := by
  have f := r.fit limit
  have hobj := (t.live_iff.mp hx).1
  have h1 := t.count x
  have h2 := f.count x hobj
  have h3 : indegree h.edges h.objs x = indegree h.edges g.live x + indegree h.edges g.white x := by
    rw [indegree_perm (t.objs_perm r), indegree_append]
  have h4 : indegree h.edges g.white x = indegree h.traced g.white x + indegree h.untraced g.white x := by
    generalize g.white = l
    induction l with
    | nil => simp
    | cons a l ih =>
      rw [indegree_cons, indegree_cons, indegree_cons, ih, Heap.edges, count_append]
      omega
  have h5 := count_crossing limit g.white rfl x
  have h6 : indegree (fun a => g.kids a limit) g.white x = indegree (walk (h.drain limit) limit) g.white x :=
    indegree_congr fun a _ => walk_eq t.shape a
  have h7 : g.traced = h.traced := t.shape.traced
  have h8 : (g.white.flatMap h.untraced).count x = indegree h.untraced g.white x := rfl
  have h9 : (h.drain limit).rc x = h.rc x := rfl
  have h10 : indegree (h.drain limit).edges (h.drain limit).objs x = indegree h.edges h.objs x := rfl
  have h11 : (h.drain limit).outside = h.outside := rfl
  rw [count_append, count_append, h8]
  rw [h7, h6] at h5
  rw [h10, h11, h9] at h2
  rw [h9] at h1
  omega

theorem Tried.used (hx : x ∈ g.live) : 0 < g.rc x + (g.crossing limit).count x := by
  have f := r.fit limit
  obtain ⟨hobj, hr⟩ := t.live_iff.mp hx
  have hcount := t.count_live r hx
  by_cases hw : Walked (h.drain limit) limit (h.cands limit) x
  · rcases (hr hw).cases with ⟨-, hout | ⟨a, ha, hu | ⟨ht, han⟩⟩⟩ | ⟨a, ha, hax⟩
    · have : 0 < h.outside.count x := count_pos_iff.mpr hout
      omega
    · by_cases hal : a ∈ g.live
      · have : 0 < indegree h.edges g.live x := indegree_pos.mpr ⟨a, hal, mem_append_right (h.traced a) hu⟩
        omega
      · have haw : a ∈ g.white := by
          refine (t.white a).mpr ⟨ha, ?_⟩
          by_contra hn
          exact hal (mem_live.mpr ⟨by rw [t.shape.objs]; exact ha, hn⟩)
        have : 0 < (g.white.flatMap h.untraced).count x :=
          count_pos_iff.mpr (mem_flatMap.mpr ⟨a, haw, hu⟩)
        rw [count_append] at hcount
        omega
    · have hal : a ∈ g.live := t.live_iff.mpr ⟨ha, fun h => absurd h han⟩
      have : 0 < indegree h.edges g.live x := indegree_pos.mpr ⟨a, hal, mem_append_left (h.untraced a) ht⟩
      omega
    · have hal : a ∈ g.live := t.live_iff.mpr ⟨(ha.walked.spec f).1, fun _ => ha⟩
      have : 0 < indegree h.edges g.live x :=
        indegree_pos.mpr ⟨a, hal, mem_append_left (h.untraced a) (mem_walk.mp hax).1⟩
      omega
  · -- no walked edge leads to it
    have h1 := t.count x
    have h2 : 0 < h.rc x := r.ok.used x (by rwa [r.live])
    have h3 : indegree (walk (h.drain limit) limit) g.white x = 0 := by
      by_contra hpos
      obtain ⟨a, ha, hax⟩ := indegree_pos.mp (Nat.pos_of_ne_zero hpos)
      have haw := (t.doomed a ((t.white a).mp ha).1).mp ((t.white a).mp ha).2
      exact hw (haw.1.tail hax)
    have h4 : (h.drain limit).rc x = h.rc x := rfl
    omega

/-- **With the pins in place and the survivors promoted** the heap is in order again, but for what
the white set still has to give up. -/
theorem Tried.ok : Ok (g.white.flatMap h.untraced ++ (g.crossing limit ++ g.crossing limit))
    ((g.crossing limit).foldl Heap.inc g).graduate := by
  classical
  have f := r.fit limit
  obtain ⟨hs, hcol, hpro, hwh⟩ := incAll_shape (g.crossing limit) g
  set k := (g.crossing limit).foldl Heap.inc g with hk
  have hs' : Shape (h.drain limit) k := t.shape.trans hs
  have hlive : k.graduate.live = g.live := by
    show k.objs.filter (fun x => decide (k.color x ≠ .doomed)) = _
    rw [hs.objs, hcol]
    rfl
  have hedges : k.graduate.edges = h.edges := by
    funext a
    show k.traced a ++ k.untraced a = _
    rw [hs'.traced, hs'.untraced]
    rfl
  have hout : k.graduate.outside = h.outside := hs'.outside
  have hpin : ∀ x ∈ g.crossing limit, (h.gen x).above limit = true ∧ ∃ w ∈ g.white, x ∈ h.traced w := by
    intro x hx
    unfold Heap.crossing at hx
    split_ifs at hx
    · exact absurd hx not_mem_nil
    · obtain ⟨w, hw, hx⟩ := mem_flatMap.mp hx
      obtain ⟨hx, hg⟩ := mem_filter.mp hx
      rw [t.shape.traced] at hx
      rw [t.shape.gen] at hg
      exact ⟨hg, w, hw, hx⟩
  have hpinlive : ∀ x ∈ g.crossing limit, x ∈ g.live := by
    intro x hx
    obtain ⟨hg, w, hw, hx⟩ := hpin x hx
    refine t.live_iff.mpr ⟨f.edge w ((t.white w).mp hw).1 x (mem_append_left _ hx), fun hwk => ?_⟩
    have := (hwk.spec f).2
    rw [show ((h.drain limit).gen x).above limit = (h.gen x).above limit from rfl, hg] at this
    cases this
  refine ⟨?_, ?_, ?_, ?_, ?_, ?_, ?_, ?_, ?_, ?_⟩
  · show k.objs.Nodup
    rw [hs'.objs]
    exact r.ok.nodup
  · show ∀ x ∈ k.objs, x < k.nextId
    rw [hs'.objs, hs'.nextId]
    exact r.ok.fresh
  · rw [hout, hlive]
    exact fun x hx => t.live_of_ref r (.inl hx)
  · rw [hlive]
    intro x hx
    rcases mem_append.mp hx with hx | hx
    · obtain ⟨w, hw, hx⟩ := mem_flatMap.mp hx
      exact t.live_of_ref r (.inr (.inl ⟨w, ((t.white w).mp hw).1, hx⟩))
    · rcases mem_append.mp hx with hx | hx <;> exact hpinlive x hx
  · rw [hlive, hedges]
    intro a ha x hx
    rcases mem_append.mp hx with hx | hx
    · exact t.live_of_ref r (.inr (.inr ⟨a, ha, hx⟩))
    · exact t.live_of_ref r (.inr (.inl ⟨a, (t.live_iff.mp ha).1, hx⟩))
  · rw [hlive, hedges, hout]
    intro x hx
    show k.rc x = _
    rw [hk, incAll_rc, t.count_live r hx]
  · rw [hlive]
    intro x hx
    show 0 < k.rc x
    rw [hk, incAll_rc]
    exact t.used r hx
  · rw [hlive]
    intro x hx
    show k.color x = _ ∨ k.color x = _
    rw [hcol]
    obtain ⟨hobj, hr⟩ := t.live_iff.mp hx
    by_cases hw : Walked (h.drain limit) limit (h.cands limit) x
    · exact .inl (t.black x hobj hw (hr hw))
    · rw [t.other x hobj hw]
      exact f.tone x hobj
  · rw [hlive]
    intro x hx hp
    show k.traced x = []
    have hp' : k.headered x = false := hp
    rw [hs'.headered] at hp'
    rw [hs'.traced]
    refine r.ok.plain x ?_ hp'
    rw [r.live]
    exact (t.live_iff.mp hx).1
  · -- what stays in a buffer was not walked, and what is promoted was not buffered
    have hb := r.drained limit
    have habove : ∀ gn, ∀ x ∈ (h.drain limit).roots gn, gn.above limit = true := by
      intro gn x hx
      by_contra hn
      have hx' : x ∈ (if gn.above limit then h.roots gn else []) := hx
      rw [if_neg hn] at hx'
      exact not_mem_nil hx'
    have hroots : k.graduate.roots = (h.drain limit).roots := hs'.roots
    have hnw : ∀ gn, ∀ x ∈ (h.drain limit).roots gn, ¬ Walked (h.drain limit) limit (h.cands limit) x := by
      intro gn x hx hw
      have h1 := (hw.spec f).2
      rw [(hb.mem gn x hx).2, habove gn x hx] at h1
      cases h1
    have hgen : ∀ x ∈ h.objs, k.graduate.gen x =
        if Rescued (h.drain limit) limit (h.cands limit) x ∧ h.gen x = .nursery then .mature else h.gen x := by
      intro x hx
      show (if k.promote.contains x then Gen.mature else k.gen x) = _
      have hg : k.gen x = h.gen x := by
        rw [hs'.gen]
        rfl
      have hm : x ∈ k.promote ↔ Rescued (h.drain limit) limit (h.cands limit) x ∧ h.gen x = .nursery := by
        rw [hpro, t.promote x]
        exact ⟨fun hh => hh.2, fun hh => ⟨hx, hh⟩⟩
      rw [hg]
      by_cases hin : x ∈ k.promote
      · rw [if_pos (by simpa using hin), if_pos (hm.mp hin)]
      · rw [if_neg (by simpa using hin), if_neg fun hh => hin (hm.mpr hh)]
    refine ⟨fun gn => ?_, fun gn x hx => ?_, fun x hx => ?_⟩
    · rw [hroots]
      exact hb.nodup gn
    · rw [hroots] at hx
      obtain ⟨hl, hgx⟩ := hb.mem gn x hx
      have hobj : x ∈ h.objs := (mem_live.mp hl).1
      refine ⟨?_, ?_⟩
      · rw [hlive]
        exact t.live_iff.mpr ⟨hobj, fun hw => absurd hw (hnw gn x hx)⟩
      · rw [hgen x hobj, if_neg fun hh => hnw gn x hx hh.1.walked]
        exact hgx
    · rw [hlive] at hx
      have hobj := (t.live_iff.mp hx).1
      have hobj' : x ∈ (h.drain limit).live := by
        show x ∈ h.live
        rwa [r.live]
      show k.buffered x = true ↔ _
      rw [hs'.buffered, hroots, hgen x hobj, hb.buffered x hobj']
      split_ifs with hh
      · have hun := f.unbuffered x hobj (hh.1.walked.spec f).2
        rw [← hb.buffered x hobj', hun]
        refine ⟨fun he => absurd he (by decide), fun hin => ?_⟩
        exact absurd hh.1.walked (hnw _ x hin)
      · rfl

end Middle

/-! ### Handing back, tearing down, settling -/

/-- Colors and buffers may differ, but not what is doomed. -/
structure Repainted (h h' : Heap) : Prop where
  objs : h'.objs = h.objs
  headered : h'.headered = h.headered
  traced : h'.traced = h.traced
  untraced : h'.untraced = h.untraced
  outside : h'.outside = h.outside
  promote : h'.promote = h.promote
  white : h'.white = h.white
  doomed : ∀ x, h'.color x = .doomed ↔ h.color x = .doomed

theorem Repainted.refl (h : Heap) : Repainted h h := ⟨rfl, rfl, rfl, rfl, rfl, rfl, rfl, fun _ => Iff.rfl⟩

theorem Repainted.live (p : Repainted h h') : h'.live = h.live := by
  unfold Heap.live
  rw [p.objs]
  refine filter_congr fun x _ => ?_
  simp [p.doomed x]

/-- A candidate that survives is purple and buffered again. -/
theorem Ok.handBack (ok : Ok held h) (hx : x ∈ h.objs) : Ok held (h.handBack x) ∧ Repainted h (h.handBack x) ∧
    (x ∈ h.live → x ∈ (h.handBack x).purples) ∧ ∀ y ∈ h.purples, y ∈ (h.handBack x).purples := by
  unfold Heap.handBack
  split_ifs with hd
  · exact ⟨ok, .refl h, fun hl => absurd hd (mem_live.mp hl).2, fun _ hy => hy⟩
  have hl : x ∈ h.live := mem_live.mpr ⟨hx, hd⟩
  have hl' : x ∈ (h.paint x .purple).live := by rwa [paint_live hd (by decide)]
  have hp := ok.paint hl (.inr rfl)
  obtain ⟨hself, hstay⟩ := mem_buffer hp.buffers hl'
  obtain ⟨ho, -, hc, -, ht, hu, hout, hhd, -, hpr, hw⟩ := buffer_fields (h.paint x .purple) x
  refine ⟨hp.buffer hl', ⟨ho, hhd, ht, hu, hout, hpr, hw, fun y => ?_⟩, fun _ => ?_, fun y hy => ?_⟩
  · rw [hc]
    by_cases hyx : y = x
    · subst hyx
      simp [hd]
    · rw [paint_color_of_ne h .purple hyx]
  · exact mem_purples.mpr ⟨⟨_, hself⟩, by rw [hc]; simp⟩
  · obtain ⟨⟨g, hg⟩, hpy⟩ := mem_purples.mp hy
    refine mem_purples.mpr ⟨⟨g, hstay g y hg⟩, ?_⟩
    rw [hc]
    by_cases hyx : y = x
    · subst hyx
      simp
    · rw [paint_color_of_ne h .purple hyx, hpy]

theorem Repainted.trans (a : Repainted h h') (b : Repainted h' h'') : Repainted h h'' :=
  ⟨b.objs.trans a.objs, b.headered.trans a.headered, b.traced.trans a.traced, b.untraced.trans a.untraced,
    b.outside.trans a.outside, b.promote.trans a.promote, b.white.trans a.white, fun x => (b.doomed x).trans (a.doomed x)⟩

theorem Ok.handBackAll (ok : Ok held h) (hl : ∀ x ∈ l, x ∈ h.objs) : Ok held (l.foldl Heap.handBack h) ∧
    Repainted h (l.foldl Heap.handBack h) ∧ (∀ x ∈ l, x ∈ h.live → x ∈ (l.foldl Heap.handBack h).purples) ∧
    ∀ y ∈ h.purples, y ∈ (l.foldl Heap.handBack h).purples := by
  induction l generalizing h with
  | nil => exact ⟨ok, .refl h, by simp, fun _ hy => hy⟩
  | cons x l ih =>
    obtain ⟨ok', p', hself, hstay⟩ := ok.handBack (hl x mem_cons_self)
    obtain ⟨ok'', p'', hall, hstay'⟩ := ih ok' fun y hy => by
      rw [p'.objs]
      exact hl y (mem_cons_of_mem _ hy)
    refine ⟨ok'', p'.trans p'', fun y hy hyl => ?_, fun y hy => hstay' y (hstay y hy)⟩
    rcases mem_cons.mp hy with rfl | hy
    · exact hstay' y (hself hyl)
    · exact hall y hy (by rwa [p'.live])

/-- A doomed block goes without a trace in the reckoning. -/
theorem Ok.freeDoomed (ok : Ok held h) (hx : h.color x = .doomed) :
    Ok held (h.free x) ∧ (h.free x).live = h.live := by
  have hne : ∀ {y}, y ∈ h.live → y ≠ x := by
    rintro y hy rfl
    exact (mem_live.mp hy).2 hx
  have hl : (h.free x).live = h.live := by
    show (h.objs.erase x).filter _ = h.objs.filter _
    rw [List.Nodup.erase_eq_filter ok.nodup, filter_filter]
    refine filter_congr fun y _ => ?_
    by_cases hyx : y = x
    · subst hyx
      simp [Heap.free, hx]
    · have hne : (y != x) = true := by simpa using hyx
      rw [hne, Bool.and_true]
      rfl
  have ht : ∀ y ∈ h.live, (h.free x).traced y = h.traced y := fun y hy => update_of_ne (hne hy) ..
  have hu : ∀ y ∈ h.live, (h.free x).untraced y = h.untraced y := fun y hy => update_of_ne (hne hy) ..
  have he : ∀ y ∈ h.live, (h.free x).edges y = h.edges y := fun y hy => by
    rw [Heap.edges, Heap.edges, ht y hy, hu y hy]
  refine ⟨⟨ok.nodup.erase x, fun y hy => ok.fresh y (mem_of_mem_erase hy), by rw [hl]; exact ok.out,
    by rw [hl]; exact ok.hold, ?_, ?_, by rw [hl]; exact ok.used, by rw [hl]; exact ok.tone, ?_, ?_⟩, hl⟩
  · rw [hl]
    intro a ha y hy
    rw [he a ha] at hy
    exact ok.edge a ha y hy
  · rw [hl]
    intro y hy
    rw [indegree_congr he]
    exact ok.count y hy
  · rw [hl]
    intro y hy hp
    rw [ht y hy]
    exact ok.plain y hy hp
  · exact ⟨ok.buffers.nodup, by rw [hl]; exact ok.buffers.mem, by rw [hl]; exact ok.buffers.buffered⟩

/-- `free_fn` of one member of the white set. -/
theorem Ok.freeFn (ok : Ok (h.untraced x ++ held) h) (hx : h.color x = .doomed) : Ok held (h.freeFn x) ∧
    Stay h (h.freeFn x) ∧ (h.freeFn x).promote = h.promote ∧
    (∀ y ∈ h.objs, h.color y = .doomed → y ≠ x →
      y ∈ (h.freeFn x).objs ∧ (h.freeFn x).color y = .doomed ∧ (h.freeFn x).untraced y = h.untraced y) ∧
    (∀ y ∈ (h.freeFn x).objs, y ∈ h.objs ∧ y ≠ x) ∧
    (∀ y, (h.freeFn x).color y = .doomed → h.color y = .doomed) ∧
    (Tame h → Covered (h.untraced x ++ held) h → Covered held (h.freeFn x)) := by
  obtain ⟨ok', hl⟩ := ok.freeDoomed hx
  obtain ⟨ok'', k, hc⟩ := ok'.releaseAll
  have hne : ∀ {y}, y ∈ h.live → y ≠ x := by
    rintro y hy rfl
    exact (mem_live.mp hy).2 hx
  have hs : Stay h (h.free x) := by
    refine ⟨rfl, rfl, ?_, fun y hy => ?_, fun y hy => ?_⟩
    · rw [hl]
      exact fun _ hy => hy
    · exact update_of_ne (hne (hl ▸ hy)) ..
    · exact update_of_ne (hne (hl ▸ hy)) ..
  refine ⟨ok'', hs.trans k.stay, k.promote, fun y hy hd hyx => ?_, fun y hy => ?_, k.spared, fun tm c => hc (tm.stay hs ok') ?_⟩
  · have hy' : y ∈ (h.free x).objs := (mem_erase_of_ne hyx).mpr hy
    obtain ⟨h1, h2⟩ := k.doomed y hy' hd
    exact ⟨h1, h2, (k.untraced y h1).trans (update_of_ne hyx ..)⟩
  · have hy' : y ∈ h.objs.erase x := k.objs y hy
    refine ⟨mem_of_mem_erase hy', ?_⟩
    rintro rfl
    exact ok.nodup.not_mem_erase hy'
  · intro y hy
    rw [hl] at hy
    refine (c y hy).congr fun a ha => ?_
    -- nothing live leads to a doomed block
    have hal : a ∈ h.live := by
      refine ha.induct (fun r hr => ?_) fun b hb d hd => ok.edge b hb d hd
      rcases mem_append.mp hr with hr | hr
      · rcases mem_append.mp hr with hr | hr
        · exact ok.out r hr
        · exact ok.hold r hr
      · obtain ⟨⟨g, hg⟩, -⟩ := mem_purples.mp hr
        exact (ok.buffers.mem g r hg).1
    exact hs.edges (hl.symm ▸ hal)

theorem Ok.tearDown (ok : Ok (l.flatMap h.untraced ++ held) h) (hnd : l.Nodup)
    (hl : ∀ x ∈ l, x ∈ h.objs ∧ h.color x = .doomed) : Ok held (l.foldl Heap.freeFn h) ∧
    Stay h (l.foldl Heap.freeFn h) ∧ (l.foldl Heap.freeFn h).promote = h.promote ∧
    (∀ y ∈ (l.foldl Heap.freeFn h).objs, y ∈ h.objs ∧ y ∉ l) ∧
    (∀ y, (l.foldl Heap.freeFn h).color y = .doomed → h.color y = .doomed) ∧
    (Tame h → Covered (l.flatMap h.untraced ++ held) h → Covered held (l.foldl Heap.freeFn h)) := by
  induction l generalizing h with
  | nil => exact ⟨ok, .refl h, rfl, fun y hy => ⟨hy, not_mem_nil⟩, fun _ hy => hy, fun _ c => c⟩
  | cons x l ih =>
    rw [flatMap_cons, append_assoc] at ok
    obtain ⟨hxl, hnd⟩ := nodup_cons.mp hnd
    obtain ⟨ok', s, hp, hrest, hgone, hdoom, hc⟩ := ok.freeFn (hl x mem_cons_self).2
    have hstay : ∀ y ∈ l, y ∈ (h.freeFn x).objs ∧ (h.freeFn x).color y = .doomed ∧
        (h.freeFn x).untraced y = h.untraced y := fun y hy =>
      hrest y (hl y (mem_cons_of_mem _ hy)).1 (hl y (mem_cons_of_mem _ hy)).2 fun e => hxl (e ▸ hy)
    have hun : l.flatMap (h.freeFn x).untraced = l.flatMap h.untraced :=
      flatMap_congr fun y hy => (hstay y hy).2.2
    obtain ⟨ok'', s', hp', hgone', hdoom', hc'⟩ := ih (h := h.freeFn x) (by rwa [hun]) hnd
      fun y hy => ⟨(hstay y hy).1, (hstay y hy).2.1⟩
    refine ⟨ok'', s.trans s', hp'.trans hp, fun y hy => ?_, fun y hy => hdoom y (hdoom' y hy), fun tm c => hc' (tm.stay s ok') ?_⟩
    · obtain ⟨hy, hyl⟩ := hgone' y hy
      obtain ⟨hy, hyx⟩ := hgone y hy
      exact ⟨hy, fun hin => (mem_cons.mp hin).elim hyx hyl⟩
    · rw [hun]
      refine hc tm ?_
      rwa [flatMap_cons, append_assoc] at c

/-- The pins and the edges they stand for. -/
theorem Ok.settleAll (ok : Ok (l ++ l ++ held) h) : Ok held (l.foldl Heap.settle h) ∧ Kept h (l.foldl Heap.settle h) ∧
    (Tame h → Covered (l ++ l ++ held) h → Covered held (l.foldl Heap.settle h)) := by
  induction l generalizing h with
  | nil => exact ⟨ok, .refl h, fun _ c => c⟩
  | cons x l ih =>
    have hp : (x :: l ++ x :: l ++ held).Perm (x :: x :: (l ++ l ++ held)) := by
      refine perm_iff_count.mpr fun a => ?_
      simp only [cons_append, append_assoc, count_cons, count_append]
      omega
    have ok1 := ok.perm hp
    have hne : h.rc x ≠ 1 := by
      rw [ok1.count x (ok1.hold x mem_cons_self), count_cons_self, count_cons_self]
      omega
    have ok2 : Ok ([x] ++ (l ++ l ++ held)) (h.dec x) := ok1.dec hne
    obtain ⟨ok3, k, hc⟩ := ok2.releaseAll
    have kdec : Kept h (h.dec x) :=
      ⟨rfl, rfl, rfl, rfl, rfl, fun _ hy => hy, fun _ _ => rfl, fun _ _ => rfl, fun _ hy => hy,
        fun _ hy hd => ⟨hy, hd⟩, fun _ hd => hd⟩
    obtain ⟨ok4, k', hc'⟩ := ih (h := h.settle x) ok3
    refine ⟨ok4, (kdec.trans k).trans k', fun tm c => ?_⟩
    refine hc' (tm.stay (kdec.trans k).stay ok3) (hc (tm.stay kdec.stay ok2) fun y hy => (c y hy).mono fun r hr => .root ?_)
    rcases mem_append.mp hr with hr | hr
    · rcases mem_append.mp hr with hr | hr
      · exact mem_append_left _ (mem_append_left _ hr)
      · rcases mem_cons.mp (hp.mem_iff.mp hr) with rfl | hr
        · simp
        · exact mem_append_left _ (mem_append_right _ hr)
    · exact mem_append_right _ hr

/-! ### The pass -/

namespace Heap

variable (h : Heap) (limit : Gen)

/-- The heap after the walks. -/
def walked : Heap := (h.drain limit).trial limit (h.cands limit)

/-- The edges into what the pass skipped. -/
def pins : List Id := (h.walked limit).crossing limit

/-- What the white set still has to give up, and the pins. -/
def owed : List Id := (h.walked limit).white.flatMap h.untraced ++ (h.pins limit ++ h.pins limit)

/-- The heap when the teardowns start. -/
def found : Heap :=
  let k := ((h.pins limit).foldl inc (h.walked limit)).graduate
  if limit = .mature then k else (h.cands limit).foldl handBack k

/-- The heap when they are done. -/
def torn : Heap := { (h.found limit).white.foldl freeFn (h.found limit) with white := [] }

theorem cycPass_eq : (h.cycPass limit).1 = (h.pins limit).foldl settle (h.torn limit) := rfl

end Heap

section Pass

variable (r : AtRest h) (limit : Gen)
include r

theorem AtRest.tried : Tried (h.drain limit) limit (h.cands limit) (h.walked limit) := Runtime.tried (r.fit limit)

/-- The heap when the teardowns start, beside the heap before the pass. -/
structure Found (h : Heap) (limit : Gen) (k : Heap) : Prop where
  ok : Ok (h.owed limit) k
  objs : k.objs = h.objs
  headered : k.headered = h.headered
  traced : k.traced = h.traced
  untraced : k.untraced = h.untraced
  outside : k.outside = h.outside
  promote : k.promote = []
  white : k.white = (h.walked limit).white
  live : k.live = (h.walked limit).live
  doomed : ∀ x, k.color x = .doomed ↔ (h.walked limit).color x = .doomed

omit r in
theorem Found.edges {k : Heap} (f : Found h limit k) : k.edges = h.edges := by
  funext x
  rw [Heap.edges, Heap.edges, f.traced, f.untraced]

theorem AtRest.graduated : Found h limit ((h.pins limit).foldl Heap.inc (h.walked limit)).graduate := by
  have t := r.tried limit
  obtain ⟨hs, hcol, hpro, hwh⟩ := incAll_shape (h.pins limit) (h.walked limit)
  have hs' := t.shape.trans hs
  refine ⟨t.ok r, hs'.objs, hs'.headered, hs'.traced, hs'.untraced, hs'.outside, rfl, hwh, ?_, fun x => ?_⟩
  · show List.filter (fun x => decide (((h.pins limit).foldl Heap.inc (h.walked limit)).color x ≠ .doomed))
      ((h.pins limit).foldl Heap.inc (h.walked limit)).objs = _
    rw [hcol, hs.objs]
    rfl
  · show ((h.pins limit).foldl Heap.inc (h.walked limit)).color x = _ ↔ _
    rw [hcol]

theorem AtRest.cands_objs {k : Heap} (f : Found h limit k) : ∀ x ∈ h.cands limit, x ∈ k.objs := by
  intro x hx
  rw [f.objs]
  exact ((r.fit limit).cands x hx).1

theorem AtRest.found : Found h limit (h.found limit) := by
  have hf := r.graduated limit
  unfold Heap.found
  simp only
  split_ifs with hl
  · exact hf
  · obtain ⟨ok', p, -, -⟩ := hf.ok.handBackAll (r.cands_objs limit hf)
    exact ⟨ok', p.objs.trans hf.objs, p.headered.trans hf.headered, p.traced.trans hf.traced, p.untraced.trans hf.untraced,
      p.outside.trans hf.outside, p.promote.trans hf.promote, p.white.trans hf.white, p.live.trans hf.live,
      fun x => (p.doomed x).trans (hf.doomed x)⟩

theorem AtRest.stay_found : Stay h (h.found limit) := by
  have fd := r.found limit
  refine ⟨fd.outside, fd.headered, fun x hx => ?_, fun x _ => congrFun fd.traced x, fun x _ => congrFun fd.untraced x⟩
  rw [r.live]
  rw [fd.live] at hx
  exact ((r.tried limit).live_iff.mp hx).1

/-- **One pass.** The heap is at rest again, what stays has its fields, and what was within reach
when the teardowns started still is. -/
theorem AtRest.pass : AtRest (h.cycPass limit).1 ∧ Stay (h.found limit) (h.cycPass limit).1 ∧
    (Tame h → Covered (h.owed limit) (h.found limit) → Covered [] (h.cycPass limit).1) := by
  have t := r.tried limit
  have fd := r.found limit
  have hs := r.stay_found limit
  have ok0 : Ok ((h.found limit).white.flatMap (h.found limit).untraced ++ (h.pins limit ++ h.pins limit)) (h.found limit) := by
    rw [fd.white, fd.untraced]
    exact fd.ok
  obtain ⟨ok, s, hp, hgone, hdoom, hc⟩ := ok0.tearDown (by rw [fd.white]; exact t.nodup) fun x hx => by
    rw [fd.white, t.white] at hx
    exact ⟨by rw [fd.objs]; exact hx.1, (fd.doomed x).mpr hx.2⟩
  have ok1 : Ok (h.pins limit ++ h.pins limit ++ []) (h.torn limit) := by
    rw [append_nil]
    exact { ok with buffers := { ok.buffers with } }
  have s' : Stay (h.found limit) (h.torn limit) := ⟨s.outside, s.headered, s.live, s.traced, s.untraced⟩
  obtain ⟨ok2, k, hc'⟩ := ok1.settleAll
  rw [Heap.cycPass_eq]
  refine ⟨⟨ok2, fun x hx hd => ?_, ?_⟩, s'.trans k.stay, fun tm c => ?_⟩
  · obtain ⟨hxo, hxw⟩ := hgone x (k.objs x hx)
    rw [fd.objs] at hxo
    rw [fd.white] at hxw
    exact hxw ((t.white x).mpr ⟨hxo, (fd.doomed x).mp (hdoom x (k.spared x hd))⟩)
  · rw [k.promote]
    exact hp.trans fd.promote
  · refine hc' (tm.stay (hs.trans s') ok1) ?_
    rw [append_nil]
    refine hc (tm.stay hs fd.ok) ?_
    rwa [fd.white, fd.untraced]

theorem AtRest.pass_stay : Stay h (h.cycPass limit).1 := (r.stay_found limit).trans (r.pass limit).2.1

/-- **What an outside reference reaches survives.** -/
theorem AtRest.pass_keeps {x : Id} (hx : Reach h.edges h.outside x) : x ∈ (h.cycPass limit).1.objs := by
  have r' := (r.pass limit).1
  have s := r.pass_stay limit
  refine hx.induct (fun y hy => ?_) fun a ha b hb => ?_
  · rw [← r'.live]
    exact r'.ok.out y (by rwa [s.outside])
  · rw [← r'.live] at ha ⊢
    exact r'.ok.edge a ha b (by rwa [s.edges ha])

end Pass

end Scriptc.Runtime
