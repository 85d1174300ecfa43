import Scriptc.Runtime.CycleRuns

/-!
# Whether a collection finds every cycle

`scr_collect_cycles` can only find what its buffers lead to. A full pass walks every traced edge, so
that whatever it leaves and the outside does not reach hangs below an object without a header, and
goes with that one. A nursery pass hands its surviving candidates back and settles the edges into
the generation it skipped, but the edges of its white set to survivors that it walked were taken
off the counts by the walk: their targets lose a reference and are buffered by nobody.
-/

namespace Scriptc.Runtime

open Graph List

variable {h h' : Heap} {limit : Gen} {t u rest : List Id} {x y z a : Id}

/-- What a pass finds to be garbage. -/
def Freed (h : Heap) (limit : Gen) (x : Id) : Prop :=
  Walked (h.drain limit) limit (h.cands limit) x ∧ ¬ Rescued (h.drain limit) limit (h.cands limit) x

section Middle

variable (r : AtRest h)
include r

theorem AtRest.live_iff : x ∈ (h.walked limit).live ↔ x ∈ h.objs ∧ ¬ Freed h limit x := by
  rw [(r.tried limit).live_iff, Freed]
  tauto

theorem AtRest.freed_objs (hx : Freed h limit x) : x ∈ h.objs := (hx.1.spec (r.fit limit)).1

/-- What a freed object refers to and the walk did not take off is owed. -/
theorem AtRest.mem_owed (ha : Freed h limit a)
    (hx : x ∈ h.untraced a ∨ x ∈ h.traced a ∧ (h.gen x).above limit = true) : x ∈ h.owed limit := by
  have t := r.tried limit
  have hao := r.freed_objs ha
  have haw : a ∈ (h.walked limit).white := (t.white a).mpr ⟨hao, (t.doomed a hao).mpr ha⟩
  unfold Heap.owed
  rcases hx with hx | ⟨hx, hg⟩
  · exact mem_append_left _ (mem_flatMap.mpr ⟨a, haw, hx⟩)
  · have hpin : x ∈ h.pins limit := by
      unfold Heap.pins Heap.crossing
      have hl : limit ≠ .mature := by
        rintro rfl
        cases hgx : h.gen x <;> rw [hgx] at hg <;> cases hg
      rw [if_neg hl]
      refine mem_flatMap.mpr ⟨a, haw, mem_filter.mpr ⟨?_, ?_⟩⟩
      · rw [t.shape.traced]
        exact hx
      · rw [t.shape.gen]
        exact hg
    exact mem_append_right _ (mem_append_left _ hpin)

theorem AtRest.live_tail (ha : a ∈ (h.walked limit).live) (hx : x ∈ h.edges a) : x ∈ (h.walked limit).live := by
  have t := r.tried limit
  rcases mem_append.mp hx with hx | hx
  · exact t.live_of_ref r (.inr (.inr ⟨a, ha, hx⟩))
  · exact t.live_of_ref r (.inr (.inl ⟨a, (r.live_iff.mp ha).1, hx⟩))

/-- Something that stays, or that is still to be given up, refers to every object that stays. -/
theorem AtRest.referred (hx : x ∈ (h.walked limit).live) :
    x ∈ h.outside ++ h.owed limit ∨ ∃ a ∈ (h.walked limit).live, x ∈ h.edges a := by
  have hc := (r.tried limit).count_live r hx
  have hu := (r.tried limit).used r hx
  by_cases hin : x ∈ h.outside ++ h.owed limit
  · exact .inl hin
  · have h0 : (h.outside ++ h.owed limit).count x = 0 := count_eq_zero.mpr hin
    rw [count_append] at h0
    have h1 : (h.owed limit).count x = ((h.walked limit).white.flatMap h.untraced ++
      ((h.walked limit).crossing limit ++ (h.walked limit).crossing limit)).count x := rfl
    exact .inr (indegree_pos.mp (by omega))

theorem AtRest.headered_of_traced (ha : a ∈ h.objs) (hx : x ∈ h.traced a) : h.headered a = true := by
  by_contra hn
  rw [r.ok.plain a (by rwa [r.live]) (by simpa using hn)] at hx
  exact not_mem_nil hx

end Middle

/-! ### A full pass -/

theorem walked_tail (ha : Walked (h.drain .mature) .mature (h.cands .mature) a) (hx : x ∈ h.traced a) :
    Walked (h.drain .mature) .mature (h.cands .mature) x := by
  refine ha.tail (mem_walk.mpr ⟨hx, ?_⟩)
  cases (h.drain .mature).gen x <;> rfl

section Full

variable (r : AtRest h) (tr : Traced h)
include r tr

/-- What the walk did not reach hangs below an object without a header. -/
theorem below_plain (c : Covered [] h) (hx : x ∈ (h.walked .mature).live)
    (hn : ¬ Walked (h.drain .mature) .mature (h.cands .mature) x) :
    Reach h.edges (h.outside ++ h.owed .mature) x ∨
      ∃ d ∈ (h.walked .mature).live, h.headered d = false ∧ Reach h.edges [d] x := by
  have hxo : x ∈ h.live := by
    rw [r.live]
    exact (r.live_iff.mp hx).1
  have hpath := (c x hxo).induct (S := fun v => Walked (h.drain .mature) .mature (h.cands .mature) v ∨
    v ∈ (h.walked .mature).live ∧ (Reach h.edges (h.outside ++ h.owed .mature) v ∨
      ∃ d ∈ (h.walked .mature).live, h.headered d = false ∧ Reach h.edges [d] v)) (fun v hv => ?_) ?_
  · exact (hpath.resolve_left hn).2
  · rw [append_nil] at hv
    rcases mem_append.mp hv with hv | hv
    · exact .inr ⟨(r.tried _).live_of_ref r (.inl hv), .inl (.root (mem_append_left _ hv))⟩
    · exact .inl (.root hv)
  · rintro v (hv | ⟨hv, hr⟩) b hb
    · rcases mem_append.mp hb with hb | hb
      · exact .inl (walked_tail hv hb)
      · have hvo : v ∈ h.objs := (hv.spec (r.fit _)).1
        have hbl : b ∈ (h.walked .mature).live := (r.tried _).live_of_ref r (.inr (.inl ⟨v, hvo, hb⟩))
        refine .inr ⟨hbl, ?_⟩
        by_cases hf : Freed h .mature v
        · exact .inl (.root (mem_append_right _ (r.mem_owed hf (.inl hb))))
        · cases hh : h.headered v with
          | false => exact .inr ⟨v, r.live_iff.mpr ⟨hvo, hf⟩, hh, (Reach.root (by simp)).tail (mem_append_right _ hb)⟩
          | true => exact .inr ⟨b, hbl, tr v (by rwa [r.live]) hh b hb, .root (by simp)⟩
    · refine .inr ⟨r.live_tail hv hb, hr.imp (fun hr => hr.tail hb) ?_⟩
      rintro ⟨d, hd, hh, hr⟩
      exact ⟨d, hd, hh, hr.tail hb⟩

/-- **A full pass leaves** nothing but what the outside, or a reference still to be given up, leads to. -/
theorem full_reach (tm : Tame h) (c : Covered [] h) (hx : x ∈ (h.walked .mature).live) :
    Reach h.edges (h.outside ++ h.owed .mature) x := by
  have f := r.fit .mature
  by_contra hnot
  -- the objects that stay and are led to by nothing of that kind
  let S (v : Id) : Prop := v ∈ (h.walked .mature).live ∧ ¬ Reach h.edges (h.outside ++ h.owed .mature) v
  have hback : ∀ {a b}, a ∈ (h.walked .mature).live → Reach h.edges [a] b → S b → S a := by
    intro a b ha hab hb
    refine ⟨ha, fun hr => hb.2 (hr.trans hab)⟩
  have hstrict : ∀ {d b b'}, d ∈ (h.walked .mature).live → Reach h.edges [d] b → b' ∈ h.edges b → S b' →
      S d ∧ Reach h.edges (h.edges d) b' := by
    intro d b b' hd hdb hb hS
    refine ⟨hback hd (hdb.tail hb) hS, ?_⟩
    rcases hdb.cases_head with rfl | hr
    · exact .root hb
    · exact hr.tail hb
  have hhead : ∀ v, S v → h.headered v = true → ∃ d, S d ∧ h.headered d = false ∧ Reach h.edges (h.edges d) v := by
    intro v hv hh
    by_cases hw : Walked (h.drain .mature) .mature (h.cands .mature) v
    · -- the object that holds it in the walk
      have hres : Rescued (h.drain .mature) .mature (h.cands .mature) v := by
        by_contra hn
        exact (r.live_iff.mp hv.1).2 ⟨hw, hn⟩
      obtain ⟨y, hy, hyv⟩ := hres
      have hyv' : Reach h.edges [y] v :=
        hyv.induct (fun b hb => .root hb) fun b hb b' hb' => hb.tail (mem_append_left _ (mem_walk.mp hb').1)
      have hyl : y ∈ (h.walked .mature).live :=
        r.live_iff.mpr ⟨(hy.1.spec f).1, fun hf => hf.2 ⟨y, hy, .root (by simp)⟩⟩
      have hyh : h.headered y = true := by
        rcases hyv.cases_head with rfl | ⟨b, hb, -⟩
        · exact hh
        · exact r.headered_of_traced (hy.1.spec f).1 (mem_walk.mp hb).1
      have hyS : S y := hback hyl hyv' hv
      obtain ⟨-, hout | ⟨a, ha, hu | ⟨ht, han⟩⟩⟩ := hy
      · exact absurd (.root (mem_append_left _ hout)) hyS.2
      · have hna : ¬ Freed h .mature a := fun hf =>
          hyS.2 (.root (mem_append_right _ (r.mem_owed hf (.inl hu))))
        have hal : a ∈ (h.walked .mature).live := r.live_iff.mpr ⟨ha, hna⟩
        have hya : y ∈ h.edges a := mem_append_right _ hu
        cases hah : h.headered a with
        | false => exact ⟨a, hback hal ((Reach.root (by simp)).tail hya) hyS, hah, (Reach.root hya).trans hyv'⟩
        | true =>
          have := tr a (by rwa [r.live]) hah y hu
          rw [hyh] at this
          cases this
      · have hal : a ∈ (h.walked .mature).live := r.live_iff.mpr ⟨ha, fun hf => han hf.1⟩
        have hya : y ∈ h.edges a := mem_append_left _ ht
        obtain hr | ⟨d, hd, hdh, hr⟩ := below_plain r tr c hal han
        · exact absurd (hr.tail hya) hyS.2
        · obtain ⟨hdS, hdy⟩ := hstrict hd hr hya hyS
          exact ⟨d, hdS, hdh, hdy.trans hyv'⟩
    · obtain hr | ⟨d, hd, hdh, hr⟩ := below_plain r tr c hv.1 hw
      · exact absurd hr hv.2
      · refine ⟨d, hback hd hr hv, hdh, ?_⟩
        rcases hr.cases_head with rfl | hr
        · rw [hh] at hdh
          cases hdh
        · exact hr
  refine none_of_marked h.objs S (fun d => h.headered d = false) (fun v hv => (r.live_iff.mp hv.1).1) (fun d hd hm => tm d ?_ hm) (fun v hv => ?_) x ⟨hx, hnot⟩
  · rw [r.live]
    exact (r.live_iff.mp hd.1).1
  · cases hh : h.headered v with
    | true => exact hhead v hv hh
    | false =>
      rcases r.referred hv.1 with hin | ⟨a, ha, hva⟩
      · exact absurd (.root hin) hv.2
      · have haS : S a := hback ha ((Reach.root (by simp)).tail hva) hv
        cases hah : h.headered a with
        | false => exact ⟨a, haS, hah, .root hva⟩
        | true =>
          obtain ⟨d, hd, hdh, hr⟩ := hhead a haS hah
          exact ⟨d, hd, hdh, hr.tail hva⟩

end Full

theorem full_covered (r : AtRest h) (tr : Traced h) (tm : Tame h) (c : Covered [] h) :
    Covered (h.owed .mature) (h.found .mature) := by
  have fd := r.found .mature
  intro x hx
  rw [fd.live] at hx
  rw [fd.edges, fd.outside]
  exact (full_reach r tr tm c hx).mono fun v hv => .root (mem_append_left _ hv)

/-! ### A nursery pass -/

/-- What a nursery pass has on record when it is done: it is outside, or it was a candidate and
stays, or a freed object referred to it along an edge that was not walked. -/
def Anchor (h : Heap) (x : Id) : Prop :=
  x ∈ h.outside ∨ (x ∈ h.purples ∧ ¬ Freed h .nursery x) ∨
    ∃ w, Freed h .nursery w ∧ (x ∈ h.untraced w ∨ x ∈ h.traced w ∧ h.gen x = .mature)

/-- What loses a walked reference to a nursery pass, and stays, hangs below something on record. -/
def Recorded (h : Heap) : Prop :=
  ∀ w, Freed h .nursery w → ∀ z ∈ h.traced w, h.gen z = .nursery → ¬ Freed h .nursery z →
    ∃ a, Anchor h a ∧ Reach h.edges [a] z

/-- A candidate that stays is a candidate again. -/
theorem AtRest.purples_found (r : AtRest h) (hx : x ∈ h.purples) (hn : ¬ Freed h .nursery x) :
    x ∈ (h.found .nursery).purples := by
  have t := r.tried .nursery
  obtain ⟨⟨g, hg⟩, hp⟩ := mem_purples.mp hx
  obtain ⟨hl, hgx⟩ := r.ok.buffers.mem g x hg
  have hxo : x ∈ h.objs := (mem_live.mp hl).1
  obtain ⟨hs, hcol, -, -⟩ := incAll_shape (h.pins .nursery) (h.walked .nursery)
  have fd := r.graduated .nursery
  obtain ⟨-, -, hback, hstay⟩ := fd.ok.handBackAll (r.cands_objs .nursery fd)
  cases g with
  | nursery =>
    refine hback x (mem_filter.mpr ⟨mem_append_left _ hg, by simpa using hp⟩) ?_
    rw [fd.live]
    exact r.live_iff.mpr ⟨hxo, hn⟩
  | mature =>
    refine hstay x (mem_purples.mpr ⟨⟨.mature, ?_⟩, ?_⟩)
    · show x ∈ ((h.pins .nursery).foldl Heap.inc (h.walked .nursery)).roots .mature
      rw [(t.shape.trans hs).roots]
      exact hg
    · show ((h.pins .nursery).foldl Heap.inc (h.walked .nursery)).color x = _
      rw [hcol, t.other x hxo fun hw => ?_]
      · exact hp
      · have := (hw.spec (r.fit .nursery)).2
        rw [show (h.drain .nursery).gen x = .mature from hgx] at this
        cases this

theorem nursery_covered (r : AtRest h) (rec : Recorded h) (c : Covered [] h) :
    Covered (h.owed .nursery) (h.found .nursery) := by
  have fd := r.found .nursery
  have t := r.tried .nursery
  intro x hx
  rw [fd.live] at hx
  rw [fd.edges, fd.outside]
  set roots := h.outside ++ h.owed .nursery ++ (h.found .nursery).purples
  have hanchor : ∀ a, Anchor h a → Reach h.edges roots a := by
    rintro a (ha | ⟨ha, hn⟩ | ⟨w, hw, ha⟩)
    · exact .root (mem_append_left _ (mem_append_left _ ha))
    · exact .root (mem_append_right _ (r.purples_found ha hn))
    · refine .root (mem_append_left _ (mem_append_right _ (r.mem_owed hw (ha.imp_right fun ha => ⟨ha.1, ?_⟩))))
      rw [ha.2]
      rfl
  have hxo : x ∈ h.live := by
    rw [r.live]
    exact (r.live_iff.mp hx).1
  have hpath := (c x hxo).induct (S := fun v => Freed h .nursery v ∨ Reach h.edges roots v) (fun v hv => ?_) ?_
  · exact hpath.resolve_left (r.live_iff.mp hx).2
  · rw [append_nil] at hv
    by_cases hf : Freed h .nursery v
    · exact .inl hf
    · rcases mem_append.mp hv with hv | hv
      · exact .inr (hanchor v (.inl hv))
      · exact .inr (hanchor v (.inr (.inl ⟨hv, hf⟩)))
  · rintro v (hv | hv) b hb
    · rcases mem_append.mp hb with hb | hb
      · by_cases hf : Freed h .nursery b
        · exact .inl hf
        · refine .inr ?_
          cases hg : h.gen b with
          | mature => exact hanchor b (.inr (.inr ⟨v, hv, .inr ⟨hb, hg⟩⟩))
          | nursery =>
            obtain ⟨a, ha, hab⟩ := rec v hv b hb hg hf
            exact (hanchor a ha).trans hab
      · exact .inr (hanchor b (.inr (.inr ⟨v, hv, .inl hb⟩)))
    · exact .inr (hv.tail hb)

/-! ### The invariant -/

/-- The heap between the steps, with every object on record. -/
structure Sound (h : Heap) : Prop where
  rest : AtRest h
  traced : Traced h
  tame : Tame h
  covered : Covered [] h

/-- Both properties of the graph stay with what stays. -/
theorem Traced.stay (tr : Traced h) (s : Stay h h') : Traced h' := by
  intro a ha hh x hx
  rw [s.headered] at hh ⊢
  rw [s.untraced a ha] at hx
  exact tr a (s.live a ha) hh x hx

theorem Sound.full (s : Sound h) : Sound (h.cycPass .mature).1 := by
  obtain ⟨r', -, hc⟩ := s.rest.pass .mature
  have st := s.rest.pass_stay .mature
  exact ⟨r', s.traced.stay st, s.tame.stay st r'.ok, hc s.tame (full_covered s.rest s.traced s.tame s.covered)⟩

theorem Sound.nursery (s : Sound h) (rec : Recorded h) : Sound (h.cycPass .nursery).1 := by
  obtain ⟨r', -, hc⟩ := s.rest.pass .nursery
  have st := s.rest.pass_stay .nursery
  exact ⟨r', s.traced.stay st, s.tame.stay st r'.ok, hc s.tame (nursery_covered s.rest rec s.covered)⟩

/-! ### The collection -/

/-- Every object is within reach of the outside. -/
def Complete (h : Heap) : Prop := ∀ x ∈ h.objs, Reach h.edges h.outside x

theorem Sound.complete_of_unbuffered (s : Sound h) (hb : h.anyBuffered = false) : Complete h := by
  intro x hx
  have hnil : h.purples = [] := by
    simp only [Heap.anyBuffered, Bool.or_eq_false_iff, Bool.not_eq_false', List.isEmpty_iff] at hb
    rw [Heap.purples, hb.1, hb.2]
    rfl
  have := s.covered x (by rwa [s.rest.live])
  rwa [hnil, append_nil, append_nil] at this

/-- A pass that frees nothing had nothing to free. -/
theorem Sound.complete_of_idle (s : Sound h) (hw : (h.walked .mature).white = []) :
    Complete (h.cycPass .mature).1 := by
  have r := s.rest
  have r' := (r.pass .mature).1
  have st := r.pass_stay .mature
  intro x hx
  have hxl : x ∈ (h.walked .mature).live := by
    rw [← (r.found .mature).live]
    exact (r.pass .mature).2.1.live x (by rwa [r'.live])
  have howed : h.owed .mature = [] := by
    unfold Heap.owed Heap.pins Heap.crossing
    rw [hw]
    rfl
  have hr := full_reach r s.traced s.tame s.covered hxl
  rw [howed, append_nil] at hr
  rw [st.outside]
  refine hr.congr fun a ha => st.edges ?_
  rw [r'.live]
  exact r.pass_keeps .mature ha

/-- A pass that frees something leaves fewer objects. -/
theorem AtRest.length_pass (r : AtRest h) (limit : Gen) (hw : (h.walked limit).white ≠ []) :
    (h.cycPass limit).1.objs.length < h.objs.length := by
  have r' := (r.pass limit).1
  obtain ⟨w, hw⟩ := exists_mem_of_ne_nil _ hw
  have hwo : w ∈ h.objs ∧ (h.walked limit).color w = .doomed := ((r.tried limit).white w).mp hw
  have hsub : (h.cycPass limit).1.objs ⊆ h.objs.erase w := by
    intro x hx
    have hxf : x ∈ (h.walked limit).live := by
      rw [← (r.found limit).live]
      exact (r.pass limit).2.1.live x (by rwa [r'.live])
    refine (r.ok.nodup.mem_erase_iff).mpr ⟨?_, (r.live_iff.mp hxf).1⟩
    rintro rfl
    exact (mem_live.mp hxf).2 hwo.2
  have hle := (r'.ok.nodup.subperm hsub).length_le
  have hpos := length_pos_of_mem hwo.1
  rw [length_erase_of_mem hwo.1] at hle
  omega

theorem AtRest.pass_snd (r : AtRest h) (limit : Gen) : (h.cycPass limit).2 = (h.walked limit).white.length := by
  rw [← (r.found limit).white]
  rfl

theorem Sound.collectLoop (s : Sound h) (n : ℕ) (hn : h.objs.length < n) :
    Sound (Heap.collectLoop n h) ∧ Complete (Heap.collectLoop n h) ∧ (Heap.collectLoop n h).outside = h.outside := by
  induction n generalizing h with
  | zero => omega
  | succ n ih =>
    have s' := s.full
    have hout := (s.rest.pass_stay .mature).outside
    have hsize := s.rest.pass_snd .mature
    unfold Heap.collectLoop
    simp only [Bool.and_eq_true, decide_eq_true_eq]
    split_ifs with hgo
    · have hlt := s.rest.length_pass .mature fun he => hgo.1 (by rw [hsize, he]; rfl)
      obtain ⟨h1, h2, h3⟩ := ih s' (by omega)
      exact ⟨h1, h2, h3.trans hout⟩
    · refine ⟨s', ?_, hout⟩
      by_cases hw : (h.walked .mature).white = []
      · exact s.complete_of_idle hw
      · refine s'.complete_of_unbuffered ?_
        by_contra hb
        refine hgo ⟨?_, by simpa using hb⟩
        rw [hsize]
        simpa using hw

/-! ### The program -/

namespace Act

/-- What the program promises about its stores: `trace` visits every child with a header, no cycle
is closed through an object without one, and the program can still reach what it stores to. -/
def Traces (h : Heap) : Act → Prop
  | .store x t u rest => (h.headered x = true → ∀ y ∈ u, h.headered y = false) ∧ Tame (h.store x t u rest) ∧
      Reach h.edges rest x
  | _ => True

/-- Nursery passes come only where they lose no record. -/
def Records (h : Heap) : Act → Prop
  | .pass .nursery => Recorded h
  | _ => True

/-- A step of a program that keeps its promises. -/
def Honest (h : Heap) (a : Act) : Prop := a.Fits h ∧ a.Traces h

end Act

theorem Covered.mono {held held' out : List Id} (c : Covered held h)
    (hr : ∀ y, y ∈ h.outside ∨ y ∈ held → y ∈ out ∨ y ∈ held') : Covered held' { h with outside := out } := by
  intro x hx
  refine (c x hx).mono fun v hv => .root ?_
  show v ∈ out ++ held' ++ h.purples
  rcases mem_append.mp hv with hv | hv
  · exact mem_append_left _ (mem_append.mpr (hr v (mem_append.mp hv)))
  · exact mem_append_right _ hv

theorem Sound.alloc (s : Sound h) (b : Bool) : Sound (h.alloc b) := by
  obtain ⟨r, tr, tm, c⟩ := s
  have hn : h.nextId ∉ h.objs := fun hin => lt_irrefl _ (r.ok.fresh _ hin)
  have hl := alloc_live h b hn
  have hne : ∀ {y}, y ∈ h.live → y ≠ h.nextId := by
    rintro y hy rfl
    exact hn (mem_live.mp hy).1
  have hself : (h.alloc b).edges h.nextId = [] := by simp [Heap.edges, Heap.alloc]
  have hedge : ∀ {a y}, a ∈ h.live → y ∈ (h.alloc b).edges a → y ∈ h.edges a ∧ y ∈ h.live := by
    intro a y ha hy
    rw [alloc_edges b (hne ha)] at hy
    exact ⟨hy, r.ok.edge a ha y hy⟩
  refine ⟨r.alloc b, fun a ha hh y hy => ?_, fun d hd hh hr => ?_, fun y hy => ?_⟩
  · rw [hl] at ha
    rcases mem_cons.mp ha with rfl | ha
    · simp [Heap.alloc] at hy
    · obtain ⟨-, hyl⟩ := hedge ha (mem_append_right _ hy)
      simp only [Heap.alloc, Function.update_of_ne (hne ha), Function.update_of_ne (hne hyl)] at hh hy ⊢
      exact tr a ha hh y hy
  · rw [hl] at hd
    rcases mem_cons.mp hd with rfl | hd
    · obtain ⟨v, hv, -⟩ := hr
      rw [hself] at hv
      exact not_mem_nil hv
    · refine tm d hd (by simpa [Heap.alloc, hne hd] using hh) ?_
      refine (hr.induct (S := fun z => z ∈ h.live ∧ Reach h.edges (h.edges d) z) (fun v hv => ?_) fun a ha z hz => ?_).2
      · obtain ⟨hv, hvl⟩ := hedge hd hv
        exact ⟨hvl, .root hv⟩
      · obtain ⟨hz, hzl⟩ := hedge ha.1 hz
        exact ⟨hzl, ha.2.tail hz⟩
  · rw [hl] at hy
    rcases mem_cons.mp hy with rfl | hy
    · exact .root (by simp [Heap.alloc])
    · refine ((c y hy).induct (S := fun z => z ∈ h.live ∧ Reach (h.alloc b).edges _ z) (fun v hv => ?_) fun a ha z hz => ?_).2
      · rw [append_nil] at hv
        rcases mem_append.mp hv with hv | hv
        · exact ⟨r.ok.out v hv, .root (by simp [Heap.alloc, hv])⟩
        · obtain ⟨⟨g, hg⟩, hp⟩ := mem_purples.mp hv
          have hvl := (r.ok.buffers.mem g v hg).1
          refine ⟨hvl, .root (mem_append_right _ (mem_purples.mpr ⟨⟨g, hg⟩, ?_⟩))⟩
          simpa [Heap.alloc, hne hvl] using hp
      · exact ⟨r.ok.edge a ha.1 z hz, ha.2.tail (by rwa [alloc_edges b (hne ha.1)])⟩

theorem retain_fields (h : Heap) (x : Id) : (h.retain x).objs = h.objs ∧ (h.retain x).edges = h.edges ∧
    (h.retain x).traced = h.traced ∧ (h.retain x).untraced = h.untraced ∧ (h.retain x).headered = h.headered ∧
    (h.retain x).outside = x :: h.outside ∧ (h.retain x).roots = h.roots ∧
    ∀ y, y ≠ x → (h.retain x).color y = h.color y := by
  unfold Heap.retain Heap.markLive
  split_ifs
  · exact ⟨rfl, rfl, rfl, rfl, rfl, rfl, rfl, fun y hy => by simp [Heap.paint, Heap.inc, hy]⟩
  · exact ⟨rfl, rfl, rfl, rfl, rfl, rfl, rfl, fun y _ => rfl⟩

theorem Sound.retain (s : Sound h) (hx : x ∈ h.objs) : Sound (h.retain x) := by
  obtain ⟨r, tr, tm, c⟩ := s
  obtain ⟨ho, he, -, hu, hh, hout, hroots, hcol⟩ := retain_fields h x
  have hl : (h.retain x).live = h.live := by rw [(r.retain hx).live, r.live, ho]
  refine ⟨r.retain hx, ?_, ?_, fun y hy => ?_⟩
  · unfold Traced
    rw [hl, hh, hu]
    exact tr
  · unfold Tame
    rw [hl, hh, he]
    exact tm
  · rw [hl] at hy
    rw [he, hout]
    refine (c y hy).mono fun v hv => .root ?_
    rw [append_nil] at hv ⊢
    by_cases hvx : v = x
    · simp [hvx]
    · rcases mem_append.mp hv with hv | hv
      · simp [hv]
      · refine mem_append_right _ ?_
        rw [mem_purples] at hv ⊢
        rw [hroots, hcol v hvx]
        exact hv

theorem Sound.release (s : Sound h) (hx : x ∈ h.outside) : Sound (h.release x) := by
  obtain ⟨r, tr, tm, c⟩ := s
  have ok := r.ok.handed hx
  have c' : Covered [x] (h.handed x) := c.mono fun y hy => by
    rcases hy with hy | hy
    · rcases mem_cons.mp ((perm_cons_erase hx).mem_iff.mp hy) with rfl | hy
      · exact .inr mem_cons_self
      · exact .inl hy
    · exact absurd hy not_mem_nil
  have tr' : Traced (h.handed x) := tr
  have tm' : Tame (h.handed x) := tm
  have hrest := r.release hx
  by_cases h1 : h.rc x = 1
  · have k : Kept (h.handed x) ((h.handed x).die x) := .die ok
    have trd : Traced ((h.handed x).die x) := tr'.stay k.stay
    have tmd : Tame ((h.handed x).die x) := tm'.stay k.stay (ok.die h1)
    rw [release_last h1] at hrest ⊢
    refine ⟨hrest, trd, tmd, (Covered.die ok c').mono fun y hy => ?_⟩
    rw [k.outside, append_nil] at hy
    exact .inl (mem_append.mpr hy.symm)
  · have hmem : x ∈ (h.handed x).live := ok.hold x mem_cons_self
    have k : Kept (h.handed x) (((h.handed x).dec x).onRelease x) := .onRelease hmem
    rw [release_more h1] at hrest ⊢
    exact ⟨hrest, tr'.stay k.stay, tm'.stay k.stay ((ok.dec h1).onRelease hmem), Covered.onRelease ok h1 tm' c'⟩

theorem Sound.store (s : Sound h) (hx : x ∈ h.objs) (hp : (t ++ u ++ rest).Perm (h.edges x ++ h.outside))
    (ht : h.headered x = false → t = []) (hu : h.headered x = true → ∀ y ∈ u, h.headered y = false)
    (tm : Tame (h.store x t u rest)) (hr : Reach h.edges rest x) : Sound (h.store x t u rest) := by
  obtain ⟨r, tr, -, c⟩ := s
  refine ⟨r.store hx hp ht, fun a ha hh y hy => ?_, tm, fun y hy => ?_⟩
  · by_cases hax : a = x
    · subst hax
      exact hu hh y (by simpa [Heap.store] using hy)
    · exact tr a ha hh y (by simpa [Heap.store, hax] using hy)
  · -- the way to the object does not lead through it
    have hway : Reach (h.store x t u rest).edges rest x := by
      have := hr.induct (S := fun z => Reach (h.store x t u rest).edges rest x ∨
        Reach (h.store x t u rest).edges rest z) (fun v hv => .inr (.root hv)) ?_
      · exact this.elim id id
      · rintro a (ha | ha) b hb
        · exact .inl ha
        · by_cases hax : a = x
          · subst hax
            exact .inl ha
          · exact .inr (ha.tail (by rwa [store_edges hax]))
    have hroot : ∀ v, v ∈ h.edges x ∨ v ∈ h.outside →
        Reach (h.store x t u rest).edges (rest ++ [] ++ h.purples) v := by
      intro v hv
      rw [← mem_append, ← hp.mem_iff] at hv
      rcases mem_append.mp hv with hv | hv
      · exact (hway.mono fun r hr => .root (by simp [hr])).tail (by rwa [store_edges_self])
      · exact .root (by simp [hv])
    refine (c y hy).induct (fun v hv => ?_) fun a ha b hb => ?_
    · rw [append_nil] at hv
      rcases mem_append.mp hv with hv | hv
      · exact hroot v (.inr hv)
      · exact .root (mem_append_right _ hv)
    · by_cases hax : a = x
      · subst hax
        exact hroot b (.inl hb)
      · exact ha.tail (by rwa [store_edges hax])

theorem sound_empty : Sound .empty := ⟨atRest_empty, nofun, nofun, nofun⟩

theorem Sound.act {a : Act} (s : Sound h) (ha : a.Honest h) (hrec : a.Records h) : Sound (a.run h) := by
  obtain ⟨hf, ht⟩ := ha
  cases a with
  | alloc header => exact s.alloc header
  | retain x => exact s.retain hf
  | release x => exact s.release hf
  | store x t u rest => exact s.store hf.1 hf.2.1 hf.2.2 ht.1 ht.2.1 ht.2.2
  | pass limit =>
    cases limit with
    | nursery => exact s.nursery hrec
    | mature => exact s.full

theorem Sound.run (s : Sound h) (hs : Relation.ReflTransGen (Step fun h a => a.Honest h ∧ a.Records h) h h') :
    Sound h' := by
  induction hs with
  | refl => exact s
  | tail _ hstep ih =>
    obtain ⟨a, ha, rfl⟩ := hstep
    exact ih.act ha.1 ha.2

/-- **The collector is complete where no nursery pass loses a record.** In every run whose nursery
passes come only there, every object is at all times within reach of the outside or of a buffered
candidate, and `scr_collect_cycles` leaves only what the outside reaches. -/
theorem collect_complete (hs : Relation.ReflTransGen (Step fun h a => a.Honest h ∧ a.Records h) .empty h) :
    (∀ x ∈ h.objs, Reach h.edges (h.outside ++ h.purples) x) ∧
    (∀ x ∈ h.collectCycles.objs, Reach h.collectCycles.edges h.collectCycles.outside x) ∧
    h.collectCycles.outside = h.outside := by
  have s := sound_empty.run hs
  obtain ⟨-, hc, hout⟩ := s.collectLoop (h.objs.length + 1) (Nat.lt_succ_self _)
  refine ⟨fun x hx => ?_, hc, hout⟩
  have := s.covered x (by rwa [s.rest.live])
  rwa [append_nil] at this

/-- Where every object has a header, no cycle leads through one without. -/
theorem tame_of_headered (hh : ∀ d ∈ h.objs, h.headered d = true) : Tame h := by
  intro d hd hf
  rw [hh d (mem_live.mp hd).1] at hf
  cases hf

/-- A self-cycle that was released for good. -/
def lostSelf : Heap := runAll .empty [.alloc true, .retain 0, .store 0 [0] [] [0], .release 0]

/-- The collection clears it. -/
theorem collect_lostSelf : 0 ∈ lostSelf.objs ∧ 0 ∉ lostSelf.collectCycles.objs := by
  have hs : Relation.ReflTransGen (Step fun h a => a.Honest h ∧ a.Records h) .empty lostSelf :=
    AllowedAll.steps ⟨⟨⟨trivial, trivial⟩, trivial⟩, ⟨⟨by decide, trivial⟩, trivial⟩,
      ⟨⟨by decide, nofun, tame_of_headered (by decide), .root (by decide)⟩, trivial⟩,
      ⟨⟨by decide, trivial⟩, trivial⟩, trivial⟩
  obtain ⟨-, hc, hout⟩ := collect_complete hs
  refine ⟨by decide, fun hin => ?_⟩
  obtain ⟨r, hr, -⟩ := hc 0 hin
  rw [hout, show lostSelf.outside = [] by decide] at hr
  exact not_mem_nil hr

/-- Two nursery passes: the first one promotes `1`, the second one frees `3` and spares `2` because
of the edge from `1`, which it does not walk. -/
def lostPair : Heap :=
  runAll .empty [.alloc true, .alloc true, .store 0 [1] [] [0], .retain 0, .store 0 [1, 0] [] [0], .alloc true,
    .retain 1, .store 2 [1] [] [2, 0], .alloc true, .retain 3, .store 3 [3, 2] [] [3, 0], .release 0, .pass .nursery,
    .retain 2, .store 1 [2] [] [3], .release 3, .pass .nursery]

/-- **A nursery pass can lose a cycle**: the two objects that are left refer to each other only, and
no buffer leads to them. -/
theorem lostPair_leaks : Relation.ReflTransGen (Step Act.Honest) .empty lostPair ∧ lostPair.purples = [] ∧
    ∃ x ∈ lostPair.collectCycles.objs, lostPair.collectCycles.headered x = true ∧
      ¬ Reach lostPair.collectCycles.edges lostPair.collectCycles.outside x := by
  refine ⟨AllowedAll.steps ?_, by decide +kernel, 1, by decide +kernel, by decide +kernel, ?_⟩
  · refine ⟨⟨trivial, trivial⟩, ⟨trivial, trivial⟩, ⟨by decide, nofun, tame_of_headered (by decide), .root (by decide)⟩,
      ⟨by decide, trivial⟩, ⟨by decide, nofun, tame_of_headered (by decide), .root (by decide)⟩,
      ⟨trivial, trivial⟩, ⟨by decide, trivial⟩, ⟨by decide, nofun, tame_of_headered (by decide), .root (by decide)⟩,
      ⟨trivial, trivial⟩, ⟨by decide, trivial⟩, ⟨by decide, nofun, tame_of_headered (by decide), .root (by decide)⟩,
      ⟨by decide, trivial⟩, ⟨trivial, trivial⟩, ⟨by decide, trivial⟩,
      ⟨by decide +kernel, nofun, tame_of_headered (by decide +kernel), ?_⟩, ⟨by decide +kernel, trivial⟩,
      ⟨trivial, trivial⟩, trivial⟩
    exact ((Reach.root (x := 3) (by decide)).tail (y := 2) (by decide +kernel)).tail (by decide +kernel)
  · rintro ⟨r, hr, -⟩
    rw [show lostPair.collectCycles.outside = [] by decide +kernel] at hr
    exact not_mem_nil hr

end Scriptc.Runtime
