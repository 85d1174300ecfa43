import Scriptc.Runtime.Cycle

/-!
# The counts of the C heap

Between the steps of the program, and again once a pass has found its white set, the count of an
object is the number of references to it: outside, in the fields of objects, and in the hands of a
release under way. An object that is doomed is no longer part of that reckoning.
-/

namespace Scriptc.Runtime

open Graph List Function

namespace Heap

/-- The objects that are not about to be freed. -/
def live (h : Heap) : List Id := h.objs.filter fun x => h.color x ≠ .doomed

/-- The buffered candidates that are still purple. -/
def purples (h : Heap) : List Id := (h.roots .nursery ++ h.roots .mature).filter fun x => h.color x = .purple

end Heap

theorem mem_live {h : Heap} {x : Id} : x ∈ h.live ↔ x ∈ h.objs ∧ h.color x ≠ .doomed := by simp [Heap.live]

theorem mem_purples {h : Heap} {x : Id} : x ∈ h.purples ↔ (∃ g, x ∈ h.roots g) ∧ h.color x = .purple := by
  simp only [Heap.purples, mem_filter, mem_append, decide_eq_true_eq]
  refine and_congr_left fun _ => ⟨fun hx => hx.elim (⟨_, ·⟩) (⟨_, ·⟩), ?_⟩
  rintro ⟨_ | _, hx⟩
  · exact .inl hx
  · exact .inr hx

/-- The buffers are in order. -/
structure Buffers (h : Heap) : Prop where
  nodup : ∀ g, (h.roots g).Nodup
  mem : ∀ g, ∀ x ∈ h.roots g, x ∈ h.live ∧ h.gen x = g
  buffered : ∀ x ∈ h.live, h.buffered x = true ↔ x ∈ h.roots (h.gen x)

/-- The heap is in order while the references `held` are about to be released. -/
structure Ok (held : List Id) (h : Heap) : Prop where
  nodup : h.objs.Nodup
  fresh : ∀ x ∈ h.objs, x < h.nextId
  out : ∀ x ∈ h.outside, x ∈ h.live
  hold : ∀ x ∈ held, x ∈ h.live
  edge : ∀ a ∈ h.live, ∀ x ∈ h.edges a, x ∈ h.live
  /-- Every reference is counted. -/
  count : ∀ x ∈ h.live, h.rc x = h.outside.count x + indegree h.edges h.live x + held.count x
  used : ∀ x ∈ h.live, 0 < h.rc x
  tone : ∀ x ∈ h.live, h.color x = .black ∨ h.color x = .purple
  /-- Only objects with a header are traced. -/
  plain : ∀ x ∈ h.live, h.headered x = false → h.traced x = []
  buffers : Buffers h

/-- The objects that stay have their fields, and what is doomed is left alone. -/
structure Kept (h h' : Heap) : Prop where
  outside : h'.outside = h.outside
  nextId : h'.nextId = h.nextId
  promote : h'.promote = h.promote
  white : h'.white = h.white
  headered : h'.headered = h.headered
  live : ∀ x ∈ h'.live, x ∈ h.live
  traced : ∀ x ∈ h'.objs, h'.traced x = h.traced x
  untraced : ∀ x ∈ h'.objs, h'.untraced x = h.untraced x
  objs : ∀ x ∈ h'.objs, x ∈ h.objs
  doomed : ∀ x ∈ h.objs, h.color x = .doomed → x ∈ h'.objs ∧ h'.color x = .doomed
  spared : ∀ x, h'.color x = .doomed → h.color x = .doomed

/-- What is left has its fields. -/
structure Stay (h h' : Heap) : Prop where
  outside : h'.outside = h.outside
  headered : h'.headered = h.headered
  live : ∀ x ∈ h'.live, x ∈ h.live
  traced : ∀ x ∈ h'.live, h'.traced x = h.traced x
  untraced : ∀ x ∈ h'.live, h'.untraced x = h.untraced x

/-- Every object is within reach of the outside, of what is being released, or of a buffered
candidate. -/
def Covered (held : List Id) (h : Heap) : Prop := ∀ x ∈ h.live, Reach h.edges (h.outside ++ held ++ h.purples) x

/-- The contract of `trace`: it visits every child with a header. -/
def Traced (h : Heap) : Prop := ∀ a ∈ h.live, h.headered a = true → ∀ x ∈ h.untraced a, h.headered x = false

/-- No cycle leads through an object without a header. -/
def Tame (h : Heap) : Prop := ∀ d ∈ h.live, h.headered d = false → ¬ Reach h.edges (h.edges d) d

variable {h h' h'' : Heap} {held held' rest : List Id} {x y : Id}

theorem Kept.refl (h : Heap) : Kept h h :=
  ⟨rfl, rfl, rfl, rfl, rfl, fun _ hx => hx, fun _ _ => rfl, fun _ _ => rfl, fun _ hx => hx, fun _ hx hd => ⟨hx, hd⟩,
    fun _ hd => hd⟩

theorem Stay.refl (h : Heap) : Stay h h := ⟨rfl, rfl, fun _ hx => hx, fun _ _ => rfl, fun _ _ => rfl⟩

theorem Stay.trans (a : Stay h h') (b : Stay h' h'') : Stay h h'' :=
  ⟨b.outside.trans a.outside, b.headered.trans a.headered, fun x hx => a.live x (b.live x hx),
    fun x hx => (b.traced x hx).trans (a.traced x (b.live x hx)),
    fun x hx => (b.untraced x hx).trans (a.untraced x (b.live x hx))⟩

theorem Kept.stay (k : Kept h h') : Stay h h' :=
  ⟨k.outside, k.headered, k.live, fun x hx => k.traced x (mem_live.mp hx).1, fun x hx => k.untraced x (mem_live.mp hx).1⟩

theorem Stay.edges (s : Stay h h') (hx : x ∈ h'.live) : h'.edges x = h.edges x := by
  rw [Heap.edges, Heap.edges, s.traced x hx, s.untraced x hx]

theorem Ok.perm (hp : held.Perm held') (ok : Ok held h) : Ok held' h :=
  { ok with
    hold := fun x hx => ok.hold x (hp.mem_iff.mpr hx)
    count := fun x hx => by rw [ok.count x hx, hp.count_eq] }

/-! ### Counting up and down -/

@[simp] theorem inc_live (h : Heap) (x : Id) : (h.inc x).live = h.live := rfl
@[simp] theorem dec_live (h : Heap) (x : Id) : (h.dec x).live = h.live := rfl

theorem inc_rc (h : Heap) (x y : Id) : (h.inc x).rc y = h.rc y + [x].count y := by
  by_cases hy : y = x
  · subst hy; simp [Heap.inc]
  · simp [Heap.inc, hy, Ne.symm hy]

theorem Ok.inc (ok : Ok held h) (hx : x ∈ h.live) : Ok (x :: held) (h.inc x) := by
  refine { ok with hold := fun y hy => ?_, count := fun y hy => ?_, used := fun y hy => ?_, buffers := { ok.buffers with } }
  · rcases mem_cons.mp hy with rfl | hy
    · exact hx
    · exact ok.hold y hy
  · show (h.inc x).rc y = h.outside.count y + indegree h.edges h.live y + _
    rw [inc_rc, ok.count y hy]
    simp only [count_cons, count_nil]
    omega
  · have := ok.used y hy
    rw [inc_rc]
    omega

theorem Ok.dec (ok : Ok (x :: held) h) (hx : h.rc x ≠ 1) : Ok held (h.dec x) := by
  have hmem : x ∈ h.live := ok.hold x mem_cons_self
  have hpos := ok.used x hmem
  refine { ok with hold := fun y hy => ok.hold y (mem_cons_of_mem _ hy), count := fun y hy => ?_,
                   used := fun y hy => ?_, buffers := { ok.buffers with } }
  · show (h.dec x).rc y = h.outside.count y + indegree h.edges h.live y + _
    have hc := ok.count y hy
    by_cases hyx : y = x
    · subst hyx
      simp only [count_cons_self] at hc
      simp only [Heap.dec, update_self]
      omega
    · rw [count_cons_of_ne (Ne.symm hyx)] at hc
      simpa [Heap.dec, hyx] using hc
  · by_cases hyx : y = x
    · subst hyx
      simp only [Heap.dec, update_self]
      omega
    · simpa [Heap.dec, hyx] using ok.used y hy

/-! ### Colors and buffers -/

theorem paint_live {c : Color} (hx : h.color x ≠ .doomed) (hc : c ≠ .doomed) : (h.paint x c).live = h.live := by
  refine filter_congr fun y _ => ?_
  by_cases hyx : y = x
  · subst hyx
    simp [Heap.paint, hx, hc]
  · simp [Heap.paint, hyx]

theorem Ok.paint {c : Color} (ok : Ok held h) (hx : x ∈ h.live) (hc : c = .black ∨ c = .purple) :
    Ok held (h.paint x c) := by
  have hl : (h.paint x c).live = h.live := by
    refine paint_live (mem_live.mp hx).2 ?_
    rcases hc with rfl | rfl <;> decide
  obtain ⟨h1, h2, h3, h4, h5, h6, h7, h8, h8', h9⟩ := ok
  refine ⟨h1, h2, by rw [hl]; exact h3, by rw [hl]; exact h4, by rw [hl]; exact h5, ?_, by rw [hl]; exact h7, ?_,
    by rw [hl]; exact h8', ⟨h9.nodup, by rw [hl]; exact h9.mem, by rw [hl]; exact h9.buffered⟩⟩
  · rw [hl]
    exact h6
  · rw [hl]
    intro y hy
    by_cases hyx : y = x
    · subst hyx
      simpa [Heap.paint] using hc
    · simpa [Heap.paint, hyx] using h8 y hy

theorem Buffers.buffer (b : Buffers h) (hx : x ∈ h.live) : Buffers (h.buffer x) := by
  unfold Heap.buffer
  split_ifs with hb
  · exact b
  have hn : x ∉ h.roots (h.gen x) := fun hin => hb ((b.buffered x hx).mpr hin)
  refine ⟨fun g => ?_, fun g y hy => ?_, fun y hy => ?_⟩
  · by_cases hg : g = h.gen x
    · subst hg
      simpa using (b.nodup _).append (nodup_singleton x) (by simpa using hn)
    · simpa [hg] using b.nodup g
  · by_cases hg : g = h.gen x
    · subst hg
      simp only [update_self, mem_append, mem_singleton] at hy
      rcases hy with hy | rfl
      · exact b.mem _ y hy
      · exact ⟨hx, rfl⟩
    · exact b.mem g y (by simpa [hg] using hy)
  · have := b.buffered y hy
    by_cases hyx : y = x
    · subst hyx
      simp
    · by_cases hg : h.gen y = h.gen x
      · simp only [update_of_ne hyx, hg, update_self, mem_append, mem_singleton, hyx,
          or_false]
        rw [this, hg]
      · simp only [update_of_ne hyx, update_of_ne hg]
        exact this

theorem buffer_fields (h : Heap) (x : Id) : (h.buffer x).objs = h.objs ∧ (h.buffer x).rc = h.rc ∧
    (h.buffer x).color = h.color ∧ (h.buffer x).gen = h.gen ∧ (h.buffer x).traced = h.traced ∧
    (h.buffer x).untraced = h.untraced ∧ (h.buffer x).outside = h.outside ∧ (h.buffer x).headered = h.headered ∧
    (h.buffer x).nextId = h.nextId ∧ (h.buffer x).promote = h.promote ∧ (h.buffer x).white = h.white := by
  unfold Heap.buffer
  split_ifs <;> exact ⟨rfl, rfl, rfl, rfl, rfl, rfl, rfl, rfl, rfl, rfl, rfl⟩

theorem buffer_live (h : Heap) (x : Id) : (h.buffer x).live = h.live := by
  unfold Heap.buffer
  split_ifs <;> rfl

theorem Ok.buffer (ok : Ok held h) (hx : x ∈ h.live) : Ok held (h.buffer x) := by
  have hl := buffer_live h x
  have hb := ok.buffers.buffer hx
  obtain ⟨ho, hr, hc, -, ht, hu, hout, hhd, hn, -, -⟩ := buffer_fields h x
  have he : (h.buffer x).edges = h.edges := by
    funext y
    simp only [Heap.edges, ht, hu]
  exact ⟨ho ▸ ok.nodup, by rw [ho, hn]; exact ok.fresh, by rw [hout, hl]; exact ok.out, by rw [hl]; exact ok.hold,
    by rw [hl, he]; exact ok.edge, by rw [hr, hout, he, hl]; exact ok.count, by rw [hl, hr]; exact ok.used,
    by rw [hl, hc]; exact ok.tone, by rw [hl, hhd, ht]; exact ok.plain, hb⟩

theorem mem_buffer (b : Buffers h) (hx : x ∈ h.live) : x ∈ (h.buffer x).roots (h.gen x) ∧
    ∀ g, ∀ y ∈ h.roots g, y ∈ (h.buffer x).roots g := by
  unfold Heap.buffer
  split_ifs with hb
  · exact ⟨(b.buffered x hx).mp hb, fun _ _ hy => hy⟩
  · refine ⟨by simp, fun g y hy => ?_⟩
    by_cases hg : g = h.gen x
    · subst hg
      simp [hy]
    · simpa [hg] using hy

theorem Ok.onRelease (ok : Ok held h) (hx : x ∈ h.live) : Ok held (h.onRelease x) := by
  unfold Heap.onRelease
  split_ifs
  · refine (ok.paint hx (.inr rfl)).buffer ?_
    rwa [paint_live (mem_live.mp hx).2 (by decide)]
  · exact ok

theorem Kept.onRelease (hx : x ∈ h.live) : Kept h ((h.dec x).onRelease x) := by
  have hd := (mem_live.mp hx).2
  unfold Heap.onRelease
  split_ifs with hh
  · obtain ⟨ho, -, hc, -, ht, hu, hout, hhd, hn, hp, hw⟩ := buffer_fields ((h.dec x).paint x .purple) x
    have hl : (((h.dec x).paint x .purple).buffer x).live = h.live := by
      rw [buffer_live, paint_live (h := h.dec x) hd (by decide)]
      rfl
    refine ⟨hout, hn, hp, hw, hhd, by rw [hl]; exact fun _ hy => hy, fun y _ => congrFun ht y, fun y _ => congrFun hu y,
      fun y hy => ho ▸ hy, fun y hy hyd => ⟨ho ▸ hy, ?_⟩, fun y hyd => ?_⟩
    · have hyx : y ≠ x := fun e => hd (e ▸ hyd)
      rw [hc]
      simpa [Heap.paint, Heap.dec, hyx] using hyd
    · rw [hc] at hyd
      by_cases hyx : y = x
      · subst hyx
        simp [Heap.paint] at hyd
      · simpa [Heap.paint, Heap.dec, hyx] using hyd
  · exact ⟨rfl, rfl, rfl, rfl, rfl, fun _ hy => hy, fun _ _ => rfl, fun _ _ => rfl, fun _ hy => hy,
      fun _ hy hyd => ⟨hy, hyd⟩, fun _ hyd => hyd⟩

/-! ### The end of an object -/

theorem swapRemove_perm {l : List Id} (hx : x ∈ l) : (Heap.swapRemove l x).Perm (l.erase x) := by
  obtain ⟨a, b, rfl, ha⟩ := eq_append_cons_of_mem hx
  have hidx : (a ++ x :: b).idxOf x = a.length := by
    rw [idxOf_append_of_notMem ha, idxOf_cons_self, Nat.add_zero]
  rw [Heap.swapRemove, hidx, erase_append_right _ ha, erase_cons_head]
  rcases eq_nil_or_concat b with rfl | ⟨b, z, rfl⟩
  · simp
  · have hlast : (a ++ x :: b.concat z).getLastD x = z := by
      rw [concat_eq_append, show a ++ x :: (b ++ [z]) = (a ++ x :: b) ++ [z] by simp, getLastD_concat]
    rw [hlast]
    have hset : (a ++ x :: b.concat z).set a.length z = (a ++ z :: b) ++ [z] := by
      simp [set_append_right]
    rw [hset, dropLast_concat, concat_eq_append]
    exact (perm_middle.trans (perm_append_singleton z (a ++ b)).symm).trans (by simp)

theorem onDead_fields (h : Heap) (x : Id) : (h.onDead x).objs = h.objs ∧ (h.onDead x).rc = h.rc ∧
    (h.onDead x).color = h.color ∧ (h.onDead x).gen = h.gen ∧ (h.onDead x).traced = h.traced ∧
    (h.onDead x).untraced = h.untraced ∧ (h.onDead x).outside = h.outside ∧ (h.onDead x).headered = h.headered ∧
    (h.onDead x).nextId = h.nextId ∧ (h.onDead x).promote = h.promote ∧ (h.onDead x).white = h.white := by
  unfold Heap.onDead
  split_ifs <;> exact ⟨rfl, rfl, rfl, rfl, rfl, rfl, rfl, rfl, rfl, rfl, rfl⟩

/-- The buffers without the object. -/
theorem mem_onDead (b : Buffers h) (hx : x ∈ h.live) (g : Gen) :
    y ∈ (h.onDead x).roots g ↔ y ∈ h.roots g ∧ y ≠ x := by
  unfold Heap.onDead
  split_ifs with hb
  · by_cases hg : g = h.gen x
    · subst hg
      have hin := (b.buffered x hx).mp hb
      simp only [update_self]
      rw [(swapRemove_perm hin).mem_iff, (b.nodup _).mem_erase_iff, and_comm]
    · simp only [update_of_ne hg]
      refine ⟨fun hy => ⟨hy, ?_⟩, And.left⟩
      rintro rfl
      exact hg (b.mem g y hy).2.symm
  · refine ⟨fun hy => ⟨hy, ?_⟩, And.left⟩
    rintro rfl
    refine hb ((b.buffered y hx).mpr ?_)
    rwa [(b.mem g y hy).2]

/-- The last release of an object takes it out of its buffer and off the heap. -/
def Heap.die (h : Heap) (x : Id) : Heap := (h.onDead x).free x

theorem die_objs (h : Heap) (x : Id) : (h.die x).objs = h.objs.erase x := by
  show (h.onDead x).objs.erase x = _
  rw [(onDead_fields h x).1]

theorem die_color (h : Heap) (x : Id) : (h.die x).color = h.color := (onDead_fields h x).2.2.1

theorem mem_die_live (hn : h.objs.Nodup) : y ∈ (h.die x).live ↔ y ∈ h.live ∧ y ≠ x := by
  rw [mem_live, mem_live, die_objs, die_color, hn.mem_erase_iff]
  tauto

theorem die_live_perm (hn : h.objs.Nodup) (hx : x ∈ h.live) : h.live.Perm (x :: (h.die x).live) := by
  have hnd : h.live.Nodup := hn.filter _
  have hnd' : (h.die x).live.Nodup := by
    have : (h.die x).objs.Nodup := by
      rw [die_objs]
      exact hn.erase x
    exact this.filter _
  refine (perm_ext_iff_of_nodup hnd (nodup_cons.mpr ⟨?_, hnd'⟩)).mpr fun a => ?_
  · exact fun hin => ((mem_die_live hn).mp hin).2 rfl
  · rw [mem_cons, mem_die_live hn]
    by_cases hax : a = x
    · subst hax
      simp [hx]
    · simp [hax]

theorem die_traced_of_ne (h : Heap) (hy : y ≠ x) : (h.die x).traced y = h.traced y := by
  show update (h.onDead x).traced x [] y = _
  rw [update_of_ne hy, (onDead_fields h x).2.2.2.2.1]

theorem die_untraced_of_ne (h : Heap) (hy : y ≠ x) : (h.die x).untraced y = h.untraced y := by
  show update (h.onDead x).untraced x [] y = _
  rw [update_of_ne hy, (onDead_fields h x).2.2.2.2.2.1]

theorem die_edges_of_ne (h : Heap) (hy : y ≠ x) : (h.die x).edges y = h.edges y := by
  rw [Heap.edges, Heap.edges, die_traced_of_ne h hy, die_untraced_of_ne h hy]

theorem Buffers.die (b : Buffers h) (hn : h.objs.Nodup) (hx : x ∈ h.live) : Buffers (h.die x) := by
  have hg : (h.die x).gen = h.gen := (onDead_fields h x).2.2.2.1
  refine ⟨fun g => ?_, fun g y hy => ?_, fun y hy => ?_⟩
  · show ((h.onDead x).roots g).Nodup
    unfold Heap.onDead
    split_ifs with hb
    · by_cases hgx : g = h.gen x
      · subst hgx
        have hin := (b.buffered x hx).mp hb
        simpa using (swapRemove_perm hin).nodup_iff.mpr ((b.nodup _).erase x)
      · simpa [hgx] using b.nodup g
    · exact b.nodup g
  · obtain ⟨hy, hyx⟩ := (mem_onDead b hx g).mp hy
    rw [hg]
    exact ⟨(mem_die_live hn).mpr ⟨(b.mem g y hy).1, hyx⟩, (b.mem g y hy).2⟩
  · obtain ⟨hyl, hyx⟩ := (mem_die_live hn).mp hy
    rw [hg]
    have hbuf : (h.die x).buffered y = h.buffered y := by
      show (h.onDead x).buffered y = _
      unfold Heap.onDead
      split_ifs
      · exact update_of_ne hyx ..
      · rfl
    rw [hbuf, b.buffered y hyl]
    exact ⟨fun hin => (mem_onDead b hx _).mpr ⟨hin, hyx⟩, fun hin => ((mem_onDead b hx _).mp hin).1⟩

/-- An object whose last reference goes is referred to by nothing else. -/
theorem Ok.last (ok : Ok (x :: held) h) (hx : h.rc x = 1) :
    x ∉ h.outside ∧ x ∉ held ∧ ∀ a ∈ h.live, x ∉ h.edges a := by
  have hc := ok.count x (ok.hold x mem_cons_self)
  rw [hx, count_cons_self] at hc
  refine ⟨count_eq_zero.mp (by omega), count_eq_zero.mp (by omega), fun a ha hxa => ?_⟩
  have := indegree_pos.mpr ⟨a, ha, hxa⟩
  omega

/-- What it referred to is left to be released. -/
theorem Ok.die (ok : Ok (x :: held) h) (hx : h.rc x = 1) : Ok (h.edges x ++ held) (h.die x) := by
  obtain ⟨ho, hd, he⟩ := ok.last hx
  have hmem : x ∈ h.live := ok.hold x mem_cons_self
  have hout : (h.die x).outside = h.outside := (onDead_fields h x).2.2.2.2.2.2.1
  have hrc : (h.die x).rc = h.rc := (onDead_fields h x).2.1
  have hnext : (h.die x).nextId = h.nextId := (onDead_fields h x).2.2.2.2.2.2.2.2.1
  have hin : ∀ {y}, y ∈ h.live → y ≠ x → y ∈ (h.die x).live := fun hy hne => (mem_die_live ok.nodup).mpr ⟨hy, hne⟩
  refine ⟨?_, fun y hy => ?_, fun y hy => ?_, fun y hy => ?_, fun a ha y hy => ?_, fun y hy => ?_, fun y hy => ?_,
    fun y hy => ?_, fun y hy hp => ?_, ok.buffers.die ok.nodup hmem⟩
  · rw [die_objs]
    exact ok.nodup.erase x
  · rw [die_objs] at hy
    rw [hnext]
    exact ok.fresh y (mem_of_mem_erase hy)
  · rw [hout] at hy
    exact hin (ok.out y hy) fun e => ho (e ▸ hy)
  · rcases mem_append.mp hy with hy | hy
    · exact hin (ok.edge x hmem y hy) fun e => he x hmem (e ▸ hy)
    · exact hin (ok.hold y (mem_cons_of_mem _ hy)) fun e => hd (e ▸ hy)
  · obtain ⟨hal, hax⟩ := (mem_die_live ok.nodup).mp ha
    rw [die_edges_of_ne h hax] at hy
    exact hin (ok.edge a hal y hy) fun e => he a hal (e ▸ hy)
  · obtain ⟨hyl, hyx⟩ := (mem_die_live ok.nodup).mp hy
    have hc := ok.count y hyl
    rw [count_cons_of_ne (Ne.symm hyx), indegree_perm (die_live_perm ok.nodup hmem), indegree_cons] at hc
    have hcongr : indegree (h.die x).edges (h.die x).live y = indegree h.edges (h.die x).live y :=
      indegree_congr fun a ha => die_edges_of_ne h ((mem_die_live ok.nodup).mp ha).2
    rw [hrc, hout, hcongr, count_append]
    omega
  · rw [hrc]
    exact ok.used y ((mem_die_live ok.nodup).mp hy).1
  · rw [die_color]
    exact ok.tone y ((mem_die_live ok.nodup).mp hy).1
  · obtain ⟨hyl, hyx⟩ := (mem_die_live ok.nodup).mp hy
    rw [show (h.die x).headered = h.headered from (onDead_fields h x).2.2.2.2.2.2.2.1] at hp
    rw [die_traced_of_ne h hyx]
    exact ok.plain y hyl hp

theorem Kept.die (ok : Ok (x :: held) h) : Kept h (h.die x) := by
  have hmem : x ∈ h.live := ok.hold x mem_cons_self
  obtain ⟨-, -, -, -, -, -, hout, hhd, hn, hp, hw⟩ := onDead_fields h x
  have hne : ∀ {y}, y ∈ (h.die x).objs → y ≠ x := by
    intro y hy
    rw [die_objs] at hy
    rintro rfl
    exact ok.nodup.not_mem_erase hy
  refine ⟨hout, hn, hp, hw, hhd, fun y hy => ((mem_die_live ok.nodup).mp hy).1, fun y hy => die_traced_of_ne h (hne hy),
    fun y hy => die_untraced_of_ne h (hne hy), fun y hy => ?_, fun y hy hd => ⟨?_, by rwa [die_color]⟩,
    fun y hd => by rwa [die_color] at hd⟩
  · rw [die_objs] at hy
    exact mem_of_mem_erase hy
  rw [die_objs, ok.nodup.mem_erase_iff]
  refine ⟨?_, hy⟩
  rintro rfl
  exact (mem_live.mp hmem).2 hd

/-! ### Releases -/

theorem length_die (ok : Ok (x :: held) h) : ((h.die x).objs.flatMap (h.die x).edges).length + (h.edges x).length =
    (h.objs.flatMap h.edges).length := by
  have hmem : x ∈ h.objs := (mem_live.mp (ok.hold x mem_cons_self)).1
  have hperm := (perm_cons_erase hmem).flatMap_right h.edges
  have hsame : (h.die x).objs.flatMap (h.die x).edges = (h.objs.erase x).flatMap h.edges := by
    rw [die_objs]
    refine flatMap_congr fun a ha => die_edges_of_ne h ?_
    rintro rfl
    exact ok.nodup.not_mem_erase ha
  rw [hsame, hperm.length_eq, flatMap_cons, length_append]
  omega

theorem Kept.trans (a : Kept h h') (b : Kept h' h'') : Kept h h'' where
  outside := b.outside.trans a.outside
  nextId := b.nextId.trans a.nextId
  promote := b.promote.trans a.promote
  white := b.white.trans a.white
  headered := b.headered.trans a.headered
  live x hx := a.live x (b.live x hx)
  traced x hx := (b.traced x hx).trans (a.traced x (b.objs x hx))
  untraced x hx := (b.untraced x hx).trans (a.untraced x (b.objs x hx))
  objs x hx := a.objs x (b.objs x hx)
  doomed x hx hd := by
    obtain ⟨hx', hd'⟩ := a.doomed x hx hd
    exact b.doomed x hx' hd'
  spared x hd := a.spared x (b.spared x hd)

/-- What was within reach of an object that goes is within reach of what it leaves. -/
theorem Covered.die (ok : Ok (x :: held) h) (c : Covered (x :: held) h) :
    Covered (h.edges x ++ held) (h.die x) := by
  have hmem : x ∈ h.live := ok.hold x mem_cons_self
  have hout := (onDead_fields h x).2.2.2.2.2.2.1
  intro y hy
  obtain ⟨hyl, hyx⟩ := (mem_die_live ok.nodup).mp hy
  suffices hs : y = x ∨ Reach (h.die x).edges (h.outside ++ (h.edges x ++ held) ++ (h.die x).purples) y by
    rw [show (h.die x).outside = h.outside from hout]
    exact hs.resolve_left hyx
  refine (c y hyl).induct
    (S := fun z => z = x ∨ Reach (h.die x).edges (h.outside ++ (h.edges x ++ held) ++ (h.die x).purples) z)
    (fun r hr => ?_) fun a ha b hb => ?_
  · by_cases hrx : r = x
    · exact .inl hrx
    · refine .inr (.root ?_)
      simp only [mem_append, mem_cons] at hr ⊢
      rcases hr with (hr | hr | hr) | hr
      · exact .inl (.inl hr)
      · exact absurd hr hrx
      · exact .inl (.inr (.inr hr))
      · obtain ⟨⟨g, hg⟩, hp⟩ := mem_purples.mp hr
        refine .inr (mem_purples.mpr ⟨⟨g, (mem_onDead ok.buffers hmem g).mpr ⟨hg, hrx⟩⟩, ?_⟩)
        rw [die_color]
        exact hp
  · refine .inr ?_
    by_cases hax : a = x
    · subst hax
      exact .root (by simp [hb])
    · refine (ha.resolve_left hax).tail ?_
      rwa [die_edges_of_ne h hax]

theorem onRelease_graph (h : Heap) (x : Id) : (h.onRelease x).objs = h.objs ∧ (h.onRelease x).traced = h.traced ∧
    (h.onRelease x).untraced = h.untraced ∧ (h.onRelease x).outside = h.outside ∧
    (h.onRelease x).headered = h.headered := by
  unfold Heap.onRelease
  split_ifs
  · obtain ⟨ho, -, -, -, ht, hu, hout, hhd, -, -, -⟩ := buffer_fields (h.paint x .purple) x
    exact ⟨ho, ht, hu, hout, hhd⟩
  · exact ⟨rfl, rfl, rfl, rfl, rfl⟩

theorem onRelease_live (hx : x ∈ h.live) : (h.onRelease x).live = h.live := by
  unfold Heap.onRelease
  split_ifs
  · rw [buffer_live, paint_live (mem_live.mp hx).2 (by decide)]
  · rfl

/-- A buffered candidate stays one, and the released object becomes one. -/
theorem purples_onRelease (ok : Ok held h) (hx : x ∈ h.live) :
    (h.headered x = true → x ∈ (h.onRelease x).purples) ∧ ∀ y ∈ h.purples, y ∈ (h.onRelease x).purples := by
  unfold Heap.onRelease
  split_ifs with hh
  · have hl : x ∈ (h.paint x .purple).live := by rwa [paint_live (mem_live.mp hx).2 (by decide)]
    obtain ⟨hself, hstay⟩ := mem_buffer (ok.paint hx (.inr rfl)).buffers hl
    have hcol := (buffer_fields (h.paint x .purple) x).2.2.1
    refine ⟨fun _ => mem_purples.mpr ⟨⟨_, hself⟩, by rw [hcol]; simp [Heap.paint]⟩, fun y hy => ?_⟩
    obtain ⟨⟨g, hg⟩, hp⟩ := mem_purples.mp hy
    refine mem_purples.mpr ⟨⟨g, hstay g y hg⟩, ?_⟩
    rw [hcol]
    by_cases hyx : y = x
    · subst hyx
      simp [Heap.paint]
    · simpa [Heap.paint, hyx] using hp
  · exact ⟨fun he => absurd he hh, fun y hy => hy⟩

/-- An object without a header that loses a reference and stays is referred to by another object,
and the way to that one does not lead through it. -/
theorem Covered.onRelease (ok : Ok (x :: held) h) (hx : h.rc x ≠ 1) (t : Tame h) (c : Covered (x :: held) h) :
    Covered held ((h.dec x).onRelease x) := by
  have hmem : x ∈ h.live := ok.hold x mem_cons_self
  have hmem' : x ∈ (h.dec x).live := hmem
  obtain ⟨hself, hstay⟩ := purples_onRelease (ok.dec hx) hmem'
  obtain ⟨-, ht, hu, hout, -⟩ := onRelease_graph (h.dec x) x
  have hl : ((h.dec x).onRelease x).live = h.live := onRelease_live hmem'
  have he : ((h.dec x).onRelease x).edges = h.edges := by
    funext y
    simp only [Heap.edges, ht, hu]
    rfl
  set new := ((h.dec x).onRelease x).purples
  have hway : ∀ y ∈ h.live, Reach h.edges (h.outside ++ held ++ new) y ∨ Reach h.edges [x] y := by
    intro y hy
    refine (c y hy).induct (S := fun z => Reach h.edges (h.outside ++ held ++ new) z ∨ Reach h.edges [x] z)
      (fun r hr => ?_) ?_
    · simp only [mem_append, mem_cons] at hr
      rcases hr with (hr | rfl | hr) | hr
      · exact .inl (.root (by simp [hr]))
      · exact .inr (.root (by simp))
      · exact .inl (.root (by simp [hr]))
      · exact .inl (.root (by simp [hstay r hr]))
    · rintro a (ha | ha) b hb
      · exact .inl (ha.tail hb)
      · exact .inr (ha.tail hb)
  have hxr : Reach h.edges (h.outside ++ held ++ new) x := by
    cases hb : h.headered x with
    | true => exact .root (by simp [hself hb])
    | false =>
      by_cases hdirect : x ∈ h.outside ++ held
      · exact .root (mem_append_left _ hdirect)
      · have hcount := ok.count x hmem
        have hpos := ok.used x hmem
        have h0 : (h.outside ++ held).count x = 0 := count_eq_zero.mpr hdirect
        rw [count_append] at h0
        rw [count_cons_self] at hcount
        obtain ⟨a, ha, hxa⟩ := indegree_pos.mp (show 0 < indegree h.edges h.live x by omega)
        rcases hway a ha with har | har
        · exact har.tail hxa
        · refine absurd ?_ (t x hmem hb)
          rcases har.cases_head with rfl | har
          · exact .root hxa
          · exact har.tail hxa
  intro y hy
  rw [hl] at hy
  rw [he, hout]
  show Reach h.edges (h.outside ++ held ++ new) y
  rcases hway y hy with hr | hr
  · exact hr
  · refine hr.mono fun z hz => ?_
    rw [mem_singleton.mp hz]
    exact hxr

/-- The cycles of what stays are cycles that were. -/
theorem Tame.stay (t : Tame h) (s : Stay h h') (ok : Ok held h') : Tame h' := by
  intro d hd hh hr
  rw [s.headered] at hh
  refine t d (s.live d hd) hh ?_
  rw [s.edges hd] at hr
  refine (hr.induct' (S := fun z => z ∈ h'.live ∧ Reach h.edges (h.edges d) z) (fun r hr' => ?_) fun a _ ha b hb => ?_).2
  · exact ⟨ok.edge d hd r (by rwa [s.edges hd]), .root hr'⟩
  · refine ⟨ok.edge a ha.1 b hb, ha.2.tail ?_⟩
    rwa [s.edges ha.1] at hb

/-- **Releases** leave the heap in order without the references given up, keep the fields of what
stays, and leave every object with a header within reach. -/
theorem Ok.releaseAll {pending : List Id} (ok : Ok (pending ++ held) h) : Ok held (Heap.releaseAll pending h) ∧
    Kept h (Heap.releaseAll pending h) ∧
    (Tame h → Covered (pending ++ held) h → Covered held (Heap.releaseAll pending h)) := by
  have hstep : ∀ s s' : List Id × Heap,
      (Ok (s.1 ++ held) s.2 ∧ Kept h s.2 ∧ (Tame h → Covered (pending ++ held) h → Covered (s.1 ++ held) s.2)) →
      Heap.releaseStep s = some s' →
      (Ok (s'.1 ++ held) s'.2 ∧ Kept h s'.2 ∧ (Tame h → Covered (pending ++ held) h → Covered (s'.1 ++ held) s'.2)) ∧
        s'.1.length + (s'.2.objs.flatMap s'.2.edges).length < s.1.length + (s.2.objs.flatMap s.2.edges).length := by
    rintro ⟨_ | ⟨x, rest⟩, g⟩ s' ⟨hok, hk, hc⟩ hs
    · cases hs
    · simp only [Heap.releaseStep] at hs
      simp only [cons_append] at hok hc
      split_ifs at hs with h1 <;> cases hs
      · have hl := length_die hok
        refine ⟨⟨?_, hk.trans (.die hok), fun ht hcov => ?_⟩, ?_⟩
        · rw [append_assoc]
          exact hok.die h1
        · rw [append_assoc]
          exact .die hok (hc ht hcov)
        · simp only [length_append, length_cons]
          simp only [Heap.die] at hl
          omega
      · have hmem : x ∈ g.live := hok.hold x mem_cons_self
        obtain ⟨ho, ht, hu, -, -⟩ := onRelease_graph (g.dec x) x
        refine ⟨⟨(hok.dec h1).onRelease hmem, hk.trans (.onRelease hmem), fun ht hcov => ?_⟩, ?_⟩
        · exact .onRelease hok h1 (ht.stay hk.stay hok) (hc ht hcov)
        have he : ((g.dec x).onRelease x).edges = g.edges := by
          funext y
          simp only [Heap.edges, ht, hu]
          rfl
        simp only [ho, he, length_cons]
        simp only [Heap.dec]
        omega
  obtain ⟨⟨hok, hk, hc⟩, hend⟩ := Loop.run_spec hstep _ (s := (pending, h)) ⟨ok, .refl h, fun _ c => c⟩ le_rfl
  unfold Heap.releaseAll
  generalize Loop.run Heap.releaseStep _ (pending, h) = r at hok hk hc hend
  obtain ⟨_ | ⟨x, rest⟩, g⟩ := r
  · exact ⟨hok, hk, hc⟩
  · simp only [Heap.releaseStep] at hend
    split_ifs at hend

end Scriptc.Runtime
