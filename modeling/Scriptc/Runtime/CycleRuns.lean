import Scriptc.Runtime.CyclePass

/-!
# Runs of the program and the collector

The program allocates, retains, releases and stores, and passes of either kind come in between.
Every run keeps the heap at rest between its steps, and so every pass of every run is safe.
-/

namespace Scriptc.Runtime

open Graph List Function

variable {h h' : Heap} {held held' out rest t u : List Id} {x y : Id}

/-- What can happen next. -/
inductive Act where
  | alloc (header : Bool)
  | retain (x : Id)
  | release (x : Id)
  | store (x : Id) (traced untraced rest : List Id)
  | pass (limit : Gen)

namespace Act

def run (h : Heap) : Act → Heap
  | .alloc header => h.alloc header
  | .retain x => h.retain x
  | .release x => h.release x
  | .store x traced untraced rest => h.store x traced untraced rest
  | .pass limit => (h.cycPass limit).1

/-- What the program may do: it retains objects, releases references that it holds, and a store
moves references between the fields and its hands. Only objects with a header are traced. -/
def Fits (h : Heap) : Act → Prop
  | .alloc _ | .pass _ => True
  | .retain x => x ∈ h.objs
  | .release x => x ∈ h.outside
  | .store x t u rest => x ∈ h.objs ∧ (t ++ u ++ rest).Perm (h.edges x ++ h.outside) ∧ (h.headered x = false → t = [])

instance (h : Heap) : (a : Act) → Decidable (Fits h a)
  | .alloc _ | .pass _ => inferInstanceAs (Decidable True)
  | .retain x => inferInstanceAs (Decidable (x ∈ h.objs))
  | .release x => inferInstanceAs (Decidable (x ∈ h.outside))
  | .store .. => inferInstanceAs (Decidable (_ ∧ _ ∧ _))

end Act

/-- A step that is allowed. -/
def Step (allowed : Heap → Act → Prop) (h h' : Heap) : Prop := ∃ a, allowed h a ∧ h' = a.run h

/-- One action after the other. -/
def runAll (h : Heap) (acts : List Act) : Heap := acts.foldl Act.run h

/-- Each is allowed when its turn comes. -/
def AllowedAll (allowed : Heap → Act → Prop) : Heap → List Act → Prop
  | _, [] => True
  | h, a :: acts => allowed h a ∧ AllowedAll allowed (a.run h) acts

instance (allowed : Heap → Act → Prop) [∀ h a, Decidable (allowed h a)] :
    (h : Heap) → (acts : List Act) → Decidable (AllowedAll allowed h acts)
  | _, [] => .isTrue trivial
  | h, a :: acts =>
    have := instDecidableAllowedAll allowed (a.run h) acts
    inferInstanceAs (Decidable (_ ∧ _))

theorem AllowedAll.steps {allowed : Heap → Act → Prop} {acts : List Act} (ha : AllowedAll allowed h acts) :
    Relation.ReflTransGen (Step allowed) h (runAll h acts) := by
  induction acts generalizing h with
  | nil => exact .refl
  | cons a acts ih => exact .head ⟨a, ha.1, rfl⟩ (ih ha.2)

theorem atRest_empty : AtRest .empty :=
  ⟨⟨.nil, nofun, nofun, nofun, nofun, nofun, nofun, nofun, nofun, ⟨fun _ => .nil, nofun, nofun⟩⟩, nofun, rfl⟩

/-- References change hands. -/
theorem Ok.moved (ok : Ok held h) (hp : (held' ++ out).Perm (held ++ h.outside)) :
    Ok held' { h with outside := out } := by
  have hmem : ∀ y, y ∈ held' ∨ y ∈ out → y ∈ h.live := by
    intro y hy
    rw [← mem_append, hp.mem_iff, mem_append] at hy
    exact hy.elim (ok.hold y) (ok.out y)
  refine { ok with out := fun y hy => hmem y (.inr hy), hold := fun y hy => hmem y (.inl hy), count := fun y hy => ?_,
                   buffers := { ok.buffers with } }
  have hc := ok.count y hy
  have hpc := hp.count_eq y
  rw [count_append, count_append] at hpc
  show h.rc y = out.count y + indegree h.edges h.live y + _
  omega

theorem AtRest.next (r : AtRest h) (ok : Ok [] h') (ho : ∀ x ∈ h'.objs, x ∈ h.objs)
    (hd : ∀ x, h'.color x = .doomed → h.color x = .doomed) (hp : h'.promote = h.promote) : AtRest h' :=
  ⟨ok, fun x hx hc => r.calm x (ho x hx) (hd x hc), hp.trans r.promote⟩

/-! ### Allocation and retain -/

theorem alloc_live (h : Heap) (b : Bool) (hn : h.nextId ∉ h.objs) : (h.alloc b).live = h.nextId :: h.live := by
  show List.filter _ (h.nextId :: h.objs) = _
  rw [filter_cons_of_pos (by simp [Heap.alloc])]
  congr 1
  refine filter_congr fun y hy => ?_
  have hne : y ≠ h.nextId := fun e => hn (e ▸ hy)
  simp [Heap.alloc, hne]

theorem alloc_edges (b : Bool) (hy : y ≠ h.nextId) : (h.alloc b).edges y = h.edges y := by
  simp [Heap.edges, Heap.alloc, hy]

theorem AtRest.alloc (r : AtRest h) (b : Bool) : AtRest (h.alloc b) := by
  obtain ⟨ok, hcalm, hpro⟩ := r
  have hn : h.nextId ∉ h.objs := fun hin => lt_irrefl _ (ok.fresh _ hin)
  have hne : ∀ {y}, y ∈ h.live → y ≠ h.nextId := by
    rintro y hy rfl
    exact hn (mem_live.mp hy).1
  have hl := alloc_live h b hn
  have hself : (h.alloc b).edges h.nextId = [] := by simp [Heap.edges, Heap.alloc]
  have hroots : ∀ g, h.nextId ∉ h.roots g := fun g hin => hne (ok.buffers.mem g _ hin).1 rfl
  refine ⟨⟨nodup_cons.mpr ⟨hn, ok.nodup⟩, ?_, ?_, fun y hy => absurd hy not_mem_nil, ?_, ?_, ?_, ?_, ?_,
    ok.buffers.nodup, ?_, ?_⟩, ?_, hpro⟩
  · intro y hy
    show y < h.nextId + 1
    rcases mem_cons.mp hy with rfl | hy
    · exact Nat.lt_succ_self _
    · exact Nat.lt_succ_of_lt (ok.fresh y hy)
  · rw [hl]
    intro y hy
    rcases mem_cons.mp hy with rfl | hy
    · exact mem_cons_self
    · exact mem_cons_of_mem _ (ok.out y hy)
  · rw [hl]
    intro a ha y hy
    rcases mem_cons.mp ha with rfl | ha
    · rw [hself] at hy
      exact absurd hy not_mem_nil
    · rw [alloc_edges b (hne ha)] at hy
      exact mem_cons_of_mem _ (ok.edge a ha y hy)
  · rw [hl]
    intro y hy
    have hin : indegree (h.alloc b).edges (h.nextId :: h.live) y = indegree h.edges h.live y := by
      rw [indegree_cons, hself, count_nil, Nat.zero_add]
      exact indegree_congr fun a ha => alloc_edges b (hne ha)
    rw [hin]
    show update h.rc h.nextId 1 y = (h.nextId :: h.outside).count y + _ + _
    by_cases hyn : y = h.nextId
    · have h1 : h.outside.count h.nextId = 0 := count_eq_zero.mpr fun hin => hne (ok.out _ hin) rfl
      have h2 : indegree h.edges h.live h.nextId = 0 := by
        by_contra hpos
        obtain ⟨a, ha, hin⟩ := indegree_pos.mp (Nat.pos_of_ne_zero hpos)
        exact hne (ok.edge a ha _ hin) rfl
      subst hyn
      rw [update_self, count_cons_self, h1, h2, count_nil]
    · have hyl := (mem_cons.mp hy).resolve_left hyn
      rw [update_of_ne hyn, count_cons_of_ne (Ne.symm hyn)]
      exact ok.count y hyl
  · rw [hl]
    intro y hy
    show 0 < update h.rc h.nextId 1 y
    rcases mem_cons.mp hy with rfl | hy
    · simp
    · rw [update_of_ne (hne hy)]
      exact ok.used y hy
  · rw [hl]
    intro y hy
    show update h.color h.nextId .black y = _ ∨ _
    rcases mem_cons.mp hy with rfl | hy
    · simp
    · simpa [Heap.alloc, hne hy] using ok.tone y hy
  · rw [hl]
    intro y hy hp
    show update h.traced h.nextId [] y = []
    rcases mem_cons.mp hy with rfl | hy
    · simp
    · rw [update_of_ne (hne hy)]
      exact ok.plain y hy (by simpa [Heap.alloc, hne hy] using hp)
  · rw [hl]
    intro g y hy
    obtain ⟨hyl, hg⟩ := ok.buffers.mem g y hy
    exact ⟨mem_cons_of_mem _ hyl, by simpa [Heap.alloc, hne hyl] using hg⟩
  · rw [hl]
    intro y hy
    show update h.buffered h.nextId false y = true ↔ y ∈ h.roots _
    rcases mem_cons.mp hy with rfl | hy
    · simpa using hroots _
    · simpa [Heap.alloc, hne hy] using ok.buffers.buffered y hy
  · intro y hy
    show update h.color h.nextId .black y ≠ _
    rcases mem_cons.mp hy with rfl | hy
    · simp
    · have hyn : y ≠ h.nextId := fun e => hn (e ▸ hy)
      rw [update_of_ne hyn]
      exact hcalm y hy

theorem AtRest.retain (r : AtRest h) (hx : x ∈ h.objs) : AtRest (h.retain x) := by
  have hl : x ∈ h.live := by rwa [r.live]
  have hinc : Ok [x] (h.inc x) := r.ok.inc hl
  have hmark : Ok [x] ((h.inc x).markLive x) := by
    unfold Heap.markLive
    split_ifs
    · exact hinc.paint hl (.inl rfl)
    · exact hinc
  have hout : ((h.inc x).markLive x).outside = h.outside := by
    unfold Heap.markLive
    split_ifs <;> rfl
  have hok : Ok [] (h.retain x) := hmark.moved (by rw [hout]; exact List.Perm.refl _)
  refine r.next hok ?_ ?_ ?_
  · intro y hy
    show y ∈ h.objs
    unfold Heap.retain Heap.markLive at hy
    split_ifs at hy <;> exact hy
  · intro y hy
    unfold Heap.retain Heap.markLive at hy
    split_ifs at hy
    · by_cases hyx : y = x
      · subst hyx
        simp [Heap.paint] at hy
      · simpa [Heap.paint, hyx, Heap.inc] using hy
    · exact hy
  · unfold Heap.retain Heap.markLive
    split_ifs <;> rfl

/-! ### Release and store -/

/-- The heap with one reference taken out of the program's hands. -/
def Heap.handed (h : Heap) (x : Id) : Heap := { h with outside := h.outside.erase x }

theorem release_last (hx : h.rc x = 1) :
    h.release x = { (h.handed x).die x with outside := h.edges x ++ h.outside.erase x } := by
  cases hb : h.buffered x <;> simp [Heap.release, Heap.die, Heap.onDead, Heap.handed, Heap.free, hx, hb]

theorem release_more (hx : h.rc x ≠ 1) : h.release x = ((h.handed x).dec x).onRelease x := by
  cases hh : h.headered x <;> cases hb : h.buffered x <;>
    simp [Heap.release, Heap.onRelease, Heap.buffer, Heap.paint, Heap.dec, Heap.handed, hx, hh, hb]

theorem Ok.handed (ok : Ok [] h) (hx : x ∈ h.outside) : Ok [x] (h.handed x) :=
  ok.moved (perm_cons_erase hx).symm

theorem AtRest.release (r : AtRest h) (hx : x ∈ h.outside) : AtRest (h.release x) := by
  have ok := r.ok.handed hx
  by_cases h1 : h.rc x = 1
  · have k : Kept (h.handed x) ((h.handed x).die x) := .die ok
    have hout : ((h.handed x).die x).outside = h.outside.erase x := k.outside
    rw [release_last h1]
    refine r.next ((ok.die h1).moved ?_) k.objs k.spared k.promote
    rw [hout, append_nil]
    exact List.Perm.refl _
  · have hmem : x ∈ (h.handed x).live := ok.hold x mem_cons_self
    have k : Kept (h.handed x) (((h.handed x).dec x).onRelease x) := .onRelease hmem
    rw [release_more h1]
    exact r.next ((ok.dec h1).onRelease hmem) k.objs k.spared k.promote

theorem store_edges_self (h : Heap) (x : Id) : (h.store x t u rest).edges x = t ++ u := by simp [Heap.edges, Heap.store]

theorem store_edges (hy : y ≠ x) : (h.store x t u rest).edges y = h.edges y := by simp [Heap.edges, Heap.store, hy]

theorem AtRest.store (r : AtRest h) (hx : x ∈ h.objs) (hp : (t ++ u ++ rest).Perm (h.edges x ++ h.outside))
    (ht : h.headered x = false → t = []) : AtRest (h.store x t u rest) := by
  obtain ⟨ok, hcalm, hpro⟩ := r
  have hxl : x ∈ h.live := mem_live.mpr ⟨hx, hcalm x hx⟩
  have hl : (h.store x t u rest).live = h.live := rfl
  have hall : ∀ y, y ∈ t ++ u ∨ y ∈ rest → y ∈ h.live := by
    intro y hy
    rw [← mem_append, hp.mem_iff, mem_append] at hy
    exact hy.elim (ok.edge x hxl y) (ok.out y)
  refine ⟨{ ok with out := fun y hy => hall y (.inr hy), hold := nofun, edge := ?_, count := ?_, plain := ?_,
                    buffers := { ok.buffers with } }, hcalm, hpro⟩
  · intro a ha y hy
    by_cases hax : a = x
    · subst hax
      rw [store_edges_self] at hy
      exact hall y (.inl hy)
    · rw [store_edges hax] at hy
      exact ok.edge a ha y hy
  · intro y hy
    have hupd : (h.store x t u rest).edges = update h.edges x (t ++ u) := by
      funext a
      by_cases hax : a = x
      · subst hax
        rw [store_edges_self, update_self]
      · rw [store_edges hax, update_of_ne hax]
    have hnd : h.live.Nodup := ok.nodup.filter _
    have hu := indegree_update h.edges (x := y) hnd hxl (t ++ u)
    have hpc := hp.count_eq y
    simp only [count_append] at hu hpc
    rw [hupd, hl]
    show h.rc y = rest.count y + indegree (update h.edges x (t ++ u)) h.live y + _
    rw [ok.count y hy]
    omega
  · intro y hy hp
    show update h.traced x t y = []
    by_cases hyx : y = x
    · subst hyx
      rw [update_self]
      exact ht hp
    · rw [update_of_ne hyx]
      exact ok.plain y hy hp

/-! ### Every run -/

theorem Act.Fits.atRest {a : Act} (hf : a.Fits h) (r : AtRest h) : AtRest (a.run h) := by
  cases a with
  | alloc header => exact r.alloc header
  | retain x => exact r.retain hf
  | release x => exact r.release hf
  | store x t u rest => exact r.store hf.1 hf.2.1 hf.2.2
  | pass limit => exact (r.pass limit).1

theorem AtRest.run {allowed : Heap → Act → Prop} (hall : ∀ h a, allowed h a → a.Fits h) (r : AtRest h)
    (hs : Relation.ReflTransGen (Step allowed) h h') : AtRest h' := by
  induction hs with
  | refl => exact r
  | tail _ hstep ih =>
    obtain ⟨a, ha, rfl⟩ := hstep
    exact (hall _ a ha).atRest ih

/-- **Every pass is safe.** In every run from a heap that is in order, a pass of either kind frees
only what no outside reference reaches, leaves the fields of the others, and leaves the count of
every survivor at the references to it: outside and from survivors. -/
theorem pass_safe (r : AtRest h) (hs : Relation.ReflTransGen (Step Act.Fits) h h') (limit : Gen) :
    (∀ x, Reach h'.edges h'.outside x → x ∈ (h'.cycPass limit).1.objs) ∧
    (∀ x ∈ (h'.cycPass limit).1.objs, x ∈ h'.objs ∧ (h'.cycPass limit).1.edges x = h'.edges x ∧
      (h'.cycPass limit).1.rc x =
        h'.outside.count x + indegree h'.edges (h'.cycPass limit).1.objs x) ∧
    (h'.cycPass limit).1.outside = h'.outside ∧ AtRest (h'.cycPass limit).1 := by
  have r' := r.run (fun _ _ hf => hf) hs
  have r'' := (r'.pass limit).1
  have s := r'.pass_stay limit
  refine ⟨fun x hx => r'.pass_keeps limit hx, fun x hx => ?_, s.outside, r''⟩
  have hx' : x ∈ (h'.cycPass limit).1.live := by rwa [r''.live]
  refine ⟨?_, s.edges hx', ?_⟩
  · have := s.live x hx'
    rwa [r'.live] at this
  · have hc := r''.ok.count x hx'
    rw [s.outside, count_nil, Nat.add_zero, indegree_congr (fun a ha => s.edges ha), r''.live] at hc
    exact hc

/-- A candidate in the hands of the program, and its child. -/
def heldPair : Heap := runAll .empty [.alloc true, .alloc true, .store 0 [1] [] [0], .retain 0, .release 0]

/-- The pass walks both, and keeps both. -/
theorem pass_safe_heldPair : heldPair.cands .nursery = [0] ∧ 1 ∈ (heldPair.cycPass .nursery).1.objs ∧
    (heldPair.cycPass .nursery).1.outside = [0] := by
  have hs : Relation.ReflTransGen (Step Act.Fits) .empty heldPair :=
    AllowedAll.steps (by decide)
  obtain ⟨hkeep, -, hout, -⟩ := pass_safe atRest_empty hs .nursery
  exact ⟨by decide, hkeep 1 ((Reach.root (x := 0) (by decide)).tail (by decide)), hout.trans (by decide)⟩

end Scriptc.Runtime
