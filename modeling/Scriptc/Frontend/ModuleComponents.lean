import Mathlib.Data.Set.Finite.Lattice
import Scriptc.Lib.Tarjan

/-!
# Module components

The two tables of strongly connected components of the import graph: `sccOf`, that the
`strongconnect` of `makeCycleAdmission` (`frontend/program.ts`) fills as importers are asked
about, and that of the cycles with an async member, which `prepareModuleInits`
(`frontend/lowering/lower-module-init.ts`) fills for all modules of the program.

The lists of import edges are given.
-/

namespace ModuleComponents

open List

variable {V : Type*} [DecidableEq V]

/-! ### Cycle admission -/

section

variable (edgesOf : V → List V)

/-- Edges of a module to itself are skipped. -/
def cycleEdges (v : V) : List V := (edgesOf v).filter (· ≠ v)

def setSccOf (comp : List V) (sccOf : V → Option (List V)) : V → Option (List V) :=
  fun w => if w ∈ comp then some comp else sccOf w

abbrev Admission (V : Type*) := Tarjan.State V (V → Option (List V))

def newAdmission : Admission V := Tarjan.State.start fun _ => none

/-- The importers of a sequence of queries. -/
def queries (fuel : ℕ) (importers : List V) (st : Admission V) : Option (Admission V) :=
  Tarjan.search (cycleEdges edgesOf) setSccOf fuel importers st

end

/-! ### Cycles with an async member -/

/-- What the search over the modules of a program reads. -/
structure ModuleInits (V : Type*) where
  parts : List V
  /-- The targets of the imports of a file, where they are files. -/
  orderedImportsOf : V → List (Option V)
  asyncInitFiles : V → Bool
  fileTag : V → Option String

/-- The tables of `prepareModuleInits`. -/
structure Cycles (V : Type*) where
  asyncCycleRepresentativeOf : V → Option V
  asyncCyclePromiseOf : V → Option String
  /-- The ids of the globals made. -/
  globalsList : List String

namespace ModuleInits

variable (L : ModuleInits V)

def staticDeps (sf : V) : List V := ((L.orderedImportsOf sf).filterMap id).filter fun dep => dep ≠ sf ∧ dep ∈ L.parts

def orderIndex (sf : V) : ℕ := L.parts.idxOf sf

/-- The member that is last in the order of the parts. -/
def rootOf : List V → Option V
  | [] => none
  | sf :: component => some (component.foldl (fun a b => if L.orderIndex b < L.orderIndex a then a else b) sf)

def cyclePromiseId (root : V) : String :=
  let rawTag := (L.fileTag root).getD ""
  let tag := if rawTag = "" then "e." else if rawTag.startsWith "%" then (rawTag.drop 1).toString else rawTag
  "%g." ++ tag ++ "%cyclePromise"

def recordCycle (component : List V) (t : Cycles V) : Cycles V :=
  if component.length < 2 ∨ !component.any L.asyncInitFiles then t
  else
    match L.rootOf component with
    | none => t
    | some root =>
      { asyncCycleRepresentativeOf := fun w => if w ∈ component ∧ L.asyncInitFiles w then some root else t.asyncCycleRepresentativeOf w
        asyncCyclePromiseOf := fun w => if w ∈ component ∧ L.asyncInitFiles w then some (L.cyclePromiseId root) else t.asyncCyclePromiseOf w
        globalsList := t.globalsList ++ [L.cyclePromiseId root] }

def prepareModuleInits (fuel : ℕ) : Option (Tarjan.State V (Cycles V)) :=
  Tarjan.search L.staticDeps L.recordCycle fuel L.parts (.start ⟨fun _ => none, fun _ => none, []⟩)

end ModuleInits

/-! ### What the tables hold -/

open Tarjan (Reach Mutual)

section

variable {edgesOf : V → List V} {v w : V}

theorem reach_cycleEdges : Reach (cycleEdges edgesOf) v w ↔ Reach edgesOf v w := by
  constructor
  · intro h
    exact Relation.ReflTransGen.mono (fun _ _ he => (mem_filter.mp he).1) _ _ h
  · intro h
    induction h with
    | refl => exact .refl
    | @tail b c _ he ih =>
      by_cases hcb : c = b
      · rwa [hcb]
      · exact ih.tail (mem_filter.mpr ⟨he, by simpa using hcb⟩)

theorem mutual_cycleEdges : Mutual (cycleEdges edgesOf) v w ↔ Mutual edgesOf v w :=
  and_congr reach_cycleEdges reach_cycleEdges

/-- The entries of `sccOf` are the components found. -/
theorem mem_of_sccOf {comps : List (List V)} {c : List V} (h : comps.foldr setSccOf (fun _ => none) w = some c) :
    c ∈ comps ∧ w ∈ c := by
  induction comps with
  | nil => cases h
  | cons comp comps ih =>
    rw [foldr_cons, setSccOf] at h
    split at h
    case isTrue hw =>
      cases h
      exact ⟨mem_cons_self, hw⟩
    case isFalse =>
      obtain ⟨hc, hw⟩ := ih h
      exact ⟨mem_cons_of_mem _ hc, hw⟩

theorem sccOf_ne_none {comps : List (List V)} {c : List V} (hc : c ∈ comps) (hw : w ∈ c) :
    comps.foldr setSccOf (fun _ => none) w ≠ none := by
  induction comps with
  | nil => cases hc
  | cons comp comps ih =>
    rw [foldr_cons, setSccOf]
    split
    case isTrue => simp
    case isFalse hn =>
      rcases mem_cons.mp hc with rfl | hc
      · exact absurd hw hn
      · exact ih hc

end

namespace ModuleInits

variable {L : ModuleInits V} {v w r : V} {component : List V}

theorem mem_of_rootOf (h : L.rootOf component = some r) : r ∈ component := by
  cases component with
  | nil => cases h
  | cons sf component =>
    cases h
    induction component generalizing sf with
    | nil => exact mem_singleton_self _
    | cons b component ih =>
      rw [foldl_cons]
      split
      · rcases mem_cons.mp (ih sf) with he | hm
        · rw [he]
          exact mem_cons_self
        · exact mem_cons_of_mem _ (mem_cons_of_mem _ hm)
      · exact mem_cons_of_mem _ (ih b)

/-- A component whose members have a representative. -/
def Recorded (L : ModuleInits V) (component : List V) (v r : V) : Prop :=
  v ∈ component ∧ 2 ≤ component.length ∧ L.asyncInitFiles v = true ∧ L.rootOf component = some r

theorem recordCycle_iff {t : Cycles V} : (L.recordCycle component t).asyncCycleRepresentativeOf v = some r ↔
    Recorded L component v r ∨
      (¬ (∃ r, Recorded L component v r) ∧ t.asyncCycleRepresentativeOf v = some r) := by
  unfold Recorded recordCycle
  by_cases hv : v ∈ component ∧ L.asyncInitFiles v = true
  · have hany : component.any L.asyncInitFiles = true := any_eq_true.mpr ⟨v, hv⟩
    by_cases hlen : component.length < 2
    · simp [hlen, Nat.not_le.mpr hlen]
    · cases hroot : L.rootOf component with
      | none => simp [hlen, hany]
      | some root => simp [hlen, hany, hv, Nat.not_lt.mp hlen]
  · split
    · grind
    · split <;> grind

theorem representative_iff {comps : List (List V)} (apart : comps.Pairwise fun c c' => ∀ v ∈ c, v ∉ c') :
    (comps.foldr L.recordCycle ⟨fun _ => none, fun _ => none, []⟩).asyncCycleRepresentativeOf v = some r ↔
      ∃ component ∈ comps, Recorded L component v r := by
  induction comps with
  | nil => simp
  | cons component comps ih =>
    obtain ⟨hfirst, apart⟩ := pairwise_cons.mp apart
    rw [foldr_cons, recordCycle_iff, ih apart, exists_mem_cons_iff]
    refine or_congr_right ⟨And.right, fun h => ⟨?_, h⟩⟩
    rintro ⟨r', hr'⟩
    obtain ⟨c, hc, hv⟩ := h
    exact hfirst c hc v hr'.1 hv.1

end ModuleInits

/-! ### Components are the strongly connected components -/

omit [DecidableEq V] in
theorem exists_other {component : List V} (h : component.Nodup) (hlen : 2 ≤ component.length) (a : V) : ∃ b ∈ component, b ≠ a := by
  match component, hlen with
  | x :: y :: rest, _ =>
    by_cases hx : x = a
    · refine ⟨y, by simp, ?_⟩
      rintro rfl
      exact (nodup_cons.mp h).1 (hx ▸ mem_cons_self)
    · exact ⟨x, mem_cons_self, hx⟩

/-- The modules with an entry are the async ones on a cycle; the entry stands for the cycle. -/
theorem prepareModuleInits_exact (L : ModuleInits V) :
    ∀ fuel ≥ L.parts.length, ∃ st, L.prepareModuleInits fuel = some st ∧
      (∀ a, st.table.asyncCycleRepresentativeOf a ≠ none ↔
        a ∈ L.parts ∧ L.asyncInitFiles a = true ∧ ∃ b, b ≠ a ∧ Mutual L.staticDeps a b) ∧
      ∀ a b r r', st.table.asyncCycleRepresentativeOf a = some r → st.table.asyncCycleRepresentativeOf b = some r' →
        (r = r' ↔ Mutual L.staticDeps a b) := by
  intro fuel hfuel
  have in_parts {x y : V} (h : y ∈ L.staticDeps x) : y ∈ L.parts := by
    have := (mem_filter.mp h).2
    simp only [decide_eq_true_eq] at this
    exact this.2
  have hcard : (Tarjan.free L.parts.toFinset (Tarjan.State.start (⟨fun _ => none, fun _ => none, []⟩ : Cycles V))).card ≤ fuel :=
    (Finset.card_filter_le _ _).trans ((toFinset_card_le _).trans hfuel)
  obtain ⟨comps, st, hst, hinv, -, hall⟩ := Tarjan.search_run
    (fun x _ y hy => mem_toFinset.mpr (in_parts hy)) L.parts [] _ (.start : Tarjan.Inv L.staticDeps L.recordCycle _ ∅ [] _) (fun r hr => mem_toFinset.mpr hr) hcard
  rw [append_nil] at hinv
  have entry (a r : V) : st.table.asyncCycleRepresentativeOf a = some r ↔ ∃ component ∈ comps, ModuleInits.Recorded L component a r := by
    rw [hinv.table]
    exact ModuleInits.representative_iff hinv.apart
  refine ⟨st, hst, fun a => ?_, fun a b r r' ha hb => ?_⟩
  · constructor
    · intro ha
      obtain ⟨r, hr⟩ := Option.ne_none_iff_exists'.mp ha
      obtain ⟨component, hc, hmem, hlen, hasync, -⟩ := (entry a r).mp hr
      obtain ⟨b, hb, hba⟩ := exists_other (hinv.nodup component hc) hlen a
      have hab := (hinv.classes component hc a hmem b).mp hb
      refine ⟨?_, hasync, b, hba, hab⟩
      rcases hab.2.cases_tail with heq | ⟨x, -, hx⟩
      · exact absurd heq.symm hba
      · exact in_parts hx
    · rintro ⟨ha, hasync, b, hba, hab⟩
      obtain ⟨component, hc, hmem⟩ := (hinv.visited_iff a).mp (hall a ha)
      have hb := (hinv.classes component hc a hmem b).mpr hab
      cases component with
      | nil => cases hmem
      | cons x rest =>
        have hlen : 2 ≤ (x :: rest).length := by
          by_contra hlen
          have hnil : rest = [] := eq_nil_of_length_eq_zero (by rw [length_cons] at hlen; omega)
          rw [hnil, mem_singleton] at hmem hb
          exact hba (hb.trans hmem.symm)
        rw [(entry a _).mpr ⟨x :: rest, hc, hmem, hlen, hasync, rfl⟩]
        simp
  · obtain ⟨c, hc, hac, -, -, hroot⟩ := (entry a r).mp ha
    obtain ⟨c', hc', hbc, -, -, hroot'⟩ := (entry b r').mp hb
    rw [← hinv.eq_iff hc hc' hac hbc]
    constructor
    · rintro rfl
      exact hinv.unique hc hc' (ModuleInits.mem_of_rootOf hroot) (ModuleInits.mem_of_rootOf hroot')
    · rintro rfl
      exact Option.some.inj (hroot.symm.trans hroot')

/-- The table after some queries, and after more. -/
theorem queries_exact (edgesOf : V → List V) (earlier later : List V)
    (hfin : ∀ q ∈ earlier ++ later, {w | Reach edgesOf q w}.Finite) :
    ∃ least, ∀ fuel ≥ least, ∃ st st', queries edgesOf fuel earlier newAdmission = some st ∧ queries edgesOf fuel later st = some st' ∧
      (∀ a comp, st.table a = some comp → ∀ b, b ∈ comp ↔ Mutual edgesOf a b) ∧
      (∀ a b c c', st.table a = some c → st.table b = some c' → (c = c' ↔ Mutual edgesOf a b)) ∧
      (∀ q ∈ earlier, ∀ w, Reach edgesOf q w → st.table w ≠ none) ∧
      ∀ a comp, st.table a = some comp → st'.table a = some comp := by
  have hall : {w | ∃ q ∈ earlier ++ later, Reach edgesOf q w}.Finite := by
    refine (Set.Finite.biUnion (finite_toSet (earlier ++ later)) hfin).subset ?_
    rintro w ⟨q, hq, hw⟩
    exact Set.mem_biUnion (x := q) hq hw
  have hU : ∀ x ∈ hall.toFinset, ∀ y ∈ cycleEdges edgesOf x, y ∈ hall.toFinset := by
    intro x hx y hy
    rw [Set.Finite.mem_toFinset] at hx ⊢
    obtain ⟨q, hq, hr⟩ := hx
    exact ⟨q, hq, hr.tail (mem_filter.mp hy).1⟩
  have mem {q : V} (hq : q ∈ earlier ++ later) : q ∈ hall.toFinset := (Set.Finite.mem_toFinset hall).mpr ⟨q, hq, .refl⟩
  refine ⟨hall.toFinset.card, fun fuel hfuel => ?_⟩
  have hcard (st : Admission V) : (Tarjan.free hall.toFinset st).card ≤ fuel := (Finset.card_filter_le _ _).trans hfuel
  obtain ⟨comps, st, hst, hinv, -, hvisited⟩ := Tarjan.search_run hU earlier [] newAdmission
    (.start : Tarjan.Inv (cycleEdges edgesOf) setSccOf _ ∅ [] _) (fun r hr => mem (mem_append_left _ hr)) (hcard _)
  rw [append_nil] at hinv
  obtain ⟨new, st', hst', hinv', hkeep, -⟩ := Tarjan.search_run hU later comps st hinv
    (fun r hr => mem (mem_append_right _ hr)) (hcard _)
  have entry {a : V} {comp : List V} (h : st.table a = some comp) : comp ∈ comps ∧ a ∈ comp := mem_of_sccOf (hinv.table ▸ h)
  refine ⟨st, st', hst, hst', fun a comp ha b => ?_, fun a b c c' ha hb => ?_, fun q hq w hw => ?_, fun a comp ha => ?_⟩
  · obtain ⟨hc, hac⟩ := entry ha
    rw [hinv.classes comp hc a hac b, mutual_cycleEdges]
  · obtain ⟨hc, hac⟩ := entry ha
    obtain ⟨hc', hbc⟩ := entry hb
    rw [hinv.eq_iff hc hc' hac hbc, mutual_cycleEdges]
  · obtain ⟨comp, hc, hwc⟩ := (hinv.visited_iff w).mp (hinv.reach (hvisited q hq) (reach_cycleEdges.mpr hw))
    rw [hinv.table]
    exact sccOf_ne_none hc hwc
  · obtain ⟨hc, hac⟩ := entry ha
    have hsome : st'.table a ≠ none := hinv'.table ▸ sccOf_ne_none (mem_append_right new hc) hac
    obtain ⟨comp', ha'⟩ := Option.ne_none_iff_exists'.mp hsome
    obtain ⟨hc', hac'⟩ := mem_of_sccOf (hinv'.table ▸ ha')
    rw [ha', hinv'.unique hc' (mem_append_right new hc) hac' hac]

/-- Both tables hold the strongly connected components. -/
theorem components_exact (edgesOf : V → List V) (earlier later : List V)
    (hfin : ∀ q ∈ earlier ++ later, {w | Reach edgesOf q w}.Finite) (L : ModuleInits V) :
    (∃ least, ∀ fuel ≥ least, ∃ st st', queries edgesOf fuel earlier newAdmission = some st ∧ queries edgesOf fuel later st = some st' ∧
      (∀ a comp, st.table a = some comp → ∀ b, b ∈ comp ↔ Mutual edgesOf a b) ∧
      (∀ a b c c', st.table a = some c → st.table b = some c' → (c = c' ↔ Mutual edgesOf a b)) ∧
      (∀ q ∈ earlier, ∀ w, Reach edgesOf q w → st.table w ≠ none) ∧
      ∀ a comp, st.table a = some comp → st'.table a = some comp) ∧
    ∀ fuel ≥ L.parts.length, ∃ st, L.prepareModuleInits fuel = some st ∧
      (∀ a, st.table.asyncCycleRepresentativeOf a ≠ none ↔
        a ∈ L.parts ∧ L.asyncInitFiles a = true ∧ ∃ b, b ≠ a ∧ Mutual L.staticDeps a b) ∧
      ∀ a b r r', st.table.asyncCycleRepresentativeOf a = some r → st.table.asyncCycleRepresentativeOf b = some r' →
        (r = r' ↔ Mutual L.staticDeps a b) :=
  ⟨queries_exact edgesOf earlier later hfin, prepareModuleInits_exact L⟩

/-- A cycle of three modules, the last of which has an edge to itself and one out of the cycle. -/
private def sampleEdges : Fin 4 → List (Fin 4)
  | 0 => [1]
  | 1 => [2]
  | 2 => [2, 0, 3]
  | 3 => []

theorem components_exact_sample :
    (∃ least, ∀ fuel ≥ least, ∃ st st', queries sampleEdges fuel [3] newAdmission = some st ∧ queries sampleEdges fuel [1] st = some st' ∧
      (∀ a comp, st.table a = some comp → ∀ b, b ∈ comp ↔ Mutual sampleEdges a b) ∧
      (∀ a b c c', st.table a = some c → st.table b = some c' → (c = c' ↔ Mutual sampleEdges a b)) ∧
      (∀ q ∈ [3], ∀ w, Reach sampleEdges q w → st.table w ≠ none) ∧
      ∀ a comp, st.table a = some comp → st'.table a = some comp) :=
  (components_exact sampleEdges [3] [1] (fun _ _ => Set.toFinite _) ⟨[], fun _ => [], fun _ => false, fun _ => none⟩).1

end ModuleComponents
