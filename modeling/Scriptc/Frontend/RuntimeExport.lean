import Mathlib.Data.Finset.Card
import Mathlib.Data.Set.Finite.Basic
import Mathlib.Logic.Relation

/-!
# Star exports

`runtimeExport` of `analyzeEsmNamedImportLinks` (`frontend/program.ts`): which binding an import
of a name from an ES module is linked to, beside ECMAScript's `ResolveExport`.

What the checker's own export table has under a name, with aliases followed, and where the
`export *` statements of a module lead are given. The calls that a resolution makes return what
`ResolveExport` resolves to exactly where all of them are clear (`runtimeExport_right_iff`).
-/

namespace RuntimeExport

/-- An entry of a module's own export table: a binding, or a declaration that is erased. -/
inductive Exported (B : Type*) where
  | typeOnly
  | value (b : B)

/-- The modules with their own exports. -/
structure Modules (M B : Type*) where
  exports : M → String → Option (Exported B)
  /-- The ES modules that the `export *` statements name, in order. -/
  stars : M → List M

/-- What `ResolveExport` gives. -/
inductive Resolution (B : Type*) where
  | null
  | ambiguous
  | resolved (b : B)

variable {M B : Type*} [DecidableEq M] [DecidableEq B]

/-- The loop over the star exports of a module. `none` where a call runs out of fuel. -/
def starExport (visit : M → Option (Option B)) : List M → Option B → Option (Option B)
  | [], found => some found
  | target :: targets, found =>
    match visit target with
    | none => none
    | some none => starExport visit targets found
    | some (some candidate) =>
      if found = none ∨ found = some candidate then starExport visit targets (some candidate) else some none

/-- The loop of `ResolveExport`. -/
def starResolution (visit : M → List M → Option (Resolution B × List M)) :
    List M → Resolution B → List M → Option (Resolution B × List M)
  | [], found, set => some (found, set)
  | target :: targets, found, set =>
    match visit target set with
    | none => none
    | some (.ambiguous, set) => some (.ambiguous, set)
    | some (.null, set) => starResolution visit targets found set
    | some (.resolved b, set) =>
      match found with
      | .resolved c => if b = c then starResolution visit targets found set else some (.ambiguous, set)
      | _ => starResolution visit targets (.resolved b) set

namespace Modules

variable (P : Modules M B) (name : String)

/-- `default` is never exported by a star. -/
def starTargets (m : M) : List M := if name = "default" then [] else P.stars m

/-- `none` where the fuel, the depth of the recursion, runs out. -/
def runtimeExport : ℕ → M → List M → Option (Option B)
  | 0, _, _ => none
  | fuel + 1, dep, seenModules =>
    if dep ∈ seenModules then some none
    else
      match P.exports dep name with
      | some (.value b) => some (some b)
      | some .typeOnly => some none
      | none => starExport (fun target => runtimeExport fuel target (dep :: seenModules)) (P.starTargets name dep) none

/-- ECMAScript's `ResolveExport`, on what is left of the module when types are erased. The set
of the modules that have been visited is shared by all branches. -/
def resolveExport : ℕ → M → List M → Option (Resolution B × List M)
  | 0, _, _ => none
  | fuel + 1, m, resolveSet =>
    if m ∈ resolveSet then some (.null, resolveSet)
    else
      match P.exports m name with
      | some (.value b) => some (.resolved b, m :: resolveSet)
      | _ => starResolution (resolveExport fuel) (P.starTargets name m) .null (m :: resolveSet)

/-- Star exports lead from the module to one that has the binding, without those of `seen`. -/
inductive Finds (seen : List M) : M → B → Prop where
  | own {m : M} {b : B} : m ∉ seen → P.exports m name = some (.value b) → Finds seen m b
  | star {m target : M} {b : B} : m ∉ seen → (∀ c, P.exports m name ≠ some (.value c)) → target ∈ P.starTargets name m →
      Finds seen target b → Finds seen m b

/-- They lead to this binding and no other. -/
def Only (seen : List M) (m : M) (b : B) : Prop := P.Finds name seen m b ∧ ∀ c, P.Finds name seen m c → c = b

/-- Some targets return no two bindings. -/
def AgreeOn (returns : M → B → Prop) (targets : List M) : Prop :=
  ∀ t ∈ targets, ∀ t' ∈ targets, ∀ b c, returns t b → returns t' c → b = c

/-- The loop over the targets comes to this one: it has not met two bindings before. -/
def Reached (returns : M → B → Prop) (targets : List M) (target : M) : Prop :=
  ∃ before after, targets = before ++ target :: after ∧ AgreeOn returns before

/-- The calls that a call makes if calls return what they are said to return; those with less fuel
are deeper. -/
inductive Calls (returns : ℕ → List M → M → B → Prop) (fuel : ℕ) (m : M) (seen : List M) : ℕ → M → List M → Prop where
  | here : Calls returns fuel m seen fuel m seen
  | deeper {depth : ℕ} {n target : M} {path : List M} : Calls returns fuel m seen (depth + 1) n path → n ∉ path →
      P.exports n name = none → Reached (returns depth (n :: path)) (P.starTargets name n) target →
      Calls returns fuel m seen depth target (n :: path)

/-- What calls return. -/
def Returns (depth : ℕ) (seen : List M) (m : M) (b : B) : Prop := P.runtimeExport name depth m seen = some (some b)

/-- What they should. -/
def Should (_ : ℕ) (seen : List M) (m : M) (b : B) : Prop := P.Only name seen m b

/-- The call returns the binding that `ResolveExport` resolves to, without the modules on the way. -/
def Right (fuel : ℕ) (m : M) (seen : List M) : Prop :=
  ∀ b, P.runtimeExport name fuel m seen = some (some b) ↔ ∃ set, P.resolveExport name fuel m seen = some (.resolved b, set)

/-- Where a call can go wrong: a type-only export hides a binding; or star exports lead to
several bindings, but all except one are hidden by ambiguities further down. -/
def Clear (m : M) (seen : List M) : Prop :=
  m ∉ seen →
    (P.exports m name = some .typeOnly → ∀ b, ¬ P.Only name seen m b) ∧
      (P.exports m name = none → ∀ b c, b ≠ c → P.Finds name seen m b → P.Finds name seen m c →
        ∀ d, (∃ target ∈ P.starTargets name m, P.Only name (m :: seen) target d) →
          ∃ d', d' ≠ d ∧ ∃ target ∈ P.starTargets name m, P.Only name (m :: seen) target d')

end Modules

section

variable {P : Modules M B} {name : String} {seen path set set' : List M} {m n : M} {b c : B} {fuel : ℕ}

open Modules

/-! ### Paths -/

omit [DecidableEq M] [DecidableEq B] in
theorem Modules.Finds.notMem (h : P.Finds name seen m b) : m ∉ seen := by
  cases h <;> assumption

omit [DecidableEq M] [DecidableEq B] in
theorem Modules.Finds.eq_own (h : P.Finds name seen m b) (hown : P.exports m name = some (.value c)) : b = c := by
  cases h with
  | own _ hb =>
    rw [hb] at hown
    cases hown
    rfl
  | star _ hno => exact absurd hown (hno c)

omit [DecidableEq M] [DecidableEq B] in
theorem Modules.Finds.mono (h : P.Finds name set' m b) (hsub : ∀ x ∈ set, x ∈ set') : P.Finds name set m b := by
  induction h with
  | own hm hb => exact .own (fun h => hm (hsub _ h)) hb
  | star hm hno ht _ ih => exact .star (fun h => hm (hsub _ h)) hno ht ih

omit [DecidableEq B] in
/-- A path goes through a module of the larger set, or avoids it. -/
theorem Modules.Finds.hit (h : P.Finds name set m b) (set' : List M) :
    P.Finds name set' m b ∨ ∃ x ∈ set', P.Finds name set x b := by
  induction h with
  | @own m b hm hb =>
    by_cases hx : m ∈ set'
    · exact .inr ⟨m, hx, .own hm hb⟩
    · exact .inl (.own hx hb)
  | @star m target b hm hno ht htail ih =>
    by_cases hx : m ∈ set'
    · exact .inr ⟨m, hx, .star hm hno ht htail⟩
    · exact ih.imp (.star hx hno ht) id

omit [DecidableEq B] in
/-- A path can be cut at its last visit to the module. -/
theorem Modules.Finds.cut (h : P.Finds name seen n b) (hno : ∀ c, P.exports m name ≠ some (.value c)) :
    P.Finds name (m :: seen) n b ∨ ∃ target ∈ P.starTargets name m, P.Finds name (m :: seen) target b := by
  induction h with
  | @own n b hn hb =>
    refine .inl (.own (List.not_mem_cons_of_ne_of_not_mem ?_ hn) hb)
    rintro rfl
    exact hno b hb
  | @star n target b hn hno' ht _ ih =>
    rcases ih with ih | ih
    · by_cases hnm : n = m
      · subst hnm
        exact .inr ⟨target, ht, ih⟩
      · exact .inl (.star (List.not_mem_cons_of_ne_of_not_mem hnm hn) hno' ht ih)
    · exact .inr ih

omit [DecidableEq B] in
theorem finds_iff (hm : m ∉ seen) (hno : ∀ c, P.exports m name ≠ some (.value c)) :
    P.Finds name seen m b ↔ ∃ target ∈ P.starTargets name m, P.Finds name (m :: seen) target b := by
  constructor
  · intro h
    exact (h.cut hno).resolve_left fun h => h.notMem List.mem_cons_self
  · rintro ⟨target, ht, h⟩
    exact .star hm hno ht (h.mono fun x hx => List.mem_cons_of_mem _ hx)

/-! ### `ResolveExport` -/

/-- What a call, or the loop, of `ResolveExport` has found when it has visited `set'`. -/
structure Resolves (P : Modules M B) (name : String) (set : List M) (start : M → Prop) (res : Resolution B) (set' : List M) : Prop where
  subset : ∀ x ∈ set, x ∈ set'
  found : ∀ b, res = .resolved b → ∃ t, start t ∧ P.Finds name set t b
  twice : res = .ambiguous → ∃ b c, b ≠ c ∧ (∃ t, start t ∧ P.Finds name set t b) ∧ ∃ t, start t ∧ P.Finds name set t c
  visited : res ≠ .ambiguous → ∀ x ∈ set', ∀ b, P.Finds name set x b → res = .resolved b

theorem starResolution_spec (P : Modules M B) (name : String) (visit : M → List M → Option (Resolution B × List M)) (base all : List M) :
    ∀ (targets : List M) (found : Resolution B) (set : List M), (∀ t ∈ targets, t ∈ all) →
      (∀ t ∈ targets, ∀ set, (∀ x ∈ base, x ∈ set) →
        ∃ res set', visit t set = some (res, set') ∧ Resolves P name set (· = t) res set' ∧ (res ≠ .ambiguous → t ∈ set')) →
      Resolves P name base (· ∈ all) found set → found ≠ .ambiguous →
      ∃ res set', starResolution visit targets found set = some (res, set') ∧ Resolves P name base (· ∈ all) res set' ∧
        (∀ x ∈ set, x ∈ set') ∧ (res ≠ .ambiguous → ∀ t ∈ targets, t ∈ set') := by
  intro targets
  induction targets with
  | nil => exact fun found set _ _ h _ => ⟨found, set, rfl, h, fun _ => id, fun _ => by simp⟩
  | cons t targets ih =>
    intro found set hall hvisit h hfound
    obtain ⟨htall, hall⟩ := List.forall_mem_cons.mp hall
    obtain ⟨hvisitt, hvisit⟩ := List.forall_mem_cons.mp hvisit
    obtain ⟨res, set₁, hres, hr, ht⟩ := hvisitt set h.subset
    have subset : ∀ x ∈ base, x ∈ set₁ := fun x hx => hr.subset x (h.subset x hx)
    have lift {b : B} (hb : P.Finds name set t b) : ∃ t, t ∈ all ∧ P.Finds name base t b := ⟨t, htall, hb.mono h.subset⟩
    -- everything findable from what has been visited is one of the two answers
    have visited (hna : res ≠ .ambiguous) (x : M) (hx : x ∈ set₁) (b : B) (hb : P.Finds name base x b) :
        res = .resolved b ∨ found = .resolved b := by
      rcases hb.hit set with hb | ⟨y, hy, hb⟩
      · exact .inl (hr.visited hna x hx b hb)
      · exact .inr (h.visited hfound y hy b hb)
    have next (found' : Resolution B) (hfound' : found' ≠ .ambiguous) (hna : res ≠ .ambiguous)
        (h' : Resolves P name base (· ∈ all) found' set₁) :
        ∃ res set', starResolution visit targets found' set₁ = some (res, set') ∧ Resolves P name base (· ∈ all) res set' ∧
          (∀ x ∈ set, x ∈ set') ∧ (res ≠ .ambiguous → ∀ t' ∈ t :: targets, t' ∈ set') := by
      obtain ⟨res', set', hrun, hr', hsub, hts⟩ := ih found' set₁ hall hvisit h' hfound'
      exact ⟨res', set', hrun, hr', fun x hx => hsub x (hr.subset x hx), fun hn =>
        List.forall_mem_cons.mpr ⟨hsub t (ht hna), hts hn⟩⟩
    rw [starResolution, hres]
    cases res with
    | ambiguous =>
      obtain ⟨b, c, hbc, ⟨t₁, rfl, hb⟩, ⟨t₂, rfl, hc⟩⟩ := hr.twice rfl
      refine ⟨.ambiguous, set₁, rfl, ⟨subset, fun b hb => (by cases hb), fun _ => ⟨b, c, hbc, lift hb, lift hc⟩, fun hn => absurd rfl hn⟩,
        hr.subset, fun hn => absurd rfl hn⟩
    | null =>
      refine next found hfound (fun h => by cases h) ⟨subset, h.found, h.twice, fun hn x hx b hb => ?_⟩
      rcases visited (fun h => by cases h) x hx b hb with h' | h'
      · cases h'
      · exact h'
    | resolved c =>
      obtain ⟨_, rfl, hc⟩ := hr.found c rfl
      have fresh (hsame : ∀ b, found = .resolved b → c = b) : Resolves P name base (· ∈ all) (.resolved c) set₁ := by
        refine ⟨subset, fun b hb => ?_, fun ha => (by cases ha), fun _ x hx b hb => ?_⟩
        · cases hb
          exact lift hc
        · rcases visited (fun h => by cases h) x hx b hb with h' | h'
          · exact h'
          · rw [hsame b h']
      cases found with
      | ambiguous => exact absurd rfl hfound
      | null => exact next (.resolved c) (fun h => by cases h) (fun h => by cases h) (fresh fun b hb => by cases hb)
      | resolved d =>
        by_cases hcd : c = d
        · subst hcd
          simp only [if_true]
          exact next (.resolved c) (fun h => by cases h) (fun h => by cases h) (fresh fun b hb => by cases hb; rfl)
        · simp only [hcd, if_false]
          exact ⟨.ambiguous, set₁, rfl, ⟨subset, fun b hb => (by cases hb), fun _ => ⟨c, d, hcd, lift hc, h.found d rfl⟩,
            fun hn => absurd rfl hn⟩, hr.subset, fun hn => absurd rfl hn⟩

/-- The modules that can still be visited, of a set that holds what they lead to. -/
def free (U : Finset M) (set : List M) : Finset M := U.filter (· ∉ set)

variable {U : Finset M}

omit [DecidableEq B] in
theorem free_cons_lt (set' : List M) (hU : m ∈ U) (hm : m ∉ set) (hsub : ∀ x ∈ m :: set, x ∈ set') :
    (free U set').card < (free U set).card := by
  refine Finset.card_lt_card (Finset.ssubset_iff_of_subset (fun x hx => ?_) |>.mpr ⟨m, Finset.mem_filter.mpr ⟨hU, hm⟩, fun hx => ?_⟩)
  · obtain ⟨hxU, hx⟩ := Finset.mem_filter.mp hx
    exact Finset.mem_filter.mpr ⟨hxU, fun h => hx (hsub x (List.mem_cons_of_mem _ h))⟩
  · exact (Finset.mem_filter.mp hx).2 (hsub m List.mem_cons_self)

theorem resolveExport_spec (hU : ∀ x ∈ U, ∀ t ∈ P.starTargets name x, t ∈ U) :
    ∀ (fuel : ℕ) (m : M) (set : List M), m ∈ U → (free U set).card < fuel →
      ∃ res set', P.resolveExport name fuel m set = some (res, set') ∧ Resolves P name set (· = m) res set' ∧ m ∈ set' := by
  intro fuel
  induction fuel with
  | zero => exact fun m set _ h => absurd h (Nat.not_lt_zero _)
  | succ fuel ih =>
    intro m set hmU hcard
    by_cases hm : m ∈ set
    · refine ⟨.null, set, by rw [Modules.resolveExport, if_pos hm], ⟨fun _ => id, fun b hb => (by cases hb), fun ha => (by cases ha),
        fun _ x hx b hb => absurd hx hb.notMem⟩, hm⟩
    · by_cases hown : ∃ b, P.exports m name = some (.value b)
      · obtain ⟨b, hb⟩ := hown
        refine ⟨.resolved b, m :: set, by rw [Modules.resolveExport, if_neg hm, hb], ⟨fun x => List.mem_cons_of_mem m, fun c hc => ?_,
          fun ha => (by cases ha), fun _ x hx c hc => ?_⟩, List.mem_cons_self⟩
        · cases hc
          exact ⟨m, rfl, .own hm hb⟩
        · rcases List.mem_cons.mp hx with rfl | hx
          · rw [hc.eq_own hb]
          · exact absurd hx hc.notMem
      · have hno : ∀ c, P.exports m name ≠ some (.value c) := fun c hc => hown ⟨c, hc⟩
        have hrun : P.resolveExport name (fuel + 1) m set =
            starResolution (P.resolveExport name fuel) (P.starTargets name m) .null (m :: set) := by
          rw [Modules.resolveExport, if_neg hm]
          split
          · exact absurd (by assumption) (hno _)
          · rfl
        obtain ⟨res, set', hres, hr, hsub, hts⟩ := starResolution_spec P name (P.resolveExport name fuel) (m :: set)
          (P.starTargets name m) (P.starTargets name m) .null (m :: set) (fun _ => id)
          (fun t ht set₁ hsub => by
            have hless := free_cons_lt set₁ hmU hm hsub
            obtain ⟨res, set', hres, hr, hmem⟩ := ih t set₁ (hU m hmU t ht) (by omega)
            exact ⟨res, set', hres, hr, fun _ => hmem⟩)
          ⟨fun _ => id, fun b hb => (by cases hb), fun ha => (by cases ha), fun _ x hx b hb => absurd hx hb.notMem⟩ (fun h => by cases h)
        have lift {b : B} (h : ∃ t, t ∈ P.starTargets name m ∧ P.Finds name (m :: set) t b) : ∃ t, t = m ∧ P.Finds name set t b :=
          ⟨m, rfl, (finds_iff hm hno).mpr h⟩
        refine ⟨res, set', hrun.trans hres, ⟨fun x hx => hsub x (List.mem_cons_of_mem m hx), fun b hb => lift (hr.found b hb), fun ha => ?_,
          fun hna x hx b hb => ?_⟩, hsub m List.mem_cons_self⟩
        · obtain ⟨b, c, hbc, hb, hc⟩ := hr.twice ha
          exact ⟨b, c, hbc, lift hb, lift hc⟩
        · rcases hb.cut hno with hb | ⟨t, ht, hb⟩
          · exact hr.visited hna x hx b hb
          · exact hr.visited hna t (hts hna t ht) b hb

/-- `ResolveExport` resolves to the one binding that is found. -/
theorem resolveExport_iff (hU : ∀ x ∈ U, ∀ t ∈ P.starTargets name x, t ∈ U) (hm : m ∈ U)
    (hfuel : (free U seen).card < fuel) :
    (∃ set, P.resolveExport name fuel m seen = some (.resolved b, set)) ↔ P.Only name seen m b := by
  obtain ⟨res, set', hres, hr, hmem⟩ := resolveExport_spec hU fuel m seen hm hfuel
  rw [hres]
  constructor
  · rintro ⟨set, hset⟩
    cases hset
    obtain ⟨_, rfl, hb⟩ := hr.found b rfl
    refine ⟨hb, fun c hc => ?_⟩
    have := hr.visited (fun h => by cases h) _ hmem c hc
    cases this
    rfl
  · rintro ⟨hb, honly⟩
    have hna : res ≠ .ambiguous := by
      intro ha
      obtain ⟨c, d, hcd, ⟨_, rfl, hc⟩, ⟨_, rfl, hd⟩⟩ := hr.twice ha
      exact hcd ((honly c hc).trans (honly d hd).symm)
    exact ⟨set', by rw [hr.visited hna m hmem b hb]⟩

/-! ### `runtimeExport` -/

omit [DecidableEq M] in
/-- The loop gives the binding that the targets agree on; those that have none are passed over. -/
theorem starExport_spec (visit : M → Option (Option B)) :
    ∀ (targets : List M) (found : Option B), (∀ t ∈ targets, ∃ r, visit t = some r) →
      ∃ r, starExport visit targets found = some r ∧ ∀ b, r = some b ↔
        (found = some b ∨ ∃ t ∈ targets, visit t = some (some b)) ∧ (∀ c, found = some c → c = b) ∧
          ∀ t ∈ targets, ∀ c, visit t = some (some c) → c = b := by
  intro targets
  induction targets with
  | nil =>
    refine fun found _ => ⟨found, rfl, fun b => ⟨fun h => ⟨.inl h, fun c hc => ?_, by simp⟩, fun h => h.1.resolve_right (by simp)⟩⟩
    rw [h] at hc
    exact (Option.some.inj hc).symm
  | cons t targets ih =>
    intro found hvisit
    obtain ⟨⟨r, hr⟩, hvisit⟩ := List.forall_mem_cons.mp hvisit
    rw [starExport, hr]
    cases r with
    | none =>
      obtain ⟨r, hrun, hiff⟩ := ih found hvisit
      refine ⟨r, hrun, fun b => (hiff b).trans ?_⟩
      simp [hr]
    | some candidate =>
      by_cases hsame : found = none ∨ found = some candidate
      · obtain ⟨r, hrun, hiff⟩ := ih (some candidate) hvisit
        refine ⟨r, by simp only [hsame, if_true]; exact hrun, fun b => (hiff b).trans ?_⟩
        rcases hsame with rfl | rfl
        · simp [hr]
        · simp [hr]
      · refine ⟨none, by simp only [hsame, if_false], fun b => ⟨fun h => (by cases h), ?_⟩⟩
        rintro ⟨-, hfound, hall⟩
        have hb := hall t List.mem_cons_self candidate hr
        cases found with
        | none => exact absurd (.inl rfl) hsame
        | some c =>
          have hc := hfound c rfl
          exact absurd (.inr (by rw [hc, hb])) hsame

theorem runtimeExport_total (hU : ∀ x ∈ U, ∀ t ∈ P.starTargets name x, t ∈ U) :
    ∀ (fuel : ℕ) (m : M) (seen : List M), m ∈ U → (free U seen).card < fuel → ∃ r, P.runtimeExport name fuel m seen = some r := by
  intro fuel
  induction fuel with
  | zero => exact fun m seen _ h => absurd h (Nat.not_lt_zero _)
  | succ fuel ih =>
    intro m seen hmU hcard
    rw [Modules.runtimeExport]
    by_cases hm : m ∈ seen
    · exact ⟨none, if_pos hm⟩
    · rw [if_neg hm]
      cases P.exports m name with
      | some e =>
        cases e with
        | typeOnly => exact ⟨none, rfl⟩
        | value b => exact ⟨some b, rfl⟩
      | none =>
        have hless := free_cons_lt (m :: seen) hmU hm fun _ => id
        obtain ⟨r, hr, -⟩ := starExport_spec (fun target => P.runtimeExport name fuel target (m :: seen))
          (P.starTargets name m) none fun t ht => ih t (m :: seen) (hU m hmU t ht) (by omega)
        exact ⟨r, hr⟩

variable {targets : List M} {R : M → B → Prop}

omit [DecidableEq M] [DecidableEq B] in
theorem Modules.Reached.mem {target : M} (h : Reached R targets target) : target ∈ targets := by
  obtain ⟨before, after, rfl, -⟩ := h
  exact List.mem_append_right _ List.mem_cons_self

omit [DecidableEq M] [DecidableEq B] in
theorem Modules.AgreeOn.reached {target : M} (h : AgreeOn R targets) (ht : target ∈ targets) :
    Reached R targets target := by
  obtain ⟨before, after, rfl⟩ := List.append_of_mem ht
  exact ⟨before, after, rfl, fun x hx y hy => h x (List.mem_append_left _ hx) y (List.mem_append_left _ hy)⟩

omit [DecidableEq M] [DecidableEq B] in
/-- The loop comes to the same targets if those return the same. -/
theorem Modules.Reached.transfer {R R' : M → B → Prop} {target : M}
    (hsame : ∀ t, Reached R' targets t → ∀ b, R t b ↔ R' t b) (h : Reached R targets target) : Reached R' targets target := by
  obtain ⟨before, after, hsplit, hagree⟩ := h
  induction hn : before.length using Nat.strongRecOn generalizing before target after with
  | ind n ih =>
    subst hn
    have hbefore (t : M) (ht : t ∈ before) (b : B) : R t b ↔ R' t b := by
      obtain ⟨first, rest, rfl⟩ := List.append_of_mem ht
      refine hsame t (ih first.length ?_ first (rest ++ target :: after) ?_ (fun x hx y hy => ?_) rfl) b
      · rw [List.length_append, List.length_cons]
        omega
      · rw [hsplit, List.append_assoc, List.cons_append]
      · exact hagree x (List.mem_append_left _ hx) y (List.mem_append_left _ hy)
    refine ⟨before, after, hsplit, fun t ht t' ht' b c hb hc => ?_⟩
    exact hagree t ht t' ht' b c ((hbefore t ht b).mpr hb) ((hbefore t' ht' c).mpr hc)

omit [DecidableEq M] [DecidableEq B] in
/-- Where the loop stops, it has come to two bindings. -/
theorem exists_reached (h : ¬AgreeOn R targets) :
    ∃ t t' b c, Reached R targets t ∧ Reached R targets t' ∧ R t b ∧ R t' c ∧ b ≠ c := by
  induction targets using List.reverseRecOn with
  | nil => exact absurd (fun t ht => absurd ht List.not_mem_nil) h
  | append_singleton init last ih =>
    have hlater {t : M} (ht : Reached R init t) : Reached R (init ++ [last]) t := by
      obtain ⟨before, after, rfl, hagree⟩ := ht
      exact ⟨before, after ++ [last], by rw [List.append_assoc, List.cons_append], hagree⟩
    by_cases hinit : AgreeOn R init
    · have hall (t : M) (ht : t ∈ init ++ [last]) : Reached R (init ++ [last]) t := by
        rcases List.mem_append.mp ht with ht | ht
        · exact hlater (hinit.reached ht)
        · obtain rfl := List.mem_singleton.mp ht
          exact ⟨init, [], rfl, hinit⟩
      unfold AgreeOn at h
      push Not at h
      obtain ⟨t, ht, t', ht', b, c, hb, hc, hne⟩ := h
      exact ⟨t, t', b, c, hall t ht, hall t' ht', hb, hc, hne⟩
    · obtain ⟨t, t', b, c, ht, ht', hrest⟩ := ih hinit
      exact ⟨t, t', b, c, hlater ht, hlater ht', hrest⟩

/-- Where the calls that it makes are right, a call is right exactly where it is clear. -/
theorem right_iff_clear (hU : ∀ x ∈ U, ∀ t ∈ P.starTargets name x, t ∈ U) (hmU : m ∈ U)
    (hfuel : (free U seen).card < fuel + 1)
    (hdeeper : m ∉ seen → P.exports m name = none →
      ∀ t, Reached (P.Returns name fuel (m :: seen)) (P.starTargets name m) t → P.Right name fuel t (m :: seen)) :
    P.Right name (fuel + 1) m seen ↔ P.Clear name m seen := by
  have spec (b : B) : (∃ set, P.resolveExport name (fuel + 1) m seen = some (.resolved b, set)) ↔ P.Only name seen m b :=
    resolveExport_iff hU hmU hfuel
  unfold Modules.Right Modules.Clear
  simp only [spec]
  by_cases hm : m ∈ seen
  · refine ⟨fun _ h => absurd hm h, fun _ b => ⟨fun h => ?_, fun h => absurd hm h.1.notMem⟩⟩
    rw [Modules.runtimeExport, if_pos hm] at h
    cases h
  · have hless := free_cons_lt (m :: seen) hmU hm fun _ => id
    rw [Modules.runtimeExport, if_neg hm]
    cases hexp : P.exports m name with
    | some e =>
      cases e with
      | value b =>
        refine ⟨fun _ _ => ⟨fun h => (by cases h), fun h => (by cases h)⟩, fun _ c => ⟨fun h => ?_, fun h => ?_⟩⟩
        · cases h
          exact ⟨.own hm hexp, fun c hc => hc.eq_own hexp⟩
        · rw [h.1.eq_own hexp]
      | typeOnly =>
        constructor
        · exact fun h _ => ⟨fun _ b hb => (by cases (h b).mpr hb), fun h => by cases h⟩
        · exact fun h b => ⟨fun h => (by cases h), fun hb => absurd hb ((h hm).1 rfl b)⟩
    | none =>
      have hno : ∀ c, P.exports m name ≠ some (.value c) := fun c hc => by rw [hexp] at hc; cases hc
      obtain ⟨r, hr, hiff⟩ := starExport_spec (fun target => P.runtimeExport name fuel target (m :: seen))
        (P.starTargets name m) none fun t ht => runtimeExport_total hU fuel t (m :: seen) (hU m hmU t ht) (by omega)
      have reached (t : M) (ht : Reached (P.Returns name fuel (m :: seen)) (P.starTargets name m) t) (b : B) :
          P.runtimeExport name fuel t (m :: seen) = some (some b) ↔ P.Only name (m :: seen) t b :=
        (hdeeper hm hexp t ht b).trans (resolveExport_iff hU (hU m hmU t ht.mem) (by omega))
      by_cases hagree : AgreeOn (P.Returns name fuel (m :: seen)) (P.starTargets name m)
      case neg =>
        -- the loop stops at two bindings, which both are found
        obtain ⟨t, t', b, c, ht, ht', hb, hc, hbc⟩ := exists_reached hagree
        have hb' := (reached t ht b).mp hb
        have hc' := (reached t' ht' c).mp hc
        have hfb := (finds_iff hm hno).mpr ⟨t, ht.mem, hb'.1⟩
        have hfc := (finds_iff hm hno).mpr ⟨t', ht'.mem, hc'.1⟩
        refine iff_of_true (fun d => iff_of_false ?_ ?_) fun _ => ⟨fun h => (by cases h), fun _ _ _ _ _ _ d _ => ?_⟩
        · rw [hr, Option.some.injEq, hiff d]
          rintro ⟨-, -, hall⟩
          exact hbc ((hall t ht.mem b hb).trans (hall t' ht'.mem c hc).symm)
        · exact fun hd => hbc ((hd.2 b hfb).trans (hd.2 c hfc).symm)
        · by_cases hdb : b = d
          · exact ⟨c, fun hcd => hbc (hdb.trans hcd.symm), t', ht'.mem, hc'⟩
          · exact ⟨b, hdb, t, ht.mem, hb'⟩
      have right (t : M) (ht : t ∈ P.starTargets name m) (b : B) :
          P.runtimeExport name fuel t (m :: seen) = some (some b) ↔ P.Only name (m :: seen) t b := reached t (hagree.reached ht) b
      -- the call returns the one binding of the targets that are not ambiguous
      have returns (b : B) : r = some b ↔ (∃ t ∈ P.starTargets name m, P.Only name (m :: seen) t b) ∧
          ∀ t ∈ P.starTargets name m, ∀ c, P.Only name (m :: seen) t c → c = b := by
        rw [hiff b]
        constructor
        · rintro ⟨hsome, -, hall⟩
          obtain ⟨t, ht, hb⟩ := hsome.resolve_left (fun h => by cases h)
          exact ⟨⟨t, ht, (right t ht b).mp hb⟩, fun t ht c hc => hall t ht c ((right t ht c).mpr hc)⟩
        · rintro ⟨⟨t, ht, hb⟩, hall⟩
          exact ⟨.inr ⟨t, ht, (right t ht b).mpr hb⟩, fun c hc => (by cases hc), fun t ht c hc => hall t ht c ((right t ht c).mp hc)⟩
      have found (b : B) : P.Finds name seen m b ↔ ∃ t ∈ P.starTargets name m, P.Finds name (m :: seen) t b := finds_iff hm hno
      simp only [hr, Option.some.injEq, returns]
      constructor
      · intro h _
        refine ⟨fun h => (by cases h), fun _ b c hbc hb hc d hd => ?_⟩
        by_contra hno'
        push Not at hno'
        have hd' := (h d).mp ⟨hd, fun t ht c hc => by
          by_contra hne
          exact hno' c hne t ht hc⟩
        exact hbc ((hd'.2 b hb).trans (hd'.2 c hc).symm)
      · intro h b
        have hclear := (h hm).2 trivial
        constructor
        · rintro ⟨⟨t, ht, hb⟩, hall⟩
          refine ⟨(found b).mpr ⟨t, ht, hb.1⟩, fun c hc => ?_⟩
          by_contra hne
          obtain ⟨d', hd', t', ht', honly⟩ := hclear c b hne hc ((found b).mpr ⟨t, ht, hb.1⟩) b ⟨t, ht, hb⟩
          exact hd' (hall t' ht' d' honly)
        · rintro ⟨hb, honly⟩
          obtain ⟨t, ht, hbt⟩ := (found b).mp hb
          have sub (t : M) (ht : t ∈ P.starTargets name m) (c : B) (hc : P.Finds name (m :: seen) t c) : c = b :=
            honly c ((found c).mpr ⟨t, ht, hc⟩)
          exact ⟨⟨t, ht, hbt, fun c hc => sub t ht c hc⟩, fun t ht c hc => sub t ht c hc.1⟩

/-! ### All calls of a resolution -/

variable {R R' : ℕ → List M → M → B → Prop} {depth : ℕ}

omit [DecidableEq B] in
theorem Modules.Calls.enough (hU : ∀ x ∈ U, ∀ t ∈ P.starTargets name x, t ∈ U) (hm : m ∈ U)
    (hfuel : (free U seen).card < fuel) (h : P.Calls name R fuel m seen depth n path) : n ∈ U ∧ (free U path).card < depth := by
  induction h with
  | here => exact ⟨hm, hfuel⟩
  | deeper _ hn _ ht ih =>
    have hless := free_cons_lt _ ih.1 hn fun _ => id
    exact ⟨hU _ ih.1 _ ht.mem, by omega⟩

omit [DecidableEq M] [DecidableEq B] in
/-- The same calls are made if they return the same. -/
theorem Modules.Calls.transfer
    (hsame : ∀ depth n path, P.Calls name R' fuel m seen depth n path → ∀ b, R depth path n b ↔ R' depth path n b)
    (h : P.Calls name R fuel m seen depth n path) : P.Calls name R' fuel m seen depth n path := by
  induction h with
  | here => exact .here
  | deeper _ hn hexp ht ih => exact .deeper ih hn hexp (ht.transfer fun t ht => hsame _ _ _ (.deeper ih hn hexp ht))

/-- The calls of a resolution all return what `ResolveExport` resolves to, without the modules
on the way, exactly where all of them are clear. -/
theorem runtimeExport_right_iff (P : Modules M B) (name : String) (m : M)
    (hfin : {n | Relation.ReflTransGen (fun a b => b ∈ P.stars a) m n}.Finite) :
    ∃ least, ∀ fuel ≥ least,
      (∀ depth n path, P.Calls name (P.Returns name) fuel m [] depth n path → P.Right name depth n path) ↔
        ∀ depth n path, P.Calls name (P.Should name) fuel m [] depth n path → P.Clear name n path := by
  have hU : ∀ x ∈ hfin.toFinset, ∀ t ∈ P.starTargets name x, t ∈ hfin.toFinset := by
    intro x hx t ht
    rw [Set.Finite.mem_toFinset] at hx ⊢
    unfold Modules.starTargets at ht
    split at ht
    · cases ht
    · exact hx.tail ht
  have hm : m ∈ hfin.toFinset := (Set.Finite.mem_toFinset hfin).mpr .refl
  refine ⟨hfin.toFinset.card + 1, fun fuel hfuel => ?_⟩
  have hcard : (free hfin.toFinset []).card < fuel := (Finset.card_filter_le _ _).trans_lt hfuel
  have same {R : ℕ → List M → M → B → Prop} {depth : ℕ} {n : M} {path : List M} (h : P.Calls name R fuel m [] depth n path)
      (hright : P.Right name depth n path) (b : B) : P.Returns name depth path n b ↔ P.Should name depth path n b :=
    (hright b).trans (resolveExport_iff hU (h.enough hU hm hcard).1 (h.enough hU hm hcard).2)
  constructor
  · intro hall depth n path h
    have hcall := h.transfer fun _ _ _ h b => (same h (hall _ _ _ h) b).symm
    obtain ⟨hn, hdepth⟩ := h.enough hU hm hcard
    cases depth with
    | zero => exact absurd hdepth (Nat.not_lt_zero _)
    | succ depth =>
      exact (right_iff_clear hU hn hdepth fun hnp hexp t ht => hall _ _ _ (.deeper hcall hnp hexp ht)).mp (hall _ _ _ hcall)
  · intro hall
    have hright (depth : ℕ) : ∀ n path, P.Calls name (P.Should name) fuel m [] depth n path → P.Right name depth n path := by
      induction depth with
      | zero => exact fun n path h => absurd (h.enough hU hm hcard).2 (Nat.not_lt_zero _)
      | succ depth ih =>
        intro n path h
        obtain ⟨hn, hdepth⟩ := h.enough hU hm hcard
        refine (right_iff_clear hU hn hdepth fun hnp hexp t ht => ih _ _ (.deeper h hnp hexp (ht.transfer fun t ht b => ?_))).mpr (hall _ _ _ h)
        exact same (.deeper h hnp hexp ht) (ih _ _ (.deeper h hnp hexp ht)) b
    exact fun depth n path h => hright depth n path (h.transfer fun _ _ _ h => same h (hright _ _ _ h))

end

/-- The entry exports all of two modules; the first of these exports all of two more, which
both have the name, as the second has. -/
private def sample : Modules (Fin 5) (Fin 5) where
  exports m _ := if m = 0 ∨ m = 1 then none else some (.value m)
  stars
    | 0 => [1, 2]
    | 1 => [3, 4]
    | _ => []

/-- `ResolveExport` finds the name ambiguous; the call returns a binding. -/
theorem not_ambiguous_below :
    sample.runtimeExport "x" 6 0 [] = some (some 2) ∧ ∃ set, sample.resolveExport "x" 6 0 [] = some (.ambiguous, set) :=
  ⟨by decide, _, rfl⟩

theorem runtimeExport_right_iff_sample :
    ∃ least, ∀ fuel ≥ least,
      (∀ depth n path, sample.Calls "x" (sample.Returns "x") fuel 0 [] depth n path → sample.Right "x" depth n path) ↔
        ∀ depth n path, sample.Calls "x" (sample.Should "x") fuel 0 [] depth n path → sample.Clear "x" n path :=
  runtimeExport_right_iff sample "x" 0 (Set.toFinite _)

end RuntimeExport
