import Mathlib.Data.Finset.Card
import Mathlib.Data.Set.Finite.Lattice
import Mathlib.Data.Set.Finite.Range
import Mathlib.Logic.Relation

/-!
# Package purity

`purePackageTree` of `frontend/npm-static-prune.ts`: whether a package and everything in its
declared dependency tree promise to have no module evaluation side effects. A package that is
being visited counts as pure for the moment; an answer that borrows from one is provisional,
and not kept.

Where a dependency is found (`resolveBareModule`, then `packageRootJsonPath`) and what a file
holds are given.
-/

namespace PackagePurity

open List

/-- A parsed JSON value. The properties of an object are in the order of `Object.keys`. -/
inductive Json where
  | null
  | bool (b : Bool)
  | number
  | string (s : String)
  | array (elements : List Json)
  | object (properties : List (String × Json))

/-- Where packages are and what they declare. -/
structure Packages (Path : Type*) where
  /-- The file's JSON, if it is there and parses. -/
  read : Path → Option Json
  /-- The `package.json` of the package that a file's bare import of the name reaches. -/
  dependencyPath : Path → String → Option Path

/-- The cached answers. -/
abbrev Memo (Path : Type*) := Path → Option Bool

/-- An answer, and whether it rests on a package that is being asked. -/
structure Purity where
  pure : Bool
  provisional : Bool
  deriving DecidableEq

def noSideEffects : Option Json → Bool
  | some (.bool false) => true
  | some (.array []) => true
  | _ => false

variable {Path : Type*}

namespace Packages

variable (P : Packages Path)

def packageJson (path : Path) : Option (List (String × Json)) :=
  match P.read path with
  | some (.object properties) => some properties
  | _ => none

def dependencyFields : List String := ["dependencies", "optionalDependencies", "peerDependencies"]

/-- The names in the three dependency fields, in order. -/
def dependencyNames (json : List (String × Json)) : List String :=
  dependencyFields.flatMap fun field =>
    match json.lookup field with
    | some (.object dependencies) => dependencies.map (·.1)
    | _ => []

/-- The names whose packages decide, where the package itself promises purity. -/
def promised (path : Path) : Option (List String) :=
  match P.packageJson path with
  | some json => if noSideEffects (json.lookup "sideEffects") then some (dependencyNames json) else none
  | none => none

/-- The loop over the dependencies of `path`, up to the first that is not pure. -/
def checkAll (visit : Path → Memo Path → Option (Purity × Memo Path)) (path : Path) :
    List String → Bool → Memo Path → Option (Purity × Memo Path)
  | [], provisional, memo => some (⟨true, provisional⟩, memo)
  | name :: names, provisional, memo =>
    match P.dependencyPath path name with
    | none => some (⟨false, provisional⟩, memo)
    | some depPath =>
      match visit depPath memo with
      | none => none
      | some (dep, memo) =>
        if dep.pure then checkAll visit path names (provisional || dep.provisional) memo
        else some (⟨false, provisional⟩, memo)

variable [DecidableEq Path]

/-- `none` where the fuel, the depth of the recursion, runs out. -/
def purePackageTree : ℕ → List Path → Path → Memo Path → Option (Purity × Memo Path)
  | fuel, visiting, path, memo =>
    match memo path with
    | some cached => some (⟨cached, false⟩, memo)
    | none =>
      if path ∈ visiting then some (⟨true, true⟩, memo)
      else
        match P.promised path with
        | none => some (⟨false, false⟩, Function.update memo path (some false))
        | some names =>
          match fuel with
          | 0 => none
          | fuel + 1 =>
            (P.checkAll (purePackageTree fuel (path :: visiting)) path names false memo).map fun (r, memo) =>
              (r, if !r.pure || !r.provisional || visiting.isEmpty then Function.update memo path (some r.pure) else memo)

/-- Roots asked for one after the other, with one memo. -/
def purePackageTrees (fuel : ℕ) : List Path → Memo Path → Option (List Bool × Memo Path)
  | [], memo => some ([], memo)
  | root :: roots, memo =>
    match P.purePackageTree fuel [] root memo with
    | none => none
    | some (r, memo) => (purePackageTrees fuel roots memo).map fun (rs, memo) => (r.pure :: rs, memo)

end Packages

section

variable (P : Packages Path)

/-- `path` declares a dependency that resolves to `dep`. -/
def DependsOn (path dep : Path) : Prop :=
  ∃ json name, P.packageJson path = some json ∧ name ∈ Packages.dependencyNames json ∧ P.dependencyPath path name = some dep

/-- The package promises purity, and its dependencies resolve. -/
def Promises (path : Path) : Prop := ∃ names, P.promised path = some names ∧ ∀ name ∈ names, P.dependencyPath path name ≠ none

/-- So does every package of the tree. -/
def Pure (path : Path) : Prop := ∀ p, Relation.ReflTransGen (DependsOn P) path p → Promises P p

/-- From `path` to `p`, past no package of `visiting`. -/
def ReachesPast (visiting : List Path) (path p : Path) : Prop :=
  path ∉ visiting ∧ Relation.ReflTransGen (fun a b => DependsOn P a b ∧ b ∉ visiting) path p

/-- What a provisional answer says. -/
def PurePast (visiting : List Path) (path : Path) : Prop := ∀ p, ReachesPast P visiting path p → Promises P p

/-- Every entry is the answer for its package. -/
def Exact (memo : Memo Path) : Prop := ∀ path b, memo path = some b → (b = true ↔ Pure P path)

/-- What is known when `path` has been visited. -/
structure Answers (visiting : List Path) (path : Path) (r : Purity) (memo : Memo Path) : Prop where
  exact : Exact P memo
  impure : r.pure = false → ¬ Pure P path
  final : r.pure = true → r.provisional = false → Pure P path
  past : r.pure = true → PurePast P visiting path

end

variable {P : Packages Path} {visiting : List Path} {path dep p : Path} {memo memo' : Memo Path} {r : Purity}

theorem Pure.dependency (h : Pure P path) (hd : DependsOn P path dep) : Pure P dep :=
  fun p hp => h p (.head hd hp)

theorem Pure.past (h : Pure P path) : PurePast P visiting path :=
  fun p hp => h p (Relation.ReflTransGen.mono (fun _ _ hab => And.left hab) _ _ hp.2)

theorem pure_of_dependencies (h : Promises P path) (hd : ∀ dep, DependsOn P path dep → Pure P dep) : Pure P path := by
  intro p hp
  rcases hp.cases_head with rfl | ⟨dep, hdep, hp⟩
  · exact h
  · exact hd dep hdep p hp

theorem pure_of_purePast (h : PurePast P [] path) : Pure P path :=
  fun p hp => h p ⟨not_mem_nil, Relation.ReflTransGen.mono (fun _ _ hab => And.intro hab not_mem_nil) _ _ hp⟩

/-- After its last visit to `path`, a way leads on past `path`. -/
theorem ReachesPast.cases_last (h : ReachesPast P visiting path p) :
    p = path ∨ ∃ dep, DependsOn P path dep ∧ ReachesPast P (path :: visiting) dep p := by
  obtain ⟨-, h⟩ := h
  induction h with
  | refl => exact .inl rfl
  | @tail a b _ hab ih =>
    by_cases hb : b = path
    · exact .inl hb
    have hmem : b ∉ path :: visiting := by simp [hb, hab.2]
    rcases ih with rfl | ⟨dep, hdep, hmem', hreach⟩
    · exact .inr ⟨b, hab.1, hmem, .refl⟩
    · exact .inr ⟨dep, hdep, hmem', hreach.tail ⟨hab.1, hmem⟩⟩

theorem purePast_of_dependencies (h : Promises P path)
    (hd : ∀ dep, DependsOn P path dep → PurePast P (path :: visiting) dep) : PurePast P visiting path := by
  intro p hp
  rcases hp.cases_last with rfl | ⟨dep, hdep, hp⟩
  · exact h
  · exact hd dep hdep p hp

theorem purePast_of_mem (h : path ∈ visiting) : PurePast P visiting path := fun _ hp => absurd h hp.1

theorem dependsOn_iff {names : List String} (h : P.promised path = some names) :
    DependsOn P path dep ↔ ∃ name ∈ names, P.dependencyPath path name = some dep := by
  unfold Packages.promised at h
  split at h
  · next json hjson =>
    split at h
    · cases h
      simp [DependsOn, hjson]
    · cases h
  · cases h

theorem Pure.promises (h : Pure P path) : Promises P path := h path .refl

section

variable [DecidableEq Path]

theorem Exact.update {b : Bool} (h : Exact P memo) (hb : b = true ↔ Pure P path) :
    Exact P (Function.update memo path (some b)) := by
  intro q c hq
  by_cases hqp : q = path
  · subst hqp
    rw [Function.update_self] at hq
    cases hq
    exact hb
  · rw [Function.update_of_ne hqp] at hq
    exact h q c hq

end

/-- The loop, when every visit answers right. -/
theorem checkAll_answers {visit : Path → Memo Path → Option (Purity × Memo Path)} {inner : List Path}
    (hvisit : ∀ dep memo r memo', Exact P memo → visit dep memo = some (r, memo') → Answers P inner dep r memo') :
    ∀ (names : List String) (provisional : Bool) (memo : Memo Path), Exact P memo →
      P.checkAll visit path names provisional memo = some (r, memo') →
      Exact P memo' ∧
        (r.pure = false → ∃ name ∈ names, ∀ dep, P.dependencyPath path name = some dep → ¬ Pure P dep) ∧
        (r.pure = true → (r.provisional = false → provisional = false) ∧
          ∀ name ∈ names, ∃ dep, P.dependencyPath path name = some dep ∧ PurePast P inner dep ∧
            (r.provisional = false → Pure P dep)) := by
  intro names
  induction names with
  | nil =>
    rintro provisional memo hm h
    cases h
    exact ⟨hm, nofun, fun _ => ⟨id, by simp⟩⟩
  | cons name names ih =>
    rintro provisional memo hm h
    unfold Packages.checkAll at h
    split at h
    · next hnone =>
      cases h
      refine ⟨hm, fun _ => ⟨name, mem_cons_self, fun dep hdep => ?_⟩, nofun⟩
      rw [hnone] at hdep
      cases hdep
    · next depPath hdep =>
      split at h
      · cases h
      · next r₁ memo₁ hv =>
        have ans := hvisit depPath memo r₁ memo₁ hm hv
        split at h
        · next hpure =>
          obtain ⟨hm', himpure, hpure'⟩ := ih (provisional || r₁.provisional) memo₁ ans.exact h
          refine ⟨hm', fun hr => ?_, fun hr => ?_⟩
          · obtain ⟨n, hn, himp⟩ := himpure hr
            exact ⟨n, mem_cons_of_mem _ hn, himp⟩
          · obtain ⟨hprov, hall⟩ := hpure' hr
            refine ⟨fun hp => ?_, forall_mem_cons.mpr ⟨⟨depPath, hdep, ans.past hpure, fun hp => ?_⟩, hall⟩⟩
            · exact (Bool.or_eq_false_iff.mp (hprov hp)).1
            · exact ans.final hpure (Bool.or_eq_false_iff.mp (hprov hp)).2
        · next himpure =>
          cases h
          refine ⟨ans.exact, fun _ => ⟨name, mem_cons_self, fun dep hd => ?_⟩, nofun⟩
          rw [hdep] at hd
          cases hd
          exact ans.impure (by simpa using himpure)

section

variable [DecidableEq Path]

/-- What a visit does. -/
theorem purePackageTree_cases {fuel : ℕ} (h : P.purePackageTree fuel visiting path memo = some (r, memo')) :
    (∃ cached, memo path = some cached ∧ r = ⟨cached, false⟩ ∧ memo' = memo) ∨
      (path ∈ visiting ∧ r = ⟨true, true⟩ ∧ memo' = memo) ∨
      (P.promised path = none ∧ r = ⟨false, false⟩ ∧ memo' = Function.update memo path (some false)) ∨
      ∃ n names memo₁, fuel = n + 1 ∧ P.promised path = some names ∧
        P.checkAll (P.purePackageTree n (path :: visiting)) path names false memo = some (r, memo₁) ∧
        memo' = if !r.pure || !r.provisional || visiting.isEmpty then Function.update memo₁ path (some r.pure) else memo₁ := by
  unfold Packages.purePackageTree at h
  split at h
  · next cached hcached =>
    cases h
    exact .inl ⟨cached, hcached, rfl, rfl⟩
  · split at h
    · next hmem =>
      cases h
      exact .inr (.inl ⟨hmem, rfl, rfl⟩)
    · split at h
      · next hnone =>
        cases h
        exact .inr (.inr (.inl ⟨hnone, rfl, rfl⟩))
      · next names hnames =>
        cases fuel with
        | zero => cases h
        | succ n =>
          obtain ⟨⟨r₁, memo₁⟩, hcheck, heq⟩ := Option.map_eq_some_iff.mp h
          cases heq
          exact .inr (.inr (.inr ⟨n, names, memo₁, rfl, hnames, hcheck, rfl⟩))

/-- A visit answers right, from an exact memo. -/
theorem purePackageTree_answers :
    ∀ (fuel : ℕ) (visiting : List Path) (path : Path) (memo : Memo Path) (r : Purity) (memo' : Memo Path), Exact P memo →
      P.purePackageTree fuel visiting path memo = some (r, memo') → Answers P visiting path r memo' := by
  intro fuel
  induction fuel using Nat.strong_induction_on with
  | _ fuel ih =>
    intro visiting path memo r memo' hm h
    rcases purePackageTree_cases h with
      ⟨cached, hcached, rfl, rfl⟩ | ⟨hmem, rfl, rfl⟩ | ⟨hnone, rfl, rfl⟩ | ⟨n, names, memo₁, rfl, hnames, hcheck, rfl⟩
    · have hb := hm path cached hcached
      refine ⟨hm, fun hr hp => ?_, fun hr _ => hb.mp hr, fun hr => (hb.mp hr).past⟩
      rw [hb.mpr hp] at hr
      cases hr
    · exact ⟨hm, nofun, nofun, fun _ => purePast_of_mem hmem⟩
    · have himpure : ¬ Pure P path := by
        intro hp
        obtain ⟨names, hnames, -⟩ := hp.promises
        rw [hnone] at hnames
        cases hnames
      exact ⟨hm.update (by simp [himpure]), fun _ => himpure, nofun, nofun⟩
    · obtain ⟨hm₁, himpure, hpure⟩ := checkAll_answers
        (fun dep memo r memo' => ih n (by omega) (path :: visiting) dep memo r memo') names false memo hm hcheck
      have promises (hr : r.pure = true) : Promises P path := by
        refine ⟨names, hnames, fun name hn => ?_⟩
        obtain ⟨dep, hdep, -⟩ := (hpure hr).2 name hn
        rw [hdep]
        nofun
      have dependencies (hr : r.pure = true) : ∀ dep, DependsOn P path dep →
          PurePast P (path :: visiting) dep ∧ (r.provisional = false → Pure P dep) := by
        intro dep hdep
        obtain ⟨name, hn, hname⟩ := (dependsOn_iff hnames).mp hdep
        obtain ⟨dep', hdep', hd⟩ := (hpure hr).2 name hn
        rw [hname] at hdep'
        cases hdep'
        exact hd
      have notPure (hr : r.pure = false) : ¬ Pure P path := by
        intro hp
        obtain ⟨name, hn, hdep⟩ := himpure hr
        obtain ⟨names', hnames', hres⟩ := hp.promises
        rw [hnames] at hnames'
        cases hnames'
        obtain ⟨dep, hname⟩ := Option.ne_none_iff_exists'.mp (hres name hn)
        exact hdep dep hname (hp.dependency ((dependsOn_iff hnames).mpr ⟨name, hn, hname⟩))
      have final (hr : r.pure = true) (hp : r.provisional = false) : Pure P path :=
        pure_of_dependencies (promises hr) fun dep hd => (dependencies hr dep hd).2 hp
      have past (hr : r.pure = true) : PurePast P visiting path :=
        purePast_of_dependencies (promises hr) fun dep hd => (dependencies hr dep hd).1
      refine ⟨?_, notPure, final, past⟩
      split
      · next hkeep =>
        refine hm₁.update ⟨fun hr => ?_, fun hp => ?_⟩
        · simp only [hr, Bool.not_true, Bool.false_or, Bool.or_eq_true, Bool.not_eq_true', List.isEmpty_iff] at hkeep
          rcases hkeep with hp | rfl
          · exact final hr hp
          · exact pure_of_purePast (past hr)
        · by_contra hr
          exact notPure (by simpa using hr) hp
      · exact hm₁

/-! ### Enough fuel -/

/-- The packages that a package depends on are among the finitely many. -/
def Covers (P : Packages Path) (S : Finset Path) : Prop := ∀ path ∈ S, ∀ dep, DependsOn P path dep → dep ∈ S

variable {S : Finset Path}

omit [DecidableEq Path] in
theorem checkAll_ne_none {visit : Path → Memo Path → Option (Purity × Memo Path)}
    (hvisit : ∀ dep ∈ S, ∀ memo, visit dep memo ≠ none) :
    ∀ (names : List String) (provisional : Bool) (memo : Memo Path),
      (∀ name ∈ names, ∀ dep, P.dependencyPath path name = some dep → dep ∈ S) →
      P.checkAll visit path names provisional memo ≠ none := by
  intro names
  induction names with
  | nil => exact fun _ _ _ => nofun
  | cons name names ih =>
    intro provisional memo hS
    unfold Packages.checkAll
    split
    · nofun
    · next dep hdep =>
      have hmem := hS name mem_cons_self dep hdep
      split
      · next hnone => exact absurd hnone (hvisit dep hmem memo)
      · split
        · exact ih _ _ fun n hn => hS n (mem_cons_of_mem _ hn)
        · nofun

theorem purePackageTree_ne_none (hS : Covers P S) :
    ∀ (fuel : ℕ) (visiting : List Path) (path : Path) (memo : Memo Path), path ∈ S →
      (S \ visiting.toFinset).card ≤ fuel → P.purePackageTree fuel visiting path memo ≠ none := by
  intro fuel
  induction fuel with
  | zero =>
    intro visiting path memo hp hfuel
    have hmem : path ∈ visiting := by
      have hempty := Finset.card_eq_zero.mp (Nat.le_zero.mp hfuel)
      by_contra hn
      exact (Finset.notMem_empty path) (hempty ▸ Finset.mem_sdiff.mpr ⟨hp, by simpa using hn⟩)
    unfold Packages.purePackageTree
    split
    · nofun
    · simp [hmem]
  | succ fuel ih =>
    intro visiting path memo hp hfuel
    unfold Packages.purePackageTree
    split
    · nofun
    split
    · nofun
    next hmem =>
      split
      · nofun
      · next names hnames =>
        have hlt : (S \ (path :: visiting).toFinset).card < (S \ visiting.toFinset).card := by
          refine Finset.card_lt_card ⟨Finset.sdiff_subset_sdiff (Finset.Subset.refl S) (by simp), fun hsub => ?_⟩
          have := hsub (Finset.mem_sdiff.mpr ⟨hp, by simpa using hmem⟩)
          simp at this
        rw [Ne, Option.map_eq_none_iff]
        refine checkAll_ne_none (S := S) (fun dep hd memo => ih _ _ _ hd (by omega)) names false memo fun name hn dep hdep => ?_
        exact hS path hp dep ((dependsOn_iff hnames).mpr ⟨name, hn, hdep⟩)

theorem purePackageTrees_run (hS : Covers P S) {fuel : ℕ} (hfuel : S.card ≤ fuel) :
    ∀ (roots : List Path) (memo : Memo Path), (∀ root ∈ roots, root ∈ S) → Exact P memo →
      ∃ answers memo', P.purePackageTrees fuel roots memo = some (answers, memo') ∧
        List.Forall₂ (fun root answer => answer = true ↔ Pure P root) roots answers ∧ Exact P memo' := by
  intro roots
  induction roots with
  | nil => exact fun memo _ hm => ⟨[], memo, rfl, .nil, hm⟩
  | cons root roots ih =>
    intro memo hroots hm
    obtain ⟨hroot, hroots⟩ := forall_mem_cons.mp hroots
    have hsome := purePackageTree_ne_none hS fuel [] root memo hroot (by simpa using hfuel)
    obtain ⟨⟨r, memo₁⟩, hr⟩ := Option.ne_none_iff_exists'.mp hsome
    have ans := purePackageTree_answers fuel [] root memo r memo₁ hm hr
    obtain ⟨answers, memo', hrest, hall, hm'⟩ := ih memo₁ hroots ans.exact
    refine ⟨r.pure :: answers, memo', by simp [Packages.purePackageTrees, hr, hrest], .cons ⟨fun hp => ?_, fun hp => ?_⟩ hall, hm'⟩
    · exact pure_of_purePast (ans.past hp)
    · by_contra hn
      exact ans.impure (by simpa using hn) hp

/-- Each answer is right, and so is every entry of the memo. -/
theorem purePackageTrees_exact (P : Packages Path) (roots : List Path)
    (hfin : ∀ root ∈ roots, {p | Relation.ReflTransGen (DependsOn P) root p}.Finite) :
    ∃ fuel, ∀ n ≥ fuel, ∃ answers memo, P.purePackageTrees n roots (fun _ => none) = some (answers, memo) ∧
      List.Forall₂ (fun root answer => answer = true ↔ Pure P root) roots answers ∧ Exact P memo := by
  have hall : {p | ∃ root ∈ roots, Relation.ReflTransGen (DependsOn P) root p}.Finite := by
    have := Set.Finite.biUnion (finite_toSet roots) hfin
    refine this.subset fun p ⟨root, hroot, hp⟩ => ?_
    exact Set.mem_biUnion (x := root) hroot hp
  have hS : Covers P hall.toFinset := by
    intro path hpath dep hdep
    rw [Set.Finite.mem_toFinset] at hpath ⊢
    obtain ⟨root, hroot, hp⟩ := hpath
    exact ⟨root, hroot, hp.tail hdep⟩
  refine ⟨hall.toFinset.card, fun n hn => purePackageTrees_run hS hn roots _ (fun root hroot => ?_) nofun⟩
  rw [Set.Finite.mem_toFinset]
  exact ⟨root, hroot, .refl⟩

/-- Two packages that depend on each other, the second on a third that promises nothing. -/
private def cyclic : Packages ℕ where
  read
    | 0 => some (.object [("sideEffects", .bool false), ("dependencies", .object [("b", .string "1")])])
    | 1 => some (.object [("sideEffects", .array []), ("dependencies", .object [("a", .string "1")]),
        ("peerDependencies", .object [("c", .string "1")])])
    | _ => some (.object [])
  dependencyPath _ name := if name = "a" then some 0 else if name = "b" then some 1 else some 2

theorem purePackageTrees_exact_cyclic :
    ∃ fuel, ∀ n ≥ fuel, ∃ answers memo, cyclic.purePackageTrees n [1, 0] (fun _ => none) = some (answers, memo) ∧
      List.Forall₂ (fun root answer => answer = true ↔ Pure cyclic root) [1, 0] answers ∧ Exact cyclic memo := by
  have hdep {a b : ℕ} (h : DependsOn cyclic a b) : b ≤ 2 := by
    obtain ⟨-, name, -, -, hname⟩ := h
    simp only [cyclic] at hname
    split at hname
    · cases hname
      omega
    · split at hname
      · cases hname
        omega
      · cases hname
        omega
  refine purePackageTrees_exact cyclic [1, 0] fun root hroot => (Set.finite_le_nat 2).subset fun p hp => ?_
  rcases hp.cases_tail with rfl | ⟨q, -, hq⟩
  · rcases mem_pair.mp hroot with rfl | rfl <;> simp
  · exact hdep hq

end

end PackagePurity
