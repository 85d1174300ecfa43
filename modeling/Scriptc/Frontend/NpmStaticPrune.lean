import Mathlib.Algebra.BigOperators.Group.Finset.Basic
import Mathlib.Algebra.Order.BigOperators.Group.Finset
import Scriptc.Frontend.PackagePurity

/-!
# Pruning of package re-exports

`planNpmStaticReexports` of `frontend/npm-static-prune.ts`, with `erasedTypeOnlyImport` and
`erasedTypeOnlyReexport` of `module-erasure.ts`: which source files an executable keeps, and
which `export * as name` statements of side-effect-free packages it drops.

How a specifier resolves, to which opted-in package a file belongs, and its nearest
`package.json` are given. The files a program object knows are those of `files` here; the
demand of a file outside is never recorded.
-/

namespace NpmStaticPrune

open PackagePurity List

structure ImportSpecifier where
  /-- `(propertyName ?? name).text`. -/
  imported : String
  isTypeOnly : Bool

inductive NamedImportBindings where
  | namespaceImport
  | namedImports (elements : List ImportSpecifier)

structure ImportClause where
  /-- The clause is an `import type`. -/
  typePhase : Bool
  /-- It binds the default export. -/
  hasName : Bool
  namedBindings : Option NamedImportBindings

inductive ExportClause where
  | namespaceExport (name : String)
  /-- Which of the specifiers are type-only. -/
  | namedExports (elements : List Bool)

/-- A statement; the specifier is there when it is a string literal. -/
inductive Statement where
  | importDeclaration (moduleSpecifier : Option String) (importClause : Option ImportClause)
  | exportDeclaration (moduleSpecifier : Option String) (isTypeOnly : Bool) (exportClause : Option ExportClause)
  | other

/-- What is called, as far as the walk asks. -/
inductive Callee where
  | importKeyword
  | identifier (text : String)
  | other

/-- A call, with the text of each argument that is a string literal. -/
structure CallExpression where
  expression : Callee
  arguments : List (Option String)

/-- What a program knows of its files. -/
structure Program (File Path : Type*) where
  /-- The active runtime target is of the Bun family. -/
  bun : Bool
  statements : File → List Statement
  /-- The calls of a file, in the order of the walk. -/
  calls : File → List CallExpression
  getSourceFile : String → Option File
  resolveEdge : File → String → Option File
  npmStaticPackageOfPath : File → Option String
  packageRootJsonPath : File → String → Option Path
  nearestPackageType : File → Option String
  packages : Packages Path

/-- The names asked of a file; `none` asks for the entire namespace. -/
abbrev Demand := Option (List String)

/-- What is demanded of each file, and the files that still wait. -/
structure State (File Path : Type*) where
  demanded : File → Option Demand
  queue : List File
  pureMemo : Memo Path

/-- The file gets the demand, and a place in the queue. -/
def State.extend {File Path : Type*} [DecidableEq File] (st : State File Path) (sf : File) (demand : Demand) : State File Path :=
  { st with demanded := Function.update st.demanded sf (some demand), queue := st.queue ++ [sf] }

/-- The statements that are dropped, with their files, and the files that stay. -/
structure Plan (File : Type*) where
  pruned : List (File × Statement)
  files : List File

variable {File Path : Type*}

namespace Program

variable (P : Program File Path)

def erasedTypeOnlyImport : Option ImportClause → Bool
  | none => false
  | some clause =>
    clause.typePhase ||
      (P.bun && !clause.hasName &&
        match clause.namedBindings with
        | some (.namedImports elements) => !elements.isEmpty && elements.all (·.isTypeOnly)
        | _ => false)

def erasedTypeOnlyReexport (isTypeOnly : Bool) (exportClause : Option ExportClause) : Bool :=
  isTypeOnly ||
    (P.bun &&
      match exportClause with
      | some (.namedExports elements) => !elements.isEmpty && elements.all id
      | _ => false)

/-- What an import asks of the file it resolves to. -/
def importRequests : Option ImportClause → List (Option String)
  | none => [none]
  | some clause =>
    match clause.namedBindings with
    | some .namespaceImport => [none]
    | some (.namedImports elements) =>
      if elements.all (·.isTypeOnly) then [none]
      else
        (if clause.hasName then [some "default"] else []) ++
          (elements.filter (!·.isTypeOnly)).map fun element => some element.imported
    | none => if clause.hasName then [some "default"] else []

/-- The literal that an `import` or `require` call loads. -/
def loads (call : CallExpression) : Option String :=
  match call.arguments with
  | [some spec] =>
    match call.expression with
    | .importKeyword => some spec
    | .identifier text => if text = "require" then some spec else none
    | .other => none
  | _ => none

/-- A file outside packages is asked for whole. -/
def asked (sf : File) (name : Option String) : Option String :=
  if P.npmStaticPackageOfPath sf = none then none else name

variable [DecidableEq File] [DecidableEq Path] (files : List File)

def request (st : State File Path) (sf : Option File) (name : Option String) : State File Path :=
  match sf with
  | none => st
  | some sf =>
    if sf ∉ files then st
    else
      match st.demanded sf, P.asked sf name with
      | some none, _ => st
      | none, name => st.extend sf (name.map ([·]))
      | some (some _), none => st.extend sf none
      | some (some names), some name => if name ∈ names then st else st.extend sf (some (names ++ [name]))

def requestAll (st : State File Path) (sf : Option File) (names : List (Option String)) : State File Path :=
  names.foldl (fun st name => P.request files st sf name) st

/-- Names are asked of the file, and this is not among them. -/
def unasked (demand : Option Demand) (name : String) : Bool :=
  match demand with
  | some (some names) => decide (name ∉ names)
  | _ => false

/-- `none` where the fuel of `purePackageTree` runs out. -/
def canPrune (fuel : ℕ) (st : State File Path) (sf : File) (exportClause : Option ExportClause) (dep : Option File) :
    Option (Bool × Memo Path) :=
  match dep, exportClause with
  | some dep, some (.namespaceExport name) =>
    match P.npmStaticPackageOfPath sf with
    | none => some (false, st.pureMemo)
    | some pkg =>
      if P.npmStaticPackageOfPath dep ≠ some pkg then some (false, st.pureMemo)
      else
        match P.packageRootJsonPath sf pkg with
        | none => some (false, st.pureMemo)
        | some pkgPath =>
          if P.nearestPackageType sf ≠ some "module" then some (false, st.pureMemo)
          else
            (P.packages.purePackageTree fuel [] pkgPath st.pureMemo).map fun (r, memo) =>
              (r.pure && unasked (st.demanded sf) name, memo)
  | _, _ => some (false, st.pureMemo)

def processStatement (fuel : ℕ) (sf : File) (st : State File Path) : Statement → Option (State File Path)
  | .importDeclaration (some spec) importClause =>
    if P.erasedTypeOnlyImport importClause then some st
    else some (P.requestAll files st (P.resolveEdge sf spec) (importRequests importClause))
  | .exportDeclaration (some spec) isTypeOnly exportClause =>
    if P.erasedTypeOnlyReexport isTypeOnly exportClause then some st
    else
      (P.canPrune fuel st sf exportClause (P.resolveEdge sf spec)).map fun (prune, memo) =>
        if prune then { st with pureMemo := memo }
        else P.request files { st with pureMemo := memo } (P.resolveEdge sf spec) none
  | _ => some st

def processStatements (fuel : ℕ) (sf : File) : List Statement → State File Path → Option (State File Path)
  | [], st => some st
  | stmt :: stmts, st => (P.processStatement files fuel sf st stmt).bind (processStatements fuel sf stmts)

def processCall (sf : File) (st : State File Path) (call : CallExpression) : State File Path :=
  match loads call with
  | some spec => P.request files st (P.resolveEdge sf spec) none
  | none => st

def processFile (fuel : ℕ) (sf : File) (st : State File Path) : Option (State File Path) :=
  (P.processStatements files fuel sf (P.statements sf) st).map fun st => (P.calls sf).foldl (P.processCall files sf) st

/-- The loop over the queue, for so many rounds at most. -/
def processQueue (fuel : ℕ) : ℕ → State File Path → Option (State File Path)
  | rounds, st =>
    match st.queue with
    | [] => some st
    | sf :: queue =>
      match rounds with
      | 0 => none
      | rounds + 1 => (P.processFile files fuel sf { st with queue := queue }).bind (processQueue fuel rounds)

/-- What is asked for before the loop. -/
def roots (entry : File) (extraRoots : List String) : List (Option File) :=
  (files.filter fun sf => P.npmStaticPackageOfPath sf = none).map some ++ some entry :: extraRoots.map P.getSourceFile

def initial (entry : File) (extraRoots : List String) : State File Path :=
  (P.roots files entry extraRoots).foldl (fun st sf => P.request files st sf none) ⟨fun _ => none, [], fun _ => none⟩

/-- The last pass, over the statements of the demanded files. `pruned` is a set in the source. -/
def prune (fuel : ℕ) (st : State File Path) : List (File × Statement) → Memo Path → Option (List (File × Statement))
  | [], _ => some []
  | (sf, .exportDeclaration (some spec) isTypeOnly exportClause) :: rest, memo =>
    (P.canPrune fuel { st with pureMemo := memo } sf exportClause (P.resolveEdge sf spec)).bind fun (prunable, memo) =>
      (prune fuel st rest memo).map fun pruned =>
        if prunable then (sf, .exportDeclaration (some spec) isTypeOnly exportClause) :: pruned else pruned
  | _ :: rest, memo => prune fuel st rest memo

def planNpmStaticReexports (fuel rounds : ℕ) (entry : File) (extraRoots : List String) :
    Option (State File Path × Plan File) :=
  (P.processQueue files fuel rounds (P.initial files entry extraRoots)).bind fun st =>
    let demanded := files.filter fun sf => st.demanded sf ≠ none
    (P.prune fuel st (demanded.flatMap fun sf => (P.statements sf).map (sf, ·)) st.pureMemo).map fun pruned =>
      (st, ⟨pruned, files.filter fun sf => decide (P.npmStaticPackageOfPath sf = none) || decide (st.demanded sf ≠ none)⟩)

end Program

/-! ### What a plan must satisfy -/

/-- The demand answers a request. -/
def Covers (demand : Option Demand) (name : Option String) : Prop :=
  demand = some none ∨ ∃ names n, demand = some (some names) ∧ n ∈ names ∧ name = some n

section

variable (P : Program File Path)

/-- An import, a `require` or a dynamic import of `sf` asks this of `dep`. -/
def Requests (sf dep : File) (name : Option String) : Prop :=
  (∃ spec clause, .importDeclaration (some spec) clause ∈ P.statements sf ∧ P.erasedTypeOnlyImport clause = false ∧
      P.resolveEdge sf spec = some dep ∧ name ∈ Program.importRequests clause) ∨
    (name = none ∧ ∃ call ∈ P.calls sf, ∃ spec, Program.loads call = some spec ∧ P.resolveEdge sf spec = some dep)

/-- A re-export of `sf`, not erased, from `dep`. -/
def Reexports (sf : File) (stmt : Statement) (clause : Option ExportClause) (dep : File) : Prop :=
  stmt ∈ P.statements sf ∧ ∃ spec isTypeOnly, stmt = .exportDeclaration (some spec) isTypeOnly clause ∧
    P.erasedTypeOnlyReexport isTypeOnly clause = false ∧ P.resolveEdge sf spec = some dep

/-- A namespace re-export within a package whose tree is pure. -/
def Prunable (sf : File) (clause : Option ExportClause) (dep : File) (name : String) : Prop :=
  clause = some (.namespaceExport name) ∧ P.nearestPackageType sf = some "module" ∧
    ∃ pkg path, P.npmStaticPackageOfPath sf = some pkg ∧ P.npmStaticPackageOfPath dep = some pkg ∧
      P.packageRootJsonPath sf pkg = some path ∧ Pure P.packages path

variable (files : List File) (entry : File) (extraRoots : List String)

/-- The file is asked for from the start. -/
def Root (sf : File) : Prop :=
  P.npmStaticPackageOfPath sf = none ∨ sf = entry ∨ ∃ path ∈ extraRoots, P.getSourceFile path = some sf

/-- Requests that hold the roots and what their files lead to. A prunable re-export leads on
when its name is asked for. -/
structure Closed (R : File → Option String → Prop) : Prop where
  whole : ∀ sf name, R sf none → R sf name
  root : ∀ sf ∈ files, Root P entry extraRoots sf → R sf none
  request : ∀ sf q, R sf q → ∀ dep ∈ files, ∀ name, Requests P sf dep name → R dep (P.asked dep name)
  reexport : ∀ sf q, R sf q → ∀ dep ∈ files, ∀ stmt clause, Reexports P sf stmt clause dep →
    (∀ name, Prunable P sf clause dep name → R sf (some name)) → R dep none

/-- An edge that stays in the program. -/
def Edge (pruned : List (File × Statement)) (sf dep : File) : Prop :=
  dep ∈ files ∧ ((∃ name, Requests P sf dep name) ∨ ∃ stmt clause, Reexports P sf stmt clause dep ∧ (sf, stmt) ∉ pruned)

/-- The edges of a statement are answered. -/
structure StatementSettled (demanded : File → Option Demand) (sf : File) (stmt : Statement) : Prop where
  imports : ∀ spec clause, stmt = .importDeclaration (some spec) clause → P.erasedTypeOnlyImport clause = false →
    ∀ dep ∈ files, P.resolveEdge sf spec = some dep → ∀ name ∈ Program.importRequests clause,
      Covers (demanded dep) (P.asked dep name)
  reexports : ∀ spec isTypeOnly clause, stmt = .exportDeclaration (some spec) isTypeOnly clause →
    P.erasedTypeOnlyReexport isTypeOnly clause = false → ∀ dep ∈ files, P.resolveEdge sf spec = some dep →
      (∀ name, Prunable P sf clause dep name → Covers (demanded sf) (some name)) → Covers (demanded dep) none

def CallSettled (demanded : File → Option Demand) (sf : File) (call : CallExpression) : Prop :=
  ∀ spec, Program.loads call = some spec → ∀ dep ∈ files, P.resolveEdge sf spec = some dep → Covers (demanded dep) none

def Settled (demanded : File → Option Demand) (sf : File) : Prop :=
  (∀ stmt ∈ P.statements sf, StatementSettled P files demanded sf stmt) ∧
    ∀ call ∈ P.calls sf, CallSettled P files demanded sf call

/-- Between two rounds, or in the round of the file `busy`. `names` are those that imports ask for. -/
structure Inv (names : Finset String) (busy : Option File) (st : State File Path) : Prop where
  inFiles : ∀ sf d, st.demanded sf = some d → sf ∈ files
  queued : ∀ sf ∈ st.queue, st.demanded sf ≠ none
  known : ∀ sf ns, st.demanded sf = some (some ns) → ns.Nodup ∧ ns ≠ [] ∧ ∀ n ∈ ns, n ∈ names
  justified : ∀ R, Closed P files entry extraRoots R → ∀ sf q, Covers (st.demanded sf) q → R sf q
  memo : Exact P.packages st.pureMemo
  settled : ∀ sf, st.demanded sf ≠ none → sf ∉ st.queue → some sf ≠ busy → Settled P files st.demanded sf

/-- The walks through the package trees come back. -/
def Enough [DecidableEq Path] (fuel : ℕ) : Prop :=
  ∀ sf ∈ files, ∀ pkg path, P.npmStaticPackageOfPath sf = some pkg → P.packageRootJsonPath sf pkg = some path →
    ∀ memo, P.packages.purePackageTree fuel [] path memo ≠ none

/-- The imports of the files ask for no other names. -/
def Names (names : Finset String) : Prop :=
  ∀ sf ∈ files, ∀ spec clause, .importDeclaration spec clause ∈ P.statements sf →
    ∀ n, some n ∈ Program.importRequests clause → n ∈ names

end

/-- The second state asks for more, and queues what it asks more of. -/
structure Later (st st' : State File Path) : Prop where
  covers : ∀ sf q, Covers (st.demanded sf) q → Covers (st'.demanded sf) q
  changed : ∀ sf, st'.demanded sf = st.demanded sf ∨ sf ∈ st'.queue
  queue : ∀ sf ∈ st.queue, sf ∈ st'.queue

/-- How one request extends a demand. -/
inductive Extends : Option Demand → Demand → Option String → Prop where
  | first (name : Option String) : Extends none (name.map ([·])) name
  | whole (names : List String) : Extends (some (some names)) none none
  | name {names : List String} {n : String} : n ∉ names → Extends (some (some names)) (some (names ++ [n])) (some n)

/-- How far a demand has grown, of a file that can be asked for `k` names. -/
def rank (k : ℕ) : Option Demand → ℕ
  | none => 0
  | some (some names) => names.length
  | some none => k + 1

/-- What is left to do: rounds queued, and growths to come. -/
def weight [DecidableEq File] (files : List File) (k : ℕ) (st : State File Path) : ℕ :=
  st.queue.length + ∑ sf ∈ files.toFinset, (k + 1 - rank k (st.demanded sf))

section

variable [DecidableEq File] {st : State File Path} {sf f : File} {demand : Demand}

@[simp] theorem extend_self : (st.extend sf demand).demanded sf = some demand := Function.update_self ..

theorem extend_of_ne (h : f ≠ sf) : (st.extend sf demand).demanded f = st.demanded f := Function.update_of_ne h _ _

@[simp] theorem mem_extend_queue : f ∈ (st.extend sf demand).queue ↔ f ∈ st.queue ∨ f = sf := by simp [State.extend]

end

section

variable {d : Option Demand} {d' : Demand} {name : Option String} {n : String} {names : Finset String}

@[simp] theorem covers_whole : Covers (some none) name := .inl rfl

@[simp] theorem not_covers_none : ¬ Covers none name := by simp [Covers]

variable {ns : List String}

@[simp] theorem covers_names : Covers (some (some ns)) name ↔ ∃ n ∈ ns, name = some n := by
  simp [Covers]

theorem covers_of_whole (h : Covers d none) : Covers d name := by
  rcases h with rfl | ⟨ns, n, -, -, hn⟩
  · exact covers_whole
  · cases hn

theorem unasked_iff (h : d ≠ none) : Program.unasked d n = true ↔ ¬ Covers d (some n) := by
  match d with
  | none => exact absurd rfl h
  | some none => simp [Program.unasked]
  | some (some ns) => simp [Program.unasked]

theorem Extends.covers (h : Extends d d' name) (hc : Covers d (some n)) : Covers (some d') (some n) := by
  cases h with
  | first => exact absurd hc not_covers_none
  | whole ns => exact covers_whole
  | name _ =>
    obtain ⟨m, hm, hn⟩ := covers_names.mp hc
    exact covers_names.mpr ⟨m, mem_append_left _ hm, hn⟩

theorem Extends.covers_self (h : Extends d d' name) : Covers (some d') name := by
  cases h with
  | first =>
    cases name with
    | none => exact covers_whole
    | some n => exact covers_names.mpr ⟨n, mem_singleton_self n, rfl⟩
  | whole ns => exact covers_whole
  | name _ => exact covers_names.mpr ⟨_, mem_append_right _ (mem_singleton_self _), rfl⟩

/-- What is covered now was before, or has been asked for. -/
theorem Extends.source (h : Extends d d' name) {q : Option String} (hq : Covers (some d') q) :
    Covers d q ∨ q = name ∨ name = none := by
  cases h with
  | first =>
    cases name with
    | none => exact .inr (.inr rfl)
    | some n =>
      obtain ⟨m, hm, rfl⟩ := covers_names.mp hq
      exact .inr (.inl (congrArg some (mem_singleton.mp hm)))
  | whole ns => exact .inr (.inr rfl)
  | name _ =>
    obtain ⟨m, hm, rfl⟩ := covers_names.mp hq
    rcases mem_append.mp hm with hm | hm
    · exact .inl (covers_names.mpr ⟨m, hm, rfl⟩)
    · exact .inr (.inl (congrArg some (mem_singleton.mp hm)))

theorem Extends.known (h : Extends d d' name) (hn : ∀ n, name = some n → n ∈ names)
    (hd : ∀ ns, d = some (some ns) → ns.Nodup ∧ ns ≠ [] ∧ ∀ n ∈ ns, n ∈ names) (hns : d' = some ns) :
    ns.Nodup ∧ ns ≠ [] ∧ ∀ n ∈ ns, n ∈ names := by
  cases h with
  | first =>
    cases name with
    | none => cases hns
    | some n =>
      cases hns
      simpa using hn n rfl
  | whole _ => cases hns
  | @name old n hmem =>
    cases hns
    obtain ⟨hnodup, -, hold⟩ := hd old rfl
    refine ⟨nodup_append.mpr ⟨hnodup, by simp, ?_⟩, by simp, ?_⟩
    · rintro a ha b hb rfl
      exact hmem (mem_singleton.mp hb ▸ ha)
    · exact forall_mem_append.mpr ⟨hold, by simpa using hn n rfl⟩

theorem length_le_card (h : ns.Nodup ∧ ns ≠ [] ∧ ∀ n ∈ ns, n ∈ names) : ns.length ≤ names.card := by
  rw [← toFinset_card_of_nodup h.1]
  exact Finset.card_le_card fun n hn => h.2.2 n (mem_toFinset.mp hn)

theorem Extends.rank_lt (h : Extends d d' name)
    (hd : ∀ ns, d = some (some ns) → ns.Nodup ∧ ns ≠ [] ∧ ∀ n ∈ ns, n ∈ names) :
    rank names.card d < rank names.card (some d') := by
  cases h with
  | first => cases name <;> simp [rank]
  | whole ns =>
    have := length_le_card (hd ns rfl)
    simp only [rank]
    omega
  | name _ => simp [rank]

end

end NpmStaticPrune

/-!
## One request of the pruning plan

What a request does to the demand and the queue, and that the invariant of the loop survives
it; and what `canPrune` answers while the cached purities are right.
-/

namespace NpmStaticPrune

open PackagePurity List

variable {File Path : Type*}

section

variable {P : Program File Path} {files : List File} {entry : File} {extraRoots : List String} {names : Finset String}
  {busy : Option File} {st st' : State File Path} {sf : File} {fuel : ℕ}

theorem Later.refl (st : State File Path) : Later st st := ⟨fun _ _ => id, fun _ => .inl rfl, fun _ => id⟩

theorem Later.trans {st'' : State File Path} (h : Later st st') (h' : Later st' st'') : Later st st'' where
  covers sf q hc := h'.covers sf q (h.covers sf q hc)
  changed sf := by
    rcases h'.changed sf with heq | hq
    · rcases h.changed sf with heq' | hq
      · exact .inl (heq.trans heq')
      · exact .inr (h'.queue sf hq)
    · exact .inr hq
  queue sf hq := h'.queue sf (h.queue sf hq)

theorem asked_none (sf : File) : P.asked sf none = none := ite_self _

theorem StatementSettled.later {stmt : Statement} (h : StatementSettled P files st.demanded sf stmt) (hl : Later st st')
    (hsame : st'.demanded sf = st.demanded sf) : StatementSettled P files st'.demanded sf stmt where
  imports spec clause hs he dep hd hr name hn := hl.covers dep _ (h.imports spec clause hs he dep hd hr name hn)
  reexports spec isTypeOnly clause hs he dep hd hr hp := by
    refine hl.covers dep _ (h.reexports spec isTypeOnly clause hs he dep hd hr fun name hname => ?_)
    rw [← hsame]
    exact hp name hname

theorem CallSettled.later {call : CallExpression} (h : CallSettled P files st.demanded sf call) (hl : Later st st') :
    CallSettled P files st'.demanded sf call :=
  fun spec hs dep hd hr => hl.covers dep _ (h spec hs dep hd hr)

theorem Settled.later (h : Settled P files st.demanded sf) (hl : Later st st') (hsame : st'.demanded sf = st.demanded sf) :
    Settled P files st'.demanded sf :=
  ⟨fun stmt hs => (h.1 stmt hs).later hl hsame, fun call hc => (h.2 call hc).later hl⟩

theorem covers_mono {d : Option Demand} {d' : Demand} {name q : Option String} (h : Extends d d' name) (hc : Covers d q) :
    Covers (some d') q := by
  cases q with
  | some n => exact h.covers hc
  | none =>
    cases h with
    | first => exact absurd hc not_covers_none
    | whole ns => exact covers_whole
    | name _ => simp at hc

/-- The busy file has been put back, or its edges are answered. -/
theorem Inv.idle (h : Inv P files entry extraRoots names (some sf) st) (hs : sf ∈ st.queue ∨ Settled P files st.demanded sf) :
    Inv P files entry extraRoots names none st :=
  ⟨h.inFiles, h.queued, h.known, h.justified, h.memo, fun f hd hq _ => by
    by_cases hf : f = sf
    · subst hf
      exact hs.resolve_left hq
    · exact h.settled f hd hq (by simpa using hf)⟩

theorem demanded_later (h : Later st st') (hinv : ∀ sf ∈ st'.queue, st'.demanded sf ≠ none) (hd : st.demanded sf ≠ none) :
    st'.demanded sf ≠ none := by
  rcases h.changed sf with heq | hq
  · rwa [heq]
  · exact hinv sf hq

section

variable [DecidableEq Path]

theorem canPrune_spec (clause : Option ExportClause) (target : Option File) (hfuel : Enough P files fuel)
    (hsf : sf ∈ files) (hm : Exact P.packages st.pureMemo) (hd : st.demanded sf ≠ none) :
    ∃ b memo, P.canPrune fuel st sf clause target = some (b, memo) ∧ Exact P.packages memo ∧
      (b = true ↔ ∃ dep name, target = some dep ∧ Prunable P sf clause dep name ∧ ¬ Covers (st.demanded sf) (some name)) := by
  unfold Program.canPrune
  split
  · next dep name =>
    have never (h : ¬ ∃ m, Prunable P sf (some (.namespaceExport name)) dep m) :
        ∃ b memo, some (false, st.pureMemo) = some (b, memo) ∧ Exact P.packages memo ∧ (b = true ↔ ∃ dep' m,
          some dep = some dep' ∧ Prunable P sf (some (.namespaceExport name)) dep' m ∧ ¬ Covers (st.demanded sf) (some m)) := by
      refine ⟨false, _, rfl, hm, by simp, ?_⟩
      rintro ⟨dep', m, hdep', hp, -⟩
      cases hdep'
      exact absurd ⟨m, hp⟩ h
    split
    · next hnone =>
      refine never ?_
      rintro ⟨m, -, -, pkg, path, hpkg, -⟩
      rw [hnone] at hpkg
      cases hpkg
    · next pkg hpkg =>
      split
      · next hne =>
        refine never ?_
        rintro ⟨m, -, -, pkg', path, hpkg', hdep', -⟩
        rw [hpkg] at hpkg'
        cases hpkg'
        exact hne hdep'
      · next hdep =>
        split
        · next hnone =>
          refine never ?_
          rintro ⟨m, -, -, pkg', path, hpkg', -, hpath, -⟩
          rw [hpkg] at hpkg'
          cases hpkg'
          rw [hnone] at hpath
          cases hpath
        · next path hpath =>
          split
          · next hne =>
            refine never ?_
            rintro ⟨m, -, htype, -⟩
            exact hne htype
          · next htype =>
            obtain ⟨⟨r, memo⟩, hr⟩ := Option.ne_none_iff_exists'.mp (hfuel sf hsf pkg path hpkg hpath st.pureMemo)
            have ans := purePackageTree_answers fuel [] path _ r memo hm hr
            have hpure : r.pure = true ↔ Pure P.packages path := by
              refine ⟨fun h => pure_of_purePast (ans.past h), fun h => ?_⟩
              by_contra hn
              exact ans.impure (by simpa using hn) h
            refine ⟨_, memo, by rw [hr]; rfl, ans.exact, ?_⟩
            rw [Bool.and_eq_true, hpure, unasked_iff hd]
            constructor
            · rintro ⟨hp, hn⟩
              exact ⟨dep, name, rfl, ⟨rfl, not_not.mp htype, pkg, path, hpkg, not_not.mp hdep, hpath, hp⟩, hn⟩
            · rintro ⟨dep', m, -, ⟨hclause, -, pkg', path', hpkg', -, hpath', hp⟩, hn⟩
              cases hclause
              rw [hpkg] at hpkg'
              cases hpkg'
              rw [hpath] at hpath'
              cases hpath'
              exact ⟨hp, hn⟩
  · next hno =>
    refine ⟨false, _, rfl, hm, by simp, ?_⟩
    rintro ⟨dep, name, rfl, ⟨rfl, -⟩, -⟩
    exact absurd rfl (hno dep name rfl)

end

section

variable [DecidableEq File]

theorem weight_extend {dep : File} {d' : Demand} (hdep : dep ∈ files)
    (h : rank names.card (st.demanded dep) < rank names.card (some d')) (hle : rank names.card (some d') ≤ names.card + 1) :
    weight files names.card (st.extend dep d') ≤ weight files names.card st := by
  have hlt : ∑ sf ∈ files.toFinset, (names.card + 1 - rank names.card ((st.extend dep d').demanded sf)) <
      ∑ sf ∈ files.toFinset, (names.card + 1 - rank names.card (st.demanded sf)) := by
    refine Finset.sum_lt_sum (fun sf _ => ?_) ⟨dep, mem_toFinset.mpr hdep, ?_⟩
    · by_cases hsf : sf = dep
      · subst hsf
        rw [extend_self]
        omega
      · rw [extend_of_ne hsf]
    · rw [extend_self]
      omega
  have hqueue : (st.extend dep d').queue.length = st.queue.length + 1 := by simp [State.extend]
  unfold weight
  omega

/-- What a step that only asks for what it must leaves. -/
structure Stepped (P : Program File Path) (files : List File) (entry : File) (extraRoots : List String)
    (names : Finset String) (busy : Option File) (st st' : State File Path) : Prop where
  inv : Inv P files entry extraRoots names busy st'
  later : Later st st'
  weight : weight files names.card st' ≤ weight files names.card st

theorem Stepped.refl (h : Inv P files entry extraRoots names busy st) : Stepped P files entry extraRoots names busy st st :=
  ⟨h, .refl st, le_rfl⟩

theorem Stepped.trans {st'' : State File Path} (h : Stepped P files entry extraRoots names busy st st')
    (h' : Stepped P files entry extraRoots names busy st' st'') : Stepped P files entry extraRoots names busy st st'' :=
  ⟨h'.inv, h.later.trans h'.later, h'.weight.trans h.weight⟩

/-- A request changes nothing, or extends one demand. -/
theorem request_cases (P : Program File Path) (files : List File) (st : State File Path) (target : Option File)
    (name : Option String) :
    (P.request files st target name = st ∧
        ∀ dep, target = some dep → dep ∈ files → Covers (st.demanded dep) (P.asked dep name)) ∨
      ∃ dep d', target = some dep ∧ dep ∈ files ∧ Extends (st.demanded dep) d' (P.asked dep name) ∧
        P.request files st target name = st.extend dep d' := by
  cases target with
  | none => exact .inl ⟨rfl, fun _ h => by cases h⟩
  | some dep =>
    unfold Program.request
    by_cases hmem : dep ∈ files
    · have same (hc : Covers (st.demanded dep) (P.asked dep name)) :
          ∀ dep', some dep = some dep' → dep' ∈ files → Covers (st.demanded dep') (P.asked dep' name) := by
        intro dep' h _
        cases h
        exact hc
      simp only [hmem, not_true_eq_false, if_false]
      split
      · next hd => exact .inl ⟨rfl, same (by rw [hd]; exact covers_whole)⟩
      · next hd => exact .inr ⟨dep, _, rfl, hmem, by rw [hd]; exact .first _, rfl⟩
      · next ns hd hq => exact .inr ⟨dep, _, rfl, hmem, by rw [hd, hq]; exact .whole ns, rfl⟩
      · next ns n hd hq =>
        by_cases hn : n ∈ ns
        · exact .inl ⟨if_pos hn, same (by rw [hd, hq]; exact covers_names.mpr ⟨n, hn, rfl⟩)⟩
        · exact .inr ⟨dep, _, rfl, hmem, by rw [hd, hq]; exact .name hn, if_neg hn⟩
    · refine .inl ⟨if_pos hmem, fun dep' h hd => ?_⟩
      cases h
      exact absurd hd hmem

theorem request_step (target : Option File) (name : Option String) (h : Inv P files entry extraRoots names busy st)
    (hjust : ∀ dep, target = some dep → dep ∈ files → ∀ R, Closed P files entry extraRoots R → R dep (P.asked dep name))
    (hname : ∀ n, name = some n → n ∈ names) :
    Stepped P files entry extraRoots names busy st (P.request files st target name) ∧
      ∀ dep, target = some dep → dep ∈ files → Covers ((P.request files st target name).demanded dep) (P.asked dep name) := by
  rcases request_cases P files st target name with ⟨heq, hcov⟩ | ⟨dep, d', rfl, hdep, hext, heq⟩
  · rw [heq]
    exact ⟨.refl h, hcov⟩
  rw [heq]
  have hold := h.known dep
  have hasked : ∀ n, P.asked dep name = some n → n ∈ names := by
    intro n hn
    unfold Program.asked at hn
    split at hn
    · cases hn
    · exact hname n hn
  have hnew : ∀ ns, d' = some ns → ns.Nodup ∧ ns ≠ [] ∧ ∀ n ∈ ns, n ∈ names := fun ns hns => hext.known hasked hold hns
  have hle : rank names.card (some d') ≤ names.card + 1 := by
    match d', hnew with
    | none, _ => exact le_rfl
    | some ns, hnew => exact (length_le_card (hnew ns rfl)).trans (Nat.le_succ _)
  have later : Later st (st.extend dep d') := by
    refine ⟨fun sf q hc => ?_, fun sf => ?_, fun sf hq => mem_extend_queue.mpr (.inl hq)⟩
    · by_cases hsf : sf = dep
      · subst hsf
        rw [extend_self]
        exact covers_mono hext hc
      · rwa [extend_of_ne hsf]
    · by_cases hsf : sf = dep
      · exact .inr (mem_extend_queue.mpr (.inr hsf))
      · exact .inl (extend_of_ne hsf)
  refine ⟨⟨⟨?_, ?_, ?_, ?_, h.memo, ?_⟩, later, weight_extend hdep (hext.rank_lt hold) hle⟩, ?_⟩
  · intro sf d hd
    by_cases hsf : sf = dep
    · exact hsf ▸ hdep
    · rw [extend_of_ne hsf] at hd
      exact h.inFiles sf d hd
  · intro sf hq
    by_cases hsf : sf = dep
    · simp [hsf]
    · rw [extend_of_ne hsf]
      exact h.queued sf ((mem_extend_queue.mp hq).resolve_right hsf)
  · intro sf ns hns
    by_cases hsf : sf = dep
    · subst hsf
      rw [extend_self] at hns
      exact hnew ns (Option.some.inj hns)
    · rw [extend_of_ne hsf] at hns
      exact h.known sf ns hns
  · intro R hR sf q hc
    by_cases hsf : sf = dep
    · subst hsf
      rw [extend_self] at hc
      rcases hext.source hc with hc | rfl | hw
      · exact h.justified R hR sf q hc
      · exact hjust sf rfl hdep R hR
      · have := hjust sf rfl hdep R hR
        rw [hw] at this
        exact hR.whole sf q this
    · rw [extend_of_ne hsf] at hc
      exact h.justified R hR sf q hc
  · intro sf hd hq hb
    have hsf : sf ≠ dep := fun h => hq (mem_extend_queue.mpr (.inr h))
    rw [extend_of_ne hsf] at hd
    exact (h.settled sf hd (fun hm => hq (mem_extend_queue.mpr (.inl hm))) hb).later later (extend_of_ne hsf)
  · intro dep' ht _
    cases ht
    rw [extend_self]
    exact hext.covers_self

theorem requestAll_step {target : Option File} :
    ∀ (asks : List (Option String)) (st : State File Path), Inv P files entry extraRoots names busy st →
      (∀ name ∈ asks, (∀ dep, target = some dep → dep ∈ files → ∀ R, Closed P files entry extraRoots R →
        R dep (P.asked dep name)) ∧ ∀ n, name = some n → n ∈ names) →
      Stepped P files entry extraRoots names busy st (P.requestAll files st target asks) ∧
        ∀ dep, target = some dep → dep ∈ files → ∀ name ∈ asks,
          Covers ((P.requestAll files st target asks).demanded dep) (P.asked dep name) := by
  intro asks
  induction asks with
  | nil => exact fun st h _ => ⟨.refl h, by simp⟩
  | cons name asks ih =>
    intro st h hall
    obtain ⟨⟨hjust, hname⟩, hall⟩ := forall_mem_cons.mp hall
    obtain ⟨hstep, hcov⟩ := request_step target name h hjust hname
    obtain ⟨hstep', hcov'⟩ := ih _ hstep.inv hall
    refine ⟨hstep.trans hstep', fun dep ht hd => forall_mem_cons.mpr ⟨?_, hcov' dep ht hd⟩⟩
    exact hstep'.later.covers dep _ (hcov dep ht hd)

end

end

end NpmStaticPrune
