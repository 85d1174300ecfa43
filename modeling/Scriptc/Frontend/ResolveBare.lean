import Scriptc.Frontend.ResolveFiles
import Scriptc.Lib.OrderedSearch

/-!
# The resolution of npm packages

`resolveBareModule` of `frontend/resolve.ts` with the two lookups under it. `loadTargetInPass` calls
itself for the fields of a nested package.json, so each of the three is given the number of such calls
it may nest, and answers `none` where that is not enough.
-/

namespace Scriptc

open List

namespace Resolve

/-- What a walk up the directories looks for. -/
inductive ResolutionPass
  | types | source | js
  deriving DecidableEq, Repr

/-- The flavors of `extensionsFor`. -/
inductive Flavor
  | plain | x | m | c
  deriving DecidableEq, Repr

def extensionsFor : ResolutionPass → Flavor → List String
  | .types, .m => [".mts", ".d.mts"]
  | .types, .c => [".cts", ".d.cts"]
  | .types, .x => [".tsx", ".ts", ".d.ts"]
  | .types, .plain => [".ts", ".tsx", ".d.ts"]
  | .source, .m => [".mts"]
  | .source, .c => [".cts"]
  | .source, .x => [".tsx", ".ts"]
  | .source, .plain => [".ts", ".tsx"]
  | .js, .m => [".mjs"]
  | .js, .c => [".cjs"]
  | .js, .x => [".jsx", ".js"]
  | .js, .plain => [".js", ".jsx"]

/-- `isTsSourceFileName`. -/
def isTsSourceFileName (path : Text) : Bool :=
  [".ts", ".tsx", ".mts", ".cts"].any (endsWith path) && !([".d.ts", ".d.mts", ".d.cts"].any (endsWith path))

/-- The names a pass admits as they stand. -/
def admits (pass : ResolutionPass) (path : Text) : Bool :=
  match pass with
  | .types => [".d.ts", ".d.mts", ".d.cts", ".ts", ".tsx", ".mts", ".cts"].any (endsWith path)
  | .source => isTsSourceFileName path
  | .js => [".js", ".jsx", ".mjs", ".cjs"].any (endsWith path)

/-- What a JavaScript name is substituted by; other names are not. -/
def substitutes (pass : ResolutionPass) (path : Text) : Option (List Text) :=
  let sub (ext : String) (flavor : Flavor) := (extensionsFor pass flavor).map (withExtension (stemOf path ext))
  if endsWith path ".mjs" then some (sub ".mjs" .m)
  else if endsWith path ".cjs" then some (sub ".cjs" .c)
  else if endsWith path ".js" then some (sub ".js" .plain)
  else if endsWith path ".jsx" then some (sub ".jsx" .x)
  else none

namespace FileSystem

variable (fs : FileSystem)

/-- The index files of a directory, for a pass. -/
def indexFile (pass : ResolutionPass) (dir : Text) : Option Text :=
  fs.firstFile ((extensionsFor pass .plain).map fun ext => join dir ("index".toList ++ ext.toList))

end FileSystem

/-! ### Calls that may not come back

The outer `none` is a call that was not done in time; the inner one is the `null` of the source. -/

variable {α β : Type}

/-- `x ?? y`. -/
def coalesce (x y : Option (Option β)) : Option (Option β) :=
  match x with
  | some none => y
  | r => r

/-- A loop that returns the first answer. -/
def firstLoaded (load : α → Option (Option β)) : List α → Option (Option β)
  | [] => some none
  | a :: as => coalesce (load a) (firstLoaded load as)

namespace FileSystem

variable (fs : FileSystem)

/-- `loadTargetInPass`. -/
def loadTargetInPass (pass : ResolutionPass) (runtimeOnly : Bool) : ℕ → Text → Text → Option (Option Text)
  | 0, _, _ => none
  | calls + 1, pkgDir, target =>
    let path := join pkgDir target
    if admits pass path && fs.isFile path then some (some path)
    else
      match substitutes pass path with
      | some candidates => some (fs.firstFile candidates)
      | none =>
        coalesce (some (fs.firstFile ((extensionsFor pass .plain).map (withExtension path))))
          (if fs.isDirectory path then
            coalesce (firstLoaded (loadTargetInPass pass runtimeOnly calls path) (fs.nestedFields runtimeOnly path))
              (some (fs.indexFile pass path))
          else some none)

/-- `loadPathInPass`. -/
def loadPathInPass (pass : ResolutionPass) (runtimeOnly : Bool) (calls : ℕ) (pkgDir rel : Text) :
    Option (Option Text) :=
  if rel ≠ ['.'] then fs.loadTargetInPass pass runtimeOnly calls pkgDir rel
  else if !fs.isDirectory pkgDir then some none
  else
    coalesce (firstLoaded (fs.loadTargetInPass pass runtimeOnly calls pkgDir) (fs.nestedFields runtimeOnly pkgDir))
      (some (fs.indexFile pass pkgDir))

end FileSystem

/-! ### Workspaces -/

/-- `workspacePatternsOf`. -/
def workspacePatternsOf (pkg : Option Json) : Option (List Text) :=
  let raw : List Json :=
    match pkg.bind (·.field? "workspaces") with
    | some (.arr patterns) => patterns
    | some (.obj entries) =>
      match (Json.obj entries).field? "packages" with
      | some (.arr patterns) => patterns
      | _ => []
    | _ => []
  let patterns := raw.filterMap fun
    | .str p => if p.head? = some '!' then none else some p
    | _ => none
  if patterns = [] then none else some patterns

namespace FileSystem

variable (fs : FileSystem)

/-- One segment of a workspace glob. -/
def expandSegment (dirs : List Text) (seg : Text) : List Text :=
  if seg = [] ∨ seg = ['.'] then dirs
  else
    dirs.flatMap fun dir =>
      if seg = ['*'] then
        (((fs.entries dir).filter fun e => e ≠ "node_modules".toList ∧ e.head? ≠ some '.').map (join dir)).filter
          fs.isDirectory
      else [join dir seg].filter fs.isDirectory

def expandWorkspacePattern (root pattern : Text) : List Text :=
  ((pattern.splitOn '/').foldl fs.expandSegment [root]).filter (· ≠ root)

/-- `workspaceMembersOf`, in the order in which the members are found: the first of a name counts. -/
def workspaceMembersOf (root : Text) (patterns : List Text) : List (Text × Text) :=
  (patterns.flatMap (fs.expandWorkspacePattern root)).filterMap fun dir =>
    ((fs.pkgJsonOf dir).bind (·.textField? "name")).map fun name => (name, dir)

/-- `workspaceMemberDirOf`: the nearest package.json that declares workspaces decides. -/
def workspaceMemberDirOf (fromDir packageName : Text) : Option Text :=
  match (dirsUp fromDir).findSome? fun dir => (workspacePatternsOf (fs.pkgJsonOf dir)).map fun ps => (dir, ps) with
  | none => none
  | some (dir, patterns) =>
    ((fs.workspaceMembersOf dir patterns).find? fun m => m.1 == packageName).map fun m => fs.realpathOr m.2

end FileSystem

/-! ### The opted-in package.json -/

mutual

/-- How deep a document nests. -/
def Json.depth : Json → ℕ
  | .arr items => Json.depthItems items + 1
  | .obj entries => Json.depthEntries entries + 1
  | _ => 0

def Json.depthItems : List Json → ℕ
  | [] => 0
  | item :: items => max item.depth (Json.depthItems items)

def Json.depthEntries : List (Text × Json) → ℕ
  | [] => 0
  | (_, value) :: entries => max value.depth (Json.depthEntries entries)

end

/-- What stands in an object for an entry, when a condition is hoisted. -/
def hoistEntry (condition : String) (entry : Text × Json) : List (Text × Json) :=
  if entry.1 ≠ condition.toList then [entry]
  else
    match entry.2 with
    | .str target => [("import".toList, .str target), ("require".toList, .str target)]
    | .obj inner => inner
    | _ => []

/-- `hoistCondition`: of two entries with one key the first stays. The source asks with `in`, which also sees the keys
of `Object.prototype` and drops an entry that is named like one; here it stays. -/
def hoistCondition (condition : String) (obj : List (Text × Json)) : List (Text × Json) :=
  if (lookup obj condition.toList).isNone then obj
  else (obj.flatMap (hoistEntry condition)).foldl (fun out e => if out.any (·.1 == e.1) then out else out ++ [e]) []

/-- `transform`. No step makes a document deeper, so its depth is enough for the number. -/
def transformExports : ℕ → Json → Json
  | 0, v => v
  | n + 1, .arr items => .arr (items.map (transformExports n))
  | n + 1, .obj entries =>
    let obj := entries.filter fun e => e.1 ≠ "types".toList ∧ e.1 ≠ "typings".toList
    let obj := hoistCondition "node" (hoistCondition "scriptc" obj)
    match lookup obj "import".toList, lookup obj "require".toList with
    | some _, some required =>
      -- both keys now hold one object, and the loop over the values comes to it twice
      .obj (obj.map fun e =>
        if e.1 = "import".toList ∨ e.1 = "require".toList then
          (e.1, transformExports n (transformExports n required))
        else (e.1, transformExports n e.2))
    | _, _ => .obj (obj.map fun e => (e.1, transformExports n e.2))
  | _ + 1, v => v

/-- The exports of a package.json after `npmStaticTransformPkgJson`. -/
def npmStaticExports (pkg : Json) : Option Json :=
  (pkg.field? "exports").map fun exported => transformExports exported.depth exported

/-! ### Bare specifiers -/

/-- What a bare specifier resolves to. -/
structure BareResolution where
  typesFile : Text
  packageName : Text
  version : Option Text
  workspaceDir : Option Text
  deriving DecidableEq, Repr

/-- What is set for a load: the packages opted in, the runtime conditions, what was acquired. -/
structure Session where
  cwd : Text
  npmStaticPackages : List Text
  activeRuntimeConditions : List Text
  acquiredResolution : Text → Text → Option BareResolution

inductive Mode
  | jsOnly | typesOnly | runtimeSource | runtimeJs
  deriving DecidableEq, Repr

/-- `packageNameOfSpecifier`. -/
def packageNameOfSpecifier (specifier : Text) : Text :=
  let parts := specifier.splitOn '/'
  if specifier.head? = some '@' then ['/'].intercalate (parts.take 2) else parts.headD []

/-- `mangleScopedName`. -/
def mangleScopedName (name : Text) : Text :=
  if name.head? = some '@' then
    name.tail.takeWhile (· ≠ '/') ++ if '/' ∈ name.tail then "__".toList ++ (name.tail.dropWhile (· ≠ '/')).tail else []
  else name

/-- `isNodeModulesPath`. -/
def isNodeModulesPath (path : Text) : Bool :=
  path.head? = some '/' && ((FileSystem.normalizeResolvedPath path).splitOn '/').contains "node_modules".toList

/-- `text.lastIndexOf(part)`. -/
def lastIndexOf (part text : Text) : Option ℕ :=
  (List.range (text.length + 1)).reverse.find? fun i => part.isPrefixOf (text.drop i)

/-- The names that `resolveBareModule` sets before its passes. -/
structure Request where
  dir : Text
  specifier : Text
  pkgName : Text
  rest : Text
  npmStatic : Bool
  conditions : List Text
  runtimeOnly : Bool

namespace Request

def subpath (q : Request) : Text := if q.rest = [] then ['.'] else "./".toList ++ q.rest

/-- The request for a specifier that a file imports. -/
def of (session : Session) (fromFile specifier : Text) (mode : Option Mode) : Request :=
  let pkgName := packageNameOfSpecifier specifier
  let after := specifier.drop pkgName.length
  let runtimeImport := mode == some .runtimeJs || mode == some .runtimeSource
  let npmStatic := mode == some .jsOnly ||
    (!runtimeImport && mode != some .typesOnly && session.npmStaticPackages.contains pkgName)
  { dir := dirname (resolve session.cwd fromFile)
    specifier
    pkgName
    rest := if after.head? = some '/' then after.tail else after
    npmStatic
    conditions :=
      if runtimeImport then session.activeRuntimeConditions
      else if npmStatic then "scriptc".toList :: session.activeRuntimeConditions
      else "types".toList :: session.activeRuntimeConditions
    runtimeOnly := runtimeImport || npmStatic }

end Request

namespace FileSystem

variable (fs : FileSystem) (q : Request)

/-- `packageAnswer`. -/
def packageAnswer (pkgDir fallbackName typesFile : Text) : BareResolution :=
  let pkg := fs.pkgJsonOf pkgDir
  let version : Option Text :=
    match pkg.bind (·.field? "version") with
    | some (.str v) => some v
    | _ => none
  { typesFile := fs.realpathOr typesFile
    packageName := if version.isSome then (pkg.bind (·.textField? "name")).getD fallbackName else fallbackName
    version
    workspaceDir := none }

/-- `withWorkspace`. -/
def withWorkspace (nmPkgDir : Text) (r : BareResolution) : BareResolution :=
  let realDir := fs.realpathOr nmPkgDir
  if !isNodeModulesPath r.typesFile && !isNodeModulesPath realDir then { r with workspaceDir := some realDir }
  else
    let member :=
      match lastIndexOf "/node_modules/".toList (normalizeResolvedPath nmPkgDir) with
      | some (i + 1) => fs.workspaceMemberDirOf (nmPkgDir.take (i + 1)) r.packageName
      | _ => none
    match member with
    | some dir => if isNodeModulesPath dir then r else { r with workspaceDir := some dir }
    | none => r

/-- The exports that decide for a package directory. -/
def exportsOf (nmPkgDir : Text) : Option Json :=
  (fs.pkgJsonOf nmPkgDir).bind fun pkg => if q.npmStatic then npmStaticExports pkg else pkg.field? "exports"

/-- The package.json that names the answer of a package without exports. -/
def answerDir (nmPkgDir : Text) : Text :=
  let subDir := join nmPkgDir q.rest
  if q.subpath ≠ ['.'] ∧ fs.isDirectory subDir ∧ (fs.pkgJsonOf subDir).isSome then subDir else nmPkgDir

/-- `inPackage`. -/
def inPackage (calls : ℕ) (pass : ResolutionPass) (nmPkgDir name : Text) : Option (Option BareResolution) :=
  match fs.exportsOf q nmPkgDir with
  | some exported =>
    (firstLoaded (fs.loadTargetInPass pass q.runtimeOnly calls nmPkgDir)
      (resolveExportCandidates exported q.subpath q.conditions)).map
        (Option.map fun file => fs.withWorkspace nmPkgDir (fs.packageAnswer nmPkgDir name file))
  | none =>
    (fs.loadPathInPass pass q.runtimeOnly calls nmPkgDir q.subpath).map
      (Option.map fun file => fs.withWorkspace nmPkgDir (fs.packageAnswer (fs.answerDir q nmPkgDir) name file))

/-- The specifier as a bare file under node_modules. -/
def bareFile (pass : ResolutionPass) (nm : Text) : Option Text :=
  fs.firstFile ((extensionsFor pass .plain).map fun ext => join nm (withExtension q.specifier ext))

/-- The mangled @types package. -/
def typesPkgName : Text := "@types/".toList ++ mangleScopedName q.pkgName

/-- One directory of `passOnce`. -/
def inDirectory (calls : ℕ) (pass : ResolutionPass) (dir : Text) : Option (Option BareResolution) :=
  let nm := join dir "node_modules".toList
  if fs.isDirectory nm then
    coalesce (fs.inPackage q calls pass (join nm q.pkgName) q.pkgName)
      (coalesce (some ((fs.bareFile q pass nm).map fun file => ⟨fs.realpathOr file, q.pkgName, none, none⟩))
        (if pass = .types ∧ !q.npmStatic then fs.inPackage q calls pass (join nm (typesPkgName q)) (typesPkgName q)
        else some none))
  else some none

/-- `passOnce`. -/
def passOnce (calls : ℕ) (pass : ResolutionPass) : Option (Option BareResolution) :=
  firstLoaded (fs.inDirectory q calls pass) (dirsUp q.dir)

/-- `resolveBareModule`, when no more calls of `loadTargetInPass` nest than the number. -/
def resolveBareModule (session : Session) (calls : ℕ) (fromFile specifier : Text) (mode : Option Mode) :
    Option (Option BareResolution) :=
  let q := Request.of session fromFile specifier mode
  match mode with
  | some .typesOnly => fs.passOnce q calls .types
  | some .runtimeSource => fs.passOnce q calls .source
  | some .runtimeJs | some .jsOnly => fs.passOnce q calls .js
  | none =>
    if q.npmStatic then coalesce (fs.passOnce q calls .source) (fs.passOnce q calls .js)
    else
      coalesce (some (session.acquiredResolution (resolve session.cwd fromFile) specifier))
        (coalesce (fs.passOnce q calls .types) (fs.passOnce q calls .js))

end FileSystem

/-!
## When the resolution of a package ends

A lookup of `loadTargetInPass` is an ordered search: the files it asks for, then the paths that the
fields of a nested package.json name, then the index. Nothing keeps a field from naming the directory
it was read in, and the search does not end when it comes to such a field, in that directory or a ring
of them, before anything that leads to a file.
-/

open OrderedSearch

variable {α β γ : Type} {f : α → Option (Option β)}

/-! ### Probes and calls -/

theorem firstOf_append (ps qs : List (Probe α β)) :
    firstOf f (ps ++ qs) = coalesce (firstOf f ps) (firstOf f qs) := by
  induction ps with
  | nil => rfl
  | cons p ps ih =>
    cases p with
    | found b => rfl
    | visit a =>
      rw [cons_append, firstOf, firstOf]
      rcases f a with _ | _ | b
      · rfl
      · exact ih
      · rfl

theorem firstOf_found (o : Option β) : firstOf f (o.toList.map .found) = some o := by cases o <;> rfl

theorem firstOf_visits (g : γ → α) (l : List γ) :
    firstOf f (l.map fun c => .visit (g c)) = firstLoaded (fun c => f (g c)) l := by
  induction l with
  | nil => rfl
  | cons c l ih =>
    rw [map_cons, firstOf, firstLoaded, ← ih]
    rcases f (g c) with _ | _ | b <;> rfl

namespace FileSystem

variable (fs : FileSystem) (runtimeOnly : Bool) (pass : ResolutionPass) (q : Request)

/-! ### Where the lookups look -/

/-- The paths that the fields of a package.json name. -/
def fieldProbes (dir : Text) : List (Probe (ResolutionPass × Text) Text) :=
  (fs.nestedFields runtimeOnly dir).map fun field => .visit (pass, join dir field)

/-- The probes of `loadTargetInPass`, for a pass and a path. -/
def probesAt (node : ResolutionPass × Text) : List (Probe (ResolutionPass × Text) Text) :=
  if admits node.1 node.2 && fs.isFile node.2 then [.found node.2]
  else
    match substitutes node.1 node.2 with
    | some candidates => (fs.firstFile candidates).toList.map .found
    | none =>
      (fs.firstFile ((extensionsFor node.1 .plain).map (withExtension node.2))).toList.map .found ++
        if fs.isDirectory node.2 then
          fs.fieldProbes runtimeOnly node.1 node.2 ++ (fs.indexFile node.1 node.2).toList.map .found
        else []

/-- Those of `loadPathInPass`. -/
def pathProbes (pkgDir rel : Text) : List (Probe (ResolutionPass × Text) Text) :=
  if rel ≠ ['.'] then [.visit (pass, join pkgDir rel)]
  else if !fs.isDirectory pkgDir then []
  else fs.fieldProbes runtimeOnly pass pkgDir ++ (fs.indexFile pass pkgDir).toList.map .found

/-- Those of `inPackage`. -/
def packageProbes (nmPkgDir : Text) : List (Probe (ResolutionPass × Text) Text) :=
  match fs.exportsOf q nmPkgDir with
  | some exported =>
    (resolveExportCandidates exported q.subpath q.conditions).map fun target => .visit (pass, join nmPkgDir target)
  | none => fs.pathProbes q.runtimeOnly pass nmPkgDir q.subpath

/-- Those of one directory of `passOnce`. -/
def directoryProbes (dir : Text) : List (Probe (ResolutionPass × Text) Text) :=
  let nm := join dir "node_modules".toList
  if fs.isDirectory nm then
    fs.packageProbes pass q (join nm q.pkgName) ++ ((fs.bareFile q pass nm).toList.map .found ++
      if pass = .types ∧ !q.npmStatic then fs.packageProbes pass q (join nm (typesPkgName q)) else [])
  else []

/-- Those of `passOnce`. -/
def passProbes : List (Probe (ResolutionPass × Text) Text) := (dirsUp q.dir).flatMap (fs.directoryProbes pass q)

/-- Those of `resolveBareModule`. -/
def moduleProbes (session : Session) (fromFile specifier : Text) (mode : Option Mode) :
    List (Probe (ResolutionPass × Text) Text) :=
  let q := Request.of session fromFile specifier mode
  match mode with
  | some .typesOnly => fs.passProbes .types q
  | some .runtimeSource => fs.passProbes .source q
  | some .runtimeJs | some .jsOnly => fs.passProbes .js q
  | none =>
    if q.npmStatic then fs.passProbes .source q ++ fs.passProbes .js q
    else
      (session.acquiredResolution (resolve session.cwd fromFile) specifier).toList.map (fun r => .found r.typesFile) ++
        (fs.passProbes .types q ++ fs.passProbes .js q)

/-! ### The lookups are searches -/

variable {fs runtimeOnly pass q} {calls : ℕ}

/-- **The lookup of a target** is the search of its path. -/
theorem loadTargetInPass_eq (pkgDir target : Text) :
    fs.loadTargetInPass pass runtimeOnly calls pkgDir target =
      search (fs.probesAt runtimeOnly) calls (pass, join pkgDir target) := by
  induction calls generalizing pkgDir target with
  | zero => rfl
  | succ calls ih =>
    rw [loadTargetInPass, search, probesAt]
    generalize join pkgDir target = path
    simp only
    by_cases hadm : (admits pass path && fs.isFile path) = true
    · rw [if_pos hadm, if_pos hadm]
      rfl
    · rw [if_neg hadm, if_neg hadm]
      cases substitutes pass path with
      | some candidates => exact (firstOf_found _).symm
      | none =>
        simp only
        split_ifs with hdir
        · rw [firstOf_append, firstOf_append, firstOf_found, firstOf_found, fieldProbes, firstOf_visits,
            funext (ih path)]
        · rw [firstOf_append, firstOf_found]
          rfl

theorem fields_eq (pkgDir : Text) : firstLoaded (fs.loadTargetInPass pass runtimeOnly calls pkgDir)
    (fs.nestedFields runtimeOnly pkgDir) =
      firstOf (search (fs.probesAt runtimeOnly) calls) (fs.fieldProbes runtimeOnly pass pkgDir) := by
  rw [fieldProbes, firstOf_visits, funext (loadTargetInPass_eq pkgDir)]

theorem loadPathInPass_eq (pkgDir rel : Text) : fs.loadPathInPass pass runtimeOnly calls pkgDir rel =
    firstOf (search (fs.probesAt runtimeOnly) calls) (fs.pathProbes runtimeOnly pass pkgDir rel) := by
  rw [loadPathInPass, pathProbes]
  split_ifs with hrel hdir
  · rw [loadTargetInPass_eq, firstOf]
    rcases search (fs.probesAt runtimeOnly) calls (pass, join pkgDir rel) with _ | _ | file <;> rfl
  · rfl
  · rw [firstOf_append, firstOf_found, fields_eq]

/-- Two calls that come back together, both with an answer or both without. -/
def Alike (x : Option (Option β)) (y : Option (Option γ)) : Prop := x.map Option.isSome = y.map Option.isSome

theorem Alike.isSome {x : Option (Option β)} {y : Option (Option γ)} (h : Alike x y) : x.isSome = y.isSome := by
  have := congrArg Option.isSome h
  rwa [Option.isSome_map, Option.isSome_map] at this

theorem alike_map (g : β → γ) (x : Option (Option β)) : Alike (x.map (Option.map g)) x := by
  rcases x with _ | _ | b <;> rfl

theorem Alike.coalesce {x x' : Option (Option β)} {y y' : Option (Option γ)} (h : Alike x y) (h' : Alike x' y') :
    Alike (coalesce x x') (coalesce y y') := by
  rcases x with _ | _ | b <;> rcases y with _ | _ | c <;> first | exact h' | exact rfl | cases h

theorem inPackage_alike (nmPkgDir name : Text) : Alike (fs.inPackage q calls pass nmPkgDir name)
    (firstOf (search (fs.probesAt q.runtimeOnly) calls) (fs.packageProbes pass q nmPkgDir)) := by
  rw [inPackage, packageProbes]
  cases fs.exportsOf q nmPkgDir with
  | some exported =>
    simp only
    rw [firstOf_visits, funext (loadTargetInPass_eq nmPkgDir)]
    exact alike_map _ _
  | none =>
    simp only
    rw [loadPathInPass_eq]
    exact alike_map _ _

theorem inDirectory_alike (dir : Text) : Alike (fs.inDirectory q calls pass dir)
    (firstOf (search (fs.probesAt q.runtimeOnly) calls) (fs.directoryProbes pass q dir)) := by
  rw [inDirectory, directoryProbes]
  split_ifs with hnm htypes
  · rw [firstOf_append, firstOf_append, firstOf_found]
    exact (inPackage_alike _ _).coalesce ((alike_map _ (some _)).coalesce (inPackage_alike _ _))
  · rw [firstOf_append, firstOf_append, firstOf_found]
    exact (inPackage_alike _ _).coalesce ((alike_map _ (some _)).coalesce rfl)
  · rfl

theorem passOnce_alike : Alike (fs.passOnce q calls pass)
    (firstOf (search (fs.probesAt q.runtimeOnly) calls) (fs.passProbes pass q)) := by
  rw [passOnce, passProbes]
  induction dirsUp q.dir with
  | nil => rfl
  | cons dir dirs ih =>
    rw [firstLoaded, flatMap_cons, firstOf_append]
    exact (inDirectory_alike dir).coalesce ih

theorem resolveBareModule_alike (session : Session) (fromFile specifier : Text) (mode : Option Mode) :
    Alike (fs.resolveBareModule session calls fromFile specifier mode)
      (firstOf (search (fs.probesAt (Request.of session fromFile specifier mode).runtimeOnly) calls)
        (fs.moduleProbes session fromFile specifier mode)) := by
  cases mode with
  | some mode => cases mode <;> exact passOnce_alike
  | none =>
    simp only [resolveBareModule, moduleProbes]
    split_ifs with hstatic
    · rw [firstOf_append]
      exact passOnce_alike.coalesce passOnce_alike
    · rw [firstOf_append, firstOf_append]
      refine Alike.coalesce ?_ (passOnce_alike.coalesce passOnce_alike)
      cases session.acquiredResolution (resolve session.cwd fromFile) specifier <;> exact rfl

/-! ### The end of the search -/

/-- A path that leads on is one of the directories. -/
theorem finite_steps (fs : FileSystem) (runtimeOnly : Bool) : {a | ∃ b, Step (fs.probesAt runtimeOnly) a b}.Finite := by
  refine (finite_toSet ([.types, .source, .js].flatMap fun pass : ResolutionPass =>
    fs.directories.map fun dir => (pass, dir))).subset ?_
  rintro ⟨pass, path⟩ ⟨b, before, after, hb, -⟩
  have hdir : fs.isDirectory path = true := by
    have hmem : .visit b ∈ fs.probesAt runtimeOnly (pass, path) := by rw [hb]; simp
    rw [probesAt] at hmem
    split_ifs at hmem with hadm hd
    · simp at hmem
    · exact hd
    · split at hmem <;> simp at hmem
  have hdir : path ∈ fs.directories := by simpa [isDirectory] using hdir
  simp only [Set.mem_ofPred_eq, mem_flatMap, mem_map]
  exact ⟨pass, by cases pass <;> simp, path, hdir, rfl⟩

theorem resolveBareModule_isSome (session : Session) (fromFile specifier : Text) (mode : Option Mode) :
    (fs.resolveBareModule session calls fromFile specifier mode).isSome =
      (firstOf (search (fs.probesAt (Request.of session fromFile specifier mode).runtimeOnly) calls)
        (fs.moduleProbes session fromFile specifier mode)).isSome :=
  (resolveBareModule_alike session fromFile specifier mode).isSome

/-- **When the resolution of a package ends**: when no path whose turn comes leads, from field to field
whose turn comes, to a directory that leads back to itself. A turn comes when nothing before it leads
to a file. -/
theorem resolveBareModule_ends_iff (fs : FileSystem) (session : Session) (fromFile specifier : Text)
    (mode : Option Mode) :
    (∃ calls, (fs.resolveBareModule session calls fromFile specifier mode).isSome) ↔
      ¬ Trapped (fs.probesAt (Request.of session fromFile specifier mode).runtimeOnly)
        (fs.moduleProbes session fromFile specifier mode) := by
  rw [← ends_iff (fs.finite_steps _)]
  simp only [resolveBareModule_isSome]

end FileSystem

/-! ### A field that names its own directory -/

/-- A package whose `main` is ".". -/
def dotMain : FileSystem where
  files path := path == "/w/node_modules/p/package.json".toList
  directories := ["/".toList, "/w".toList, "/w/node_modules".toList, "/w/node_modules/p".toList]
  document path :=
    if path = "/w/node_modules/p/package.json".toList then some (.obj [("main".toList, .str ".".toList)]) else none
  realpath := some
  entries _ := []

/-- A load for Node, with nothing opted in and nothing acquired. -/
def nodeSession : Session where
  cwd := "/w".toList
  npmStaticPackages := []
  activeRuntimeConditions := ["node".toList, "import".toList, "default".toList]
  acquiredResolution _ _ := none

/-- The import of such a package does not end: the lookup of "." comes back to the same directory. -/
theorem not_resolveBareModule_ends : ¬ ∀ (fs : FileSystem) (session : Session) (fromFile specifier : Text)
    (mode : Option Mode), ∃ calls, (fs.resolveBareModule session calls fromFile specifier mode).isSome := by
  intro h
  obtain ⟨calls, hcalls⟩ := h dotMain nodeSession "/w/a.ts".toList "p".toList none
  rw [FileSystem.resolveBareModule_isSome] at hcalls
  refine (ends_iff (dotMain.finite_steps _)).mp ⟨calls, hcalls⟩ ?_
  refine ⟨(.types, "/w/node_modules/p".toList), turn_of_head ?_, (.types, "/w/node_modules/p".toList), .refl,
    .single (turn_of_head (by decide +kernel))⟩
  have hq : (Request.of nodeSession "/w/a.ts".toList "p".toList none).dir = "/w".toList := by decide +kernel
  have hstatic : (Request.of nodeSession "/w/a.ts".toList "p".toList none).npmStatic = false := by decide +kernel
  simp only [FileSystem.moduleProbes, hstatic, Bool.false_eq_true, if_false]
  rw [FileSystem.passProbes, hq, dirsUp, if_neg (by decide), flatMap_cons]
  obtain ⟨ps, hps⟩ := List.head?_eq_some_iff.mp (show (dotMain.directoryProbes .types
    (Request.of nodeSession "/w/a.ts".toList "p".toList none) "/w".toList).head? =
      some (.visit (.types, "/w/node_modules/p".toList)) by decide +kernel)
  rw [hps]
  rfl

end Resolve

end Scriptc
