import Mathlib.Data.List.Nodup
import Scriptc.Frontend.ResolveFiles

/-!
# The paths of the tsconfig

The `paths` table is looked up twice in `frontend/resolve.ts`: by `resolveViaProjectPaths` for the
program, and by `resolveTsPathsMapping` for the modules that are embedded. The two agree where they try
paths that answer alike and the answer is no declaration whose JavaScript the program takes instead. They
differ over an exact key: the program drops a star in its targets, and does not prefer it when it is a
pattern itself.
-/

namespace Scriptc

open List Option

namespace Resolve

/-- The `paths` of the tsconfig, with absolute targets: a `Record` for the program, a `Map` of the same
keys for the embedder. -/
structure PathsTable where
  entries : List (Text × List Text)
  nodup : (entries.map Prod.fst).Nodup

/-! ### The files a target leads to -/

/-- `TS_FIRST`. -/
def tsFirst : List String := [".ts", ".tsx", ".d.ts", ".js", ".jsx"]

/-- `TSX_FIRST`. -/
def tsxFirst : List String := [".tsx", ".ts", ".d.ts", ".jsx", ".js"]

def substitutionCandidates (base : Text) : List Text :=
  if endsWith base ".ts" ∨ endsWith base ".js" then tsFirst.map (withExtension (stemOf base ".ts"))
  else if endsWith base ".tsx" ∨ endsWith base ".jsx" then tsxFirst.map (withExtension (stemOf base ".tsx"))
  else if endsWith base ".mts" ∨ endsWith base ".mjs" then
    [".mts", ".d.mts", ".mjs"].map (withExtension (stemOf base ".mjs"))
  else if endsWith base ".cts" ∨ endsWith base ".cjs" then
    [".cts", ".d.cts", ".cjs"].map (withExtension (stemOf base ".cjs"))
  else if endsWith base ".json" then [withExtension (stemOf base ".json") ".d.json.ts", base]
  else []

namespace FileSystem

variable (fs : FileSystem)

def loadAsFile (base : Text) : Option Text :=
  fs.firstFile (substitutionCandidates base ++ tsFirst.map (withExtension base))

def loadAsDirectory (base : Text) : Option Text :=
  if !fs.isDirectory base then none
  else
    ((fs.nestedFields false base).findSome? fun field =>
      (fs.loadAsFile (join base field)).or (fs.firstFile [join base field])).or
        (fs.firstFile (tsFirst.map fun ext => join base ("index".toList ++ ext.toList)))

/-- `answerOf`. -/
def answerOf (target : Text) : Option Text :=
  (fs.loadAsFile target).or ((fs.loadAsDirectory target).or (fs.firstFile [target]))

/-- `nearestPkgDir`. -/
def nearestPkgDir (dir : Text) : Option Text := (dirsUp dir).find? fun d => (fs.pkgJsonOf d).any Json.truthy

def nearestPkgJsonPath (cwd fromFile : Text) : Option Text :=
  (fs.nearestPkgDir (dirname (resolve cwd fromFile))).map fun dir => join dir "package.json".toList

/-- `projectDtsRuntimeSibling`; the realm is the package.json of the entry. -/
def projectDtsRuntimeSibling (cwd : Text) (realm : Option Text) (path : Text) : Option Text :=
  if includes path "/node_modules/" || includes path "\\node_modules\\" then none
  else if !endsWith path ".d.ts" then none
  else if realm = none ∨ fs.nearestPkgJsonPath cwd path ≠ realm then none
  else fs.firstFile [withExtension (stemOf path ".d.ts") ".js"]

end FileSystem

/-! ### The lookup of the program -/

/-- A key that matches, with its targets and the parts around its star. -/
structure PathsMatch where
  key : Text
  targets : List Text
  parts : Text × Text

/-- The loop over the entries, which an exact key ends. -/
def projectMatch (specifier : Text) : List (Text × List Text) → Option PathsMatch → Option PathsMatch
  | [], found => found
  | (key, targets) :: entries, found =>
    match splitStar key with
    | none => if key = specifier then some ⟨key, targets, (key, [])⟩ else projectMatch specifier entries found
    | some parts =>
      if matchesParts specifier parts &&
          found.all fun m => m.key.contains '*' && m.parts.1.length < parts.1.length then
        projectMatch specifier entries (some ⟨key, targets, parts⟩)
      else projectMatch specifier entries found

/-- The paths that are tried, in order. -/
def projectCandidates (table : PathsTable) (specifier : Text) : List Text :=
  match projectMatch specifier table.entries none with
  | none => []
  | some m =>
    let wildcard := if '*' ∈ m.key then wildcardOf specifier m.parts else []
    m.targets.map fun target => if '*' ∈ target then fillStars target wildcard else target

/-- `resolveViaProjectPaths`. -/
def FileSystem.resolveViaProjectPaths (fs : FileSystem) (cwd : Text) (realm : Option Text) (table : PathsTable)
    (specifier : Text) : Option Text :=
  ((projectCandidates table specifier).findSome? fs.answerOf).map fun answer =>
    (fs.projectDtsRuntimeSibling cwd realm answer).getD answer

/-! ### The lookup of the embedder -/

/-- A turn of the loop over the entries. -/
def mappingTurn (specifier : Text) (best : Option PathsMatch) (entry : Text × List Text) : Option PathsMatch :=
  match splitStar entry.1 with
  | none => best
  | some parts =>
    if matchesParts specifier parts && best.all fun m => m.parts.1.length < parts.1.length then
      some ⟨entry.1, entry.2, parts⟩
    else best

/-- The paths that are tried, in order. -/
def mappingCandidates (table : PathsTable) (specifier : Text) : List Text :=
  match table.entries.find? fun e => e.1 == specifier with
  | some e => e.2
  | none =>
    match table.entries.foldl (mappingTurn specifier) none with
    | none => []
    | some best => best.targets.map fun pattern => fillStars pattern (wildcardOf specifier best.parts)

def FileSystem.resolveTsPathsMapping (fs : FileSystem) (table : PathsTable) (specifier : Text) : Option Text :=
  (mappingCandidates table specifier).findSome? fs.answerOf

/-- The specifiers the embedder does not look up. -/
def embedSkips (specifier : Text) : Bool := "node:".toList.isPrefixOf specifier || specifier.head? = some '#'

def FileSystem.resolveEmbedPathAlias (fs : FileSystem) (table : PathsTable) (specifier : Text) : Option Text :=
  if embedSkips specifier then none else fs.resolveTsPathsMapping table specifier

/-! ### One entry for both -/

variable {table : PathsTable} {specifier : Text}

theorem fillStars_of_not_mem {target : Text} (h : '*' ∉ target) (w : Text) : fillStars target w = target := by
  have hsplit : target.splitOn '*' = [target] := by
    refine splitOnP_eq_singleton fun c hc => ?_
    simpa using fun hs : c = '*' => h (hs ▸ hc)
  rw [fillStars, hsplit, intercalate_singleton]

variable {entries : List (Text × List Text)}

/-- An exact key decides, wherever it stands. -/
theorem projectMatch_exact {e : Text × List Text} (hs : '*' ∉ specifier)
    (he : entries.find? (fun e => e.1 == specifier) = some e) (found : Option PathsMatch) :
    projectMatch specifier entries found = some ⟨specifier, e.2, (specifier, [])⟩ := by
  induction entries generalizing found with
  | nil => cases he
  | cons entry entries ih =>
    obtain ⟨key, targets⟩ := entry
    by_cases hk : key = specifier
    · subst hk
      rw [List.find?_cons_of_pos (by simp)] at he
      obtain rfl := some.inj he
      simp [projectMatch, splitStar_of_not_mem hs]
    · rw [find?_cons_of_neg (by simpa using hk)] at he
      rw [projectMatch]
      split
      · rw [if_neg hk]
        exact ih he found
      · split_ifs
        · exact ih he _
        · exact ih he found

/-- Without an exact key, unless it is a pattern, the two loops are one. -/
theorem projectMatch_pattern {found : Option PathsMatch}
    (he : ∀ e ∈ entries, splitStar e.1 = none → e.1 ≠ specifier) (hf : ∀ m ∈ found, '*' ∈ m.key) :
    projectMatch specifier entries found = entries.foldl (mappingTurn specifier) found ∧
      ∀ m ∈ projectMatch specifier entries found, '*' ∈ m.key := by
  induction entries generalizing found with
  | nil => exact ⟨rfl, hf⟩
  | cons entry entries ih =>
    obtain ⟨key, targets⟩ := entry
    have hall : ∀ parts : Text × Text, (found.all fun m => m.key.contains '*' && m.parts.1.length < parts.1.length) =
        found.all fun m => m.parts.1.length < parts.1.length := by
      intro parts
      cases found with
      | none => rfl
      | some m => simp [hf m rfl]
    have hrest : ∀ e ∈ entries, splitStar e.1 = none → e.1 ≠ specifier := fun e hmem => he e (mem_cons_of_mem _ hmem)
    rw [projectMatch, foldl_cons, mappingTurn]
    cases hp : splitStar key with
    | none =>
      simp only [if_neg (he (key, targets) mem_cons_self hp)]
      exact ih hrest hf
    | some parts =>
      simp only [hall]
      split_ifs
      · exact ih hrest fun m hm => by
          obtain rfl := some.inj hm
          exact mem_of_splitStar hp
      · exact ih hrest hf

/-- A turn of the embedder's loop is one of the loop over exports. -/
theorem foldl_mappingTurn_map (specifier : Text) (entries : List (Text × List Text)) (best : Option PathsMatch) :
    (entries.foldl (mappingTurn specifier) best).map (fun m => PatternMatch.mk m.key m.parts) =
      (entries.map Prod.fst).foldl (betterPattern specifier) (best.map fun m => ⟨m.key, m.parts⟩) := by
  induction entries generalizing best with
  | nil => rfl
  | cons entry entries ih =>
    rw [foldl_cons, ih, map_cons, foldl_cons, mappingTurn, betterPattern]
    congr 1
    cases splitStar entry.1 with
    | none => rfl
    | some parts =>
      simp only [Option.all_map]
      split_ifs <;> rfl

theorem mem_of_foldl_mappingTurn {best : Option PathsMatch} {m : PathsMatch}
    (h : entries.foldl (mappingTurn specifier) best = some m) : (m.key, m.targets) ∈ entries ∨ best = some m := by
  induction entries generalizing best with
  | nil => exact .inr h
  | cons entry entries ih =>
    rcases ih h with hmem | hturn
    · exact .inl (mem_cons_of_mem _ hmem)
    · rw [mappingTurn] at hturn
      split at hturn
      · exact .inr hturn
      · split_ifs at hturn
        · cases hturn
          exact .inl mem_cons_self
        · exact .inr hturn

namespace FileSystem

variable (fs : FileSystem) (cwd : Text) (realm : Option Text)

/-- Up to the target that answers, no target answers differently without its stars. -/
def AlikeWithoutStars : List Text → Prop
  | [] => True
  | target :: targets =>
    fs.answerOf (fillStars target []) = fs.answerOf target ∧ (fs.answerOf target = none → AlikeWithoutStars targets)

/-- What an exact entry must be: the first pattern with the longest prefix if it is a pattern, and else
without a star that counts. -/
def PlainEntry (table : PathsTable) (specifier : Text) : Prop :=
  ∀ e ∈ table.entries, e.1 = specifier →
    if '*' ∈ specifier then First specifier (table.entries.map Prod.fst) specifier else fs.AlikeWithoutStars e.2

theorem findSome?_fill {targets : List Text} (h : fs.AlikeWithoutStars targets) :
    (targets.map fun target => if '*' ∈ target then fillStars target [] else target).findSome? fs.answerOf =
      targets.findSome? fs.answerOf := by
  induction targets with
  | nil => rfl
  | cons target targets ih =>
    have hfill : (if '*' ∈ target then fillStars target [] else target) = fillStars target [] := by
      split_ifs with hs
      · rfl
      · exact (fillStars_of_not_mem hs _).symm
    rw [map_cons, findSome?_cons, findSome?_cons, hfill, h.1]
    cases ha : fs.answerOf target with
    | some answer => rfl
    | none => exact ih (h.2 ha)

variable {fs} in
/-- **Both lists of paths** lead to one file. -/
theorem findSome?_candidates (h : fs.PlainEntry table specifier) :
    (projectCandidates table specifier).findSome? fs.answerOf = (mappingCandidates table specifier).findSome? fs.answerOf := by
  have hfill : ∀ (m : PathsMatch) (w : Text), m.targets.map (fun t => if '*' ∈ t then fillStars t w else t) =
      m.targets.map fun t => fillStars t w := by
    refine fun m w => map_congr_left fun t _ => ?_
    split_ifs with ht
    · rfl
    · exact (fillStars_of_not_mem ht _).symm
  rw [projectCandidates, mappingCandidates]
  cases he : table.entries.find? fun e => e.1 == specifier with
  | some e =>
    have hmem := mem_of_find?_eq_some he
    have hkey : e.1 = specifier := by simpa using find?_some he
    have hplain := h e hmem hkey
    by_cases hs : '*' ∈ specifier
    · -- the key is a pattern, and its star stands for a star
      rw [if_pos hs] at hplain
      obtain ⟨parts, hparts, hbest⟩ := bestPattern_of_first hplain
      obtain ⟨hm, -⟩ := @projectMatch_pattern specifier table.entries none
        (fun e' _ hnone hsame => by
          rw [hsame, hparts] at hnone
          cases hnone) (by simp)
      have hmap := foldl_mappingTurn_map specifier table.entries none
      rw [map_none, ← bestPattern, hbest] at hmap
      obtain ⟨m, hfold, heq⟩ := map_eq_some_iff.mp hmap
      obtain ⟨hmk, hmp⟩ := PatternMatch.mk.inj heq
      have htargets : m.targets = e.2 := by
        rcases mem_of_foldl_mappingTurn hfold with hin | hno
        · have := inj_on_of_nodup_map table.nodup hin hmem (by rw [hmk, hkey])
          rw [← this]
        · cases hno
      rw [hm, hfold]
      simp only
      rw [if_pos (hmk ▸ hs), hfill, hmp, wildcardOf_self hparts, htargets]
      simp [fillStars_self]
    · rw [if_neg hs] at hplain
      rw [projectMatch_exact hs he]
      simp only [hs, if_false]
      exact fs.findSome?_fill hplain
  | none =>
    have hne : ∀ e ∈ table.entries, splitStar e.1 = none → e.1 ≠ specifier := by
      intro e hmem _
      simpa using find?_eq_none.mp he e hmem
    obtain ⟨hm, hstar⟩ := @projectMatch_pattern specifier table.entries none hne (by simp)
    rw [hm] at hstar ⊢
    cases hb : table.entries.foldl (mappingTurn specifier) none with
    | none => rfl
    | some m =>
      simp only
      rw [if_pos (hstar m hb), hfill]

/-! ### When the answers are one file -/

/-- A runtime sibling is another file. -/
theorem runtimeSibling_ne {path sibling : Text} (h : fs.projectDtsRuntimeSibling cwd realm path = some sibling) :
    sibling ≠ path := by
  rw [projectDtsRuntimeSibling] at h
  split_ifs at h with hn hd hr
  have hlen : 5 ≤ path.length := by
    have hsuf : ".d.ts".toList <:+ path := isSuffixOf_iff_suffix.mp (by simpa [endsWith] using hd)
    exact hsuf.length_le
  have hs := mem_of_find?_eq_some h
  rintro rfl
  have := congrArg List.length (mem_singleton.mp hs)
  simp [withExtension, stemOf] at this
  omega

/-- Where the two try the same paths, the answers are one file when it has no runtime sibling. -/
theorem agree_of_candidates {cands : List Text} :
    ((cands.findSome? fs.answerOf).map fun answer => (fs.projectDtsRuntimeSibling cwd realm answer).getD answer) =
        cands.findSome? fs.answerOf ↔
      ∀ answer, cands.findSome? fs.answerOf = some answer → fs.projectDtsRuntimeSibling cwd realm answer = none := by
  cases cands.findSome? fs.answerOf with
  | none => simp
  | some answer =>
    simp only [map_some, some.injEq, forall_eq']
    constructor
    · intro h
      by_contra hn
      obtain ⟨sibling, hs⟩ := ne_none_iff_exists'.mp hn
      rw [hs] at h
      exact fs.runtimeSibling_ne cwd realm hs h
    · intro h
      rw [h]
      rfl

theorem agree_iff_of_plain {table : PathsTable} {specifier : Text} (hskip : embedSkips specifier = false)
    (hplain : fs.PlainEntry table specifier) :
    fs.resolveViaProjectPaths cwd realm table specifier = fs.resolveEmbedPathAlias table specifier ↔
      ∀ answer, (projectCandidates table specifier).findSome? fs.answerOf = some answer →
        fs.projectDtsRuntimeSibling cwd realm answer = none := by
  rw [resolveEmbedPathAlias, if_neg (by simp [hskip]), resolveTsPathsMapping, ← findSome?_candidates hplain,
    resolveViaProjectPaths]
  exact fs.agree_of_candidates cwd realm

/-- **When the two lookups answer one file.** A specifier that the embedder does not look up has no
answer: none of its paths leads to a file. For the others, where no exact entry sets the two apart: the
file that the paths lead to is no declaration with its JavaScript beside it. -/
theorem paths_agree_iff (table : PathsTable) (specifier : Text) :
    (embedSkips specifier = true →
      (fs.resolveViaProjectPaths cwd realm table specifier = fs.resolveEmbedPathAlias table specifier ↔
        ∀ path ∈ projectCandidates table specifier, fs.answerOf path = none)) ∧
    (embedSkips specifier = false → fs.PlainEntry table specifier →
      (fs.resolveViaProjectPaths cwd realm table specifier = fs.resolveEmbedPathAlias table specifier ↔
        ∀ answer, (projectCandidates table specifier).findSome? fs.answerOf = some answer →
          fs.projectDtsRuntimeSibling cwd realm answer = none)) := by
  constructor
  · intro hskip
    rw [resolveEmbedPathAlias, if_pos hskip, resolveViaProjectPaths, map_eq_none_iff, List.findSome?_eq_none_iff]
  · exact fs.agree_iff_of_plain cwd realm

end FileSystem

/-! ### A declaration beside its JavaScript -/

/-- A project with `x.js` and its declaration `x.d.ts`. -/
def declaredScript : FileSystem where
  files path := ["/w/x.d.ts".toList, "/w/x.js".toList, "/w/package.json".toList].contains path
  directories := ["/".toList, "/w".toList]
  document path := if path = "/w/package.json".toList then some (.obj []) else none
  realpath := some
  entries _ := []

/-- A table with one exact key. -/
def oneAlias : PathsTable := ⟨[("x".toList, ["/w/x".toList])], by simp⟩

/-- For such a table the program answers the JavaScript and the embedder the declaration. -/
theorem not_paths_agree : ¬ ∀ (fs : FileSystem) (cwd : Text) (realm : Option Text) (table : PathsTable)
    (specifier : Text), fs.resolveViaProjectPaths cwd realm table specifier = fs.resolveEmbedPathAlias table specifier := by
  intro h
  have hplain : declaredScript.PlainEntry oneAlias "x".toList := by
    intro e he _
    obtain rfl := mem_singleton.mp he
    rw [if_neg (by decide)]
    exact ⟨rfl, fun _ => trivial⟩
  have hno := (declaredScript.agree_iff_of_plain "/w".toList (some "/w/package.json".toList) (by decide +kernel)
    hplain).mp (h _ _ _ _ _) "/w/x.d.ts".toList (by decide +kernel)
  have hpkg : declaredScript.nearestPkgJsonPath "/w".toList "/w/x.d.ts".toList = some "/w/package.json".toList := by
    have hdir : dirname (resolve "/w".toList "/w/x.d.ts".toList) = "/w".toList := by decide +kernel
    rw [FileSystem.nearestPkgJsonPath, hdir, FileSystem.nearestPkgDir, dirsUp, if_neg (by decide +kernel)]
    decide +kernel
  rw [FileSystem.projectDtsRuntimeSibling, hpkg] at hno
  revert hno
  decide +kernel

end Resolve

end Scriptc
