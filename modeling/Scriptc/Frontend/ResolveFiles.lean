import Mathlib.Data.List.DropRight
import Mathlib.Data.Nat.Notation

/-!
# What the module resolver reads

`frontend/resolve.ts`: paths, files and package.json documents, and the file and directory lookups
that all its entry points share. Paths are those of a posix host.
-/

namespace Scriptc

open List

namespace Resolve

abbrev Text := List Char

/-- A JSON document. Of a number only whether it is zero is read; an object is its entries, in the order
of `Object.entries`. -/
inductive Json
  | null
  | bool (b : Bool)
  | num (zero : Bool)
  | str (text : Text)
  | arr (items : List Json)
  | obj (entries : List (Text × Json))

namespace Json

/-- What `if (value)` asks. -/
def truthy : Json → Bool
  | .null => false
  | .bool b => b
  | .num zero => !zero
  | .str text => text ≠ []
  | _ => true

/-- `value.key`, `none` for undefined. -/
def field? : Json → String → Option Json
  | .obj entries, key => (entries.find? fun e => e.1 == key.toList).map Prod.snd
  | _, _ => none

/-- A field that is a string and not empty. -/
def textField? (doc : Json) (key : String) : Option Text :=
  match doc.field? key with
  | some (.str text) => if text = [] then none else some text
  | _ => none

end Json

/-! ### `node:path` -/

/-- One segment more of a path that is normalized. -/
def pushSegment (absolute : Bool) (segments : List Text) (segment : Text) : List Text :=
  if segment = [] ∨ segment = ['.'] then segments
  else if segment = ['.', '.'] then
    if segments.getLast?.any (· ≠ ['.', '.']) then segments.dropLast
    else if absolute then segments
    else segments ++ [segment]
  else segments ++ [segment]

/-- The text of a path without its `.` and `..` segments, as far as they can be undone. -/
def normalizeText (absolute : Bool) (path : Text) : Text :=
  ['/'].intercalate ((path.splitOn '/').foldl (pushSegment absolute) [])

/-- `normalize`. -/
def normalize (path : Text) : Text :=
  if path = [] then ['.']
  else
    let absolute : Bool := path.head? = some '/'
    let trailing : Bool := path.getLast? = some '/'
    let text := normalizeText absolute path
    if text = [] then if absolute then ['/'] else if trailing then ['.', '/'] else ['.']
    else (if absolute then ['/'] else []) ++ text ++ if trailing then ['/'] else []

/-- `join`. -/
def join (dir path : Text) : Text := normalize (['/'].intercalate ([dir, path].filter (· ≠ [])))

/-- `resolve`, in the working directory. -/
def resolve (cwd path : Text) : Text :=
  '/' :: normalizeText true (if path.head? = some '/' then path else cwd ++ '/' :: path)

/-- `dirname`. -/
def dirname (path : Text) : Text :=
  let kept := (path.rdropWhile (· = '/')).rdropWhile (· ≠ '/')
  if kept = [] then if path.head? = some '/' then ['/'] else ['.']
  else if kept = ['/'] ∨ kept = ['/', '/'] then kept
  else kept.dropLast

/-! ### The directories above -/

/-- What `dirname` makes smaller. -/
def pathMeasure (path : Text) : ℕ := if path = [] then 3 else 2 * path.length + if path = ['.'] then 0 else 1

theorem pathMeasure_lt {path path' : Text} (hne : path' ≠ []) (h : path'.length < path.length) :
    pathMeasure path' < pathMeasure path := by
  have hp : path ≠ [] := by
    rintro rfl
    simp at h
  rw [pathMeasure, pathMeasure, if_neg hne, if_neg hp]
  split_ifs <;> omega

theorem pathMeasure_dirname (path : Text) : dirname path = path ∨ pathMeasure (dirname path) < pathMeasure path := by
  have hpre : (path.rdropWhile (· = '/')).rdropWhile (· ≠ '/') <+: path :=
    (List.rdropWhile_prefix _ _).trans (List.rdropWhile_prefix _ _)
  have hlast := rdropWhile_last_not (fun c : Char => c ≠ '/') (path.rdropWhile (· = '/'))
  simp only [dirname]
  generalize (path.rdropWhile (· = '/')).rdropWhile (· ≠ '/') = kept at *
  split_ifs with hk hr hroot
  · -- no component before the last: the root
    rcases path with _ | ⟨c, _ | ⟨d, path⟩⟩
    · cases hr
    · obtain rfl : c = '/' := by simpa using hr
      exact .inl rfl
    · exact .inr (pathMeasure_lt (by simp) (by simp))
  · -- none, and no root
    rcases path with _ | ⟨c, _ | ⟨d, path⟩⟩
    · exact .inr (by simp [pathMeasure])
    · by_cases hc : c = '.'
      · exact .inl (by rw [hc])
      · exact .inr (by simp [pathMeasure, hc])
    · exact .inr (pathMeasure_lt (by simp) (by simp))
  · by_cases hl : kept.length = path.length
    · exact .inl (hpre.eq_of_length hl)
    · exact .inr (pathMeasure_lt hk (lt_of_le_of_ne hpre.length_le hl))
  · have htwo : 2 ≤ kept.length := by
      rcases kept with _ | ⟨c, _ | ⟨d, kept⟩⟩
      · exact absurd rfl hk
      · have hc := hlast (by simp)
        have hs : c = '/' := by
          by_contra hn
          exact hc (decide_eq_true hn)
        exact absurd (.inl (by rw [hs])) hroot
      · simp
    have hle := hpre.length_le
    refine .inr (pathMeasure_lt ?_ ?_)
    · intro h0
      have := congrArg List.length h0
      simp at this
      omega
    · rw [length_dropLast]
      omega

/-- The directories from one up to the root. -/
def dirsUp (dir : Text) : List Text := if dirname dir = dir then [dir] else dir :: dirsUp (dirname dir)
termination_by pathMeasure dir
decreasing_by exact (pathMeasure_dirname dir).resolve_left ‹_›

/-! ### Files -/

/-- The files as the resolver sees them. The paths that lead to a directory are finitely many: the
host bounds the length of a path and the links it follows. -/
structure FileSystem where
  files : Text → Bool
  directories : List Text
  /-- What a file holds, when it is there and is JSON. -/
  document : Text → Option Json
  realpath : Text → Option Text
  /-- The names of the directories in a directory. -/
  entries : Text → List Text

namespace FileSystem

variable (fs : FileSystem)

def isFile (path : Text) : Bool := fs.files path

def isDirectory (path : Text) : Bool := fs.directories.contains path

/-- `normalizeResolvedPath`. -/
def normalizeResolvedPath (path : Text) : Text := path.map fun c => if c = '\\' then '/' else c

def realpathOr (path : Text) : Text := normalizeResolvedPath ((fs.realpath path).getD path)

/-- `pkgJsonOf`: a document that is `null` counts as none. -/
def pkgJsonOf (dir : Text) : Option Json :=
  match fs.document (join dir "package.json".toList) with
  | none | some .null => none
  | some doc => some doc

/-- The first of some paths that is a file. -/
def firstFile (paths : List Text) : Option Text := paths.find? fs.isFile

/-- The fields of a package.json that name a file. -/
def entryFields (runtimeOnly : Bool) (pkg : Json) : List Text :=
  (if runtimeOnly then ["main"] else ["types", "typings", "main"]).filterMap pkg.textField?

/-- The fields of the package.json of a directory, when there is one. -/
def nestedFields (runtimeOnly : Bool) (dir : Text) : List Text :=
  match fs.pkgJsonOf dir with
  | none => []
  | some nested => entryFields runtimeOnly nested

end FileSystem

/-! ### Patterns -/

/-- A key with a star, cut at its first star. -/
def splitStar (key : Text) : Option (Text × Text) :=
  if '*' ∈ key then some (key.takeWhile (· ≠ '*'), (key.dropWhile (· ≠ '*')).tail) else none

/-- The text starts with the one part and ends with the other, and they do not overlap. -/
def matchesParts (text : Text) (parts : Text × Text) : Bool :=
  parts.1.isPrefixOf text && parts.1.length + parts.2.length ≤ text.length && parts.2.isSuffixOf text

/-- What stands for the star. -/
def wildcardOf (text : Text) (parts : Text × Text) : Text :=
  (text.drop parts.1.length).take (text.length - parts.2.length - parts.1.length)

/-- `target.split("*").join(wildcard)`. -/
def fillStars (target wildcard : Text) : Text := wildcard.intercalate (target.splitOn '*')

variable {key : Text}

theorem splitStar_of_not_mem (h : '*' ∉ key) : splitStar key = none := if_neg h

variable {parts : Text × Text}

theorem mem_of_splitStar (h : splitStar key = some parts) : '*' ∈ key := by
  by_contra hn
  rw [splitStar_of_not_mem hn] at h
  cases h

theorem splitStar_eq_some (h : splitStar key = some parts) :
    key = parts.1 ++ '*' :: parts.2 ∧ '*' ∉ parts.1 := by
  have hmem := mem_of_splitStar h
  rw [splitStar, if_pos hmem] at h
  obtain rfl := Option.some.inj h
  refine ⟨?_, fun hs => by simpa using mem_takeWhile_imp hs⟩
  have happ := takeWhile_append_dropWhile (p := (· ≠ '*')) (l := key)
  cases hd : key.dropWhile (· ≠ '*') with
  | nil => simpa using dropWhile_eq_nil_iff.mp hd '*' hmem
  | cons c rest =>
    have hc := List.head?_dropWhile_not (· ≠ '*') key
    rw [hd] at hc
    obtain rfl : c = '*' := by simpa using hc
    rw [hd] at happ
    exact happ.symm

/-- In a key itself a star stands for the star. -/
theorem wildcardOf_self (h : splitStar key = some parts) : wildcardOf key parts = ['*'] := by
  obtain ⟨hk, -⟩ := splitStar_eq_some h
  rw [wildcardOf, hk]
  simp [show parts.1.length + (parts.2.length + 1) - parts.2.length - parts.1.length = 1 by omega]

theorem fillStars_self (target : Text) : fillStars target ['*'] = target := intercalate_splitOn '*'

/-! ### Names -/

/-- `path.endsWith(ext)`. -/
def endsWith (path : Text) (ext : String) : Bool := ext.toList.isSuffixOf path

/-- `path.slice(0, -ext.length)`. -/
def stemOf (path : Text) (ext : String) : Text := path.take (path.length - ext.toList.length)

def withExtension (path : Text) (ext : String) : Text := path ++ ext.toList

/-- `path.includes(part)`. -/
def includes (path : Text) (part : String) : Bool := path.tails.any part.toList.isPrefixOf

/-!
## The exports of a package

`resolveExportCandidates` and `resolveExports` of `frontend/resolve.ts`.
-/

section

variable (conditions : List Text) (wildcard : Option Text)

mutual

/-- `resolveTarget`: every string that the conditions lead to, in order. -/
def resolveTarget : Json → List Text
  | .str target =>
    match wildcard with
    | none => [target]
    | some w => [fillStars target w]
  | .arr items => resolveItems items
  | .obj entries => resolveEntries entries
  | _ => []

def resolveItems : List Json → List Text
  | [] => []
  | item :: items => resolveTarget item ++ resolveItems items

def resolveEntries : List (Text × Json) → List Text
  | [] => []
  | (key, value) :: entries =>
    if key.head? = some '.' then resolveEntries entries
    else if conditions.contains key then resolveTarget value ++ resolveEntries entries
    else resolveEntries entries

end

end

/-- A key that matches, with the parts around its star. -/
structure PatternMatch where
  key : Text
  parts : Text × Text
  deriving DecidableEq, Repr

/-- A turn of the loop over the keys: a longer prefix is better. -/
def betterPattern (subpath : Text) (best : Option PatternMatch) (key : Text) : Option PatternMatch :=
  match splitStar key with
  | none => best
  | some parts =>
    if matchesParts subpath parts && best.all fun b => b.parts.1.length < parts.1.length then some ⟨key, parts⟩
    else best

/-- The pattern taken for a subpath. -/
def bestPattern (subpath : Text) (keys : List Text) : Option PatternMatch := keys.foldl (betterPattern subpath) none

/-- Of the keys that match when the star may also stand for nothing, the first with the longest part
before the star. -/
def First (subpath : Text) (keys : List Text) (key : Text) : Prop :=
  ∃ parts before after, keys = before ++ key :: after ∧ splitStar key = some parts ∧ matchesParts subpath parts = true ∧
    (∀ k ∈ before, ∀ p, splitStar k = some p → matchesParts subpath p = true → p.1.length < parts.1.length) ∧
    ∀ k ∈ after, ∀ p, splitStar k = some p → matchesParts subpath p = true → p.1.length ≤ parts.1.length

section

variable {subpath : Text} {keys : List Text} {key : Text}

/-- A turn of the loop keeps what it has or takes a key that matches, with a longer prefix. -/
theorem betterPattern_cases (subpath : Text) (best : Option PatternMatch) (key : Text) :
    betterPattern subpath best key = best ∨ ∃ parts, splitStar key = some parts ∧ matchesParts subpath parts = true ∧
      betterPattern subpath best key = some ⟨key, parts⟩ := by
  rw [betterPattern]
  cases hs : splitStar key with
  | none => exact .inl rfl
  | some parts =>
    simp only
    split_ifs with hc
    · exact .inr ⟨parts, rfl, (Bool.and_eq_true_iff.mp hc).1, rfl⟩
    · exact .inl rfl

theorem foldl_betterPattern_lt {n : ℕ} : ∀ (keys : List Text) (best : Option PatternMatch),
    (∀ b ∈ best, b.parts.1.length < n) →
    (∀ k ∈ keys, ∀ p, splitStar k = some p → matchesParts subpath p = true → p.1.length < n) →
    ∀ b ∈ keys.foldl (betterPattern subpath) best, b.parts.1.length < n
  | [], _, hb, _ => hb
  | key :: keys, best, hb, hk => by
    refine foldl_betterPattern_lt keys _ (fun b hmem => ?_) fun k hk' => hk k (mem_cons_of_mem _ hk')
    rcases betterPattern_cases subpath best key with h | ⟨parts, hs, hm, h⟩
    · exact hb b (h ▸ hmem)
    · rw [h] at hmem
      obtain rfl := Option.some.inj hmem
      exact hk key mem_cons_self parts hs hm

theorem foldl_betterPattern_keep {b : PatternMatch} : ∀ {keys : List Text},
    (∀ k ∈ keys, ∀ p, splitStar k = some p → matchesParts subpath p = true → p.1.length ≤ b.parts.1.length) →
    keys.foldl (betterPattern subpath) (some b) = some b
  | [], _ => rfl
  | key :: keys, hk => by
    have hturn : betterPattern subpath (some b) key = some b := by
      rw [betterPattern]
      cases hs : splitStar key with
      | none => rfl
      | some parts =>
        refine if_neg fun hc => ?_
        obtain ⟨hm, hlt⟩ := Bool.and_eq_true_iff.mp hc
        exact absurd (hk key mem_cons_self parts hs hm) (by simpa using hlt)
    rw [foldl_cons, hturn]
    exact foldl_betterPattern_keep fun k hk' => hk k (mem_cons_of_mem _ hk')

theorem bestPattern_of_first (h : First subpath keys key) :
    ∃ parts, splitStar key = some parts ∧ bestPattern subpath keys = some ⟨key, parts⟩ := by
  obtain ⟨parts, before, after, rfl, hs, hm, hbefore, hafter⟩ := h
  have hlt := foldl_betterPattern_lt before none (by simp) hbefore
  have hturn : betterPattern subpath (before.foldl (betterPattern subpath) none) key = some ⟨key, parts⟩ := by
    rw [betterPattern, hs]
    refine if_pos (Bool.and_eq_true_iff.mpr ⟨hm, ?_⟩)
    rw [Option.all_eq_true]
    exact fun b hb => decide_eq_true (hlt b hb)
  refine ⟨parts, hs, ?_⟩
  rw [bestPattern, foldl_append, foldl_cons, hturn]
  exact foldl_betterPattern_keep hafter

theorem bestPattern_of_none
    (h : ∀ key ∈ keys, ∀ parts, splitStar key = some parts → matchesParts subpath parts = false) :
    bestPattern subpath keys = none := by
  have hnone : ∀ k ∈ keys, ∀ p, splitStar k = some p → matchesParts subpath p = true → p.1.length < 0 :=
    fun k hk p hs hm => by simp [h k hk p hs] at hm
  have hlt := foldl_betterPattern_lt keys none (by simp) hnone
  exact Option.eq_none_iff_forall_ne_some.mpr fun b hb => Nat.not_lt_zero _ (hlt b hb)

end

/-- `map[key]`. -/
def lookup (map : List (Text × Json)) (key : Text) : Option Json := (map.find? fun e => e.1 == key).map Prod.snd

def resolveExportCandidates (exported : Json) (subpath : Text) (conditions : List Text) : List Text :=
  match exported with
  | .str _ | .arr _ => if subpath = ['.'] then resolveTarget conditions none exported else []
  | .obj map =>
    if !map.all fun e => e.1.head? = some '.' then
      if subpath = ['.'] then resolveTarget conditions none exported else []
    else
      match lookup map subpath with
      | some target => resolveTarget conditions none target
      | none =>
        match bestPattern subpath (map.map Prod.fst) with
        | none => []
        | some best =>
          match lookup map best.key with
          | none => []
          | some target => resolveTarget conditions (some (wildcardOf subpath best.parts)) target
  | _ => []

/-- `resolveExports`: the first candidate. -/
def resolveExports (exported : Json) (subpath : Text) (conditions : List Text) : Option Text :=
  (resolveExportCandidates exported subpath conditions).head?

end Resolve

end Scriptc
