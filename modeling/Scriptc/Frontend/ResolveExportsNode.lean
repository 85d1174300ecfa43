import Scriptc.Frontend.ResolveFiles
import Scriptc.Lib.Numerals

/-!
# The exports of a package in Node

Node's PACKAGE_EXPORTS_RESOLVE, for exports that break none of its rules, and when `resolveExports`
answers the same. The source walks past a `null`, which in Node ends the search, takes the first of
two patterns with one prefix, where Node takes the longer key, lets a star stand for anything, and
has `default` for a condition like any other. An exact key has none of this.
-/

namespace Scriptc

open List

namespace Resolve

/-! ### Well-formed exports -/

/-- The text without its percent escapes. -/
def percentDecode : Text → Text
  | '%' :: a :: b :: rest =>
    match Numerals.hexDigit a, Numerals.hexDigit b with
    | some x, some y => Char.ofNat (16 * x + y) :: percentDecode rest
    | _, _ => '%' :: percentDecode (a :: b :: rest)
  | c :: rest => c :: percentDecode rest
  | [] => []

/-- A segment that neither a target nor what stands for a star may have. -/
def forbidden (segment : Text) : Bool :=
  ["".toList, ".".toList, "..".toList, "node_modules".toList].contains ((percentDecode segment).map Char.toLower)

def segmentsOf (path : Text) : List Text := (path.map fun c => if c = '\\' then '/' else c).splitOn '/'

def validTarget (target : Text) : Bool :=
  "./".toList.isPrefixOf target && (segmentsOf (target.drop 2)).all fun s => !forbidden s

/-- What stands for the star has no forbidden segment. -/
def validMatch (text : Text) : Bool := (segmentsOf text).all fun s => !forbidden s

/-- A key that JavaScript takes for an index. -/
def isIndexKey (key : Text) : Bool := key = ['0'] || (key ≠ [] && key.head? ≠ some '0' && key.all Char.isDigit)

mutual

/-- Strings, arrays, nulls and condition objects. -/
def wellFormedTarget : Json → Bool
  | .null => true
  | .str target => validTarget target
  | .arr items => wellFormedItems items
  | .obj entries => wellFormedEntries entries
  | _ => false

def wellFormedItems : List Json → Bool
  | [] => true
  | item :: items => wellFormedTarget item && wellFormedItems items

def wellFormedEntries : List (Text × Json) → Bool
  | [] => true
  | (key, value) :: entries =>
    key.head? ≠ some '.' && !isIndexKey key && wellFormedTarget value && wellFormedEntries entries

end

/-- A map of subpaths has keys that start with a dot, with one star at most. -/
def wellFormedExports : Json → Bool
  | .obj map =>
    wellFormedEntries map ||
      map.all fun e => e.1.head? = some '.' && e.1.count '*' ≤ 1 && wellFormedTarget e.2
  | exported => wellFormedTarget exported

/-- The exports of a package that Node has no complaint about. -/
structure Exports where
  value : Json
  wellFormed : wellFormedExports value = true

/-! ### Node's algorithm -/

/-- What a target resolves to: nothing, an end of the search, or a text. -/
inductive Resolved
  | undefined
  | stopped
  | target (text : Text)
  deriving DecidableEq, Repr

/-- The target with what stands for its stars. -/
def fill (patternMatch : Option Text) (target : Text) : Text :=
  match patternMatch with
  | none => target
  | some w => fillStars target w

section

variable (conditions : List Text) (patternMatch : Option Text)

mutual

/-- PACKAGE_TARGET_RESOLVE. An invalid match is an error. -/
def packageTargetResolve : Json → Resolved
  | .str target => if patternMatch.all validMatch then .target (fill patternMatch target) else .stopped
  | .obj entries => packageConditionsResolve entries
  | .arr [] => .stopped
  | .arr (item :: items) => packageItemsResolve (item :: items)
  | _ => .stopped

/-- The first condition that is met and does not resolve to undefined. -/
def packageConditionsResolve : List (Text × Json) → Resolved
  | [] => .undefined
  | (key, value) :: entries =>
    if key = "default".toList ∨ conditions.contains key then
      match packageTargetResolve value with
      | .undefined => packageConditionsResolve entries
      | r => r
    else packageConditionsResolve entries

def packageItemsResolve : List Json → Resolved
  | [] => .undefined
  | item :: items =>
    match packageTargetResolve item with
    | .undefined => packageItemsResolve items
    | r => r

end

end

/-- PATTERN_KEY_COMPARE puts the first key before the second, or they are alike: the longer part before
the star, then the longer key. -/
def patternKeyLe (a b : Text) : Bool :=
  let baseOf (key : Text) := (key.takeWhile (· ≠ '*')).length
  baseOf b < baseOf a || (baseOf a == baseOf b && b.length ≤ a.length)

/-- The key of a pattern with one star matches, with something for the star. -/
def nodeMatches (matchKey : Text) (parts : Text × Text) : Bool :=
  parts.1.isPrefixOf matchKey && matchKey ≠ parts.1 &&
    (parts.2 = [] || (parts.2.isSuffixOf matchKey && parts.1.length + 1 + parts.2.length ≤ matchKey.length))

/-- The expansion keys, the most specific first. -/
def expansionKeys (keys : List Text) : List Text := (keys.filter fun k => k.count '*' = 1).mergeSort patternKeyLe

/-- The first expansion key that matches. -/
def expansionKey (matchKey : Text) (keys : List Text) : Option Text :=
  (expansionKeys keys).find? fun k => (splitStar k).any (nodeMatches matchKey)

/-- PACKAGE_IMPORTS_EXPORTS_RESOLVE, as far as the target and what stands for its star. -/
def packageImportsExportsTarget (matchKey : Text) (map : List (Text × Json)) : Option (Json × Option Text) :=
  match if '*' ∈ matchKey then none else lookup map matchKey with
  | some target => some (target, none)
  | none =>
    match expansionKey matchKey (map.map Prod.fst) with
    | none => none
    | some key =>
      match splitStar key, lookup map key with
      | some parts, some target => some (target, some (wildcardOf matchKey parts))
      | _, _ => none

/-- The entry of a subpath, whatever it ends in. -/
def entryOf (exported : Json) (subpath : Text) : Option (Json × Option Text) :=
  match exported with
  | .obj map =>
    if subpath = ['.'] then
      if map.all fun e => e.1.head? ≠ some '.' then some (exported, none)
      else (lookup map ['.']).map fun target => (target, none)
    else if map.all fun e => e.1.head? = some '.' then packageImportsExportsTarget subpath map
    else none
  | .str _ | .arr _ => if subpath = ['.'] then some (exported, none) else none
  | _ => none

/-- PACKAGE_EXPORTS_RESOLVE, as far as the target: nothing that ends in a slash is exported. -/
def packageExportsTarget (exported : Json) (subpath : Text) : Option (Json × Option Text) :=
  if subpath.getLast? = some '/' then none else entryOf exported subpath

/-- PACKAGE_EXPORTS_RESOLVE. `none` is a subpath that is not exported. -/
def packageExportsResolve (exported : Json) (subpath : Text) (conditions : List Text) : Option Text :=
  match packageExportsTarget exported subpath with
  | none => none
  | some (target, patternMatch) =>
    match packageTargetResolve conditions patternMatch target with
    | .target text => some text
    | _ => none

/-! ### The leaves that the conditions lead to -/

section

variable (conditions : List Text)

mutual

/-- The ends of a target that some conditions lead to, in order: a text, or `none` where the search stops. -/
def leaves : Json → List (Option Text)
  | .str target => [some target]
  | .obj entries => leavesOfEntries entries
  | .arr [] => [none]
  | .arr (item :: items) => leavesOfItems (item :: items)
  | _ => [none]

def leavesOfEntries : List (Text × Json) → List (Option Text)
  | [] => []
  | (key, value) :: entries =>
    if conditions.contains key then leaves value ++ leavesOfEntries entries else leavesOfEntries entries

def leavesOfItems : List Json → List (Option Text)
  | [] => []
  | item :: items => leaves item ++ leavesOfItems items

end

end

variable {conditions : List Text} {patternMatch : Option Text}

/-- What Node makes of the leaves. -/
def resolvedOf (patternMatch : Option Text) (ends : List (Option Text)) : Resolved :=
  match ends.head? with
  | none => .undefined
  | some none => .stopped
  | some (some text) => if patternMatch.all validMatch then .target (fill patternMatch text) else .stopped

theorem resolvedOf_append (ends rest : List (Option Text)) : resolvedOf patternMatch (ends ++ rest) =
    if resolvedOf patternMatch ends = .undefined then resolvedOf patternMatch rest else resolvedOf patternMatch ends := by
  rcases ends with _ | ⟨_ | text, ends⟩
  · simp [resolvedOf]
  · simp [resolvedOf]
  · by_cases hm : patternMatch.all validMatch = true <;> simp [resolvedOf, hm]

theorem resolved_else (r r' : Resolved) : (match r with | .undefined => r' | r => r) = if r = .undefined then r' else r := by
  cases r <;> simp

mutual

/-- **Node** takes the first leaf, for its conditions. -/
theorem packageTargetResolve_eq : ∀ target : Json, packageTargetResolve conditions patternMatch target =
    resolvedOf patternMatch (leaves ("default".toList :: conditions) target)
  | .str target => by rw [packageTargetResolve]; rfl
  | .obj entries => by rw [packageTargetResolve, leaves, packageConditionsResolve_eq entries]
  | .arr [] => by rw [packageTargetResolve]; rfl
  | .arr (item :: items) => by rw [packageTargetResolve, leaves, packageItemsResolve_eq (item :: items)]
  | .null => by rw [packageTargetResolve]; all_goals first | rfl | simp
  | .bool _ => by rw [packageTargetResolve]; all_goals first | rfl | simp
  | .num _ => by rw [packageTargetResolve]; all_goals first | rfl | simp

theorem packageConditionsResolve_eq : ∀ entries : List (Text × Json),
    packageConditionsResolve conditions patternMatch entries =
      resolvedOf patternMatch (leavesOfEntries ("default".toList :: conditions) entries)
  | [] => rfl
  | (key, value) :: entries => by
    rw [packageConditionsResolve, leavesOfEntries]
    simp only [contains_cons, Bool.or_eq_true, beq_iff_eq]
    split_ifs with hk
    · rw [resolved_else, packageTargetResolve_eq value, packageConditionsResolve_eq entries, resolvedOf_append]
    · exact packageConditionsResolve_eq entries

theorem packageItemsResolve_eq : ∀ items : List Json, packageItemsResolve conditions patternMatch items =
    resolvedOf patternMatch (leavesOfItems ("default".toList :: conditions) items)
  | [] => rfl
  | item :: items => by
    rw [packageItemsResolve, leavesOfItems, resolved_else, packageTargetResolve_eq item, packageItemsResolve_eq items,
      resolvedOf_append]

end

mutual

/-- A condition more leads to more ends. -/
theorem leaves_sublist (condition : Text) : ∀ target : Json,
    (leaves conditions target).Sublist (leaves (condition :: conditions) target)
  | .obj entries => by
    rw [leaves, leaves]
    exact leavesOfEntries_sublist condition entries
  | .arr (item :: items) => by
    rw [leaves, leaves]
    exact leavesOfItems_sublist condition (item :: items)
  | .arr [] | .null | .bool _ | .num _ | .str _ => by simp [leaves]

theorem leavesOfEntries_sublist (condition : Text) : ∀ entries : List (Text × Json),
    (leavesOfEntries conditions entries).Sublist (leavesOfEntries (condition :: conditions) entries)
  | [] => .refl _
  | (key, value) :: entries => by
    have hrest := leavesOfEntries_sublist condition entries
    rw [leavesOfEntries, leavesOfEntries]
    split_ifs with hk hk' hk'
    · exact (leaves_sublist condition value).append hrest
    · exact absurd (by simp [contains_iff_mem.mp hk]) hk'
    · exact hrest.trans (sublist_append_right _ _)
    · exact hrest

theorem leavesOfItems_sublist (condition : Text) : ∀ items : List Json,
    (leavesOfItems conditions items).Sublist (leavesOfItems (condition :: conditions) items)
  | [] => .refl _
  | item :: items => by
    rw [leavesOfItems, leavesOfItems]
    exact (leaves_sublist condition item).append (leavesOfItems_sublist condition items)

end

/-- The texts among the leaves. -/
def textsOf (patternMatch : Option Text) (ends : List (Option Text)) : List Text :=
  (ends.filterMap id).map (fill patternMatch)

theorem textsOf_append (ends rest : List (Option Text)) :
    textsOf patternMatch (ends ++ rest) = textsOf patternMatch ends ++ textsOf patternMatch rest := by simp [textsOf]

mutual

/-- **The source** takes every text. -/
theorem resolveTarget_eq : ∀ target : Json, wellFormedTarget target = true →
    resolveTarget conditions patternMatch target = textsOf patternMatch (leaves conditions target)
  | .str target, _ => by cases patternMatch <;> rfl
  | .obj entries, h => by
    rw [wellFormedTarget] at h
    rw [resolveTarget, leaves, resolveEntries_eq entries h]
  | .arr [], _ => by rw [resolveTarget]; rfl
  | .arr (item :: items), h => by
    rw [wellFormedTarget] at h
    rw [resolveTarget, leaves, resolveItems_eq (item :: items) h]
  | .null, _ => by rw [resolveTarget]; all_goals first | rfl | simp
  | .bool _, h => by simp [wellFormedTarget] at h
  | .num _, h => by simp [wellFormedTarget] at h

theorem resolveEntries_eq : ∀ entries : List (Text × Json), wellFormedEntries entries = true →
    resolveEntries conditions patternMatch entries = textsOf patternMatch (leavesOfEntries conditions entries)
  | [], _ => rfl
  | (key, value) :: entries, h => by
    simp only [wellFormedEntries, Bool.and_eq_true, decide_eq_true_eq] at h
    obtain ⟨⟨⟨hdot, -⟩, hv⟩, he⟩ := h
    rw [resolveEntries, leavesOfEntries, if_neg (by simpa using hdot)]
    split_ifs
    · rw [textsOf_append, resolveTarget_eq value hv, resolveEntries_eq entries he]
    · exact resolveEntries_eq entries he

theorem resolveItems_eq : ∀ items : List Json, wellFormedItems items = true →
    resolveItems conditions patternMatch items = textsOf patternMatch (leavesOfItems conditions items)
  | [], _ => rfl
  | item :: items, h => by
    simp only [wellFormedItems, Bool.and_eq_true] at h
    rw [resolveItems, leavesOfItems, textsOf_append, resolveTarget_eq item h.1, resolveItems_eq items h.2]

end

theorem textsOf_eq_nil {ends : List (Option Text)} : textsOf patternMatch ends = [] ↔ ∀ text, some text ∉ ends := by
  simp only [textsOf, map_eq_nil_iff, filterMap_eq_nil_iff, id_eq]
  constructor
  · intro h text ht
    cases h _ ht
  · rintro h (_ | text) ht
    · rfl
    · exact absurd ht (h text)

theorem textsOf_self (ends : List (Option Text)) : textsOf (some ['*']) ends = textsOf none ends :=
  map_congr_left fun text _ => fillStars_self text

/-! ### The choice of a key -/

/-- The keys of a map of subpaths, where none is the subpath itself. -/
def patternKeys (exported : Json) (subpath : Text) : List Text :=
  match exported with
  | .obj map =>
    if (map.all fun e => e.1.head? = some '.') ∧ lookup map subpath = none then map.map Prod.fst else []
  | _ => []

/-- The cases in which the source goes to Node's entry, and in it to Node's first text. -/
structure Regular (exported : Json) (subpath : Text) (conditions : List Text) : Prop where
  /-- Without a key for the subpath itself: Node's key comes first, and no key matches if Node has none. -/
  pattern : match expansionKey subpath (patternKeys exported subpath) with
    | some key => First subpath (patternKeys exported subpath) key
    | none => ∀ key ∈ patternKeys exported subpath, ∀ parts, splitStar key = some parts → matchesParts subpath parts = false
  /-- No `default` that is not in the set leads to the text that Node takes. -/
  default : ∀ target w text, packageExportsTarget exported subpath = some (target, w) → w.all validMatch = true →
    (leaves ("default".toList :: conditions) target).head? = some (some text) →
    (leaves conditions target).head? = some (some text)

variable {subpath : Text} {keys : List Text} {key : Text} {parts : Text × Text}

theorem nodeMatches_iff : nodeMatches subpath parts = true ↔ matchesParts subpath parts = true ∧ wildcardOf subpath parts ≠ [] := by
  simp only [nodeMatches, matchesParts, Bool.and_eq_true, Bool.or_eq_true, decide_eq_true_eq, isPrefixOf_iff_prefix,
    isSuffixOf_iff_suffix, ne_eq]
  have hw : wildcardOf subpath parts = [] ↔ subpath.length ≤ parts.1.length + parts.2.length := by
    rw [← length_eq_zero_iff, wildcardOf, length_take, length_drop]
    omega
  rw [hw]
  constructor
  · rintro ⟨⟨hp, hne⟩, ht⟩
    have hlt : parts.1.length < subpath.length :=
      lt_of_le_of_ne hp.length_le fun hl => hne (hp.eq_of_length hl).symm
    rcases ht with h0 | ⟨hs, hl⟩
    · rw [h0]
      exact ⟨⟨⟨hp, by simpa using hlt.le⟩, nil_suffix⟩, by simpa using hlt⟩
    · exact ⟨⟨⟨hp, by omega⟩, hs⟩, by omega⟩
  · rintro ⟨⟨⟨hp, -⟩, hs⟩, hl⟩
    refine ⟨⟨hp, ?_⟩, .inr ⟨hs, by omega⟩⟩
    rintro rfl
    omega

theorem patternKeyLe_trans (a b c : Text) (hab : patternKeyLe a b = true) (hbc : patternKeyLe b c = true) :
    patternKeyLe a c = true := by
  simp only [patternKeyLe, Bool.or_eq_true, Bool.and_eq_true, decide_eq_true_eq, beq_iff_eq] at *
  omega

theorem patternKeyLe_total (a b : Text) : (patternKeyLe a b || patternKeyLe b a) = true := by
  simp only [patternKeyLe, Bool.or_eq_true, Bool.and_eq_true, decide_eq_true_eq, beq_iff_eq]
  omega

theorem base_of_splitStar (h : splitStar key = some parts) : parts.1 = key.takeWhile (· ≠ '*') := by
  unfold splitStar at h
  split_ifs at h
  cases h
  rfl

theorem expansionKey_nil : expansionKey subpath [] = none := by
  simp [expansionKey, expansionKeys]

theorem mem_expansionKeys : key ∈ expansionKeys keys ↔ key ∈ keys ∧ key.count '*' = 1 := by
  simp [expansionKeys, mem_filter]

/-- Node's key matches, and no other that does comes before it. -/
theorem expansionKey_some (h : expansionKey subpath keys = some key) : (key ∈ keys ∧ key.count '*' = 1) ∧
    (∃ parts, splitStar key = some parts ∧ nodeMatches subpath parts = true) ∧
    ∀ key' ∈ keys, key'.count '*' = 1 → ∀ parts', splitStar key' = some parts' → nodeMatches subpath parts' = true →
      patternKeyLe key key' = true := by
  obtain ⟨hm, before, after, he, hb⟩ := List.find?_eq_some_iff_append.mp h
  have hsorted : (expansionKeys keys).Pairwise fun a b => patternKeyLe a b = true :=
    pairwise_mergeSort patternKeyLe_trans patternKeyLe_total _
  have hk : key ∈ expansionKeys keys := by rw [he]; simp
  have hparts : ∃ parts, splitStar key = some parts ∧ nodeMatches subpath parts = true := by
    cases hs : splitStar key with
    | none => simp [hs] at hm
    | some parts => exact ⟨parts, rfl, by simpa [hs] using hm⟩
  refine ⟨mem_expansionKeys.mp hk, hparts, fun key' hk' hc parts' hs hn => ?_⟩
  have hin : key' ∈ expansionKeys keys := mem_expansionKeys.mpr ⟨hk', hc⟩
  rw [he] at hin hsorted
  rcases mem_append.mp hin with hin | hin
  · have := hb key' hin
    simp [hs, hn] at this
  · rcases mem_cons.mp hin with rfl | hin
    · simpa using patternKeyLe_total key' key'
    · exact rel_of_pairwise_cons (pairwise_append.mp hsorted).2.1 hin

/-- A key that is the subpath itself, with its star, comes before every other that matches. -/
theorem expansionKey_self (hs : splitStar subpath = some parts) (hc : subpath.count '*' = 1) (hk : subpath ∈ keys) :
    expansionKey subpath keys = some subpath := by
  obtain ⟨hsub, -⟩ := splitStar_eq_some hs
  have hlen := congrArg List.length hsub
  rw [length_append, length_cons] at hlen
  have hmatch : nodeMatches subpath parts = true := by
    refine nodeMatches_iff.mpr ⟨?_, by simp [wildcardOf_self hs]⟩
    simp only [matchesParts, Bool.and_eq_true, isPrefixOf_iff_prefix, isSuffixOf_iff_suffix, decide_eq_true_eq]
    refine ⟨⟨⟨_, hsub.symm⟩, by omega⟩, ⟨parts.1 ++ ['*'], ?_⟩⟩
    rw [append_assoc]
    exact hsub.symm
  cases hx : expansionKey subpath keys with
  | none =>
    have := find?_eq_none.mp hx subpath (mem_expansionKeys.mpr ⟨hk, hc⟩)
    simp [hs, hmatch] at this
  | some key =>
    obtain ⟨-, ⟨kparts, hks, hkm⟩, hmax⟩ := expansionKey_some hx
    have hle := hmax subpath hk hc parts hs hmatch
    obtain ⟨hm, hw⟩ := nodeMatches_iff.mp hkm
    obtain ⟨hkey, hno⟩ := splitStar_eq_some hks
    simp only [matchesParts, Bool.and_eq_true, isPrefixOf_iff_prefix, isSuffixOf_iff_suffix,
      decide_eq_true_eq] at hm
    obtain ⟨⟨hpre, -⟩, hsuf⟩ := hm
    have hpre' : parts.1 <+: subpath := ⟨_, hsub.symm⟩
    -- no star stands in the part before the star of the key
    have hbase : kparts.1.length ≤ parts.1.length := by
      by_contra hlt
      have hstar : parts.1 ++ ['*'] <+: subpath := ⟨parts.2, by rw [append_assoc]; exact hsub.symm⟩
      have := prefix_of_prefix_length_le hstar hpre (by simp; omega)
      exact hno (this.subset (by simp))
    have hklen := congrArg List.length hkey
    rw [length_append, length_cons] at hklen
    have hroom : kparts.1.length + kparts.2.length < subpath.length := by
      by_contra hge
      refine hw (eq_nil_of_length_eq_zero ?_)
      rw [wildcardOf, length_take, length_drop]
      omega
    simp only [patternKeyLe, Bool.or_eq_true, Bool.and_eq_true, decide_eq_true_eq, beq_iff_eq, ← base_of_splitStar hs,
      ← base_of_splitStar hks] at hle
    have h1 : kparts.1 = parts.1 :=
      (prefix_of_prefix_length_le hpre hpre' (by omega)).eq_of_length (by omega)
    have h2 : kparts.2 = parts.2 := by
      have hsuf' : parts.2 <:+ subpath := ⟨parts.1 ++ ['*'], by rw [append_assoc]; exact hsub.symm⟩
      exact (suffix_of_suffix_length_le hsuf hsuf' (by omega)).eq_of_length (by omega)
    rw [hkey, h1, h2, ← hsub]

/-- The package itself is under no pattern. -/
theorem expansionKey_dot (hdot : ∀ key ∈ keys, key.head? = some '.') : expansionKey ['.'] keys = none := by
  cases hx : expansionKey ['.'] keys with
  | none => rfl
  | some key =>
    obtain ⟨⟨hk, -⟩, ⟨parts, hs, hn⟩, -⟩ := expansionKey_some hx
    obtain ⟨hkey, -⟩ := splitStar_eq_some hs
    have hhead := hdot key hk
    refine absurd ?_ (nodeMatches_iff.mp hn).2
    have hpos : parts.1 ≠ [] := by
      intro h0
      rw [hkey, h0] at hhead
      cases hhead
    rw [wildcardOf, drop_eq_nil_of_le (length_pos_iff.mpr hpos), take_nil]

/-! ### One target for both -/

theorem exists_of_lookup {map : List (Text × Json)} {target : Json} (h : lookup map key = some target) :
    ∃ e ∈ map, e.1 = key ∧ e.2 = target := by
  obtain ⟨e, he, rfl⟩ := Option.map_eq_some_iff.mp h
  exact ⟨e, mem_of_find?_eq_some he, by simpa using find?_some he, rfl⟩

theorem of_wellFormedEntries : ∀ {map : List (Text × Json)}, wellFormedEntries map = true →
    ∀ e ∈ map, e.1.head? ≠ some '.' ∧ wellFormedTarget e.2 = true
  | [], _, e, he => absurd he not_mem_nil
  | (key, value) :: map, h, e, he => by
    simp only [wellFormedEntries, Bool.and_eq_true, decide_eq_true_eq] at h
    rcases mem_cons.mp he with rfl | he
    · exact ⟨h.1.1.1, h.1.2⟩
    · exact of_wellFormedEntries h.2 e he

theorem wellFormed_of_lookup {map : List (Text × Json)} {target : Json} (hwf : wellFormedExports (.obj map) = true)
    (h : lookup map key = some target) : wellFormedTarget target = true := by
  obtain ⟨e, he, -, rfl⟩ := exists_of_lookup h
  rcases Bool.or_eq_true_iff.mp hwf with hentries | hdots
  · exact (of_wellFormedEntries hentries e he).2
  · have := all_eq_true.mp hdots e he
    simp only [Bool.and_eq_true] at this
    exact this.2

/-- Node's entry has a target that is well-formed. -/
theorem wellFormed_of_entryOf (e : Exports) {target : Json} {w : Option Text}
    (ht : entryOf e.value subpath = some (target, w)) : wellFormedTarget target = true := by
  obtain ⟨exported, hwf⟩ := e
  simp only at ht
  cases exported with
  | str | arr =>
    rw [entryOf] at ht
    split_ifs at ht
    cases ht
    exact hwf
  | null | bool | num => cases ht
  | obj map =>
    rw [entryOf] at ht
    split_ifs at ht with hsub hall hdot
    · -- condition objects
      cases ht
      rcases Bool.or_eq_true_iff.mp hwf with hentries | hdots
      · exact hentries
      · have hnil : map = [] := by
          refine eq_nil_iff_forall_not_mem.mpr fun e he => ?_
          have hd := all_eq_true.mp hdots e he
          simp only [Bool.and_eq_true] at hd
          exact absurd (by simpa using hd.1.1) (by simpa using all_eq_true.mp hall e he)
        rw [hnil]
        rfl
    · obtain ⟨_, hl, he⟩ := Option.map_eq_some_iff.mp ht
      cases he
      exact wellFormed_of_lookup hwf hl
    · rw [packageImportsExportsTarget] at ht
      split at ht
      · rename_i hl
        cases ht
        split_ifs at hl
        exact wellFormed_of_lookup hwf hl
      · split at ht
        · cases ht
        · split at ht
          · rename_i hl
            cases ht
            exact wellFormed_of_lookup hwf hl
          · cases ht

/-- Where the source picks a pattern, it picks Node's. -/
theorem bestPattern_eq (h : Regular exported subpath conditions) :
    (bestPattern subpath (patternKeys exported subpath)).map (fun b => (b.key, some b.parts)) =
      (expansionKey subpath (patternKeys exported subpath)).map fun key => (key, splitStar key) := by
  have hpat := h.pattern
  cases hx : expansionKey subpath (patternKeys exported subpath) with
  | none =>
    rw [hx] at hpat
    rw [bestPattern_of_none hpat]
    rfl
  | some key =>
    rw [hx] at hpat
    obtain ⟨parts, hs, hb⟩ := bestPattern_of_first hpat
    rw [hb, Option.map_some, Option.map_some, hs]

/-- **One entry** for both, in the regular cases. -/
theorem resolveExportCandidates_eq (e : Exports) (h : Regular e.value subpath conditions) :
    resolveExportCandidates e.value subpath conditions =
      match entryOf e.value subpath with
      | none => []
      | some (target, w) => resolveTarget conditions w target := by
  obtain ⟨exported, hwf⟩ := e
  cases exported with
  | str | arr =>
    simp only [resolveExportCandidates, entryOf]
    split_ifs <;> rfl
  | null | bool | num => rfl
  | obj map =>
    rcases map with _ | ⟨e0, rest⟩
    · -- no key at all
      by_cases hsub : subpath = ['.']
      · simp [resolveExportCandidates, entryOf, hsub, lookup, bestPattern, resolveTarget, resolveEntries]
      · simp [resolveExportCandidates, entryOf, hsub, lookup, bestPattern, packageImportsExportsTarget, expansionKey,
          expansionKeys]
    generalize hmap : e0 :: rest = map at *
    have he0 : e0 ∈ map := hmap ▸ mem_cons_self
    rcases Bool.or_eq_true_iff.mp hwf with hentries | hdots
    · -- condition objects
      have hhead := fun e he => (of_wellFormedEntries hentries e he).1
      have hdot : (map.all fun e => e.1.head? = some '.') = false := by
        rw [all_eq_false]
        exact ⟨e0, he0, by simpa using hhead e0 he0⟩
      have hnodot : (map.all fun e => e.1.head? ≠ some '.') = true := by
        rw [all_eq_true]
        exact fun e he => by simpa using hhead e he
      simp only [resolveExportCandidates, entryOf, hdot, hnodot]
      by_cases hsub : subpath = ['.'] <;> simp [hsub]
    · -- a map of subpaths
      have hall : ∀ e ∈ map, e.1.head? = some '.' ∧ e.1.count '*' ≤ 1 ∧ wellFormedTarget e.2 = true := by
        intro e he
        have := all_eq_true.mp hdots e he
        simpa [and_assoc] using this
      have hdot : (map.all fun e => e.1.head? = some '.') = true := by
        rw [all_eq_true]
        exact fun e he => by simpa using (hall e he).1
      have hhas : (map.all fun e => e.1.head? ≠ some '.') = false := by
        rw [all_eq_false]
        exact ⟨e0, he0, by simpa using (hall e0 he0).1⟩
      simp only [resolveExportCandidates, entryOf, hdot, hhas, Bool.not_true, Bool.false_eq_true, if_false, if_true]
      cases hl : lookup map subpath with
      | some target =>
        by_cases hsub : subpath = ['.']
        · subst hsub
          rw [if_pos rfl, hl]
          rfl
        rw [if_neg hsub, packageImportsExportsTarget]
        by_cases hstar : '*' ∈ subpath
        · -- the key is a pattern for Node, and its star stands for a star
          obtain ⟨e, he, hkey, -⟩ := exists_of_lookup hl
          have hcount : subpath.count '*' = 1 :=
            le_antisymm (hkey ▸ (hall e he).2.1) (count_pos_iff.mpr hstar)
          obtain ⟨parts, hs⟩ : ∃ parts, splitStar subpath = some parts := ⟨_, if_pos hstar⟩
          rw [if_pos hstar, expansionKey_self hs hcount (mem_map.mpr ⟨e, he, hkey⟩)]
          simp only [hs, hl, wildcardOf_self hs]
          have hwt := wellFormed_of_lookup hwf hl
          rw [resolveTarget_eq target hwt, resolveTarget_eq target hwt, textsOf_self]
        · rw [if_neg hstar, hl]
      | none =>
        have hkeys : patternKeys (.obj map) subpath = map.map Prod.fst := if_pos ⟨hdot, hl⟩
        have hbest := bestPattern_eq h
        rw [hkeys] at hbest
        by_cases hsub : subpath = ['.']
        · subst hsub
          have hnone : expansionKey ['.'] (map.map Prod.fst) = none := by
            refine expansionKey_dot fun key hk => ?_
            obtain ⟨e, he, rfl⟩ := mem_map.mp hk
            exact (hall e he).1
          rw [hnone, Option.map_none, Option.map_eq_none_iff] at hbest
          simp [hl, hbest]
        rw [if_neg hsub, packageImportsExportsTarget, show (if '*' ∈ subpath then none else lookup map subpath) = none by
          split_ifs <;> simp [hl]]
        cases hx : expansionKey subpath (map.map Prod.fst) with
        | none =>
          rw [hx, Option.map_none, Option.map_eq_none_iff] at hbest
          rw [hbest]
        | some key =>
          rw [hx] at hbest
          obtain ⟨b, hb, he⟩ := Option.map_eq_some_iff.mp hbest
          obtain ⟨rfl, hs⟩ := Prod.mk.inj he
          simp only [hb, ← hs]
          cases lookup map b.key <;> rfl

/-- Where Node refuses the subpath or its first end is a stop, the source finds no text. -/
def Unblocked (conditions : List Text) (subpath : Text) (target : Json) (w : Option Text) : Prop :=
  subpath.getLast? = some '/' ∨ w.all validMatch = false ∨
    (leaves ("default".toList :: conditions) target).head? = some none → ∀ text, some text ∉ leaves conditions target

theorem head_texts_eq_none {ends : List (Option Text)} :
    (textsOf patternMatch ends).head? = none ↔ ∀ text, some text ∉ ends := by rw [List.head?_eq_none_iff, textsOf_eq_nil]

/-- On one target the two agree, when the source goes to Node's first text. -/
theorem head_texts_iff {taken ends : List (Option Text)} (hsub : taken.Sublist ends)
    (hfirst : patternMatch.all validMatch = true → ∀ text, ends.head? = some (some text) → taken.head? = some (some text)) :
    (textsOf patternMatch taken).head? = (match resolvedOf patternMatch ends with | .target text => some text | _ => none) ↔
      (patternMatch.all validMatch = false ∨ ends.head? = some none → ∀ text, some text ∉ taken) := by
  rcases ends with _ | ⟨_ | text, ends⟩
  · rw [sublist_nil] at hsub
    simp [hsub, resolvedOf, textsOf]
  · rw [show resolvedOf patternMatch (none :: ends) = .stopped from rfl]
    simp [head_texts_eq_none, -List.head?_eq_none_iff]
  · cases hw : patternMatch.all validMatch with
    | false =>
      rw [show resolvedOf patternMatch (some text :: ends) = .stopped by simp [resolvedOf, hw]]
      simp [head_texts_eq_none, -List.head?_eq_none_iff]
    | true =>
      obtain ⟨rest, hrest⟩ := List.head?_eq_some_iff.mp (hfirst hw text rfl)
      simp [resolvedOf, hw, hrest, textsOf]

/-- A key for one file and two patterns for the files. -/
def fileExports : Exports :=
  ⟨.obj [("./f/a.js".toList, .str "./x.js".toList), ("./f/*".toList, .str "./src/*".toList),
    ("./f/*.js".toList, .str "./src/*.js".toList)], by decide +kernel⟩

/-- Exports that keep a condition from being used. -/
def nullExports : Exports :=
  ⟨.obj [("import".toList, .null), ("default".toList, .str "./x.js".toList)], by decide +kernel⟩

end Resolve

end Scriptc
