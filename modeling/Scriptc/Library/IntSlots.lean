import Scriptc.Library.RecordMatcher

/-!
# Merging integer slots

`libraryIntSlotConfig` and `mergeSidecarIntSlots` of `library/section-resolution.ts`: the slots
that the profile's export map declares as integers, and those that the facts of the sidecar add.
Function slots are written in place; record slots are checked for conflicting classes.
-/

namespace IntSlots

open List

inductive IntClass where
  | i64
  | u64
  deriving DecidableEq

def IntClass.text : IntClass → String
  | .i64 => "i64"
  | .u64 => "u64"

/-- A marshalling class; `plain` are those without an integer shape. -/
inductive LibClass where
  | int (cls : IntClass)
  | u8
  | u32
  | i32
  | plain (name : String)
  deriving DecidableEq

def LibClass.int? : LibClass → Option IntClass
  | .int cls => some cls
  | _ => none

/-- The classes whose proven shape seeds a parameter. -/
def LibClass.seed? : LibClass → Option LibClass
  | .u8 => some .u8
  | .u32 => some .u32
  | .i32 => some .i32
  | _ => none

/-- An exported function, with the classes of its values. -/
structure LibraryExport where
  exportName : String
  params : List LibClass
  returns : LibClass

/-- An export is mapped once only. -/
structure LibraryProfile where
  exports : List LibraryExport
  distinct : (exports.map (·.exportName)).Nodup

/-- The integer slots of a function, with the places that declared them. -/
structure FnIntSlots where
  fnName : String
  params : List (Option IntClass)
  paramPaths : List (Option String)
  ret : Option IntClass
  retPath : Option String
  paramSeeds : List (Option LibClass)

/-- An integer slot of a record. -/
structure RecordIntSlot where
  cls : IntClass
  paths : List String

/-- `records` is by shape id and field. -/
structure IntSlotConfig where
  fns : String → Option FnIntSlots
  records : String → String → Option RecordIntSlot

def IntSlotConfig.setFn (cfg : IntSlotConfig) (fnName : String) (slots : FnIntSlots) : IntSlotConfig :=
  { cfg with fns := Function.update cfg.fns fnName (some slots) }

def IntSlotConfig.setRecord (cfg : IntSlotConfig) (id field : String) (slot : RecordIntSlot) : IntSlotConfig :=
  { cfg with records := Function.update cfg.records id (Function.update (cfg.records id) field (some slot)) }

/-! ### The export map -/

def paramPath (fnName : String) (i : ℕ) : String := "exports." ++ fnName ++ ".params[" ++ toString i ++ "]"

def returnPath (fnName : String) : String := "exports." ++ fnName ++ ".return"

def LibraryExport.slots (e : LibraryExport) : FnIntSlots where
  fnName := e.exportName
  params := e.params.map (·.int?)
  paramPaths := e.params.mapIdx fun i c => c.int?.map fun _ => paramPath e.exportName i
  ret := e.returns.int?
  retPath := e.returns.int?.map fun _ => returnPath e.exportName
  paramSeeds := e.params.map (·.seed?)

/-- The export declares nothing. -/
def FnIntSlots.empty (slots : FnIntSlots) : Bool :=
  slots.params.all (·.isNone) && slots.ret.isNone && slots.paramSeeds.all (·.isNone)

def libraryIntSlotConfig (profile : LibraryProfile) : IntSlotConfig :=
  profile.exports.foldl (fun cfg e => if e.slots.empty then cfg else cfg.setFn e.exportName e.slots) ⟨fun _ => none, fun _ _ => none⟩

/-! ### The facts of the sidecar -/

inductive FnSlot where
  | param (index : ℕ)
  | ret
  deriving DecidableEq

structure HelperFact where
  fnName : String
  slot : FnSlot
  cls : IntClass
  path : String

structure RecordFact where
  fields : List (String × TypePattern)
  kindMayBeOmitted : Bool
  targetField : String
  cls : IntClass
  path : String
  loc : String

structure IntegerSlotFacts where
  helpers : List HelperFact
  records : List RecordFact

structure Diagnostic where
  message : String
  loc : String
  hint : String

/-- The array, made longer where it has no such index. -/
def pad {α : Type*} (n : ℕ) (l : List (Option α)) : List (Option α) := l ++ replicate (n - l.length) none

def FnIntSlots.declare (slots : FnIntSlots) (h : HelperFact) : FnIntSlots :=
  match h.slot with
  | .param i =>
    { slots with
      params := (pad (i + 1) slots.params).set i (some h.cls)
      paramPaths := (pad (i + 1) slots.paramPaths).set i (some h.path)
      paramSeeds := pad (i + 1) slots.paramSeeds }
  | .ret => { slots with ret := some h.cls, retPath := some h.path }

def mergeHelper (mod : IrModule) (cfg : IntSlotConfig) (h : HelperFact) : IntSlotConfig :=
  let index := match h.slot with | .param i => i | .ret => 0
  let arity := max (((mod.functions.find? (·.name = h.fnName)).map (·.arity)).getD 0) (index + 1)
  let slots := (cfg.fns h.fnName).getD
    ⟨h.fnName, replicate arity none, replicate arity none, none, none, replicate arity none⟩
  cfg.setFn h.fnName (slots.declare h)

/-- How a field carries its number. -/
inductive NumberCarrier where
  | plain
  | optional

/-- Whether present values of the type carry one number. -/
def numberCarrierKind (mod : IrModule) : IrType → Option NumberCarrier
  | .primitive .f64 => some .plain
  | .union unionId =>
    match mod.unions.find? (·.id = unionId) with
    | none => none
    | some union =>
      let isNumber : IrType → Bool | .primitive .f64 => true | _ => false
      let isUnit : IrType → Bool | .primitive .nullT | .primitive .undefinedT => true | _ => false
      if union.arms.all (fun arm => isNumber arm || isUnit arm) ∧ union.arms.countP isNumber = 1 ∧ 0 < union.arms.countP isUnit then
        some .optional
      else none
  | _ => none

/-- The fact is about a field of the shape that carries a number. -/
def RecordFact.binds (mod : IrModule) (r : RecordFact) (shape : IrRecordShape) : Bool :=
  recordMatches mod r.fields r.kindMayBeOmitted shape &&
    match shape.fields.find? (·.1 = r.targetField) with
    | none => false
    | some target => (numberCarrierKind mod target.2).isSome

def conflict (r : RecordFact) (existing : RecordIntSlot) : Diagnostic where
  message := "integer slots " ++ " and ".intercalate
      (existing.paths.map (fun path => "'" ++ path ++ "' (" ++ existing.cls.text ++ ")") ++ ["'" ++ r.path ++ "' (" ++ r.cls.text ++ ")"]) ++
    " collapse to the same lowered record field '" ++ r.targetField ++ "' — their proof obligations cannot be kept distinct"
  loc := r.loc
  hint := "kind-tagged union arms and structurally identical records may share one lowered shape — same-class declarations coalesce, but differing classes require distinct structural shapes or at most one classified slot"

/-- One fact and one shape. -/
def mergeShape (mod : IrModule) (r : RecordFact) (shape : IrRecordShape) (cfg : IntSlotConfig) : Except Diagnostic IntSlotConfig :=
  if r.binds mod shape then
    match cfg.records shape.id r.targetField with
    | none => .ok (cfg.setRecord shape.id r.targetField ⟨r.cls, [r.path]⟩)
    | some existing =>
      if existing.cls ≠ r.cls then .error (conflict r existing)
      else if r.path ∈ existing.paths then .ok cfg
      else .ok (cfg.setRecord shape.id r.targetField ⟨existing.cls, existing.paths ++ [r.path]⟩)
  else .ok cfg

def mergeRecord (mod : IrModule) (r : RecordFact) : List IrRecordShape → IntSlotConfig → Except Diagnostic IntSlotConfig
  | [], cfg => .ok cfg
  | shape :: shapes, cfg =>
    match mergeShape mod r shape cfg with
    | .error d => .error d
    | .ok cfg => mergeRecord mod r shapes cfg

def mergeRecords (mod : IrModule) : List RecordFact → IntSlotConfig → Except Diagnostic IntSlotConfig
  | [], cfg => .ok cfg
  | r :: rs, cfg =>
    match mergeRecord mod r mod.records cfg with
    | .error d => .error d
    | .ok cfg => mergeRecords mod rs cfg

def mergeSidecarIntSlots (cfg : IntSlotConfig) (facts : IntegerSlotFacts) (mod : IrModule) : Except Diagnostic IntSlotConfig :=
  mergeRecords mod facts.records (facts.helpers.foldl (mergeHelper mod) cfg)

/-! ### What is declared -/

/-- The class and the path that the configuration has for a function slot. -/
def IntSlotConfig.fnSlot (cfg : IntSlotConfig) (fnName : String) (slot : FnSlot) : Option (IntClass × String) :=
  (cfg.fns fnName).bind fun slots =>
    match slot with
    | .param i => (slots.params[i]?.join).bind fun cls => (slots.paramPaths[i]?.join).map fun path => (cls, path)
    | .ret => slots.ret.bind fun cls => slots.retPath.map fun path => (cls, path)

/-- The export map declares the slot. -/
def LibraryProfile.Declares (profile : LibraryProfile) (fnName : String) (slot : FnSlot) (cls : IntClass) (path : String) : Prop :=
  ∃ e ∈ profile.exports, e.exportName = fnName ∧
    match slot with
    | .param i => e.params[i]? = some (.int cls) ∧ path = paramPath fnName i
    | .ret => e.returns = .int cls ∧ path = returnPath fnName

/-- The export map or a fact of the sidecar declares the slot. -/
def Declared (profile : LibraryProfile) (facts : IntegerSlotFacts) (fnName : String) (slot : FnSlot) (cls : IntClass) (path : String) : Prop :=
  profile.Declares fnName slot cls path ∨ ⟨fnName, slot, cls, path⟩ ∈ facts.helpers

/-- The declaration is one that the merge must keep: by the export map, or of a function that exists. -/
def Bound (profile : LibraryProfile) (facts : IntegerSlotFacts) (mod : IrModule) (fnName : String) (slot : FnSlot) (cls : IntClass)
    (path : String) : Prop :=
  profile.Declares fnName slot cls path ∨ (⟨fnName, slot, cls, path⟩ ∈ facts.helpers ∧ ∃ f ∈ mod.functions, f.name = fnName)

/-- A fact that binds declares the slot of a record field. -/
def RecordDeclared (facts : IntegerSlotFacts) (mod : IrModule) (id field : String) (cls : IntClass) (path : String) : Prop :=
  ∃ r ∈ facts.records, ∃ shape ∈ mod.records, r.binds mod shape = true ∧ shape.id = id ∧ r.targetField = field ∧ r.cls = cls ∧ r.path = path

/-- Two facts give one record field different classes. -/
def RecordConflict (facts : IntegerSlotFacts) (mod : IrModule) : Prop :=
  ∃ id field cls cls' path path', RecordDeclared facts mod id field cls path ∧ RecordDeclared facts mod id field cls' path' ∧ cls ≠ cls'

/-!
## What the merge of integer slots keeps

A function slot ends with the last fact about it, or with what the export map says; a record
slot with all facts about it, which have one class. The merge loses nothing exactly when the
function slots are declared consistently (`FnConsistent`), or when it refuses.
-/

/-! ### Function slots -/

def FnIntSlots.get (slots : FnIntSlots) : FnSlot → Option (IntClass × String)
  | .param i => (slots.params[i]?.join).bind fun cls => (slots.paramPaths[i]?.join).map fun path => (cls, path)
  | .ret => slots.ret.bind fun cls => slots.retPath.map fun path => (cls, path)

theorem fnSlot_eq (cfg : IntSlotConfig) (f : String) (slot : FnSlot) : cfg.fnSlot f slot = (cfg.fns f).bind (·.get slot) := by
  unfold IntSlotConfig.fnSlot
  cases cfg.fns f with
  | none => rfl
  | some slots => cases slot <;> rfl

theorem fnSlot_setFn (cfg : IntSlotConfig) (f g : String) (slots : FnIntSlots) (slot : FnSlot) :
    (cfg.setFn g slots).fnSlot f slot = if f = g then slots.get slot else cfg.fnSlot f slot := by
  rw [fnSlot_eq, fnSlot_eq]
  by_cases h : f = g
  · subst h
    simp [IntSlotConfig.setFn]
  · simp [IntSlotConfig.setFn, h]

theorem join_pad {α : Type*} (n i : ℕ) (l : List (Option α)) : (pad n l)[i]?.join = l[i]?.join := by
  unfold pad
  rw [List.getElem?_append]
  split
  case isTrue => rfl
  case isFalse h =>
    rw [List.getElem?_replicate, getElem?_eq_none (Nat.le_of_not_lt h)]
    split <;> rfl

theorem join_set {α : Type*} (i j : ℕ) (a : α) (l : List (Option α)) :
    ((pad (i + 1) l).set i (some a))[j]?.join = if j = i then some a else l[j]?.join := by
  by_cases h : j = i
  · subst h
    have hlen : j < (pad (j + 1) l).length := by
      unfold pad
      rw [length_append, length_replicate]
      omega
    simp [hlen]
  · rw [List.getElem?_set_ne (Ne.symm h), if_neg h, join_pad]

theorem declare_get (slots : FnIntSlots) (h : HelperFact) (slot : FnSlot) :
    (slots.declare h).get slot = if slot = h.slot then some (h.cls, h.path) else slots.get slot := by
  unfold FnIntSlots.declare
  cases hslot : h.slot with
  | param i =>
    cases slot with
    | param j =>
      simp only [FnIntSlots.get, join_set, FnSlot.param.injEq]
      split <;> simp
    | ret => simp [FnIntSlots.get]
  | ret =>
    cases slot with
    | param j => simp [FnIntSlots.get]
    | ret => simp [FnIntSlots.get]

/-- New slots declare nothing. -/
theorem get_new (fnName : String) (n : ℕ) (slot : FnSlot) :
    (⟨fnName, replicate n none, replicate n none, none, none, replicate n none⟩ : FnIntSlots).get slot = none := by
  cases slot with
  | param i =>
    have : (replicate n (none : Option IntClass))[i]?.join = none := by
      rw [List.getElem?_replicate]
      split <;> rfl
    simp only [FnIntSlots.get, this, Option.bind_none]
  | ret => rfl

theorem mergeHelper_fnSlot (mod : IrModule) (cfg : IntSlotConfig) (h : HelperFact) (f : String) (slot : FnSlot) :
    (mergeHelper mod cfg h).fnSlot f slot = if h.fnName = f ∧ h.slot = slot then some (h.cls, h.path) else cfg.fnSlot f slot := by
  unfold mergeHelper
  simp only [fnSlot_setFn, declare_get]
  by_cases hf : h.fnName = f
  · subst hf
    by_cases hs : h.slot = slot
    · simp [hs]
    · rw [if_pos rfl, if_neg (Ne.symm hs), if_neg (fun h => hs h.2), fnSlot_eq]
      cases cfg.fns h.fnName with
      | some slots => rfl
      | none => exact get_new _ _ _
  · rw [if_neg (Ne.symm hf), if_neg fun h => hf h.1]

/-- The last fact about a function slot. -/
def lastFact (helpers : List HelperFact) (f : String) (slot : FnSlot) : Option HelperFact :=
  helpers.reverse.find? fun h => decide (h.fnName = f ∧ h.slot = slot)

variable {slot : FnSlot}

theorem lastFact_spec {helpers : List HelperFact} {f : String} {h : HelperFact} (hlast : lastFact helpers f slot = some h) :
    ⟨f, slot, h.cls, h.path⟩ ∈ helpers := by
  have hmem := mem_reverse.mp (mem_of_find?_eq_some hlast)
  have hsame : h.fnName = f ∧ h.slot = slot := by simpa using find?_some hlast
  obtain ⟨fnName, slot', cls, path⟩ := h
  obtain ⟨rfl, rfl⟩ := hsame
  exact hmem

variable {cls : IntClass}

theorem lastFact_ne_none {helpers : List HelperFact} {f : String} {path : String}
    (h : ⟨f, slot, cls, path⟩ ∈ helpers) : lastFact helpers f slot ≠ none := by
  intro hnone
  have := find?_eq_none.mp hnone _ (mem_reverse.mpr h)
  simp at this

theorem lastFact_append_self (helpers : List HelperFact) (h : HelperFact) : lastFact (helpers ++ [h]) h.fnName h.slot = some h := by
  simp [lastFact]

/-- After the facts, a slot has the last fact about it. -/
theorem helpers_fnSlot (mod : IrModule) (helpers : List HelperFact) (cfg : IntSlotConfig) (f : String) (slot : FnSlot) :
    (helpers.foldl (mergeHelper mod) cfg).fnSlot f slot =
      match lastFact helpers f slot with
      | some h => some (h.cls, h.path)
      | none => cfg.fnSlot f slot := by
  induction helpers using reverseRecOn with
  | nil => rfl
  | append_singleton helpers h ih =>
    rw [foldl_append, foldl_cons, foldl_nil, mergeHelper_fnSlot, ih]
    unfold lastFact
    rw [reverse_append, reverse_singleton, singleton_append]
    by_cases hsame : h.fnName = f ∧ h.slot = slot
    · rw [if_pos hsame, List.find?_cons_of_pos (by simpa using hsame)]
    · rw [if_neg hsame, find?_cons_of_neg (by simpa using hsame)]

theorem helpers_records (mod : IrModule) (helpers : List HelperFact) (cfg : IntSlotConfig) :
    (helpers.foldl (mergeHelper mod) cfg).records = cfg.records := by
  induction helpers generalizing cfg with
  | nil => rfl
  | cons h helpers ih => exact ih _

/-! ### The export map -/

theorem slots_get (e : LibraryExport) (slot : FnSlot) (cls : IntClass) (path : String) :
    e.slots.get slot = some (cls, path) ↔
      match slot with
      | .param i => e.params[i]? = some (.int cls) ∧ path = paramPath e.exportName i
      | .ret => e.returns = .int cls ∧ path = returnPath e.exportName := by
  have int (c : LibClass) : c.int? = some cls ↔ c = .int cls := by cases c <;> simp [LibClass.int?]
  cases slot with
  | param i =>
    simp only [LibraryExport.slots, FnIntSlots.get, getElem?_map, List.getElem?_mapIdx]
    cases hi : e.params[i]? with
    | none => simp
    | some c =>
      cases hc : c.int? with
      | none =>
        have : c ≠ .int cls := fun he => by rw [(int c).mpr he] at hc; cases hc
        simp [hc, this]
      | some cls' =>
        have : cls' = cls ↔ c = .int cls := by rw [← int c, hc, Option.some.injEq]
        simp only [Option.map_some, Option.join_some, hc, Option.bind_some, Option.some.injEq, Prod.mk.injEq, this]
        exact and_congr_right fun _ => eq_comm
  | ret =>
    simp only [LibraryExport.slots, FnIntSlots.get]
    cases hc : e.returns.int? with
    | none =>
      have : e.returns ≠ .int cls := fun he => by rw [(int _).mpr he] at hc; cases hc
      simp [this]
    | some cls' =>
      have : cls' = cls ↔ e.returns = .int cls := by rw [← int, hc, Option.some.injEq]
      simp only [Option.map_some, Option.bind_some, Option.some.injEq, Prod.mk.injEq, this]
      exact and_congr_right fun _ => eq_comm

theorem get_of_empty {slots : FnIntSlots} (h : slots.empty = true) (slot : FnSlot) : slots.get slot = none := by
  simp only [FnIntSlots.empty, Bool.and_eq_true, all_eq_true, Option.isNone_iff_eq_none] at h
  obtain ⟨⟨hparams, hret⟩, -⟩ := h
  cases slot with
  | param i =>
    simp only [FnIntSlots.get]
    cases hi : slots.params[i]? with
    | none => rfl
    | some c => simp [hparams c (mem_of_getElem? hi)]
  | ret => simp [FnIntSlots.get, hret]

theorem exports_fnSlot (exports : List LibraryExport) (hdistinct : (exports.map (·.exportName)).Nodup) (f : String) (slot : FnSlot)
    (v : IntClass × String) :
    (exports.foldl (fun cfg e => if e.slots.empty then cfg else cfg.setFn e.exportName e.slots)
        (⟨fun _ => none, fun _ _ => none⟩ : IntSlotConfig)).fnSlot f slot = some v ↔
      ∃ e ∈ exports, e.exportName = f ∧ e.slots.get slot = some v := by
  induction exports using reverseRecOn with
  | nil => simp [IntSlotConfig.fnSlot]
  | append_singleton exports e ih =>
    rw [map_append, map_singleton, nodup_append] at hdistinct
    obtain ⟨hdistinct, -, hnew⟩ := hdistinct
    rw [foldl_append, foldl_cons, foldl_nil]
    simp only [mem_append, mem_singleton, or_and_right, exists_or, exists_eq_left]
    rw [← ih hdistinct]
    split
    case isTrue hempty => simp [get_of_empty hempty]
    case isFalse =>
      rw [fnSlot_setFn]
      by_cases hf : f = e.exportName
      · have hnone : ∀ e' ∈ exports, e'.exportName ≠ f := fun e' he' => by
          rw [hf]
          exact hnew _ (mem_map_of_mem he') _ (mem_singleton_self _)
        rw [if_pos hf, ih hdistinct]
        constructor
        · exact fun h => .inr ⟨hf.symm, h⟩
        · rintro (⟨e', he', hname, -⟩ | ⟨-, h⟩)
          · exact absurd hname (hnone e' he')
          · exact h
      · rw [if_neg hf]
        exact ⟨.inl, fun h => h.resolve_right fun h => hf h.1.symm⟩

theorem library_fnSlot (profile : LibraryProfile) (f : String) (slot : FnSlot) (cls : IntClass) (path : String) :
    (libraryIntSlotConfig profile).fnSlot f slot = some (cls, path) ↔ profile.Declares f slot cls path := by
  unfold libraryIntSlotConfig LibraryProfile.Declares
  rw [exports_fnSlot _ profile.distinct]
  refine exists_congr fun e => and_congr_right fun _ => and_congr_right fun hname => ?_
  have hget := slots_get e slot cls path
  rw [hname] at hget
  cases slot <;> exact hget

theorem library_records (profile : LibraryProfile) (id field : String) : (libraryIntSlotConfig profile).records id field = none := by
  have keep : ∀ (exports : List LibraryExport) (cfg : IntSlotConfig),
      (exports.foldl (fun cfg e => if e.slots.empty then cfg else cfg.setFn e.exportName e.slots) cfg).records = cfg.records := by
    intro exports
    induction exports with
    | nil => exact fun _ => rfl
    | cons e exports ih =>
      intro cfg
      rw [foldl_cons, ih]
      split <;> rfl
  exact congrFun (congrFun (keep profile.exports _) id) field

/-! ### Record slots -/

/-- The fact declares the slot through the shape. -/
def Adds (mod : IrModule) (r : RecordFact) (shape : IrRecordShape) (id field : String) (cls : IntClass) (path : String) : Prop :=
  r.binds mod shape = true ∧ shape.id = id ∧ r.targetField = field ∧ r.cls = cls ∧ r.path = path

/-- The record slots are those declared so far. -/
structure RecordsOk (D : String → String → IntClass → String → Prop) (cfg : IntSlotConfig) : Prop where
  present : ∀ id field cls path, D id field cls path → ∃ slot, cfg.records id field = some slot ∧ slot.cls = cls ∧ path ∈ slot.paths
  known : ∀ id field slot, cfg.records id field = some slot → ∃ path, D id field slot.cls path

/-- Two declarations give one field different classes. -/
def Clash (D : String → String → IntClass → String → Prop) : Prop :=
  ∃ id field cls cls' path path', D id field cls path ∧ D id field cls' path' ∧ cls ≠ cls'

variable {mod : IrModule} {cfg : IntSlotConfig} {D D' : String → String → IntClass → String → Prop}

theorem RecordsOk.not_clash (h : RecordsOk D cfg) : ¬ Clash D := by
  rintro ⟨id, field, cls, cls', path, path', hd, hd', hne⟩
  obtain ⟨slot, hslot, rfl, -⟩ := h.present _ _ _ _ hd
  obtain ⟨slot', hslot', rfl, -⟩ := h.present _ _ _ _ hd'
  rw [hslot] at hslot'
  cases hslot'
  exact hne rfl

/-- What a part of the merge leaves: all declarations, or a refusal because two of them clash. -/
def Merges (D : String → String → IntClass → String → Prop) (cfg : IntSlotConfig) (result : Except Diagnostic IntSlotConfig) : Prop :=
  (∃ cfg', result = .ok cfg' ∧ RecordsOk D cfg' ∧ cfg'.fns = cfg.fns) ∨ ((∃ d, result = .error d) ∧ Clash D)

theorem Clash.mono (h : Clash D) (hsub : ∀ id field cls path, D id field cls path → D' id field cls path) : Clash D' := by
  obtain ⟨id, field, cls, cls', path, path', hd, hd', hne⟩ := h
  exact ⟨id, field, cls, cls', path, path', hsub _ _ _ _ hd, hsub _ _ _ _ hd', hne⟩

theorem RecordsOk.congr (h : RecordsOk D cfg) (hiff : ∀ id field cls path, D id field cls path ↔ D' id field cls path) : RecordsOk D' cfg where
  present id field cls path hd := h.present id field cls path ((hiff _ _ _ _).mpr hd)
  known id field slot hs := by
    obtain ⟨path, hd⟩ := h.known id field slot hs
    exact ⟨path, (hiff _ _ _ _).mp hd⟩

theorem setRecord_self (cfg : IntSlotConfig) (id field : String) (slot : RecordIntSlot) : (cfg.setRecord id field slot).records id field = some slot := by
  simp [IntSlotConfig.setRecord]

theorem setRecord_of_ne (cfg : IntSlotConfig) {id field id' field' : String} (slot : RecordIntSlot) (h : ¬ (id' = id ∧ field' = field)) :
    (cfg.setRecord id field slot).records id' field' = cfg.records id' field' := by
  unfold IntSlotConfig.setRecord
  by_cases hid : id' = id
  · subst hid
    have hfield : field' ≠ field := fun hf => h ⟨rfl, hf⟩
    simp [hfield]
  · simp [hid]

/-- One slot gets a new declaration, with the class it has. -/
theorem RecordsOk.set (h : RecordsOk D cfg) {id field path : String} {slot : RecordIntSlot} (hcls : slot.cls = cls)
    (hpath : path ∈ slot.paths)
    (hold : ∀ old, cfg.records id field = some old → old.cls = slot.cls ∧ ∀ p ∈ old.paths, p ∈ slot.paths) :
    RecordsOk (fun id' field' cls' path' => D id' field' cls' path' ∨ id = id' ∧ field = field' ∧ cls = cls' ∧ path = path')
      (cfg.setRecord id field slot) where
  present id' field' cls' path' hd := by
    rcases hd with hd | ⟨rfl, rfl, rfl, rfl⟩
    · obtain ⟨old, hslot, hcls, hmem⟩ := h.present _ _ _ _ hd
      by_cases hsame : id' = id ∧ field' = field
      · obtain ⟨rfl, rfl⟩ := hsame
        obtain ⟨hcls', hpaths⟩ := hold old hslot
        exact ⟨slot, setRecord_self .., hcls'.symm.trans hcls, hpaths _ hmem⟩
      · exact ⟨old, (setRecord_of_ne cfg slot hsame).trans hslot, hcls, hmem⟩
    · exact ⟨slot, setRecord_self .., hcls, hpath⟩
  known id' field' slot' hs := by
    by_cases hsame : id' = id ∧ field' = field
    · obtain ⟨rfl, rfl⟩ := hsame
      rw [setRecord_self] at hs
      cases hs
      exact ⟨path, .inr ⟨rfl, rfl, hcls.symm, rfl⟩⟩
    · rw [setRecord_of_ne cfg slot hsame] at hs
      obtain ⟨p, hd⟩ := h.known id' field' slot' hs
      exact ⟨p, .inl hd⟩

theorem mergeShape_merges (mod : IrModule) (r : RecordFact) (shape : IrRecordShape) (h : RecordsOk D cfg) :
    Merges (fun id field cls path => D id field cls path ∨ Adds mod r shape id field cls path) cfg (mergeShape mod r shape cfg) := by
  unfold mergeShape Adds
  split
  case isFalse hb => exact .inl ⟨cfg, rfl, h.congr fun id field cls path => ⟨.inl, fun hd => hd.resolve_right fun ha => hb ha.1⟩, rfl⟩
  case isTrue hb =>
    simp only [hb, true_and]
    cases hslot : cfg.records shape.id r.targetField with
    | none =>
      exact .inl ⟨_, rfl, h.set rfl (mem_singleton_self _) fun old ho => (by rw [hslot] at ho; cases ho), rfl⟩
    | some existing =>
      dsimp only
      by_cases hcls : existing.cls = r.cls
      · rw [if_neg (not_not.mpr hcls)]
        split
        case isTrue hmem =>
          refine .inl ⟨cfg, rfl, ⟨fun id field cls path hd => ?_, fun id field slot hs => ?_⟩, rfl⟩
          · rcases hd with hd | ⟨rfl, rfl, rfl, rfl⟩
            · exact h.present _ _ _ _ hd
            · exact ⟨existing, hslot, hcls, hmem⟩
          · obtain ⟨path, hd⟩ := h.known id field slot hs
            exact ⟨path, .inl hd⟩
        case isFalse =>
          refine .inl ⟨_, rfl, h.set hcls (mem_append_right _ (mem_singleton_self _)) fun old ho => ?_, rfl⟩
          rw [hslot] at ho
          cases ho
          exact ⟨rfl, fun p hp => mem_append_left _ hp⟩
      · rw [if_pos hcls]
        obtain ⟨path, hd⟩ := h.known _ _ _ hslot
        exact .inr ⟨⟨_, rfl⟩, _, _, _, _, _, _, .inl hd, .inr ⟨rfl, rfl, rfl, rfl⟩, hcls⟩

theorem mergeRecord_merges (mod : IrModule) (r : RecordFact) :
    ∀ (shapes : List IrRecordShape) (cfg : IntSlotConfig) (D : String → String → IntClass → String → Prop), RecordsOk D cfg →
      Merges (fun id field cls path => D id field cls path ∨ ∃ shape ∈ shapes, Adds mod r shape id field cls path) cfg
        (mergeRecord mod r shapes cfg) := by
  intro shapes
  induction shapes with
  | nil => exact fun cfg D h => .inl ⟨cfg, rfl, h.congr fun _ _ _ _ => by simp, rfl⟩
  | cons shape shapes ih =>
    intro cfg D h
    rw [mergeRecord]
    rcases mergeShape_merges mod r shape h with ⟨cfg₁, hrun, h₁, hfns⟩ | ⟨⟨d, hrun⟩, hclash⟩
    · rw [hrun]
      rcases ih cfg₁ _ h₁ with ⟨cfg₂, hrun₂, h₂, hfns₂⟩ | ⟨herror, hclash⟩
      · exact .inl ⟨cfg₂, hrun₂, h₂.congr fun _ _ _ _ => by rw [exists_mem_cons_iff, or_assoc], hfns₂.trans hfns⟩
      · exact .inr ⟨herror, hclash.mono fun _ _ _ _ => by rw [exists_mem_cons_iff, or_assoc]; exact id⟩
    · rw [hrun]
      refine .inr ⟨⟨d, rfl⟩, hclash.mono fun _ _ _ _ hd => hd.imp id fun ha => ⟨shape, mem_cons_self, ha⟩⟩

theorem mergeRecords_merges (mod : IrModule) :
    ∀ (records : List RecordFact) (cfg : IntSlotConfig) (D : String → String → IntClass → String → Prop), RecordsOk D cfg →
      Merges (fun id field cls path => D id field cls path ∨ ∃ r ∈ records, ∃ shape ∈ mod.records, Adds mod r shape id field cls path) cfg
        (mergeRecords mod records cfg) := by
  intro records
  induction records with
  | nil => exact fun cfg D h => .inl ⟨cfg, rfl, h.congr fun _ _ _ _ => by simp, rfl⟩
  | cons r records ih =>
    intro cfg D h
    rw [mergeRecords]
    rcases mergeRecord_merges mod r mod.records cfg D h with ⟨cfg₁, hrun, h₁, hfns⟩ | ⟨⟨d, hrun⟩, hclash⟩
    · rw [hrun]
      rcases ih cfg₁ _ h₁ with ⟨cfg₂, hrun₂, h₂, hfns₂⟩ | ⟨herror, hclash⟩
      · exact .inl ⟨cfg₂, hrun₂, h₂.congr fun _ _ _ _ => by rw [exists_mem_cons_iff, or_assoc], hfns₂.trans hfns⟩
      · exact .inr ⟨herror, hclash.mono fun _ _ _ _ => by rw [exists_mem_cons_iff, or_assoc]; exact id⟩
    · rw [hrun]
      refine .inr ⟨⟨d, rfl⟩, hclash.mono fun _ _ _ _ hd => hd.imp id fun ha => ⟨r, mem_cons_self, ha⟩⟩

/-! ### The whole merge -/

variable {profile : LibraryProfile} {facts facts' : IntegerSlotFacts}

/-- The configuration has what the facts say, or two of them clash. -/
theorem merge_cases (profile : LibraryProfile) (facts : IntegerSlotFacts) (mod : IrModule) :
    (∃ cfg, mergeSidecarIntSlots (libraryIntSlotConfig profile) facts mod = .ok cfg ∧ RecordsOk (RecordDeclared facts mod) cfg ∧
        ∀ f slot, cfg.fnSlot f slot =
          match lastFact facts.helpers f slot with
          | some h => some (h.cls, h.path)
          | none => (libraryIntSlotConfig profile).fnSlot f slot) ∨
      ((∃ d, mergeSidecarIntSlots (libraryIntSlotConfig profile) facts mod = .error d) ∧ RecordConflict facts mod) := by
  have start : RecordsOk (fun _ _ _ _ => False) (facts.helpers.foldl (mergeHelper mod) (libraryIntSlotConfig profile)) := by
    refine ⟨fun _ _ _ _ h => h.elim, fun id field slot hs => ?_⟩
    rw [helpers_records, library_records] at hs
    cases hs
  have hiff (id field : String) (cls : IntClass) (path : String) :
      (False ∨ ∃ r ∈ facts.records, ∃ shape ∈ mod.records, Adds mod r shape id field cls path) ↔ RecordDeclared facts mod id field cls path :=
    ⟨fun h => h.resolve_left fun hf => hf, .inr⟩
  rcases mergeRecords_merges mod facts.records _ _ start with ⟨cfg, hrun, h, hfns⟩ | ⟨herror, hclash⟩
  · refine .inl ⟨cfg, hrun, h.congr hiff, fun f slot => ?_⟩
    rw [← helpers_fnSlot mod, fnSlot_eq, fnSlot_eq, hfns]
  · exact .inr ⟨herror, hclash.mono fun id field cls path => (hiff id field cls path).mp⟩

theorem RecordConflict.perm (h : RecordConflict facts mod) (hperm : facts.records.Perm facts'.records) : RecordConflict facts' mod := by
  have declared {id field : String} {cls : IntClass} {path : String} (hd : RecordDeclared facts mod id field cls path) :
      RecordDeclared facts' mod id field cls path := by
    obtain ⟨r, hr, hrest⟩ := hd
    exact ⟨r, hperm.subset hr, hrest⟩
  obtain ⟨id, field, cls, cls', path, path', hd, hd', hne⟩ := h
  exact ⟨id, field, cls, cls', path, path', declared hd, declared hd', hne⟩

/-- Nothing that must be kept is lost, and the classes do not depend on the order of the facts. -/
structure Keeps (profile : LibraryProfile) (facts : IntegerSlotFacts) (mod : IrModule) : Prop where
  functions : ∀ cfg, mergeSidecarIntSlots (libraryIntSlotConfig profile) facts mod = .ok cfg →
    ∀ f slot cls path, Bound profile facts mod f slot cls path → cfg.fnSlot f slot = some (cls, path)
  records : ∀ cfg, mergeSidecarIntSlots (libraryIntSlotConfig profile) facts mod = .ok cfg →
    ∀ id field cls path, RecordDeclared facts mod id field cls path →
      ∃ slot, cfg.records id field = some slot ∧ slot.cls = cls ∧ path ∈ slot.paths
  order : ∀ facts' : IntegerSlotFacts, facts'.helpers.Perm facts.helpers → facts'.records.Perm facts.records →
    (∃ d d', mergeSidecarIntSlots (libraryIntSlotConfig profile) facts mod = .error d ∧
      mergeSidecarIntSlots (libraryIntSlotConfig profile) facts' mod = .error d') ∨
    ∃ cfg cfg', mergeSidecarIntSlots (libraryIntSlotConfig profile) facts mod = .ok cfg ∧
      mergeSidecarIntSlots (libraryIntSlotConfig profile) facts' mod = .ok cfg' ∧
      (∀ f slot, (cfg.fnSlot f slot).map (·.1) = (cfg'.fnSlot f slot).map (·.1)) ∧
      ∀ id field, (cfg.records id field).map (·.cls) = (cfg'.records id field).map (·.cls)

/-- All declarations of a function slot have one class, and the last fact about it has the path
of each that must be kept. -/
structure FnConsistent (profile : LibraryProfile) (facts : IntegerSlotFacts) (mod : IrModule) : Prop where
  classes : ∀ f slot cls path cls' path', Declared profile facts f slot cls path → Declared profile facts f slot cls' path' → cls = cls'
  paths : ∀ f slot cls path, Bound profile facts mod f slot cls path → ∀ h, lastFact facts.helpers f slot = some h → h.path = path

theorem Bound.declared {f : String} {path : String} (h : Bound profile facts mod f slot cls path) :
    Declared profile facts f slot cls path := h.imp id And.left

theorem RecordsOk.classes_eq {cfg' : IntSlotConfig} (h : RecordsOk D cfg) (h' : RecordsOk D' cfg')
    (hiff : ∀ id field cls path, D id field cls path ↔ D' id field cls path) (id field : String) :
    (cfg.records id field).map (·.cls) = (cfg'.records id field).map (·.cls) := by
  cases hslot : cfg.records id field with
  | some slot =>
    obtain ⟨path, hd⟩ := h.known _ _ _ hslot
    obtain ⟨slot', hslot', hcls, -⟩ := h'.present _ _ _ _ ((hiff _ _ _ _).mp hd)
    rw [hslot', Option.map_some, Option.map_some, hcls]
  | none =>
    cases hslot' : cfg'.records id field with
    | none => rfl
    | some slot' =>
      obtain ⟨path, hd⟩ := h'.known _ _ _ hslot'
      obtain ⟨slot, hslot'', -⟩ := h.present _ _ _ _ ((hiff _ _ _ _).mpr hd)
      rw [hslot] at hslot''
      cases hslot''

theorem keeps_of_conflict (h : RecordConflict facts mod) : Keeps profile facts mod := by
  have refused {facts : IntegerSlotFacts} (h : RecordConflict facts mod) :
      ∃ d, mergeSidecarIntSlots (libraryIntSlotConfig profile) facts mod = .error d := by
    rcases merge_cases profile facts mod with ⟨cfg, -, hok, -⟩ | ⟨herror, -⟩
    · exact absurd h hok.not_clash
    · exact herror
  obtain ⟨d, hd⟩ := refused h
  refine ⟨fun cfg hcfg => ?_, fun cfg hcfg => ?_, fun facts' _ hr => .inl ?_⟩
  · rw [hd] at hcfg
    cases hcfg
  · rw [hd] at hcfg
    cases hcfg
  · obtain ⟨d', hd'⟩ := refused (h.perm hr.symm)
    exact ⟨d, d', hd, hd'⟩

theorem keeps_of_consistent (h : FnConsistent profile facts mod) : Keeps profile facts mod := by
  by_cases hconflict : RecordConflict facts mod
  · exact keeps_of_conflict hconflict
  obtain ⟨cfg, hrun, hok, hfns⟩ := (merge_cases profile facts mod).resolve_right fun he => hconflict he.2
  refine ⟨fun cfg' hcfg' f slot cls path hb => ?_, fun cfg' hcfg' => ?_, fun facts' hhelpers hrecords => .inr ?_⟩
  · rw [hrun] at hcfg'
    cases hcfg'
    rw [hfns]
    cases hlast : lastFact facts.helpers f slot with
    | some last =>
      rw [h.classes f slot _ _ _ _ hb.declared (.inr (lastFact_spec hlast)), ← h.paths f slot cls path hb last hlast]
    | none =>
      rcases hb with hb | ⟨hb, -⟩
      · exact (library_fnSlot profile f slot cls path).mpr hb
      · exact absurd hlast (lastFact_ne_none hb)
  · rw [hrun] at hcfg'
    cases hcfg'
    exact hok.present
  · obtain ⟨cfg', hrun', hok', hfns'⟩ := (merge_cases profile facts' mod).resolve_right fun he => hconflict (he.2.perm hrecords)
    refine ⟨cfg, cfg', hrun, hrun', fun f slot => ?_, hok.classes_eq hok' fun id field cls path => ?_⟩
    · rw [hfns, hfns']
      cases hlast : lastFact facts.helpers f slot with
      | some last =>
        have hmem := lastFact_spec hlast
        cases hlast' : lastFact facts'.helpers f slot with
        | some last' =>
          have hmem' := hhelpers.subset (lastFact_spec hlast')
          exact congrArg some (h.classes f slot _ _ _ _ (.inr hmem) (.inr hmem'))
        | none => exact absurd hlast' (lastFact_ne_none (hhelpers.symm.subset hmem))
      | none =>
        cases hlast' : lastFact facts'.helpers f slot with
        | some last' => exact absurd hlast (lastFact_ne_none (hhelpers.subset (lastFact_spec hlast')))
        | none => rfl
    · exact exists_congr fun r => and_congr_left fun _ => hrecords.mem_iff.symm

theorem consistent_of_keeps (h : Keeps profile facts mod) (hconflict : ¬ RecordConflict facts mod) : FnConsistent profile facts mod := by
  obtain ⟨cfg, hrun, hok, hfns⟩ := (merge_cases profile facts mod).resolve_right fun he => hconflict he.2
  -- a fact can be put last, and then its class is that of the slot
  have cls_of {f : String} {slot : FnSlot} {cls : IntClass} {path : String} (hd : Declared profile facts f slot cls path) :
      (cfg.fnSlot f slot).map (·.1) = some cls := by
    rcases hd with hd | hd
    · rw [h.functions cfg hrun f slot cls path (.inl hd), Option.map_some]
    · let fact : HelperFact := ⟨f, slot, cls, path⟩
      obtain ⟨before, after, hsplit⟩ := append_of_mem hd
      have hperm : (before ++ after ++ [fact]).Perm facts.helpers := by
        rw [hsplit, append_assoc]
        exact List.Perm.append_left before (perm_append_singleton _ _)
      rcases h.order ⟨before ++ after ++ [fact], facts.records⟩ hperm (.refl _) with ⟨d, -, he, -⟩ | ⟨cfg₁, cfg₂, hrun₁, hrun₂, hcls, -⟩
      · rw [hrun] at he
        cases he
      · rw [hrun] at hrun₁
        cases hrun₁
        rcases merge_cases profile ⟨before ++ after ++ [fact], facts.records⟩ mod with ⟨cfg₃, hrun₃, -, hfns₃⟩ | ⟨⟨d, he⟩, -⟩
        · rw [hrun₂] at hrun₃
          cases hrun₃
          have hlast := lastFact_append_self (before ++ after) fact
          rw [hcls, hfns₃, hlast]
          rfl
        · rw [hrun₂] at he
          cases he
  refine ⟨fun f slot cls path cls' path' hd hd' => ?_, fun f slot cls path hb last hlast => ?_⟩
  · exact Option.some.inj ((cls_of hd).symm.trans (cls_of hd'))
  · have hslot := h.functions cfg hrun f slot cls path hb
    rw [hfns, hlast] at hslot
    cases hslot
    rfl

/-- The matcher is exact; and the merge keeps what is declared exactly when it refuses two record
classes, or the function slots are declared consistently. -/
theorem mergeSidecarIntSlots_keeps_iff (profile : LibraryProfile) (facts : IntegerSlotFacts) (mod : IrModule) :
    ((∀ fields kindMayBeOmitted shape, WellFormed (.record fields kindMayBeOmitted) →
        (recordMatches mod fields kindMayBeOmitted shape = true ↔ shape.tuple = false ∧ shape.indexValue = false ∧
          ∃ order, order.Perm shape.fields ∧
            (FieldsEq mod false fields order ∨ (kindMayBeOmitted = true ∧ FieldsEq mod true fields order)))) ∧
      Keeps profile facts mod) ↔ RecordConflict facts mod ∨ FnConsistent profile facts mod := by
  constructor
  · rintro ⟨-, h⟩
    by_cases hconflict : RecordConflict facts mod
    · exact .inl hconflict
    · exact .inr (consistent_of_keeps h hconflict)
  · intro h
    exact ⟨fun fields kindMayBeOmitted shape hwf => recordMatches_iff hwf, h.elim keeps_of_conflict keeps_of_consistent⟩

/-- The export map declares the return of a helper as a signed integer, the sidecar as an unsigned one. -/
private def sampleProfile : LibraryProfile := ⟨[⟨"total", [], .int .i64⟩], nodup_singleton _⟩

private def sampleFacts : IntegerSlotFacts := ⟨[⟨"total", .ret, .u64, "helpers.total.return"⟩], []⟩

private def sampleModule : IrModule := ⟨[], [], [⟨"total", 0⟩]⟩

/-- The merge accepts both and keeps the second. -/
theorem not_kept : ∃ cfg, mergeSidecarIntSlots (libraryIntSlotConfig sampleProfile) sampleFacts sampleModule = .ok cfg ∧
    sampleProfile.Declares "total" .ret .i64 "exports.total.return" ∧
    cfg.fnSlot "total" .ret = some (.u64, "helpers.total.return") :=
  ⟨_, rfl, ⟨_, mem_singleton_self _, rfl, rfl, rfl⟩, rfl⟩

end IntSlots
