import Mathlib.Data.List.Forall2
import Mathlib.Data.List.Nodup
import Mathlib.Data.List.Perm.Basic
import Mathlib.Data.List.Perm.Subperm
import Mathlib.Data.List.Range

/-!
# Matching sidecar patterns against record shapes

`sidecarRecordMatcher` of `library/section-resolution.ts`: whether the structural type that the
sidecar's syntax projects to is that of an interned record shape: exactly where the two are one up to the order of
fields and arms.
-/

namespace IntSlots

open List

inductive Primitive where
  | f64
  | string
  | bool
  | nullT
  | undefinedT
  | dyn
  deriving DecidableEq

/-- `other` are the kinds that no pattern has. -/
inductive IrType where
  | primitive (kind : Primitive)
  | bytes (elem : String)
  | array (elem : IrType)
  | record (shapeId : String)
  | union (unionId : String)
  | other (kind : String)

/-- A record shape, with whether it is a tuple and whether it has an index signature. -/
structure IrRecordShape where
  id : String
  fields : List (String × IrType)
  tuple : Bool
  indexValue : Bool
  distinct : (fields.map (·.1)).Nodup

structure IrUnionDef where
  id : String
  arms : List IrType

structure IrFunction where
  name : String
  arity : ℕ

/-- The tables that types refer to. -/
structure IrModule where
  records : List IrRecordShape
  unions : List IrUnionDef
  functions : List IrFunction

inductive TypePattern where
  | primitive (kind : Primitive)
  | bytes (elem : String)
  | array (elem : TypePattern)
  | record (fields : List (String × TypePattern)) (kindMayBeOmitted : Bool)
  | union (arms : List TypePattern)

/-- A map made of the records: of two with one id, the last one counts. -/
def IrModule.record? (mod : IrModule) (id : String) : Option IrRecordShape := mod.records.reverse.find? (·.id = id)

def IrModule.union? (mod : IrModule) (id : String) : Option IrUnionDef := mod.unions.reverse.find? (·.id = id)

/-- The fields of the pattern, or those of the variant without `kind`, are all found in the shape. -/
def fieldsFit (verdicts : List (String × Bool)) (shape : IrRecordShape) : Bool :=
  verdicts.length == shape.fields.length && verdicts.all (·.2)

/-- `visit` of `unionMatches`: the rows say which arms of the union the arms of the pattern match. -/
def visitArms : List (List Bool) → List ℕ → Bool
  | [], _ => true
  | row :: rows, used => (List.range row.length).any fun i => i ∉ used && row.getD i false && visitArms rows (i :: used)

mutual

def typeMatches (mod : IrModule) : TypePattern → IrType → Bool
  | .primitive kind, actual =>
    match actual with
    | .primitive kind' => decide (kind' = kind)
    | _ => false
  | .bytes elem, actual =>
    match actual with
    | .bytes elem' => decide (elem' = elem)
    | _ => false
  | .array elem, actual =>
    match actual with
    | .array elem' => typeMatches mod elem elem'
    | _ => false
  | .record fields kindMayBeOmitted, actual =>
    match actual with
    | .record shapeId =>
      match mod.record? shapeId with
      | none => false
      | some shape =>
        if shape.tuple || shape.indexValue then false
        else
          fieldsFit (fieldVerdicts mod fields shape) shape ||
            (kindMayBeOmitted && fieldsFit ((fieldVerdicts mod fields shape).filter (·.1 ≠ "kind")) shape)
    | _ => false
  | .union arms, actual =>
    match actual with
    | .union unionId =>
      match mod.union? unionId with
      | none => false
      | some union => arms.length == union.arms.length && visitArms (armVerdicts mod arms union.arms) []
    | _ => false

/-- Which fields are in the shape with a type that matches. -/
def fieldVerdicts (mod : IrModule) : List (String × TypePattern) → IrRecordShape → List (String × Bool)
  | [], _ => []
  | (name, type) :: fields, shape =>
    (name,
      match shape.fields.find? (·.1 = name) with
      | some actual => typeMatches mod type actual.2
      | none => false) :: fieldVerdicts mod fields shape

def armVerdicts (mod : IrModule) : List TypePattern → List IrType → List (List Bool)
  | [], _ => []
  | arm :: arms, actual => actual.map (typeMatches mod arm) :: armVerdicts mod arms actual

end

/-- A pattern whose fields are these matches the shape. -/
def recordMatches (mod : IrModule) (fields : List (String × TypePattern)) (kindMayBeOmitted : Bool) (shape : IrRecordShape) : Bool :=
  if shape.tuple || shape.indexValue then false
  else
    fieldsFit (fieldVerdicts mod fields shape) shape ||
      (kindMayBeOmitted && fieldsFit ((fieldVerdicts mod fields shape).filter (·.1 ≠ "kind")) shape)

/-! ### What a pattern says -/

mutual

/-- The type is that of the pattern, up to the order of fields and of union arms, and the
omission of `kind` where it is allowed. -/
def TypeEq (mod : IrModule) : TypePattern → IrType → Prop
  | .primitive kind, actual => actual = .primitive kind
  | .bytes elem, actual => actual = .bytes elem
  | .array elem, actual => ∃ elem', actual = .array elem' ∧ TypeEq mod elem elem'
  | .record fields kindMayBeOmitted, actual =>
    ∃ id shape, actual = .record id ∧ mod.record? id = some shape ∧ shape.tuple = false ∧ shape.indexValue = false ∧
      ∃ order, order.Perm shape.fields ∧
        (FieldsEq mod false fields order ∨ (kindMayBeOmitted = true ∧ FieldsEq mod true fields order))
  | .union arms, actual =>
    ∃ id union, actual = .union id ∧ mod.union? id = some union ∧ ∃ order, order.Perm union.arms ∧ ArmsEq mod arms order

/-- Field by field; `omitted`: without the field `kind`. -/
def FieldsEq (mod : IrModule) (omitted : Bool) : List (String × TypePattern) → List (String × IrType) → Prop
  | [], order => order = []
  | (name, type) :: fields, order =>
    if omitted = true ∧ name = "kind" then FieldsEq mod omitted fields order
    else ∃ actual rest, order = (name, actual) :: rest ∧ TypeEq mod type actual ∧ FieldsEq mod omitted fields rest

def ArmsEq (mod : IrModule) : List TypePattern → List IrType → Prop
  | [], order => order = []
  | arm :: arms, order => ∃ actual rest, order = actual :: rest ∧ TypeEq mod arm actual ∧ ArmsEq mod arms rest

end

mutual

/-- No record of the pattern has two fields of one name. -/
def WellFormed : TypePattern → Prop
  | .primitive _ | .bytes _ => True
  | .array elem => WellFormed elem
  | .record fields _ => (fields.map (·.1)).Nodup ∧ FieldsWellFormed fields
  | .union arms => ArmsWellFormed arms

def FieldsWellFormed : List (String × TypePattern) → Prop
  | [] => True
  | (_, type) :: fields => WellFormed type ∧ FieldsWellFormed fields

def ArmsWellFormed : List TypePattern → Prop
  | [] => True
  | arm :: arms => WellFormed arm ∧ ArmsWellFormed arms

end

section

variable {mod : IrModule}

/-! ### Fields -/

theorem find_of_distinct {fields : List (String × IrType)} (h : (fields.map (·.1)).Nodup) {name : String} {type : IrType}
    (hmem : (name, type) ∈ fields) : fields.find? (·.1 = name) = some (name, type) := by
  induction fields with
  | nil => cases hmem
  | cons field fields ih =>
    rw [map_cons, nodup_cons] at h
    rcases mem_cons.mp hmem with rfl | hmem
    · simp
    · have hne : field.1 ≠ name := fun he => h.1 (he ▸ mem_map_of_mem hmem)
      rw [find?_cons_of_neg (by simpa using hne)]
      exact ih h.2 hmem

attribute [local simp] visitArms typeMatches fieldVerdicts armVerdicts TypeEq FieldsEq ArmsEq WellFormed

theorem fieldVerdicts_filter (fields : List (String × TypePattern)) (shape : IrRecordShape) :
    (fieldVerdicts mod fields shape).filter (·.1 ≠ "kind") = fieldVerdicts mod (fields.filter (·.1 ≠ "kind")) shape := by
  induction fields with
  | nil => rfl
  | cons field fields ih =>
    obtain ⟨name, type⟩ := field
    by_cases hname : name = "kind"
    · simpa [hname] using ih
    · simpa [hname] using ih

theorem fieldsEq_filter (fields : List (String × TypePattern)) (order : List (String × IrType)) :
    FieldsEq mod true fields order ↔ FieldsEq mod false (fields.filter (·.1 ≠ "kind")) order := by
  induction fields generalizing order with
  | nil => simp
  | cons field fields ih =>
    obtain ⟨name, type⟩ := field
    by_cases hname : name = "kind"
    · simp [hname, ih]
    · simp [hname, ih]

variable {fields : List (String × TypePattern)} {shape : IrRecordShape}

/-- Each field of the pattern is in the shape. -/
theorem fieldVerdicts_all
    (h : ∀ field ∈ fields, ∀ actual, typeMatches mod field.2 actual = true ↔ TypeEq mod field.2 actual)
    (hall : (fieldVerdicts mod fields shape).all (·.2) = true) :
    ∃ order, FieldsEq mod false fields order ∧ order.map (·.1) = fields.map (·.1) ∧ ∀ f ∈ order, f ∈ shape.fields := by
  induction fields with
  | nil => exact ⟨[], by simp, rfl, by simp⟩
  | cons field fields ih =>
    obtain ⟨name, type⟩ := field
    obtain ⟨hhead, h⟩ := forall_mem_cons.mp h
    rw [fieldVerdicts, all_cons, Bool.and_eq_true] at hall
    obtain ⟨hfirst, hall⟩ := hall
    obtain ⟨order, hrest, hnames, hmem⟩ := ih h hall
    cases hfind : shape.fields.find? (·.1 = name) with
    | none => simp [hfind] at hfirst
    | some actual =>
      obtain ⟨name', actual⟩ := actual
      have hname : name' = name := by simpa using find?_some hfind
      subst hname
      simp only [hfind] at hfirst
      refine ⟨(name', actual) :: order, ?_, by simp [hnames], forall_mem_cons.mpr ⟨mem_of_find?_eq_some hfind, hmem⟩⟩
      rw [FieldsEq, if_neg (by simp)]
      exact ⟨actual, order, rfl, (hhead actual).mp hfirst, hrest⟩

theorem all_fieldVerdicts
    (h : ∀ field ∈ fields, ∀ actual, typeMatches mod field.2 actual = true ↔ TypeEq mod field.2 actual)
    {order : List (String × IrType)} (horder : FieldsEq mod false fields order) (hmem : ∀ f ∈ order, f ∈ shape.fields) :
    (fieldVerdicts mod fields shape).all (·.2) = true ∧ order.length = fields.length := by
  induction fields generalizing order with
  | nil =>
    rw [FieldsEq] at horder
    subst horder
    exact ⟨rfl, rfl⟩
  | cons field fields ih =>
    obtain ⟨name, type⟩ := field
    obtain ⟨hhead, h⟩ := forall_mem_cons.mp h
    rw [FieldsEq, if_neg (by simp)] at horder
    obtain ⟨actual, rest, rfl, heq, hrest⟩ := horder
    obtain ⟨hfirst, hmem⟩ := forall_mem_cons.mp hmem
    obtain ⟨hall, hlen⟩ := ih h hrest hmem
    refine ⟨?_, by simp [hlen]⟩
    rw [fieldVerdicts, all_cons, find_of_distinct shape.distinct hfirst, Bool.and_eq_true]
    exact ⟨(hhead actual).mpr heq, hall⟩

theorem fieldVerdicts_length (fields : List (String × TypePattern)) (shape : IrRecordShape) :
    (fieldVerdicts mod fields shape).length = fields.length := by
  induction fields with
  | nil => rfl
  | cons field fields ih => simp [ih]

theorem fieldsFit_iff (hdistinct : (fields.map (·.1)).Nodup)
    (h : ∀ field ∈ fields, ∀ actual, typeMatches mod field.2 actual = true ↔ TypeEq mod field.2 actual) :
    fieldsFit (fieldVerdicts mod fields shape) shape = true ↔ ∃ order, order.Perm shape.fields ∧ FieldsEq mod false fields order := by
  unfold fieldsFit
  rw [Bool.and_eq_true, beq_iff_eq, fieldVerdicts_length]
  constructor
  · rintro ⟨hlen, hall⟩
    obtain ⟨order, horder, hnames, hmem⟩ := fieldVerdicts_all h hall
    have hnodup : order.Nodup := List.Nodup.of_map (·.1) (hnames ▸ hdistinct)
    refine ⟨order, (hnodup.subperm hmem).perm_of_length_le ?_, horder⟩
    rw [← hlen, ← length_map (f := (·.1)), ← hnames, length_map]
  · rintro ⟨order, hperm, horder⟩
    obtain ⟨hall, hlen⟩ := all_fieldVerdicts h horder fun f hf => hperm.subset hf
    exact ⟨hlen.symm.trans hperm.length_eq, hall⟩

/-! ### Arms -/

theorem visitArms_iff (rows : List (List Bool)) (used : List ℕ) :
    visitArms rows used = true ↔
      ∃ js, List.Forall₂ (fun row j => row.getD j false = true) rows js ∧ js.Nodup ∧ ∀ j ∈ js, j ∉ used := by
  induction rows generalizing used with
  | nil => simp
  | cons row rows ih =>
    simp only [visitArms, any_eq_true, mem_range, Bool.and_eq_true, decide_eq_true_eq, ih]
    constructor
    · rintro ⟨i, -, ⟨hi, hrow⟩, js, hjs, hnodup, hfree⟩
      refine ⟨i :: js, .cons hrow hjs, nodup_cons.mpr ⟨fun hm => hfree i hm mem_cons_self, hnodup⟩, ?_⟩
      exact forall_mem_cons.mpr ⟨hi, fun j hj hu => hfree j hj (mem_cons_of_mem i hu)⟩
    · rintro ⟨js, hjs, hnodup, hfree⟩
      cases hjs with
      | @cons _ i _ js hrow hjs =>
        obtain ⟨hi, hnodup⟩ := nodup_cons.mp hnodup
        obtain ⟨hused, hfree⟩ := forall_mem_cons.mp hfree
        refine ⟨i, ?_, ⟨hused, hrow⟩, js, hjs, hnodup, fun j hj hm => ?_⟩
        · by_contra hle
          rw [getD_eq_getElem?_getD, getElem?_eq_none (Nat.le_of_not_lt hle)] at hrow
          cases hrow
        · rcases mem_cons.mp hm with rfl | hm
          · exact hi hj
          · exact hfree j hj hm

variable {arms : List TypePattern}

theorem armVerdicts_row {actual : List IrType} {js : List ℕ} (d : IrType)
    (h : ∀ arm ∈ arms, ∀ actual, typeMatches mod arm actual = true ↔ TypeEq mod arm actual) :
    List.Forall₂ (fun row j => row.getD j false = true) (armVerdicts mod arms actual) js ↔
      ArmsEq mod arms (js.map fun j => actual.getD j d) ∧ ∀ j ∈ js, j < actual.length := by
  induction arms generalizing js with
  | nil => cases js <;> simp
  | cons arm arms ih =>
    obtain ⟨hhead, h⟩ := forall_mem_cons.mp h
    cases js with
    | nil => simp
    | cons j js =>
      have row : (actual.map (typeMatches mod arm)).getD j false = true ↔ j < actual.length ∧ TypeEq mod arm (actual.getD j d) := by
        rw [← hhead]
        by_cases hj : j < actual.length
        · simp [getD_eq_getElem?_getD, hj]
        · simp [getD_eq_getElem?_getD, hj]
      rw [armVerdicts, forall₂_cons, row, ih h, map_cons, ArmsEq, forall_mem_cons]
      constructor
      · rintro ⟨⟨hj, heq⟩, hrest, hjs⟩
        exact ⟨⟨_, _, rfl, heq, hrest⟩, hj, hjs⟩
      · rintro ⟨⟨a, rest, hcons, heq, hrest⟩, hj, hjs⟩
        obtain ⟨rfl, rfl⟩ := List.cons.inj hcons
        exact ⟨⟨hj, heq⟩, hrest, hjs⟩

theorem map_getD_range (actual : List IrType) (d : IrType) : (List.range actual.length).map (fun j => actual.getD j d) = actual := by
  refine ext_getElem (by simp) fun i _ hi => ?_
  simp [getD_eq_getElem?_getD, hi]

theorem armsEq_length {order : List IrType} (h : ArmsEq mod arms order) : order.length = arms.length := by
  induction arms generalizing order with
  | nil =>
    rw [ArmsEq] at h
    simp [h]
  | cons arm arms ih =>
    rw [ArmsEq] at h
    obtain ⟨actual, rest, rfl, -, hrest⟩ := h
    simp [ih hrest]

/-- The search over the arms finds an order in which they match, if there is one. -/
theorem visitArms_order {actual : List IrType}
    (h : ∀ arm ∈ arms, ∀ actual, typeMatches mod arm actual = true ↔ TypeEq mod arm actual) :
    (arms.length == actual.length && visitArms (armVerdicts mod arms actual) []) = true ↔
      ∃ order, order.Perm actual ∧ ArmsEq mod arms order := by
  rw [Bool.and_eq_true, beq_iff_eq, visitArms_iff]
  constructor
  · rintro ⟨hlen, js, hjs, hnodup, -⟩
    obtain ⟨hrow, hlt⟩ := (armVerdicts_row (.other "") h).mp hjs
    have hjslen := armsEq_length hrow
    rw [length_map] at hjslen
    have hperm : js.Perm (List.range actual.length) := by
      refine (hnodup.subperm fun j hj => mem_range.mpr (hlt j hj)).perm_of_length_le ?_
      rw [length_range, hjslen, hlen]
    refine ⟨_, ?_, hrow⟩
    have := hperm.map fun j => actual.getD j (.other "")
    rwa [map_getD_range] at this
  · rintro ⟨order, hperm, horder⟩
    refine ⟨(armsEq_length horder).symm.trans hperm.length_eq, ?_⟩
    -- the places in `actual` that the order takes its arms from
    have hcomp : Relation.Comp (List.Forall₂ fun j a => a = actual.getD j (.other "")) List.Perm (List.range actual.length) order := by
      refine ⟨actual, ?_, hperm.symm⟩
      have := forall₂_map_right_iff (R := fun (j : ℕ) (a : IrType) => a = actual.getD j (.other ""))
        (f := fun j => actual.getD j (.other "")) (l := List.range actual.length) (u := List.range actual.length) |>.mpr
          (forall₂_same.mpr fun _ _ => rfl)
      rwa [map_getD_range] at this
    rw [forall₂_comp_perm_eq_perm_comp_forall₂] at hcomp
    obtain ⟨js, hjs, hforall⟩ := hcomp
    have horder' : order = js.map fun j => actual.getD j (.other "") := by
      clear hjs hperm horder
      induction hforall with
      | nil => rfl
      | cons heq _ ih => rw [heq, ih, map_cons]
    subst horder'
    exact ⟨js, (armVerdicts_row (.other "") h).mpr ⟨horder, fun j hj => mem_range.mp (hjs.symm.subset hj)⟩,
      hjs.nodup_iff.mp nodup_range, by simp⟩

/-! ### The matcher -/

theorem recordMatches_of {kindMayBeOmitted : Bool}
    (hdistinct : (fields.map (·.1)).Nodup)
    (h : ∀ field ∈ fields, ∀ actual, typeMatches mod field.2 actual = true ↔ TypeEq mod field.2 actual) :
    recordMatches mod fields kindMayBeOmitted shape = true ↔ shape.tuple = false ∧ shape.indexValue = false ∧
      ∃ order, order.Perm shape.fields ∧
        (FieldsEq mod false fields order ∨ (kindMayBeOmitted = true ∧ FieldsEq mod true fields order)) := by
  have hfilter : ((fields.filter (·.1 ≠ "kind")).map (·.1)).Nodup := hdistinct.sublist (filter_sublist.map _)
  have hsub : ∀ field ∈ fields.filter (·.1 ≠ "kind"), ∀ actual, typeMatches mod field.2 actual = true ↔ TypeEq mod field.2 actual :=
    fun field hf => h field (mem_filter.mp hf).1
  unfold recordMatches
  by_cases hshape : (shape.tuple || shape.indexValue) = true
  · rw [if_pos hshape]
    rw [Bool.or_eq_true] at hshape
    refine ⟨fun hf => (by cases hf), fun ⟨ht, hi, _⟩ => ?_⟩
    rw [ht, hi] at hshape
    simp at hshape
  · rw [if_neg hshape, Bool.or_eq_true, Bool.and_eq_true, fieldVerdicts_filter, fieldsFit_iff hdistinct h, fieldsFit_iff hfilter hsub]
    have hflags : shape.tuple = false ∧ shape.indexValue = false := by simpa using hshape
    simp only [hflags, true_and, fieldsEq_filter]
    constructor
    · rintro (⟨order, hp, ho⟩ | ⟨hk, order, hp, ho⟩)
      · exact ⟨order, hp, .inl ho⟩
      · exact ⟨order, hp, .inr ⟨hk, ho⟩⟩
    · rintro ⟨order, hp, ho | ⟨hk, ho⟩⟩
      · exact .inl ⟨order, hp, ho⟩
      · exact .inr ⟨hk, order, hp, ho⟩

theorem typeMatches_record (fields : List (String × TypePattern)) (kindMayBeOmitted : Bool) (id : String) :
    typeMatches mod (.record fields kindMayBeOmitted) (.record id) = true ↔
      ∃ shape, mod.record? id = some shape ∧ recordMatches mod fields kindMayBeOmitted shape = true := by
  simp only [typeMatches]
  cases mod.record? id with
  | none => simp
  | some shape => simp [recordMatches]

mutual

theorem typeMatches_iff : ∀ pattern : TypePattern, WellFormed pattern → ∀ actual, typeMatches mod pattern actual = true ↔ TypeEq mod pattern actual
  | .primitive kind, _, actual => by cases actual <;> simp
  | .bytes elem, _, actual => by cases actual <;> simp
  | .array elem, h, actual => by
    have ih := typeMatches_iff elem (by simpa using h)
    cases actual <;> simp [ih]
  | .record fields kindMayBeOmitted, h, actual => by
    rw [WellFormed] at h
    have ih := fieldsMatch_iff fields h.2
    cases actual with
    | record id =>
      rw [typeMatches_record, TypeEq]
      simp only [recordMatches_of h.1 ih]
      constructor
      · rintro ⟨shape, hshape, hrest⟩
        exact ⟨id, shape, rfl, hshape, hrest⟩
      · rintro ⟨id', shape, hid, hshape, hrest⟩
        cases hid
        exact ⟨shape, hshape, hrest⟩
    | _ => simp
  | .union arms, h, actual => by
    rw [WellFormed] at h
    have ih := armsMatch_iff arms h
    cases actual with
    | union id =>
      rw [typeMatches, TypeEq]
      cases hunion : mod.union? id with
      | none => simp [hunion]
      | some union => simp [hunion, ← visitArms_order ih]
    | _ => simp

theorem fieldsMatch_iff : ∀ fields : List (String × TypePattern), FieldsWellFormed fields →
    ∀ field ∈ fields, ∀ actual, typeMatches mod field.2 actual = true ↔ TypeEq mod field.2 actual
  | [], _ => by simp
  | (name, type) :: fields, h => by
    rw [FieldsWellFormed] at h
    exact forall_mem_cons.mpr ⟨typeMatches_iff type h.1, fieldsMatch_iff fields h.2⟩

theorem armsMatch_iff : ∀ arms : List TypePattern, ArmsWellFormed arms →
    ∀ arm ∈ arms, ∀ actual, typeMatches mod arm actual = true ↔ TypeEq mod arm actual
  | [], _ => by simp
  | arm :: arms, h => by
    rw [ArmsWellFormed] at h
    exact forall_mem_cons.mpr ⟨typeMatches_iff arm h.1, armsMatch_iff arms h.2⟩

end

/-- The matcher accepts a shape exactly when it is the record of the pattern. -/
theorem recordMatches_iff {kindMayBeOmitted : Bool}
    (h : WellFormed (.record fields kindMayBeOmitted)) :
    recordMatches mod fields kindMayBeOmitted shape = true ↔ shape.tuple = false ∧ shape.indexValue = false ∧
      ∃ order, order.Perm shape.fields ∧
        (FieldsEq mod false fields order ∨ (kindMayBeOmitted = true ∧ FieldsEq mod true fields order)) := by
  rw [WellFormed] at h
  exact recordMatches_of h.1 (fieldsMatch_iff fields h.2)

end

end IntSlots
