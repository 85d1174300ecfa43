import Mathlib.Data.Fintype.Card
import Mathlib.Logic.Relation
import Scriptc.Lib.Loop
import Scriptc.RuntimeRust.BytesEncoding
import Scriptc.RuntimeRust.Json

/-!
# Writing a graph as JSON

`write_json` of `json.rs` over containers that may share and contain each other. The writer keeps the
containers that are being written on a stack, and a container that is there already is refused with the
path that leads from it back to it.
-/

namespace Scriptc.RuntimeRust.JsonCycles

open List Option

open Scriptc.Utf16 (Units)

/-! ### Containers -/

/-- A value in a heap of `n` containers. Whatever is no container is the text that it writes. -/
inductive Value (n : ℕ) where
  | text (text : List Char)
  /-- `is_json_undefined` -/
  | undefined (text : List Char)
  | ref (place : Fin n)
  deriving DecidableEq

inductive Content (n : ℕ) where
  /-- `none` is a hole. -/
  | elements (values : List (Option (Value n)))
  | properties (fields : List (Units × Value n))

/-- A view of a map has the identity of what it shows. -/
structure Container (n : ℕ) where
  identity : ℕ
  content : Content n

abbrev Heap (n : ℕ) := Fin n → Container n

/-! ### The writer -/

inductive JsonEdge where
  | property (name : Units)
  | index (index : ℕ)
  deriving DecidableEq

/-- A container on the stack. -/
structure JsonSeen where
  identity : ℕ
  isArray : Bool
  edge : Option JsonEdge
  deriving DecidableEq

/-- The output, and the containers that are open. -/
structure JsonWriter where
  output : List Char
  stack : List JsonSeen
  deriving DecidableEq

inductive Failure where
  | typeError (message : List Char)
  | panic
  | outOfFuel
  deriving DecidableEq

/-- How a write ended, and the writer that it left. -/
abbrev Run := Except Failure Unit × JsonWriter

def Run.andThen (run : Run) (next : JsonWriter → Run) : Run :=
  match run with
  | (.ok (), w) => next w
  | (.error failure, w) => (.error failure, w)

namespace JsonWriter

def new : JsonWriter := ⟨[], []⟩

def push (w : JsonWriter) (text : List Char) : JsonWriter := { w with output := w.output ++ text }

def setEdge (w : JsonWriter) (edge : JsonEdge) : JsonWriter :=
  match w.stack.getLast? with
  | some container => { w with stack := w.stack.dropLast ++ [{ container with edge := some edge }] }
  | none => w

end JsonWriter

/-! ### The message -/

def pushJsonEdge : JsonEdge → List Char
  | .property name => "property '".toList ++ Decoder.chars name ++ ['\'']
  | .index index => "index ".toList ++ Nat.toDigits 10 index

def pushJsonConstructor (isArray : Bool) : List Char :=
  (if isArray then "object with constructor 'Array'" else "object with constructor 'Object'").toList

/-- `None` where an edge was not recorded. -/
def pushJsonHop (stack : List JsonSeen) (index : ℕ) : Option (List Char) := do
  let before ← stack[index - 1]?
  let edge ← before.edge
  let container ← stack[index]?
  return "\n    |     ".toList ++ pushJsonEdge edge ++ " -> ".toList ++ pushJsonConstructor container.isArray

def circularHops (stack : List JsonSeen) (start : ℕ) : Option (List (List Char)) :=
  let stop := stack.length
  if stop - 1 - start ≤ 3 then (List.range' (start + 1) (stop - 1 - start)).mapM (pushJsonHop stack)
  else do
    let first ← pushJsonHop stack (start + 1)
    let second ← pushJsonHop stack (start + 2)
    let last ← pushJsonHop stack (stop - 1)
    return [first, second, "\n    |     ...".toList, last]

def circularMessage (stack : List JsonSeen) (start : ℕ) : Option (List Char) := do
  let container ← stack[start]?
  let hops ← circularHops stack start
  let last ← stack.getLast?
  let edge ← last.edge
  return "Converting circular structure to JSON\n    --> starting at ".toList ++ pushJsonConstructor container.isArray ++
    hops.flatten ++ "\n    --- ".toList ++ pushJsonEdge edge ++ " closes the circle".toList

/-! ### Writing -/

/-- What is written of a container: a text before the value, and the edge that is recorded for it. -/
structure Item (n : ℕ) where
  label : List Char
  edge : Option JsonEdge
  value : Value n

variable {n : ℕ}

/-- `element`, and the `null` of a hole. -/
def element (value : Option (Value n)) (index : ℕ) : Item n :=
  match value with
  | some value => ⟨[], some (.index index), value⟩
  | none => ⟨[], none, .text "null".toList⟩

def property (name : Units) (value : Value n) : Option (Item n) :=
  match value with
  | .undefined _ => none
  | value => some ⟨Json.writeString name ++ [':'], some (.property name), value⟩

namespace Content

def items : Content n → List (Item n)
  | elements values => values.zipIdx.map fun (value, index) => element value index
  | properties fields => fields.filterMap fun (name, value) => property name value

def isArray : Content n → Bool
  | elements _ => true
  | properties _ => false

def opening (content : Content n) : List Char := if content.isArray then ['['] else ['\x7b']

def closing (content : Content n) : List Char := if content.isArray then [']'] else ['\x7d']

end Content

def writeItem (write : Value n → JsonWriter → Run) (first : Bool) (item : Item n) (w : JsonWriter) : Run :=
  let w := (if first then w else w.push [',']).push item.label
  write item.value (match item.edge with | some edge => w.setEdge edge | none => w)

def writeItems (write : Value n → JsonWriter → Run) : Bool → List (Item n) → JsonWriter → Run
  | _, [], w => (.ok (), w)
  | first, item :: items, w => (writeItem write first item w).andThen (writeItems write false items)

/-- `write_json_object` -/
def writeJsonObject (write : Value n → JsonWriter → Run) (content : Content n) (w : JsonWriter) : Run :=
  (writeItems write true content.items (w.push content.opening)).andThen fun w => (.ok (), w.push content.closing)

/-- The container is taken off the stack again. -/
def leave (identity : ℕ) (w : JsonWriter) : Run :=
  match w.stack.getLast? with
  | some entry =>
    if entry.identity = identity then (.ok (), { w with stack := w.stack.dropLast })
    else (.error .panic, { w with stack := w.stack.dropLast })
  | none => (.error .panic, w)

def writeJson (h : Heap n) : ℕ → Value n → JsonWriter → Run
  | _, .text text, w => (.ok (), w.push text)
  | _, .undefined text, w => (.ok (), w.push text)
  | 0, .ref _, w => (.error .outOfFuel, w)
  | fuel + 1, .ref place, w =>
    match w.stack.findIdx? fun entry => entry.identity = (h place).identity with
    | some start => (.error (((circularMessage w.stack start).map .typeError).getD .panic), w)
    | none =>
      (writeJsonObject (writeJson h fuel) (h place).content
        { w with stack := w.stack ++ [⟨(h place).identity, (h place).content.isArray, none⟩] }).andThen
          (leave (h place).identity)

/-! ### Cycles -/

/-- The values that are written of a container. -/
def written (h : Heap n) (place : Fin n) : List (Value n) := (h place).content.items.map Item.value

def Holds (h : Heap n) (p q : Fin n) : Prop := .ref q ∈ written h p

/-- Some container is reached from one that it is the same as. -/
def Cyclic (h : Heap n) (root : Fin n) : Prop :=
  ∃ p q, Relation.ReflTransGen (Holds h) root p ∧ Relation.TransGen (Holds h) p q ∧ (h p).identity = (h q).identity

/-- The same, seen from a value with the containers that it is written in, and those on the way to the one that repeats. -/
inductive Repeats (h : Heap n) : List ℕ → Value n → List ℕ → Prop
  | back {ids : List ℕ} {p : Fin n} : (h p).identity ∈ ids → Repeats h ids (.ref p) []
  | inner {ids way : List ℕ} {p : Fin n} {value : Value n} : value ∈ written h p →
      Repeats h (ids ++ [(h p).identity]) value way → Repeats h ids (.ref p) ((h p).identity :: way)

/-- The items of a container with the texts of their values. -/
def joined (items : List (Item n)) (texts : List (List Char)) : List Char :=
  List.intercalate [','] (List.zipWith (fun item text => item.label ++ text) items texts)

/-- The text of a value, in which a container is written wherever it is. -/
inductive Written (h : Heap n) : Value n → List Char → Prop
  | text {text : List Char} : Written h (.text text) text
  | undefined {text : List Char} : Written h (.undefined text) text
  | ref {p : Fin n} {texts : List (List Char)} : List.Forall₂ (Written h) (written h p) texts →
      Written h (.ref p) ((h p).content.opening ++ joined (h p).content.items texts ++ (h p).content.closing)

theorem repeats_iff {h : Heap n} {root : Fin n} : (∃ way, Repeats h [] (.ref root) way) ↔ Cyclic h root := by
  constructor
  · rintro ⟨way, hr⟩
    have hpath : ∀ {ids value way}, Repeats h ids value way → ∀ {q}, value = .ref q → Relation.ReflTransGen (Holds h) root q →
        (∀ x ∈ ids, ∃ p, Relation.ReflTransGen (Holds h) root p ∧ Relation.TransGen (Holds h) p q ∧ (h p).identity = x) →
        Cyclic h root := by
      intro ids value way hr
      induction hr with
      | back hmem =>
        rintro q heq - hids
        cases heq
        obtain ⟨p, hroot, hpq, hid⟩ := hids _ hmem
        exact ⟨p, _, hroot, hpq, hid⟩
      | @inner ids way p value hmem hrep ih =>
        rintro q heq hroot hids
        cases heq
        cases value with
        | text => cases hrep
        | undefined => cases hrep
        | ref r =>
          refine ih rfl (hroot.tail hmem) fun x hx => ?_
          rcases mem_append.mp hx with hx | hx
          · obtain ⟨p', hroot', hpq, hid⟩ := hids x hx
            exact ⟨p', hroot', hpq.tail hmem, hid⟩
          · exact ⟨p, hroot, .single hmem, (mem_singleton.mp hx).symm⟩
    exact hpath hr rfl .refl fun x hx => absurd hx not_mem_nil
  · rintro ⟨p, q, hroot, hpq, hid⟩
    by_contra hno
    -- nothing further down the path repeats either, not even its end
    have hreached : ∀ {p}, Relation.ReflTransGen (Holds h) root p →
        ∃ ids, ∀ way, ¬ Repeats h ids (.ref p) way := by
      intro p hp
      induction hp with
      | refl => exact ⟨[], fun way hr => hno ⟨way, hr⟩⟩
      | tail _ hedge ih =>
        obtain ⟨ids, hids⟩ := ih
        exact ⟨_, fun _ hr => hids _ (.inner hedge hr)⟩
    have hbelow : ∀ {q}, Relation.TransGen (Holds h) p q →
        ∃ ids, (h p).identity ∈ ids ∧ ∀ way, ¬ Repeats h ids (.ref q) way := by
      intro q hpq
      induction hpq with
      | single hedge =>
        obtain ⟨ids, hids⟩ := hreached hroot
        exact ⟨_, mem_append_right _ (mem_singleton_self _), fun _ hr => hids _ (.inner hedge hr)⟩
      | tail _ hedge ih =>
        obtain ⟨ids, hmem, hids⟩ := ih
        exact ⟨_, mem_append_left _ hmem, fun _ hr => hids _ (.inner hedge hr)⟩
    obtain ⟨ids, hmem, hids⟩ := hbelow hpq
    exact hids _ (.back (hid ▸ hmem))

/-! ### One write -/

/-- The identities on the stack. -/
def JsonWriter.ids (w : JsonWriter) : List ℕ := w.stack.map JsonSeen.identity

/-- Every container on the stack has recorded the edge that is being written. -/
def JsonWriter.Recorded (w : JsonWriter) : Prop := ∀ entry ∈ w.stack, entry.edge.isSome = true

/-- How a write of a value may end: with its text and the stack as it was, or refused because the value
repeats, with the containers on the way there left on the stack. -/
def Ends (h : Heap n) (value : Value n) (w : JsonWriter) (run : Run) : Prop :=
  (∃ text, run = (.ok (), w.push text) ∧ Written h value text ∧ ∀ way, ¬ Repeats h w.ids value way) ∨
  ∃ message w' way, run = (.error (.typeError message), w') ∧ Repeats h w.ids value way ∧ w'.ids = w.ids ++ way ∧ w'.stack ≠ []

/-- The containers that a stack does not name. -/
def missing (h : Heap n) (ids : List ℕ) : ℕ := (Finset.univ.filter fun p => (h p).identity ∉ ids).card

theorem missing_lt {h : Heap n} {ids : List ℕ} {p : Fin n} (hp : (h p).identity ∉ ids) :
    missing h (ids ++ [(h p).identity]) < missing h ids := by
  refine Finset.card_lt_card (Finset.ssubset_iff_subset_ne.mpr ⟨fun q hq => ?_, fun heq => ?_⟩)
  · simp only [Finset.mem_filter, Finset.mem_univ, true_and, mem_append, not_or] at hq ⊢
    exact hq.1
  · have hmem : p ∈ Finset.univ.filter fun q => (h q).identity ∉ ids := by simpa using hp
    rw [← heq] at hmem
    simp at hmem

theorem pushJsonHop_isSome {stack : List JsonSeen} (hrec : ∀ entry ∈ stack, entry.edge.isSome = true) {index : ℕ}
    (hindex : index < stack.length) : (pushJsonHop stack index).isSome = true := by
  have hlt : index - 1 < stack.length := by omega
  have hedge := hrec stack[index - 1] (getElem_mem hlt)
  obtain ⟨edge, hedge⟩ := isSome_iff_exists.mp hedge
  rw [pushJsonHop, getElem?_eq_getElem hlt, getElem?_eq_getElem hindex]
  simp [hedge]

/-- The message can be made: every edge on the way was recorded. -/
theorem circularMessage_isSome {stack : List JsonSeen} (hrec : ∀ entry ∈ stack, entry.edge.isSome = true) {start : ℕ}
    (hstart : start < stack.length) : ∃ message, circularMessage stack start = some message := by
  have hhops : ∃ hops, circularHops stack start = some hops := by
    simp only [circularHops]
    split_ifs with hfew
    · refine ⟨_, Option.mapM_eq_some_iff_filterMap.mpr ⟨fun index hindex => pushJsonHop_isSome hrec ?_, rfl⟩⟩
      have := mem_range'_1.mp hindex
      omega
    · obtain ⟨first, hfirst⟩ := isSome_iff_exists.mp (pushJsonHop_isSome hrec (show start + 1 < stack.length by omega))
      obtain ⟨second, hsecond⟩ := isSome_iff_exists.mp (pushJsonHop_isSome hrec (show start + 2 < stack.length by omega))
      obtain ⟨last, hlast⟩ := isSome_iff_exists.mp (pushJsonHop_isSome hrec (show stack.length - 1 < stack.length by omega))
      exact ⟨_, by rw [hfirst, hsecond, hlast]; rfl⟩
  obtain ⟨hops, hhops⟩ := hhops
  have hne : stack ≠ [] := ne_nil_of_length_pos (by omega)
  obtain ⟨edge, hedge⟩ := isSome_iff_exists.mp (hrec _ (getLast_mem hne))
  rw [circularMessage, getElem?_eq_getElem hstart, hhops, List.getLast?_eq_some_getLast hne]
  exact ⟨_, by simp [hedge]; rfl⟩

theorem intercalate_cons (text : List Char) (texts : List (List Char)) :
    List.intercalate [','] (text :: texts) = text ++ texts.flatMap ([','] ++ ·) := by
  induction texts generalizing text with
  | nil => simp [List.intercalate]
  | cons next texts ih =>
    rw [flatMap_cons, append_assoc, ← ih]
    simp [List.intercalate]

/-- The items of a container whose other entries on the stack are given. -/
theorem writeItems_ends {h : Heap n} {write : Value n → JsonWriter → Run} {base : List JsonSeen} {identity : ℕ} {isArray : Bool}
    {items : List (Item n)}
    (hwrite : ∀ item ∈ items, ∀ w edge, w.stack = base ++ [⟨identity, isArray, edge⟩] →
      (edge = none → ∀ q, item.value ≠ .ref q) → Ends h item.value w (write item.value w))
    (hedge : ∀ item ∈ items, item.edge = none → ∀ q, item.value ≠ .ref q) (first : Bool) {w : JsonWriter}
    {edge : Option JsonEdge} (hw : w.stack = base ++ [⟨identity, isArray, edge⟩]) :
    (∃ texts edge', writeItems write first items w = (.ok (), ⟨w.output ++ (if first then joined items texts else
        (List.zipWith (fun item text => item.label ++ text) items texts).flatMap ([','] ++ ·)),
          base ++ [⟨identity, isArray, edge'⟩]⟩) ∧ List.Forall₂ (Written h) (items.map Item.value) texts ∧
        ∀ item ∈ items, ∀ way, ¬ Repeats h w.ids item.value way) ∨
    ∃ message w' way, writeItems write first items w = (.error (.typeError message), w') ∧
      (∃ item ∈ items, Repeats h w.ids item.value way) ∧ w'.ids = w.ids ++ way ∧ w'.stack ≠ [] := by
  induction items generalizing first w edge with
  | nil =>
    refine .inl ⟨[], edge, ?_, .nil, by simp⟩
    rw [writeItems, ← hw]
    simp [joined, List.intercalate]
  | cons item items ih =>
    obtain ⟨hone, hrest⟩ := forall_mem_cons.mp hwrite
    obtain ⟨hone', hrest'⟩ := forall_mem_cons.mp hedge
    -- the comma, the label and the edge leave the stack but for the edge
    obtain ⟨w₁, edge₁, hw₁, hstack, hout, hnone⟩ : ∃ w₁ edge₁, writeItem write first item w = write item.value w₁ ∧
        w₁.stack = base ++ [⟨identity, isArray, edge₁⟩] ∧ w₁.output = w.output ++ ((if first then [] else [',']) ++ item.label) ∧
        (edge₁ = none → ∀ q, item.value ≠ .ref q) := by
      cases hitem : item.edge with
      | none =>
        refine ⟨_, edge, by rw [writeItem, hitem], ?_, ?_, fun _ => hone' hitem⟩
        · cases first <;> exact hw
        · cases first <;> simp [JsonWriter.push]
      | some edge₁ =>
        refine ⟨_, some edge₁, by rw [writeItem, hitem], ?_, ?_, fun hc => by cases hc⟩
        · cases first <;> simp [JsonWriter.push, JsonWriter.setEdge, hw]
        · cases first <;> simp [JsonWriter.push, JsonWriter.setEdge, hw]
    have hids : w₁.ids = w.ids := by simp [JsonWriter.ids, hstack, hw]
    rw [writeItems, hw₁]
    rcases hone w₁ edge₁ hstack hnone with ⟨text, hrun, hwritten, hfine⟩ | ⟨message, w', way, hrun, hrep, hstack', hne⟩
    · rw [hids] at hfine
      rw [hrun]
      rcases ih hrest hrest' false (w := w₁.push text) hstack with
        ⟨texts, edge', hrun', htexts, hfine'⟩ | ⟨message, w', way, hrun', ⟨next, hnext, hrep⟩, hstack', hne⟩
      · refine .inl ⟨text :: texts, edge', ?_, .cons hwritten htexts, ?_⟩
        · refine hrun'.trans ?_
          cases first <;> simp [JsonWriter.push, hout, joined, intercalate_cons]
        · exact forall_mem_cons.mpr ⟨hfine, fun next hnext => hids ▸ hfine' next hnext⟩
      · exact .inr ⟨message, w', way, hrun', ⟨next, mem_cons_of_mem _ hnext, hids ▸ hrep⟩, hids ▸ hstack', hne⟩
    · rw [hrun]
      exact .inr ⟨message, w', way, rfl, ⟨item, mem_cons_self, hids ▸ hrep⟩, hids ▸ hstack', hne⟩

/-- Every value in a container is written with an edge that is recorded. -/
theorem items_edge (content : Content n) : ∀ item ∈ content.items, item.edge = none → ∀ q, item.value ≠ .ref q := by
  intro item hitem hnone q hq
  cases content with
  | elements values =>
    obtain ⟨⟨value, index⟩, -, rfl⟩ := mem_map.mp hitem
    cases value with
    | none => cases hq
    | some value => cases hnone
  | properties fields =>
    obtain ⟨⟨name, value⟩, -, hitem⟩ := mem_filterMap.mp hitem
    cases value <;> cases hitem <;> cases hnone

/-- **A write from any writer** whose containers have recorded their edges, with fuel for every container that is not
on its stack: it ends with the text of the value and the stack as it was, or the value repeats and it is refused. -/
theorem writeJson_ends (h : Heap n) {fuel : ℕ} {value : Value n} {w : JsonWriter} (hrec : w.Recorded)
    (hfuel : missing h w.ids < fuel) : Ends h value w (writeJson h fuel value w) := by
  induction fuel generalizing value w with
  | zero => omega
  | succ fuel ih =>
    cases value with
    | text text => exact .inl ⟨text, rfl, .text, fun _ hr => by cases hr⟩
    | undefined text => exact .inl ⟨text, rfl, .undefined, fun _ hr => by cases hr⟩
    | ref p =>
      rw [writeJson]
      cases hfind : w.stack.findIdx? fun entry => entry.identity = (h p).identity with
      | some start =>
        obtain ⟨hlt, hsame, -⟩ := List.findIdx?_eq_some_iff_getElem.mp hfind
        obtain ⟨message, hmessage⟩ := circularMessage_isSome hrec hlt
        refine .inr ⟨message, w, [], by simp [hmessage], .back ?_, by simp, ne_nil_of_length_pos (by omega)⟩
        exact mem_map.mpr ⟨_, getElem_mem hlt, of_decide_eq_true hsame⟩
      | none =>
        have hnot : (h p).identity ∉ w.ids := by
          intro hmem
          obtain ⟨entry, hentry, heq⟩ := mem_map.mp hmem
          have := List.findIdx?_eq_none_iff.mp hfind entry hentry
          simp [heq] at this
        have hids : ∀ (output : List Char) (edge : Option JsonEdge),
            (JsonWriter.mk output (w.stack ++ [⟨(h p).identity, (h p).content.isArray, edge⟩])).ids = w.ids ++ [(h p).identity] := by
          intro output edge
          simp [JsonWriter.ids]
        have hentered : (JsonWriter.push ⟨w.output, w.stack ++ [⟨(h p).identity, (h p).content.isArray, none⟩]⟩
            (h p).content.opening).stack = w.stack ++ [⟨(h p).identity, (h p).content.isArray, none⟩] := rfl
        have hitems : ∀ item ∈ (h p).content.items, ∀ w₁ edge,
            w₁.stack = w.stack ++ [⟨(h p).identity, (h p).content.isArray, edge⟩] →
            (edge = none → ∀ q, item.value ≠ .ref q) → Ends h item.value w₁ (writeJson h fuel item.value w₁) := by
          intro item _ w₁ edge hw₁ hedge
          cases hvalue : item.value with
          | text text => exact .inl ⟨text, by rw [writeJson], .text, fun _ hr => by cases hr⟩
          | undefined text => exact .inl ⟨text, by rw [writeJson], .undefined, fun _ hr => by cases hr⟩
          | ref q =>
            refine ih (fun entry hentry => ?_) ?_
            · rw [hw₁] at hentry
              rcases mem_append.mp hentry with hentry | hentry
              · exact hrec entry hentry
              · rw [mem_singleton.mp hentry]
                exact isSome_iff_ne_none.mpr fun hnone => hedge hnone q hvalue
            · have hlt := missing_lt hnot
              have hsame : w₁.ids = w.ids ++ [(h p).identity] := by
                rw [JsonWriter.ids, hw₁]
                exact hids [] edge
              rw [hsame]
              omega
        dsimp only
        rw [writeJsonObject]
        rcases writeItems_ends hitems (items_edge (h p).content) true hentered with
          ⟨texts, edge, hrun, htexts, hfine⟩ | ⟨message, w', way, hrun, ⟨item, hitem, hrep⟩, hstack, hne⟩
        · refine .inl ⟨_, ?_, .ref htexts, ?_⟩
          · rw [hrun]
            simp [Run.andThen, leave, JsonWriter.push]
          · rintro way (hmem | ⟨hmem, hrep⟩)
            · exact hnot hmem
            · obtain ⟨item, hitem, rfl⟩ := mem_map.mp hmem
              exact hfine item hitem _ (by rwa [JsonWriter.push, hids])
        · rw [JsonWriter.push, hids] at hrep hstack
          refine .inr ⟨message, w', (h p).identity :: way, by rw [hrun]; rfl, ?_, by simpa using hstack, hne⟩
          exact .inner (mem_map_of_mem hitem) hrep

/-! ### The stack at the end -/

/-- An array that holds itself is refused, and stays on the stack. -/
theorem writeJson_refused : ∃ message, writeJson (fun _ : Fin 1 => ⟨7, .elements [some (.ref 0)]⟩) 2 (.ref 0) .new =
    (.error (.typeError message), ⟨['['], [⟨7, true, some (.index 0)⟩]⟩) :=
  ⟨_, rfl⟩

/-- **Cycles are found exactly.** From a new writer a container is written, with all that it shares written wherever
it stands, or it reaches itself and is refused with containers left on the stack; from any writer, a write that
ends leaves the stack as it was, and one that is refused leaves there the containers on the way to the one that repeats. -/
theorem writeJson_cycles (h : Heap n) :
    (∀ root, ∀ fuel > n,
      (∃ text, writeJson h fuel (.ref root) .new = (.ok (), ⟨text, []⟩) ∧ Written h (.ref root) text ∧ ¬ Cyclic h root) ∨
      ∃ message w', writeJson h fuel (.ref root) .new = (.error (.typeError message), w') ∧ Cyclic h root ∧ w'.stack ≠ []) ∧
    ∀ value w, w.Recorded → ∀ fuel > n, Ends h value w (writeJson h fuel value w) := by
  have hmissing : ∀ ids, missing h ids ≤ n := fun ids => (Finset.card_le_univ _).trans (by simp)
  have hends : ∀ value w, w.Recorded → ∀ fuel > n, Ends h value w (writeJson h fuel value w) :=
    fun value w hw fuel hfuel => writeJson_ends h hw ((hmissing _).trans_lt hfuel)
  refine ⟨fun root fuel hfuel => ?_, hends⟩
  rcases hends (.ref root) .new (fun entry hentry => by cases hentry) fuel hfuel with
    ⟨text, hrun, hwritten, hfine⟩ | ⟨message, w', way, hrun, hrep, -, hne⟩
  · exact .inl ⟨text, hrun, hwritten, fun hc => (repeats_iff.mpr hc).elim hfine⟩
  · exact .inr ⟨message, w', hrun, repeats_iff.mp ⟨way, hrep⟩, hne⟩

end Scriptc.RuntimeRust.JsonCycles
