import Mathlib.Data.Set.Basic
import Mathlib.Logic.Function.Basic
import Mathlib.Logic.Relation
import Scriptc.Ir.Syntax

/-!
# Constant numeric tables

`findConstantNumericTables` of `ir/constant-tables.ts`: the immutable module globals that
are given one literal array of numbers and are only read by index or for their length.

The pass walks every property of every node of every function, so the nodes are a plain
tree here. The kinds it looks into have constructors of their own; any other node is its
kind, the binding it names, the bindings it captures and its child nodes, in order. Types
and source locations, which the walk skips, are left out where nothing reads them.
-/

namespace IrTree

open Function

open Ir

/-- `arrayGet`, `arrayHas` and `arrayState`. -/
inductive ArrayRead where
  | get | has | state
  deriving DecidableEq, Repr

/-- The nodes of the IR that the analysis tells apart. -/
inductive IrNode where
  | numLit (value : F64)
  | unary (op : String) (operand : IrNode)
  | varRef (localId : Id) (ty : Ty)
  | assign (localId : Id) (value : IrNode)
  /-- `spreads` lists the positions that are spread; absent is empty. -/
  | arrayLit (elems : List IrNode) (spreads : List ℕ)
  | arrIntrinsic (method : String) (receiver : IrNode) (args : List IrNode)
  | arrayRead (k : ArrayRead) (arr index : IrNode)
  | node (kind : String) (localId : Option Id) (captures : List Id) (children : List IrNode)

def IrNode.children : IrNode → List IrNode
  | .numLit _ | .varRef _ _ => []
  | .unary _ e | .assign _ e => [e]
  | .arrayLit es _ => es
  | .arrIntrinsic _ r args => r :: args
  | .arrayRead _ a i => [a, i]
  | .node _ _ _ ns => ns

/-- A module global; its binding is `.glob id`. -/
structure IrGlobal where
  id : String
  ty : Ty
  mutable : Bool

/-- `params` and `captures` are the bindings of the two parameter lists. -/
structure IrFunction where
  name : String
  params : List Id
  captures : List Id
  body : List IrNode

/-- A module, as far as the analysis reads it. -/
structure IrModule where
  functions : List IrFunction
  globals : List IrGlobal

/-- A global whose array is emitted as a constant. -/
structure ConstantNumericTable where
  symbol : String
  values : List F64
  deriving DecidableEq

def maxTableElements : ℕ := 256

def literalNumber : IrNode → Option F64
  | .numLit v => some v
  | .unary op e => if op = "-" then (literalNumber e).map F64.neg else none
  | _ => none

/-! ### Candidates -/

/-- What is known of a global while the module is walked. -/
structure Candidate where
  values : Option (List F64)
  writes : ℕ
  reads : ℕ
  rejected : Bool
  deriving DecidableEq

namespace Candidate

def new : Candidate := ⟨none, 0, 0, false⟩

def reject (c : Candidate) : Candidate := { c with rejected := true }

def read (c : Candidate) : Candidate := { c with reads := c.reads + 1 }

end Candidate

/-- The numbers of a table literal. -/
def tableValues : IrNode → Option (List F64)
  | .arrayLit es spreads =>
    if spreads = [] ∧ 0 < es.length ∧ es.length ≤ maxTableElements then es.mapM literalNumber else none
  | _ => none

/-- An `assign` to the candidate: the first one must store a table literal, and there is no second. -/
def Candidate.write (value : IrNode) (c : Candidate) : Candidate :=
  let c := { c with writes := c.writes + 1 }
  if c.writes = 1 then
    match tableValues value with
    | some vs => { c with values := some vs }
    | none => if c.values = none then c.reject else c
  else c.reject

/-- A map from ids to candidates, in insertion order. -/
abbrev Candidates := List (Id × Candidate)

namespace Candidates

def has (cs : Candidates) (id : Id) : Bool := cs.any (·.1 == id)

/-- What the walk does to a candidate it has looked up. -/
def update (id : Id) (f : Candidate → Candidate) (cs : Candidates) : Candidates :=
  cs.map fun p => if p.1 = id then (p.1, f p.2) else p

def set (id : Id) (c : Candidate) (cs : Candidates) : Candidates :=
  if cs.has id then cs.update id (fun _ => c) else cs ++ [(id, c)]

/-- The candidate a read of this expression is about. -/
def candidateFor (cs : Candidates) : IrNode → Option Id
  | .varRef x ty => if ty = .array .f64 ∧ cs.has x then some x else none
  | _ => none

end Candidates

/-- The intrinsics that neither change their receiver nor hand it on. -/
def readMethod (method : String) (args : List IrNode) : Bool :=
  (method == "getNumber" && args.length == 1) || (method == "length" && args.length == 0)

mutual
def visit : IrNode → Candidates → Candidates
  | .numLit _, cs => cs
  | .unary _ e, cs => visit e cs
  | .varRef x _, cs => cs.update x .reject
  | .assign x v, cs => visit v (cs.update x (.write v))
  | .arrayLit es _, cs => visitAll es cs
  | .arrIntrinsic m r args, cs =>
    match cs.candidateFor r with
    | some x =>
      if readMethod m args then visitAll args (if m = "getNumber" then cs.update x .read else cs)
      else visitAll args (visit r cs)
    | none => visitAll args (visit r cs)
  | .arrayRead _ a i, cs => if (cs.candidateFor a).isSome then visit i cs else visit i (visit a cs)
  | .node kind x captures ns, cs =>
    let cs := if kind = "closure" then captures.foldl (fun cs id => cs.update id .reject) cs else cs
    let cs := match x with
      | some x => cs.update x .reject
      | none => cs
    visitAll ns cs

def visitAll : List IrNode → Candidates → Candidates
  | [], cs => cs
  | n :: ns, cs => visitAll ns (visit n cs)
end

/-- The parameter lists name bindings, as nodes do. -/
def visitFunction (fn : IrFunction) (cs : Candidates) : Candidates :=
  visitAll fn.body ((fn.params ++ fn.captures).foldl (fun cs id => cs.update id .reject) cs)

def initialCandidates (M : IrModule) : Candidates :=
  M.globals.foldl
    (fun cs gl => if !gl.mutable && gl.ty == .array .f64 then cs.set (.glob gl.id) .new else cs) []

/-- A candidate that has kept its table. -/
def Candidate.table (c : Candidate) : Option (List F64) :=
  if !c.rejected && c.writes == 1 && decide (0 < c.reads) then c.values else none

def findConstantNumericTables (M : IrModule) : List (Id × ConstantNumericTable) :=
  let cs := M.functions.foldl (fun cs fn => visitFunction fn cs) (initialCandidates M)
  cs.foldl
    (fun tables p =>
      match p.2.table with
      | some vs => tables ++ [(p.1, ⟨s!"sc_const_numbers_{tables.length}", vs⟩)]
      | none => tables) []

/-!
## Running a module as a tree

What the nodes of a module can do to its globals and to the objects of its heap. Control
flow is left open: a node may evaluate its children in any order, any number of times,
with the code of any other activation in between, and may be left without a value at any
point (a jump, an exception, a suspension that is never resumed). Every execution of a
module is one of these runs, with calls, callbacks, generators and awaits as activations
side by side.

Bindings, number literals, array literals and the primitive reads of an array are exact.
Any other operation is open. It may do what it likes with the objects that its operands,
a local, the runtime or another object refer to; it can neither touch nor make a reference
to an object that only a module global or an operand of another node refers to.
-/

open Ir F64

/-- A value. `packed` stands for every other kind: a union arm, a checked dynamic value, a
caught exception, with the objects in it. -/
inductive Val where
  | num (x : F64)
  | bool (b : Bool)
  | undef
  | ref (a : ℕ)
  | packed (refs : List ℕ)
  deriving DecidableEq

/-- The objects a value refers to. -/
def Val.refs : Val → List ℕ
  | .num _ | .bool _ | .undef => []
  | .ref a => [a]
  | .packed as => as

inductive Slot where
  | hole
  | undef
  | val (v : Val)
  deriving DecidableEq

def Slot.refs : Slot → List ℕ
  | .hole | .undef => []
  | .val v => v.refs

/-- HOLE, VALUE and UNDEFINED as `arrayState` numbers them. -/
def Slot.state : Slot → ℤ
  | .hole => 0
  | .val _ => 1
  | .undef => 2

/-- An object. A local lives in a box, which its closures share. -/
inductive Obj where
  | array (slots : List Slot)
  | box (v : Val)
  | other (parts : List Val)
  deriving DecidableEq

def Obj.refs : Obj → List ℕ
  | .array slots => slots.flatMap Slot.refs
  | .box v => v.refs
  | .other vs => vs.flatMap Val.refs

structure State where
  /-- The globals that have been assigned. -/
  globals : String → Option Val
  heap : ℕ → Option Obj
  /-- The boxes of locals, and what the runtime holds: pending callbacks, suspended
  activations, an exception in flight. -/
  roots : Set ℕ

namespace State

variable (s : State)

def setGlobal (g : String) (v : Val) : State := { s with globals := Function.update s.globals g (some v) }

def setObj (a : ℕ) (o : Obj) : State := { s with heap := Function.update s.heap a (some o) }

@[simp] theorem setGlobal_self (g : String) (v : Val) : (s.setGlobal g v).globals g = some v := update_self ..

theorem setGlobal_of_ne {g h : String} (hn : h ≠ g) (v : Val) : (s.setGlobal g v).globals h = s.globals h :=
  update_of_ne hn ..

@[simp] theorem setObj_self (a : ℕ) (o : Obj) : (s.setObj a o).heap a = some o := update_self ..

theorem setObj_of_ne {a b : ℕ} (hn : b ≠ a) (o : Obj) : (s.setObj a o).heap b = s.heap b := update_of_ne hn ..

/-- Something other than a global or a temporary refers to the object. -/
def Held (a : ℕ) : Prop := a ∈ s.roots ∨ ∃ b o, s.heap b = some o ∧ a ∈ o.refs

/-- The objects that a named global refers to. -/
def named : Option Id → List ℕ
  | some (.glob g) => ((s.globals g).map Val.refs).getD []
  | _ => []

end State

/-- An open operation on the objects `ins`, which hands out the objects `outs`. The objects
of `free` are the ones it can make. -/
structure Open (free : Set ℕ) (ins : List ℕ) (s s' : State) (outs : List ℕ) : Prop where
  globals : s'.globals = s.globals
  touched : ∀ a, s'.heap a = s.heap a ∨ a ∈ free ∨ s.Held a ∨ a ∈ ins
  known : ∀ a, s'.Held a ∨ a ∈ outs → a ∈ free ∨ s.Held a ∨ a ∈ ins

/-- The slot a number names: canonical array indices below the length name one, any other
number a hole. -/
def slotAt (slots : List Slot) (x : F64) : Slot :=
  ((slots.zipIdx.find? fun p => F64.eq x (ofInt p.2)).map (·.1)).getD .hole

/-- ToNumber of a slot of a numeric array. -/
def Slot.number : Slot → F64
  | .val (.num x) => x
  | _ => .nan

/-- What `arrayGet`, `arrayHas` and `arrayState` give; `arrayGet` traps on an absent slot. -/
def ArrayRead.result : ArrayRead → Slot → Option Val
  | .get, .val v => some v
  | .get, _ => none
  | .has, sl => some (.bool (sl != .hole))
  | .state, sl => some (.num (ofInt sl.state))

/-- The activation of a node: the locals in scope, the position in its parent, and the
values its children have given so far, each with the child's position. -/
structure Frame where
  node : IrNode
  env : String → Option ℕ
  pos : ℕ
  vals : List (ℕ × Val)

def valRefs (vals : List (ℕ × Val)) : List ℕ := vals.flatMap (·.2.refs)

/-- What a node does once it has the values it wants, and the value it gives. -/
inductive Act (free : Set ℕ) (env : String → Option ℕ) (s : State) :
    IrNode → List (ℕ × Val) → State → Val → Prop where
  | numLit {x : F64} : Act free env s (.numLit x) [] s (.num x)
  | neg {e : IrNode} {x : F64} : Act free env s (.unary "-" e) [(0, .num x)] s (.num (neg x))
  | unary {op : String} {e : IrNode} {vals : List (ℕ × Val)} {s' : State} {v : Val} : op ≠ "-" →
      Open free (valRefs vals) s s' v.refs → Act free env s (.unary op e) vals s' v
  | globalVar {g : String} {ty : Ty} {v : Val} : s.globals g = some v → Act free env s (.varRef (.glob g) ty) [] s v
  | unset {g : String} {ty : Ty} : s.globals g = none → Act free env s (.varRef (.glob g) ty) [] s .undef
  | localVar {x : String} {ty : Ty} {b : ℕ} {v : Val} : env x = some b → s.heap b = some (.box v) →
      Act free env s (.varRef (.loc x) ty) [] s v
  | assignGlobal {g : String} {e : IrNode} {v : Val} :
      Act free env s (.assign (.glob g) e) [(0, v)] (s.setGlobal g v) .undef
  | assignLocal {x : String} {e : IrNode} {b : ℕ} {v : Val} : env x = some b →
      Act free env s (.assign (.loc x) e) [(0, v)] (s.setObj b (.box v)) .undef
  | arrayLit {es : List IrNode} {vals : List (ℕ × Val)} {a : ℕ} : vals.map Prod.fst = List.range es.length →
      a ∈ free → Act free env s (.arrayLit es []) vals (s.setObj a (.array (vals.map fun p => .val p.2))) (.ref a)
  | arraySpread {es : List IrNode} {spreads : List ℕ} {vals : List (ℕ × Val)} {s' : State} {v : Val} :
      spreads ≠ [] → Open free (valRefs vals) s s' v.refs → Act free env s (.arrayLit es spreads) vals s' v
  | getNumber {r i : IrNode} {a : ℕ} {slots : List Slot} {x : F64} : s.heap a = some (.array slots) →
      Act free env s (.arrIntrinsic "getNumber" r [i]) [(0, .ref a), (1, .num x)] s (.num (slotAt slots x).number)
  | length {r : IrNode} {a : ℕ} {slots : List Slot} : s.heap a = some (.array slots) →
      Act free env s (.arrIntrinsic "length" r []) [(0, .ref a)] s (.num (ofInt slots.length))
  | arrIntrinsic {m : String} {r : IrNode} {args : List IrNode} {vals : List (ℕ × Val)} {s' : State} {v : Val} :
      readMethod m args = false → Open free (valRefs vals) s s' v.refs →
      Act free env s (.arrIntrinsic m r args) vals s' v
  | arrayRead {k : ArrayRead} {arr i : IrNode} {a : ℕ} {slots : List Slot} {x : F64} {v : Val} :
      s.heap a = some (.array slots) → k.result (slotAt slots x) = some v →
      Act free env s (.arrayRead k arr i) [(0, .ref a), (1, .num x)] s v
  /-- Any other node is open, and reads and writes the global it names, if any. A closure
  captures boxes; a global has none. -/
  | node {kind : String} {x : Option Id} {captures : List Id} {ns : List IrNode} {vals : List (ℕ × Val)} {s' : State}
      {v : Val} : Open free (valRefs vals ++ s.named x) s s' v.refs →
      Act free env s (.node kind x captures ns) vals s' v
  | nodeWrite {kind g : String} {captures : List Id} {ns : List IrNode} {vals : List (ℕ × Val)} {s' : State}
      {v w : Val} : Open free (valRefs vals ++ s.named (some (.glob g))) s s' (v.refs ++ w.refs) →
      Act free env s (.node kind (some (.glob g)) captures ns) vals (s'.setGlobal g w) v

/-- A state with the activations at work, each a stack of frames, the innermost first. -/
structure Config where
  state : State
  frames : ℕ → List Frame

namespace Config

/-- Nothing refers to the object. -/
def free (c : Config) : Set ℕ :=
  {a | c.state.heap a = none ∧ ¬ c.state.Held a ∧ (∀ g v, c.state.globals g = some v → a ∉ v.refs) ∧
    ∀ i, ∀ f ∈ c.frames i, a ∉ valRefs f.vals ∧ ∀ x, f.env x ≠ some a}

/-- No global assigned, no object made and nothing running. -/
def start : Config := ⟨⟨fun _ => none, fun _ => none, ∅⟩, fun _ => []⟩

end Config

/-- A child hands its value to its parent. -/
def deliver (pos : ℕ) (v : Val) : List Frame → List Frame
  | [] => []
  | p :: fs => { p with vals := p.vals ++ [(pos, v)] } :: fs

/-- The steps of a module. -/
inductive Step (M : IrModule) (c : Config) : Config → Prop where
  /-- A statement of a function begins, with the boxes of the locals it can see. -/
  | enter {i : ℕ} {fn : IrFunction} {n : IrNode} {env : String → Option ℕ} {s' : State} : fn ∈ M.functions →
      n ∈ fn.body → c.frames i = [] → Open c.free [] c.state s' [] → (∀ x b, env x = some b → b ∈ s'.roots) →
      Step M c ⟨s', Function.update c.frames i [⟨n, env, 0, []⟩]⟩
  | child {i k : ℕ} {f : Frame} {fs : List Frame} {n : IrNode} : c.frames i = f :: fs → f.node.children[k]? = some n →
      Step M c ⟨c.state, Function.update c.frames i (⟨n, f.env, k, []⟩ :: f :: fs)⟩
  | act {i : ℕ} {f : Frame} {fs : List Frame} {s' : State} {v : Val} : c.frames i = f :: fs →
      Act c.free f.env c.state f.node f.vals s' v →
      Step M c ⟨s', Function.update c.frames i (deliver f.pos v fs)⟩
  /-- The node is left without a value. -/
  | leave {i : ℕ} {f : Frame} {fs : List Frame} : c.frames i = f :: fs →
      Step M c ⟨c.state, Function.update c.frames i fs⟩

def Steps (M : IrModule) : Config → Config → Prop := Relation.ReflTransGen (Step M)

end IrTree
