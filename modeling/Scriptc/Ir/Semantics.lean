import Scriptc.IntInfer.Operators
import Scriptc.Ir.Syntax

/-!
# Running the intermediate representation

A big-step semantics of a whole module: `Run M fn t s o s'` says that the task `t` of the
function `fn`, started in `s`, can end with the outcome `o` in `s'`. Calls run the callee's
body, so a derivation holds every call it makes. A task can also be cut off at any point
(`Out.cut`): the states of such runs are the states a program passes through, also of one
that never ends.

Numbers and the bindings, records and fields that hold them are exact. What no pass here
reads is left open: an expression kind without a number of its own may give any value of
its type, may throw, and may do to objects other than records what it likes. Of the code
a runtime calls back, only the functions that escape can run, on any arguments. The body of an
async function or a generator runs inside its call, and the call gives an opaque object for it.
-/

namespace Ir

open Function

open IntInfer F64

/-! ### Values and states -/

/-- A value at run time. A union value carries the index of its arm, a checked-dynamic
value what it was made from; strings, closures and the like are told apart by a number. -/
inductive Val where
  | num (x : F64)
  | bool (b : Bool)
  | null
  | undef
  | tagged (tag : Nat) (v : Val)
  | dyn (v : Val)
  | ref (a : Nat)
  | opq (id : Nat) (truthy : Bool)
  deriving DecidableEq

namespace Val

/-- The number a value carries. -/
def num? : Val → Option F64
  | .num x => some x
  | .tagged _ v | .dyn v => v.num?
  | _ => none

/-- The object a value refers to. -/
def addr? : Val → Option Nat
  | .ref a => some a
  | .tagged _ v => v.addr?
  | _ => none

/-- JavaScript's ToBoolean. -/
def truthy : Val → Bool
  | .num x => !(x.isNaN || x.isZero)
  | .bool b => b
  | .null | .undef => false
  | .tagged _ v | .dyn v => v.truthy
  | .ref _ => true
  | .opq _ b => b

def isNullish : Val → Bool
  | .null | .undef => true
  | .tagged _ v => v.isNullish
  | _ => false

/-- Strict equality of a switch discriminant with a case test. -/
def strictEq : Val → Val → Bool
  | .num x, .num y => F64.eq x y
  | v, w => v == w

/-- The same payload under another tag, or none. -/
def SamePayload (v w : Val) : Prop := v.num? = w.num? ∧ v.addr? = w.addr?

end Val

/-- The values of a type. -/
def Ty.Admits (M : IrModule) : Ty → Val → Prop
  | .f64, .num _ | .bool, .bool _ | .nullT, .null | .undefinedT, .undef | .dyn, .dyn _ => True
  | .union u, .tagged t v => ∃ arms a, M.arms u = some arms ∧ arms[t]? = some a ∧ a.Admits M v
  | .f64, _ | .bool, _ | .nullT, _ | .undefinedT, _ | .dyn, _ | .union _, _ => False
  | _, .ref _ | _, .opq _ _ | _, .undef => True
  | _, _ => False

/-- An object. A record has a shape; instances, arrays and the rest have none. -/
structure Obj where
  shape : Option String
  fields : String → Option Val

/-- A module global, with the number of times it has been written. -/
structure Cell where
  val : Val
  stamp : Nat

/-- The state of an activation, with the globals and the heap. -/
structure State where
  locals : String → Option Val
  /-- The running closure. -/
  self : Val
  globals : String → Cell
  heap : Nat → Option Obj

namespace State

variable (s : State)

def get : Id → Option Val
  | .loc x => s.locals x
  | .glob g => some (s.globals g).val

def setLocal (x : String) (v : Option Val) : State := { s with locals := update s.locals x v }

def set : Id → Val → State
  | .loc x, v => s.setLocal x (some v)
  | .glob g, v => { s with globals := update s.globals g ⟨v, (s.globals g).stamp + 1⟩ }

def setObj (a : Nat) (o : Obj) : State := { s with heap := update s.heap a (some o) }

/-- Nothing refers to the address. -/
structure Fresh (a : Nat) : Prop where
  unused : s.heap a = none
  binding : ∀ id v, s.get id = some v → v.addr? ≠ some a
  self : s.self.addr? ≠ some a
  field : ∀ b o f v, s.heap b = some o → o.fields f = some v → v.addr? ≠ some a

end State

/-! ### What a node does once its operands are evaluated -/

/-- Shapes a value of the type can hold, at any depth. -/
inductive Ty.Reaches (M : IrModule) : Ty → String → Prop where
  | here (sh : String) : Ty.Reaches M (.record sh) sh
  | field {sh f : String} {t : Ty} {sh' : String} : M.fieldTy sh f = some t → Ty.Reaches M t sh' →
      Ty.Reaches M (.record sh) sh'
  | arm {u : String} {arms : List Ty} {t : Ty} {sh : String} : M.arms u = some arms → t ∈ arms →
      Ty.Reaches M t sh → Ty.Reaches M (.union u) sh
  | elem {t : Ty} {sh : String} : Ty.Reaches M t sh → Ty.Reaches M (.array t) sh
  | setElem {t : Ty} {sh : String} : Ty.Reaches M t sh → Ty.Reaches M (.set t) sh
  | mapValue {k t : Ty} {sh : String} : Ty.Reaches M t sh → Ty.Reaches M (.map k t) sh
  | inner {t : Ty} {sh : String} : Ty.Reaches M t sh → Ty.Reaches M (.promise t) sh

/-- The type can hold a function value, at any depth. -/
inductive Ty.Callable (M : IrModule) : Ty → Prop where
  | func : Ty.Callable M .func
  | genericFunc : Ty.Callable M .genericFunc
  | dyn : Ty.Callable M .dyn
  | elem {t : Ty} : Ty.Callable M t → Ty.Callable M (.array t)
  | setElem {t : Ty} : Ty.Callable M t → Ty.Callable M (.set t)
  | mapValue {k t : Ty} : Ty.Callable M t → Ty.Callable M (.map k t)
  | inner {t : Ty} : Ty.Callable M t → Ty.Callable M (.promise t)
  | field {sh f : String} {t : Ty} : M.fieldTy sh f = some t → Ty.Callable M t → Ty.Callable M (.record sh)
  | arm {u : String} {arms : List Ty} {t : Ty} : M.arms u = some arms → t ∈ arms → Ty.Callable M t →
      Ty.Callable M (.union u)

/-- Kinds of the last group that can call back into the module: a closure-family call, a
generator resumed, a promise executor, embedded engine code, and the conversion of a dynamic
value to a string. -/
def OtherKind.RunsCode (tys : List Ty) : OtherKind → Prop
  | .callFamily | .genResume | .newPromise | .jsOp | .jsExit | .dynIterN | .dynKeyGet => True
  | .toString => .dyn ∈ tys
  | _ => False

/-- The node can run code of the module other than a named callee. -/
def Kind.RunsCode (M : IrModule) (tys : List Ty) : Kind → Prop
  | .indirect _ => True
  | .suspend .ffiCall => ∃ t ∈ tys, t.Callable M
  | .suspend _ => True
  | .libCall (.other _) => ∃ t ∈ tys, t.Callable M
  | .other k => k.RunsCode tys
  | _ => False

/-- The node makes records of its result type itself, from data the module did not type. -/
def Kind.Builds : Kind → Prop
  | .libCall (.other _) | .suspend .ffiCall => True
  | .other .dynCheck | .other .jsExit | .other .genResume | .other .promiseWithResolvers => True
  | _ => False

/-- The node hands arguments over from dynamic data when it calls back. -/
def Kind.Marshals : Kind → Prop
  | .indirect .dynCall | .indirect .dynInvoke | .suspend _ | .libCall _ | .other _ => True
  | _ => False

/-- The kinds of which only operands and type are modelled. -/
def Kind.isOpaque : Kind → Bool
  | .libCall (.other _) | .indirect _ | .suspend _ | .other _ => true
  | _ => false

/-- What the open part of an operation may do to the heap: records stay as they are, and a
new record has a shape `P` allows. -/
structure HeapStep (P : String → Prop) (h h' : Nat → Option Obj) : Prop where
  kept : ∀ a o sh, h a = some o → o.shape = some sh → h' a = some o
  made : ∀ a o sh, h' a = some o → o.shape = some sh → h a = some o ∨ P sh

/-- A field of a record literal that is stored: its value has the type the shape declares. -/
def Stored (M : IrModule) (sh : String) (names : List String) (tys : List Ty) (vs : List Val) (f : String)
    (w : Val) : Prop :=
  ∃ i : Nat, names[i]? = some f ∧ vs[i]? = some w ∧ ∀ t, M.fieldTy sh f = some t → tys[i]? = some t

/-- The nodes that neither throw nor run code: what they give, and the state they leave. -/
inductive Apply (P : PowApprox) (M : IrModule) (s : State) : Kind → List Ty → Ty → List Val → Val → State → Prop where
  | arith {op : IrNumBinOp} {ty : Ty} {x y : F64} : op.isArith = true →
      Apply P M s (.bin op) [.f64, .f64] ty [.num x, .num y] (.num (jsBin P op x y)) s
  | cmp {op : IrNumBinOp} {ty : Ty} {x y : F64} : op.isArith = false →
      Apply P M s (.bin op) [.f64, .f64] ty [.num x, .num y] (.bool (jsCmp op x y)) s
  /-- `===` and `!==` on values that are not numbers. -/
  | identity {op : IrNumBinOp} {t t' ty : Ty} {v w : Val} {b : Bool} : op.isArith = false → (t ≠ .f64 ∨ t' ≠ .f64) →
      Apply P M s (.bin op) [t, t'] ty [v, w] (.bool b) s
  | strEq {t t' ty : Ty} {v w : Val} {b : Bool} : Apply P M s .strEq [t, t'] ty [v, w] (.bool b) s
  | strCmp {t t' ty : Ty} {v w : Val} {b : Bool} : Apply P M s .strCmp [t, t'] ty [v, w] (.bool b) s
  | unionIsTag {u : String} {tag t : Nat} {neg : Bool} {ty : Ty} {v : Val} : (Ty.union u).Admits M (.tagged t v) →
      Apply P M s (.unionIsTag u tag neg) [.union u] ty [.tagged t v] (.bool ((t == tag) != neg)) s
  | unionDisc {t ty : Ty} {v w : Val} : ty.Admits M w → Apply P M s .unionDisc [t] ty [v] w s
  | neg {ty : Ty} {x : F64} : Apply P M s (.unary .neg) [.f64] ty [.num x] (.num (neg x)) s
  | bitNot {ty : Ty} {x : F64} : Apply P M s (.unary .bitNot) [.f64] ty [.num x] (.num (bitNot x)) s
  | not {t ty : Ty} {v : Val} : Apply P M s (.unary .not) [t] ty [v] (.bool (!v.truthy)) s
  | toBool {t ty : Ty} {v : Val} : Apply P M s .toBool [t] ty [v] (.bool v.truthy) s
  | unionWrap {u : String} {tag : Nat} {arms : List Ty} {t : Ty} {v : Val} : M.arms u = some arms →
      arms[tag]? = some t → t.Admits M v →
      Apply P M s (.unionWrap u tag) [t] (.union u) [v] (.tagged tag v) s
  | unionNarrow {u : String} {tag : Nat} {ty : Ty} {v w : Val} : ty.Admits M w → v.SamePayload w →
      (Ty.union u).Admits M v → Apply P M s .unionNarrow [.union u] ty [v] w s
  | mathRound {fn : MathRound} {x : F64} :
      Apply P M s (.libCall (.math (.round fn))) [.f64] .f64 [.num x] (.num (fn.apply x)) s
  | mathAbs {x : F64} : Apply P M s (.libCall (.math .abs)) [.f64] .f64 [.num x] (.num (F64.abs x)) s
  | mathMinMax {fn : MinMax} {x y : F64} :
      Apply P M s (.libCall (.math (.minMax fn))) [.f64, .f64] .f64 [.num x, .num y] (.num (fn.apply [x, y])) s
  | mathRandom {x : F64} : F64.le zero x = true → F64.lt x (ofInt 1) = true →
      Apply P M s (.libCall (.math .random)) [] .f64 [] (.num x) s
  | mathOther {name : String} {tys : List Ty} {ty : Ty} {vs : List Val} {w : Val} : ty.Admits M w →
      Apply P M s (.libCall (.mathOther name)) tys ty vs w s
  | recordLit {sh : String} {names : List String} {tys : List Ty} {vs : List Val} {a : Nat} {o : Obj} : s.Fresh a →
      o.shape = some sh → (∀ f w, o.fields f = some w → Stored M sh names tys vs f w) →
      Apply P M s (.recordLit sh names) tys (.record sh) vs (.ref a) (s.setObj a o)
  | recordClone {sh : String} {names : List String} {t : Ty} {tys : List Ty} {src : Val} {vs : List Val} {b a : Nat}
      {p o : Obj} : src.addr? = some b → s.heap b = some p → p.shape = some sh → s.Fresh a → o.shape = some sh →
      (∀ f w, o.fields f = some w → Stored M sh names tys vs f w ∨ p.fields f = some w) →
      Apply P M s (.recordClone sh names) (t :: tys) (.record sh) (src :: vs) (.ref a) (s.setObj a o)
  | recordGet {sh f : String} {t ty : Ty} {v w : Val} {a : Nat} {o : Obj} : v.addr? = some a → s.heap a = some o →
      o.shape = some sh → o.fields f = some w → ty.Admits M w → Apply P M s (.recordGet sh f) [t] ty [v] w s
  | recordMiss {sh f : String} {t ty : Ty} {v w : Val} {a : Nat} {o : Obj} : v.addr? = some a → s.heap a = some o →
      o.shape = some sh → o.fields f = none → ty.Admits M w → w.num? = none → w.addr? = none →
      Apply P M s (.recordGet sh f) [t] ty [v] w s
  | fieldGet {c f : String} {t ty : Ty} {v w : Val} {a : Nat} {o : Obj} : v.addr? = some a → s.heap a = some o →
      o.fields f = some w → ty.Admits M w → Apply P M s (.fieldGet c f) [t] ty [v] w s

/-! ### Tasks, outcomes and runs -/

/-- How a task ends. A switch whose tests all failed ends them with a miss. -/
inductive Out where
  | vals (vs : List Val)
  | brk (label : Option String)
  | cont (label : Option String)
  | ret (v : Option Val)
  | thr
  | miss
  | cut
  deriving DecidableEq

/-- The outcome is not a normal completion. -/
def Out.abrupt : Out → Bool
  | .vals _ => false
  | _ => true

/-- A jump without a label, or with one of these. -/
def aims (labels : List String) : Option String → Bool
  | none => true
  | some l => labels.contains l

/-- A loop, as the four loop statements give it. -/
structure LoopOpts where
  cond : Option Expr
  body : List Stmt
  update : Option Stmt
  labels : List String
  doWhile : Bool
  /-- The variable that takes the elements of a `for`-`of`. -/
  elem : Option String

def LoopOpts.ofWhile (c : Expr) (b : List Stmt) (ls : List String) : LoopOpts := ⟨some c, b, none, ls, false, none⟩

def LoopOpts.ofDoWhile (b : List Stmt) (c : Expr) (ls : List String) : LoopOpts := ⟨some c, b, none, ls, true, none⟩

def LoopOpts.ofFor (c : Option Expr) (u : Option Stmt) (b : List Stmt) (ls : List String) : LoopOpts :=
  ⟨c, b, u, ls, false, none⟩

def LoopOpts.ofForOf (x : String) (b : List Stmt) (ls : List String) : LoopOpts := ⟨none, b, none, ls, false, some x⟩

/-- What is run: an expression, a statement, a list of them or a loop. -/
inductive Task where
  | expr (e : Expr)
  | exprs (es : List Expr)
  | stmt (st : Stmt)
  | stmts (ss : List Stmt)
  /-- A loop at its header, at its body, and past its body. -/
  | loop (o : LoopOpts)
  | iter (o : LoopOpts)
  | latch (o : LoopOpts)
  /-- The tests of a switch against its discriminant, and its bodies from a case on. -/
  | tests (d : Val) (cs : List SwitchCase)
  | fall (cs : List SwitchCase)
  /-- A try body with its handler, before any `finally`. -/
  | guarded (t : List Stmt) (c : Option (List Stmt)) (x : Option String)
  /-- A call of a module function. -/
  | invoke (f : String) (args : List Val)
  /-- Calls of escaping functions, in any number; with `marshal`, on arguments the runtime makes. -/
  | user (marshal : Bool)

/-- The operands of the statements that evaluate them and then act. -/
def Stmt.operands : Stmt → Option (List Expr)
  | .varDecl _ none | .ret none | .rethrow | .runtimeFence | .breakStmt _ | .continueStmt _ => some []
  | .varDecl _ (some e) | .assign _ e | .exprStmt e | .ret (some e) | .throwStmt e => some [e]
  | .heapWrite _ args => some args
  | .recordSet _ _ o v => some [o, v]
  | .recordKeySet _ _ o k v => some [o, k, v]
  | .recordKeyDelete _ o k => some [o, k]
  | _ => none

/-- The act of such a statement. A heap write may throw instead. -/
inductive Act (M : IrModule) (s : State) : Stmt → List Val → Out → State → Prop where
  | decl {x : String} : Act M s (.varDecl x none) [] (.vals []) (s.setLocal x none)
  | init {x : String} {e : Expr} {v : Val} : Act M s (.varDecl x (some e)) [v] (.vals []) (s.setLocal x (some v))
  | assign {id : Id} {e : Expr} {v : Val} : Act M s (.assign id e) [v] (.vals []) (s.set id v)
  | exprStmt {e : Expr} {v : Val} : Act M s (.exprStmt e) [v] (.vals []) s
  | heapWrite {k : HeapWrite} {args : List Expr} {vs : List Val} {h : Nat → Option Obj} :
      HeapStep (fun _ => False) s.heap h → Act M s (.heapWrite k args) vs (.vals []) { s with heap := h }
  | heapThrow {k : HeapWrite} {args : List Expr} {vs : List Val} : Act M s (.heapWrite k args) vs .thr s
  | recordSet {sh f : String} {eo ev : Expr} {vo v : Val} {a : Nat} {o : Obj} : vo.addr? = some a →
      s.heap a = some o → o.shape = some sh →
      Act M s (.recordSet sh f eo ev) [vo, v] (.vals []) (s.setObj a ⟨some sh, update o.fields f (some v)⟩)
  /-- The key names a field at run time; with `overflowOnly`, never a declared one. A dynamic
  value is stored as the number it holds. -/
  | recordKeySet {sh f : String} {ov : Bool} {eo ek ev : Expr} {vo vk v w : Val} {a : Nat} {o : Obj} :
      vo.addr? = some a → s.heap a = some o → o.shape = some sh → (ov = true → M.fieldTy sh f = none) →
      w.num? = v.num? →
      Act M s (.recordKeySet sh ov eo ek ev) [vo, vk, v] (.vals [])
        (s.setObj a ⟨some sh, update o.fields f (some w)⟩)
  | recordKeyThrow {sh : String} {ov : Bool} {eo ek ev : Expr} {vs : List Val} :
      Act M s (.recordKeySet sh ov eo ek ev) vs .thr s
  | recordKeyDelete {sh f : String} {eo ek : Expr} {vo vk : Val} {a : Nat} {o : Obj} : vo.addr? = some a →
      s.heap a = some o → o.shape = some sh →
      Act M s (.recordKeyDelete sh eo ek) [vo, vk] (.vals []) (s.setObj a ⟨some sh, update o.fields f none⟩)
  | retNone : Act M s (.ret none) [] (.ret none) s
  | ret {e : Expr} {v : Val} : Act M s (.ret (some e)) [v] (.ret (some v)) s
  | throwStmt {e : Expr} {v : Val} : Act M s (.throwStmt e) [v] .thr s
  | rethrow : Act M s .rethrow [] .thr s
  | runtimeFence : Act M s .runtimeFence [] .thr s
  | breakStmt {l : Option String} : Act M s (.breakStmt l) [] (.brk l) s
  | continueStmt {l : Option String} : Act M s (.continueStmt l) [] (.cont l) s

/-- The function can be called by other code than a `call` of its name. -/
def IrModule.Escapes (M : IrModule) (f : String) : Prop :=
  f ∈ M.members ∨ ∃ fn ∈ M.functions, ∃ args ty, Node.expr (.node (.other (.closure f)) args ty) ∈ stmtsNodes fn.body ∨
    Node.expr (.node (.other (.familyClosure f)) args ty) ∈ stmtsNodes fn.body

/-- The types of a function's parameters. -/
def IrFunction.paramTys (fn : IrFunction) : List Ty :=
  fn.params.filterMap fun x => (fn.locals.find? (·.id == x)).map (·.ty)

/-- Shapes the runtime makes when it hands dynamic arguments over. -/
def IrModule.Marshalled (M : IrModule) (sh : String) : Prop :=
  ∃ f fn, M.Escapes f ∧ M.fn? f = some fn ∧ ∃ t ∈ fn.paramTys, t.Reaches M sh

/-- The locals of a call: the parameters hold the arguments, a captured local anything. -/
def IrFunction.enter (fn : IrFunction) (args : List Val) (caps : String → Option Val) (x : String) : Option Val :=
  match (fn.params.zip args).lookup x with
  | some v => some v
  | none => if fn.boxed x then caps x else none

/-- What a call gives its caller: a body that ends without `return` gives `undefined`. -/
def Out.asCall : Out → Option Out
  | .vals _ | .ret none => some (.vals [.undef])
  | .ret (some v) => some (.vals [v])
  | .thr => some .thr
  | .cut => some .cut
  | _ => none

/-- Globals and heap from one state, locals of another except that boxed ones may differ. -/
structure State.Returns (fn : IrFunction) (s t s' : State) : Prop where
  globals : s'.globals = t.globals
  heap : s'.heap = t.heap
  self : s'.self = s.self
  locals : ∀ x, fn.boxed x = false → s'.locals x = s.locals x

/-- The default clause of a switch and the cases after it. -/
def defaultOn : List SwitchCase → Option (List SwitchCase)
  | [] => none
  | .mk none b :: cs => some (.mk none b :: cs)
  | .mk (some _) _ :: cs => defaultOn cs

/-- The left operand decides, and is the result. -/
def ShortOp.keeps : ShortOp → Val → Bool
  | .and, v => !v.truthy
  | .or, v | .orDefault, v => v.truthy
  | .nullish, v => !v.isNullish

/-- A break that ends here is a normal completion. -/
def Out.unbreak (here : Option String → Bool) : Out → Out
  | .brk l => if here l then .vals [] else .brk l
  | o => o

/-- A label of the block. -/
def isLabel (labels : List String) : Option String → Bool
  | none => false
  | some l => labels.contains l

/-- The handler's variable holds a snapshot of the exception. -/
def State.bindCaught (s : State) (x : Option String) (id : Nat) : State :=
  match x with
  | none => s
  | some x => s.setLocal x (some (.opq id true))

/-- The outcome of a loop body is met by the loop itself. -/
def Out.metBy (labels : List String) : Out → Bool
  | .brk l | .cont l => aims labels l
  | _ => false

/-- The runs of a task, with their outcome; any run may be cut. -/
inductive Run (P : PowApprox) (M : IrModule) : IrFunction → Task → State → Out → State → Prop where
  | cut {fn t s} : Run P M fn t s .cut s
  -- expressions
  | numLit {fn x sp s} : Run P M fn (.expr (.numLit x sp)) s (.vals [.num x]) s
  | boolLit {fn b s} : Run P M fn (.expr (.boolLit b)) s (.vals [.bool b]) s
  | unitLit {fn u s} : Run P M fn (.expr (.unitLit u)) s (.vals [if u then .undef else .null]) s
  | leaf {fn k ty v s} : Ty.Admits M ty v → Run P M fn (.expr (.leaf k ty)) s (.vals [v]) s
  | selfRef {fn ty s} : Ty.Admits M ty s.self → Run P M fn (.expr (.selfRef ty)) s (.vals [s.self]) s
  | varRef {fn id ty v s} : s.get id = some v → Ty.Admits M ty v → Run P M fn (.expr (.varRef id ty)) s (.vals [v]) s
  | incDec {fn id plus pre x y s} : s.get id = some (.num x) → y = add x (ofInt (if plus then 1 else -1)) →
      Run P M fn (.expr (.incDec id plus pre)) s (.vals [.num (if pre then y else x)]) (s.set id (.num y))
  | assignExpr {fn id e v s s1} : Run P M fn (.expr e) s (.vals [v]) s1 →
      Run P M fn (.expr (.assignExpr id e)) s (.vals [v]) (s1.set id v)
  | assignExprAbrupt {fn id e o s s1} : Run P M fn (.expr e) s o s1 → o.abrupt = true →
      Run P M fn (.expr (.assignExpr id e)) s o s1
  | ternary {fn c a b ty v o s s1 s2} : Run P M fn (.expr c) s (.vals [v]) s1 →
      Run P M fn (.expr (if v.truthy then a else b)) s1 o s2 → Run P M fn (.expr (.ternary c a b ty)) s o s2
  | ternaryAbrupt {fn c a b ty o s s1} : Run P M fn (.expr c) s o s1 → o.abrupt = true →
      Run P M fn (.expr (.ternary c a b ty)) s o s1
  | shortLeft {fn op l r ty v w s s1} : Run P M fn (.expr l) s (.vals [v]) s1 → op.keeps v = true → v.SamePayload w →
      v.truthy = w.truthy → Run P M fn (.expr (.short op l r ty)) s (.vals [w]) s1
  | shortRight {fn op l r ty v o s s1 s2} : Run P M fn (.expr l) s (.vals [v]) s1 → op.keeps v = false →
      Run P M fn (.expr r) s1 o s2 → Run P M fn (.expr (.short op l r ty)) s o s2
  | shortAbrupt {fn op l r ty o s s1} : Run P M fn (.expr l) s o s1 → o.abrupt = true →
      Run P M fn (.expr (.short op l r ty)) s o s1
  | optNone {fn r b ty v w s s1} : Run P M fn (.expr r) s (.vals [v]) s1 → v.isNullish = true → w.num? = none →
      Run P M fn (.expr (.optChain r b ty)) s (.vals [w]) s1
  | optSome {fn r b ty v o s s1 s2} : Run P M fn (.expr r) s (.vals [v]) s1 → v.isNullish = false →
      Run P M fn (.expr b) s1 o s2 → Run P M fn (.expr (.optChain r b ty)) s o s2
  | optAbrupt {fn r b ty o s s1} : Run P M fn (.expr r) s o s1 → o.abrupt = true →
      Run P M fn (.expr (.optChain r b ty)) s o s1
  | seqExpr {fn ss r o s s1 s2} : Run P M fn (.stmts ss) s (.vals []) s1 → Run P M fn (.expr r) s1 o s2 →
      Run P M fn (.expr (.seqExpr ss r)) s o s2
  | seqAbrupt {fn ss r o s s1} : Run P M fn (.stmts ss) s o s1 → o = .thr ∨ o = .cut →
      Run P M fn (.expr (.seqExpr ss r)) s o s1
  | node {fn k args ty vs v s s1 s2} : Run P M fn (.exprs args) s (.vals vs) s1 →
      Apply P M s1 k (args.map Expr.ty) ty vs v s2 → Run P M fn (.expr (.node k args ty)) s (.vals [v]) s2
  | nodeAbrupt {fn k args ty o s s1} : Run P M fn (.exprs args) s o s1 → o.abrupt = true →
      Run P M fn (.expr (.node k args ty)) s o s1
  | call {fn f args ty vs v s s1 s2} : Run P M fn (.exprs args) s (.vals vs) s1 →
      Run P M fn (.invoke f vs) s1 (.vals [v]) s2 → Ty.Admits M ty v →
      Run P M fn (.expr (.node (.call f) args ty)) s (.vals [v]) s2
  /-- The call of an async function or a generator gives the promise or the generator, and not what the body returned. -/
  | callSuspended {fn f args ty vs v id s s1 s2} : Run P M fn (.exprs args) s (.vals vs) s1 →
      Run P M fn (.invoke f vs) s1 (.vals [v]) s2 → ¬ Ty.Admits M ty v → Ty.Admits M ty (.opq id true) →
      Run P M fn (.expr (.node (.call f) args ty)) s (.vals [.opq id true]) s2
  | callAbrupt {fn f args ty vs o s s1 s2} : Run P M fn (.exprs args) s (.vals vs) s1 →
      Run P M fn (.invoke f vs) s1 o s2 → o.abrupt = true → Run P M fn (.expr (.node (.call f) args ty)) s o s2
  | opaqueDone {fn k args ty vs v h s s1} : Run P M fn (.exprs args) s (.vals vs) s1 → k.isOpaque = true →
      ¬ k.RunsCode M (args.map Expr.ty) → HeapStep (fun sh => k.Builds ∧ Ty.Reaches M ty sh) s1.heap h →
      Ty.Admits M ty v → Run P M fn (.expr (.node k args ty)) s (.vals [v]) { s1 with heap := h }
  | opaqueThrow {fn k args ty vs s s1} : Run P M fn (.exprs args) s (.vals vs) s1 → k.isOpaque = true →
      Run P M fn (.expr (.node k args ty)) s .thr s1
  | runsCode {fn k args ty vs v m h s s1 s2} : Run P M fn (.exprs args) s (.vals vs) s1 →
      k.RunsCode M (args.map Expr.ty) → (m = true → k.Marshals) → Run P M fn (.user m) s1 (.vals []) s2 →
      HeapStep (fun sh => k.Builds ∧ Ty.Reaches M ty sh) s2.heap h → Ty.Admits M ty v →
      Run P M fn (.expr (.node k args ty)) s (.vals [v]) { s2 with heap := h }
  | runsCodeAbrupt {fn k args ty vs o m s s1 s2} : Run P M fn (.exprs args) s (.vals vs) s1 →
      k.RunsCode M (args.map Expr.ty) → (m = true → k.Marshals) → Run P M fn (.user m) s1 o s2 → o.abrupt = true →
      Run P M fn (.expr (.node k args ty)) s o s2
  | exprsNil {fn s} : Run P M fn (.exprs []) s (.vals []) s
  | exprsCons {fn e es v vs s s1 s2} : Run P M fn (.expr e) s (.vals [v]) s1 → Run P M fn (.exprs es) s1 (.vals vs) s2 →
      Run P M fn (.exprs (e :: es)) s (.vals (v :: vs)) s2
  | exprsAbrupt {fn e es o s s1} : Run P M fn (.expr e) s o s1 → o.abrupt = true →
      Run P M fn (.exprs (e :: es)) s o s1
  | exprsLater {fn e es v o s s1 s2} : Run P M fn (.expr e) s (.vals [v]) s1 → Run P M fn (.exprs es) s1 o s2 →
      o.abrupt = true → Run P M fn (.exprs (e :: es)) s o s2
  -- calls
  | invoke {fn f g args caps self o o' s t s'} : M.fn? f = some g →
      Run P M g (.stmts g.body) ⟨g.enter args caps, self, s.globals, s.heap⟩ o t → o.asCall = some o' →
      s.Returns fn t s' → Run P M fn (.invoke f args) s o' s'
  | userDone {fn m s} : Run P M fn (.user m) s (.vals []) s
  | userCall {fn f args v m h o s s1 s2} : M.Escapes f → (m = true → HeapStep M.Marshalled s.heap h) →
      (m = false → h = s.heap) → Run P M fn (.invoke f args) { s with heap := h } (.vals [v]) s1 →
      Run P M fn (.user m) s1 o s2 → Run P M fn (.user m) s o s2
  | userThrown {fn f args m h o s s1 s2} : M.Escapes f → (m = true → HeapStep M.Marshalled s.heap h) →
      (m = false → h = s.heap) → Run P M fn (.invoke f args) { s with heap := h } .thr s1 →
      Run P M fn (.user m) s1 o s2 → Run P M fn (.user m) s o s2
  | userAbrupt {fn f args m h o s s1} : M.Escapes f → (m = true → HeapStep M.Marshalled s.heap h) →
      (m = false → h = s.heap) → Run P M fn (.invoke f args) { s with heap := h } o s1 → o.abrupt = true →
      Run P M fn (.user m) s o s1
  -- statements
  | stmtsNil {fn s} : Run P M fn (.stmts []) s (.vals []) s
  | stmtsCons {fn st ss o s s1 s2} : Run P M fn (.stmt st) s (.vals []) s1 → Run P M fn (.stmts ss) s1 o s2 →
      Run P M fn (.stmts (st :: ss)) s o s2
  | stmtsAbrupt {fn st ss o s s1} : Run P M fn (.stmt st) s o s1 → o.abrupt = true →
      Run P M fn (.stmts (st :: ss)) s o s1
  | act {fn st es vs o s s1 s2} : st.operands = some es → Run P M fn (.exprs es) s (.vals vs) s1 →
      Act M s1 st vs o s2 → Run P M fn (.stmt st) s o s2
  | actAbrupt {fn st es o s s1} : st.operands = some es → Run P M fn (.exprs es) s o s1 → o.abrupt = true →
      Run P M fn (.stmt st) s o s1
  | ifElse {fn c a b v o s s1 s2} : Run P M fn (.expr c) s (.vals [v]) s1 →
      Run P M fn (.stmts (if v.truthy then a else b.getD [])) s1 o s2 → Run P M fn (.stmt (.ifElse c a b)) s o s2
  | ifAbrupt {fn c a b o s s1} : Run P M fn (.expr c) s o s1 → o.abrupt = true →
      Run P M fn (.stmt (.ifElse c a b)) s o s1
  | whileStmt {fn c b ls o s s1} : Run P M fn (.loop (.ofWhile c b ls)) s o s1 →
      Run P M fn (.stmt (.whileStmt c b ls)) s o s1
  | doWhile {fn c b ls o s s1} : Run P M fn (.loop (.ofDoWhile b c ls)) s o s1 →
      Run P M fn (.stmt (.doWhile b c ls)) s o s1
  | forStmt {fn i c u b ls o s s1 s2} : Run P M fn (.stmts i.toList) s (.vals []) s1 →
      Run P M fn (.loop (.ofFor c u b ls)) s1 o s2 → Run P M fn (.stmt (.forStmt i c u b ls)) s o s2
  | forAbrupt {fn i c u b ls o s s1} : Run P M fn (.stmts i.toList) s o s1 → o.abrupt = true →
      Run P M fn (.stmt (.forStmt i c u b ls)) s o s1
  -- the element's binding ends with the loop
  | forOf {fn x it b ls v o s s1 s2} : Run P M fn (.expr it) s (.vals [v]) s1 →
      Run P M fn (.loop (.ofForOf x b ls)) s1 o s2 →
      Run P M fn (.stmt (.forOf x it b ls)) s o (s2.setLocal x none)
  | forOfAbrupt {fn x it b ls o s s1} : Run P M fn (.expr it) s o s1 → o.abrupt = true →
      Run P M fn (.stmt (.forOf x it b ls)) s o s1
  | block {fn b ls o s s1} : Run P M fn (.stmts b) s o s1 →
      Run P M fn (.stmt (.block b ls)) s (o.unbreak (isLabel ls)) s1
  | switch {fn d cs ls v o s s1 s2} : Run P M fn (.expr d) s (.vals [v]) s1 → Run P M fn (.tests v cs) s1 o s2 →
      o ≠ .miss → Run P M fn (.stmt (.switch d cs ls)) s (o.unbreak (aims ls)) s2
  | switchDefault {fn d cs suf ls v o s s1 s2 s3} : Run P M fn (.expr d) s (.vals [v]) s1 →
      Run P M fn (.tests v cs) s1 .miss s2 → defaultOn cs = some suf → Run P M fn (.fall suf) s2 o s3 →
      Run P M fn (.stmt (.switch d cs ls)) s (o.unbreak (aims ls)) s3
  | switchNone {fn d cs ls v s s1 s2} : Run P M fn (.expr d) s (.vals [v]) s1 → Run P M fn (.tests v cs) s1 .miss s2 →
      defaultOn cs = none → Run P M fn (.stmt (.switch d cs ls)) s (.vals []) s2
  | switchAbrupt {fn d cs ls o s s1} : Run P M fn (.expr d) s o s1 → o.abrupt = true →
      Run P M fn (.stmt (.switch d cs ls)) s o s1
  | tryCatch {fn t c x o s s1} : Run P M fn (.guarded t c x) s o s1 → Run P M fn (.stmt (.tryCatch t c x none)) s o s1
  | tryFinally {fn t c x f o o' s s1 s2} : Run P M fn (.guarded t c x) s o s1 → o ≠ .cut →
      Run P M fn (.stmts f) s1 o' s2 →
      Run P M fn (.stmt (.tryCatch t c x (some f))) s (if o' = .vals [] then o else o') s2
  | tryCut {fn t c x f s s1} : Run P M fn (.guarded t c x) s .cut s1 →
      Run P M fn (.stmt (.tryCatch t c x f)) s .cut s1
  | guardedPass {fn t c x o s s1} : Run P M fn (.stmts t) s o s1 → o ≠ .thr ∨ c = none →
      Run P M fn (.guarded t c x) s o s1
  | guardedCatch {fn t b x id o s s1 s2} : Run P M fn (.stmts t) s .thr s1 →
      Run P M fn (.stmts b) (s1.bindCaught x id) o s2 → Run P M fn (.guarded t (some b) x) s o s2
  -- switches: tests in order until one matches, then the bodies from there on
  | testsNil {fn d s} : Run P M fn (.tests d []) s .miss s
  | testsDefault {fn d b cs o s s1} : Run P M fn (.tests d cs) s o s1 → Run P M fn (.tests d (.mk none b :: cs)) s o s1
  | testsHit {fn d t b cs v o s s1 s2} : Run P M fn (.expr t) s (.vals [v]) s1 → Val.strictEq d v = true →
      Run P M fn (.fall (.mk (some t) b :: cs)) s1 o s2 → Run P M fn (.tests d (.mk (some t) b :: cs)) s o s2
  | testsNext {fn d t b cs v o s s1 s2} : Run P M fn (.expr t) s (.vals [v]) s1 → Val.strictEq d v = false →
      Run P M fn (.tests d cs) s1 o s2 → Run P M fn (.tests d (.mk (some t) b :: cs)) s o s2
  | testsAbrupt {fn d t b cs o s s1} : Run P M fn (.expr t) s o s1 → o.abrupt = true →
      Run P M fn (.tests d (.mk (some t) b :: cs)) s o s1
  | fallNil {fn s} : Run P M fn (.fall []) s (.vals []) s
  | fallCons {fn c cs o s s1 s2} : Run P M fn (.stmts c.body) s (.vals []) s1 → Run P M fn (.fall cs) s1 o s2 →
      Run P M fn (.fall (c :: cs)) s o s2
  | fallAbrupt {fn c cs o s s1} : Run P M fn (.stmts c.body) s o s1 → o.abrupt = true →
      Run P M fn (.fall (c :: cs)) s o s1
  -- loops: header, body, and what follows the body
  | loopElem {fn l x v o s s1} : l.elem = some x → Run P M fn (.iter l) (s.setLocal x (some v)) o s1 →
      Run P M fn (.loop l) s o s1
  | loopDone {fn l x s} : l.elem = some x → Run P M fn (.loop l) s (.vals []) s
  | loopEnter {fn l o s s1} : l.elem = none → l.doWhile = true ∨ l.cond = none → Run P M fn (.iter l) s o s1 →
      Run P M fn (.loop l) s o s1
  | loopTrue {fn l c v o s s1 s2} : l.elem = none → l.doWhile = false → l.cond = some c →
      Run P M fn (.expr c) s (.vals [v]) s1 → v.truthy = true → Run P M fn (.iter l) s1 o s2 →
      Run P M fn (.loop l) s o s2
  | loopFalse {fn l c v s s1} : l.elem = none → l.doWhile = false → l.cond = some c →
      Run P M fn (.expr c) s (.vals [v]) s1 → v.truthy = false → Run P M fn (.loop l) s (.vals []) s1
  | loopAbrupt {fn l c o s s1} : l.elem = none → l.doWhile = false → l.cond = some c →
      Run P M fn (.expr c) s o s1 → o.abrupt = true → Run P M fn (.loop l) s o s1
  | iterNext {fn l ob o s s1 s2} : Run P M fn (.stmts l.body) s ob s1 →
      (ob = .vals [] ∨ ∃ la, ob = .cont la ∧ aims l.labels la = true) → Run P M fn (.latch l) s1 o s2 →
      Run P M fn (.iter l) s o s2
  | iterBreak {fn l la s s1} : Run P M fn (.stmts l.body) s (.brk la) s1 → aims l.labels la = true →
      Run P M fn (.iter l) s (.vals []) s1
  | iterAbrupt {fn l o s s1} : Run P M fn (.stmts l.body) s o s1 → o.abrupt = true → o.metBy l.labels = false →
      Run P M fn (.iter l) s o s1
  | latchNext {fn l o s s1} : l.doWhile = false → l.update = none → Run P M fn (.loop l) s o s1 →
      Run P M fn (.latch l) s o s1
  | latchUpdate {fn l u o s s1 s2} : l.doWhile = false → l.update = some u → Run P M fn (.stmt u) s (.vals []) s1 →
      Run P M fn (.loop l) s1 o s2 → Run P M fn (.latch l) s o s2
  | latchUpdateAbrupt {fn l u o s s1} : l.doWhile = false → l.update = some u → Run P M fn (.stmt u) s o s1 →
      o.abrupt = true → Run P M fn (.latch l) s o s1
  | latchTrue {fn l c v o s s1 s2} : l.doWhile = true → l.update = none → l.cond = some c →
      Run P M fn (.expr c) s (.vals [v]) s1 → v.truthy = true → Run P M fn (.loop l) s1 o s2 →
      Run P M fn (.latch l) s o s2
  | latchFalse {fn l c v s s1} : l.doWhile = true → l.update = none → l.cond = some c →
      Run P M fn (.expr c) s (.vals [v]) s1 → v.truthy = false → Run P M fn (.latch l) s (.vals []) s1
  | latchAbrupt {fn l c o s s1} : l.doWhile = true → l.update = none → l.cond = some c →
      Run P M fn (.expr c) s o s1 → o.abrupt = true → Run P M fn (.latch l) s o s1

end Ir
