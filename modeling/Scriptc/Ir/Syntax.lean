import Scriptc.IntInfer.Operators

/-!
# The intermediate representation

The statements and expressions of `ir/ir.ts`, as the integer-boundary inference and the
passes over them read them. An expression whose operands are all evaluated, left to
right, before it acts is a `node` with a kind and a list of operands; the expressions
that choose what to evaluate have constructors of their own. Every node carries its type.

Binding ids are strings in the source, with the prefix `%g.` for a module global; here
they are the two cases of `Id`. Source locations are left out.
-/

namespace Ir

open IntInfer

/-- A binding: a local of the current function or a module global. -/
inductive Id where
  | loc (name : String)
  | glob (name : String)
  deriving DecidableEq, Repr

/-- The types the passes tell apart. A union, record or object type names its definition,
so what it is made of is not part of the type itself. -/
inductive Ty where
  | f64 | bool | string | nullT | undefinedT | dyn | func | genericFunc
  | array (elem : Ty)
  | map (key value : Ty)
  | set (elem : Ty)
  | promise (inner : Ty)
  | union (unionId : String)
  | record (shapeId : String)
  | object (className : String)
  | other (name : String)
  deriving DecidableEq, Repr

inductive UnOp where
  | neg | not | bitNot
  deriving DecidableEq, Repr

/-- The operators that evaluate their right operand only when the left one asks for it. -/
inductive ShortOp where
  | and | or | nullish | orDefault
  deriving DecidableEq, Repr

/-- Literals and other leaves the inference knows nothing about. -/
inductive LeafKind where
  | strLit | regexLit | templateStrings | classRef | chainRecv
  deriving DecidableEq, Repr

/-- The `Math` functions with a transfer of their own. -/
inductive MathFn where
  | round (fn : MathRound)
  | abs
  | minMax (fn : MinMax)
  | random
  deriving DecidableEq, Repr

inductive LibFn where
  | math (fn : MathFn)
  | mathOther (name : String)
  | other (name : String)
  deriving DecidableEq, Repr

/-- The expressions the inference lists as calls of unknown code. -/
inductive Indirect where
  | callValue | newValue | dynCall | dynInvoke | virtualCall | new | intrinsic
  deriving DecidableEq, Repr

/-- The expressions at which the function may be left and entered again. -/
inductive Suspend where
  | ffiCall | yieldExpr | awaitExpr | awaitUnionExpr
  deriving DecidableEq, Repr

/-- The expression kinds without a case of their own in the inference. -/
inductive OtherKind where
  | moduleNsRef | fieldIncDec | strConcat | toString | strIntrinsic | regexIntrinsic
  | arrayLit | arrayNewLen | arrayGet | arrayHas | arrayState | arrIntrinsic
  | bytesNew | bytesIntrinsic | mapNew | mapIntrinsic | setNew | setIntrinsic
  | closure (fnName : String)
  | familyClosure (impl : String)
  | callFamily | genResume | newPromise | promiseWithResolvers
  | instanceOfValue | upcast | promiseVoidWiden | downcast | instanceOf
  | recordKeyGet | recordOvfKeys
  | dynFrom | dynFromJsval | dynArrLit | dynObjLit | dynTest | dynKeyGet | dynHasKey
  | dynScalarEq | dynDestrCheck | dynIterN | dynCheck
  | unionFuncEq | unionKeyGet | unionEq
  | caughtTest | caughtNarrow | caughtCheck | caughtToDyn
  | jsonStringify | jsMarshal | jsOp | jsExit | jsBridgePromise
  deriving DecidableEq, Repr

/-- The expressions that evaluate all their operands first. -/
inductive Kind where
  | bin (op : IrNumBinOp)
  | strEq | strCmp
  | unionIsTag (unionId : String) (tag : Nat) (negated : Bool)
  | unionDisc
  | unary (op : UnOp)
  | toBool
  | unionWrap (unionId : String) (tag : Nat)
  | unionNarrow
  | call (callee : String)
  | libCall (fn : LibFn)
  | indirect (k : Indirect)
  | suspend (k : Suspend)
  /-- Operands: the field values, in source order. -/
  | recordLit (shapeId : String) (fields : List String)
  /-- Operands: the source record, then the overriding values. -/
  | recordClone (shapeId : String) (fields : List String)
  | recordGet (shapeId field : String)
  | fieldGet (className field : String)
  | other (k : OtherKind)
  deriving DecidableEq, Repr

/-- The heap writes that touch no record field. -/
inductive HeapWrite where
  | arraySet | bytesSet | arraySetLength | arraySetUndefined | arrayDelete
  | fieldSet (className field : String)
  deriving DecidableEq, Repr

mutual
inductive Expr where
  | numLit (value : F64) (spelling : Option String)
  | boolLit (value : Bool)
  | unitLit (undefined : Bool)
  | leaf (k : LeafKind) (ty : Ty)
  | selfRef (ty : Ty)
  | varRef (id : Id) (ty : Ty)
  | incDec (id : Id) (plus pre : Bool)
  | assignExpr (id : Id) (value : Expr)
  | ternary (cond thn els : Expr) (ty : Ty)
  | short (op : ShortOp) (left right : Expr) (ty : Ty)
  | optChain (receiver body : Expr) (ty : Ty)
  | seqExpr (stmts : List Stmt) (result : Expr)
  | node (k : Kind) (args : List Expr) (ty : Ty)

inductive Stmt where
  | varDecl (id : String) (init : Option Expr)
  | assign (id : Id) (value : Expr)
  | exprStmt (e : Expr)
  | ifElse (cond : Expr) (thn : List Stmt) (els : Option (List Stmt))
  | whileStmt (cond : Expr) (body : List Stmt) (labels : List String)
  | doWhile (body : List Stmt) (cond : Expr) (labels : List String)
  | forStmt (init : Option Stmt) (cond : Option Expr) (update : Option Stmt) (body : List Stmt) (labels : List String)
  | forOf (id : String) (iterable : Expr) (body : List Stmt) (labels : List String)
  | switch (disc : Expr) (cases : List SwitchCase) (labels : List String)
  | heapWrite (k : HeapWrite) (args : List Expr)
  | recordSet (shapeId field : String) (obj value : Expr)
  | recordKeySet (shapeId : String) (overflowOnly : Bool) (obj key value : Expr)
  | recordKeyDelete (shapeId : String) (obj key : Expr)
  | ret (value : Option Expr)
  | throwStmt (value : Expr)
  | rethrow
  | runtimeFence
  | breakStmt (label : Option String)
  | continueStmt (label : Option String)
  | block (body : List Stmt) (labels : List String)
  | tryCatch (tryBody : List Stmt) (catchBody : Option (List Stmt)) (catchLocal : Option String)
      (finallyBody : Option (List Stmt))

/-- `test` is absent for the default clause. -/
inductive SwitchCase where
  | mk (test : Option Expr) (body : List Stmt)
end

def SwitchCase.test : SwitchCase → Option Expr
  | .mk t _ => t

def SwitchCase.body : SwitchCase → List Stmt
  | .mk _ b => b

/-- The type of an expression. -/
def Expr.ty : Expr → Ty
  | .numLit _ _ => .f64
  | .boolLit _ => .bool
  | .unitLit u => if u then .undefinedT else .nullT
  | .leaf _ t | .selfRef t | .varRef _ t => t
  | .incDec _ _ _ => .f64
  | .assignExpr _ v => v.ty
  | .ternary _ _ _ t | .short _ _ _ t | .optChain _ _ t => t
  | .seqExpr _ r => r.ty
  | .node _ _ t => t

/-- A local of a function. A boxed local is shared with the closures that capture it. -/
structure IrLocal where
  id : String
  ty : Ty
  boxed : Bool

structure IrFunction where
  name : String
  /-- The locals that receive the arguments. -/
  params : List String
  locals : List IrLocal
  body : List Stmt
  params_nodup : params.Nodup
  locals_nodup : (locals.map (·.id)).Nodup

def IrFunction.boxed (fn : IrFunction) (x : String) : Bool := fn.locals.any fun l => l.id == x && l.boxed

structure IrModule where
  functions : List IrFunction
  /-- Union ids with their arms. -/
  unions : List (String × List Ty)
  /-- Shape ids with their declared fields. -/
  records : List (String × List (String × Ty))
  globals : List (String × Ty)
  /-- Constructors and methods, which the runtime reaches through class tables. -/
  members : List String
  names_nodup : (functions.map (·.name)).Nodup

namespace IrModule

variable (M : IrModule)

def fn? (name : String) : Option IrFunction := M.functions.find? (·.name == name)

def arms (unionId : String) : Option (List Ty) := M.unions.lookup unionId

def fieldTy (shapeId field : String) : Option Ty := (M.records.lookup shapeId).bind (·.lookup field)

end IrModule

/-! ### The nodes of a program -/

/-- A place in a program. -/
inductive Node where
  | expr (e : Expr)
  | stmt (s : Stmt)

mutual
/-- Everything strictly inside an expression. -/
def Expr.inner : Expr → List Node
  | .assignExpr _ v => .expr v :: v.inner
  | .ternary c a b _ => (.expr c :: c.inner) ++ ((.expr a :: a.inner) ++ (.expr b :: b.inner))
  | .short _ l r _ => (.expr l :: l.inner) ++ (.expr r :: r.inner)
  | .optChain r b _ => (.expr r :: r.inner) ++ (.expr b :: b.inner)
  | .seqExpr ss r => stmtsNodes ss ++ (.expr r :: r.inner)
  | .node _ args _ => exprsNodes args
  | _ => []

def exprsNodes : List Expr → List Node
  | [] => []
  | e :: es => (.expr e :: e.inner) ++ exprsNodes es

/-- Everything strictly inside a statement. -/
def Stmt.inner : Stmt → List Node
  | .varDecl _ i => optExprNodes i
  | .assign _ v => .expr v :: v.inner
  | .exprStmt e => .expr e :: e.inner
  | .ifElse c a b => (.expr c :: c.inner) ++ (stmtsNodes a ++ optStmtsNodes b)
  | .whileStmt c b _ => (.expr c :: c.inner) ++ stmtsNodes b
  | .doWhile b c _ => stmtsNodes b ++ (.expr c :: c.inner)
  | .forStmt i c u b _ => optStmtNodes i ++ (optExprNodes c ++ (stmtsNodes b ++ optStmtNodes u))
  | .forOf _ it b _ => (.expr it :: it.inner) ++ stmtsNodes b
  | .switch d cs _ => (.expr d :: d.inner) ++ casesNodes cs
  | .heapWrite _ args => exprsNodes args
  | .recordSet _ _ o v => (.expr o :: o.inner) ++ (.expr v :: v.inner)
  | .recordKeySet _ _ o k v => (.expr o :: o.inner) ++ ((.expr k :: k.inner) ++ (.expr v :: v.inner))
  | .recordKeyDelete _ o k => (.expr o :: o.inner) ++ (.expr k :: k.inner)
  | .ret v => optExprNodes v
  | .throwStmt e => .expr e :: e.inner
  | .block b _ => stmtsNodes b
  | .tryCatch t c _ f => stmtsNodes t ++ (optStmtsNodes c ++ optStmtsNodes f)
  | .rethrow | .runtimeFence | .breakStmt _ | .continueStmt _ => []

def optExprNodes : Option Expr → List Node
  | none => []
  | some e => .expr e :: e.inner

def optStmtNodes : Option Stmt → List Node
  | none => []
  | some s => .stmt s :: s.inner

def optStmtsNodes : Option (List Stmt) → List Node
  | none => []
  | some ss => stmtsNodes ss

def stmtsNodes : List Stmt → List Node
  | [] => []
  | s :: ss => (.stmt s :: s.inner) ++ stmtsNodes ss

def casesNodes : List SwitchCase → List Node
  | [] => []
  | .mk t b :: cs => optExprNodes t ++ (stmtsNodes b ++ casesNodes cs)
end

attribute [simp] Expr.inner Stmt.inner exprsNodes stmtsNodes casesNodes optExprNodes optStmtNodes optStmtsNodes

/-- An expression with everything inside it. -/
def Expr.nodes (e : Expr) : List Node := .expr e :: e.inner

end Ir
