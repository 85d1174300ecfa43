import Scriptc.Backend.Mangle
import Scriptc.IntInfer.Operators
import Scriptc.Ir.IntegerRanges
import Scriptc.Lib.Utf16

/-!
# Calls specialized to integers

`backend/rust/integer-calls.ts`: a bounded, closed numeric body is turned into a Rust closure
over `i64` when the intervals of its arguments prove that f64 and `i64` arithmetic agree on
it. The emitted text is kept as a tree; every subexpression of the text stands in
parentheses, so nothing hangs on precedence. Emitted identifiers are the source's.
-/

namespace RustCalls

open Ir IntInfer F64 IntegerRange Mangle

/-! ### The emitted fragment of Rust -/

/-- The expressions of the generated Rust. -/
inductive RustExpr where
  | lit (n : ℤ)
  | bool (b : Bool)
  | var (name : Units)
  | arith (op : IrNumBinOp) (a b : RustExpr)
  | cmp (op : IrNumBinOp) (a b : RustExpr)
  | abs (a : RustExpr)
  | and (a b : RustExpr)
  | or (a b : RustExpr)
  | not (a : RustExpr)
  | cond (c a b : RustExpr)

inductive RustStmt where
  | letI (name : Units) (value : RustExpr)
  | ret (value : RustExpr)
  | ifElse (c : RustExpr) (a b : List RustStmt)

inductive RustVal where
  | i64 (n : ℤ)
  | bool (b : Bool)
  deriving DecidableEq

/-- The bindings in scope, the innermost first. -/
abbrev Env := List (Units × ℤ)

/-- A result of `i64` arithmetic; an overflow panics. -/
def checked (n : ℤ) : Option ℤ := if -2 ^ 63 ≤ n ∧ n < 2 ^ 63 then some n else none

/-- The result with intermediate values from before. -/
def after {β : Type*} (seen : List ℤ) (r : Option (β × List ℤ)) : Option (β × List ℤ) := r.map fun x => (x.1, seen ++ x.2)

/-- The value of an expression with the `i64` values it passes through, or nothing when the
expression panics or does not compile. -/
def RustExpr.eval (env : Env) : RustExpr → Option (RustVal × List ℤ)
  | .lit n => (checked n).map fun n => (.i64 n, [n])
  | .bool b => some (.bool b, [])
  | .var x => (env.lookup x).map fun n => (.i64 n, [n])
  | .arith op a b =>
    match a.eval env, b.eval env with
    | some (.i64 x, s), some (.i64 y, t) =>
      ((intArith op x y).bind checked).map fun n => (.i64 n, s ++ (t ++ [n]))
    | _, _ => none
  | .cmp op a b =>
    match a.eval env, b.eval env with
    | some (.i64 x, s), some (.i64 y, t) => (intCmp op x y).map fun v => (.bool v, s ++ t)
    | _, _ => none
  | .abs a =>
    match a.eval env with
    | some (.i64 x, s) => (checked |x|).map fun n => (.i64 n, s ++ [n])
    | _ => none
  | .and a b =>
    match a.eval env with
    | some (.bool true, s) => after s (b.eval env)
    | some (.bool false, s) => some (.bool false, s)
    | _ => none
  | .or a b =>
    match a.eval env with
    | some (.bool true, s) => some (.bool true, s)
    | some (.bool false, s) => after s (b.eval env)
    | _ => none
  | .not a =>
    match a.eval env with
    | some (.bool b, s) => some (.bool !b, s)
    | _ => none
  | .cond c a b =>
    match c.eval env with
    | some (.bool true, s) => after s (a.eval env)
    | some (.bool false, s) => after s (b.eval env)
    | _ => none

mutual
/-- A statement: the value it returns, if it returns, and the binding it adds. -/
def RustStmt.run : RustStmt → Env → Option ((Option ℤ × Env) × List ℤ)
  | .letI x e, env =>
    match e.eval env with
    | some (.i64 n, s) => some ((none, (x, n) :: env), s)
    | _ => none
  | .ret e, env =>
    match e.eval env with
    | some (.i64 n, s) => some ((some n, env), s)
    | _ => none
  | .ifElse c a b, env =>
    match c.eval env with
    | some (.bool true, s) => (after s (runStmts a env)).map fun r => ((r.1, env), r.2)
    | some (.bool false, s) => (after s (runStmts b env)).map fun r => ((r.1, env), r.2)
    | _ => none

/-- A block: the value it returns, if it does. -/
def runStmts : List RustStmt → Env → Option (Option ℤ × List ℤ)
  | [], _ => some (none, [])
  | st :: rest, env =>
    match st.run env with
    | some ((some n, _), s) => some (some n, s)
    | some ((none, env'), s) => after s (runStmts rest env')
    | none => none
end

/-- `name`: the emitted name of a local. -/
def name (id : String) : Units := units "sc_numeric_".toList ++ mangleLocal (Scriptc.Utf16.encode id.toList)

/-! ### The plan -/

/-- The range of an argument, as the caller hands it over. -/
structure ArgRange where
  min : F64
  max : F64

/-- A range of integers in order. -/
def ArgRange.check (a : ArgRange) : Option IntegerRange :=
  match h : toSafe a.min, h' : toSafe a.max with
  | some lo, some hi =>
    if hle : lo ≤ hi then some ⟨lo, hi, hle, (toSafe_eq_some.mp h).1.1, (toSafe_eq_some.mp h').1.2⟩ else none
  | _, _ => none

/-- A function with the parts of its header that the plan reads. -/
structure IrCallee extends IrFunctionHeader where
  /-- One of the three cache globals is set. -/
  cached : Bool
  returnType : Ty
  paramTypes : List Ty
  /-- The locals that are not constant. -/
  mutables : List String

/-- `localIds`: the constant locals. -/
def IrCallee.isConst (fn : IrCallee) (x : String) : Bool := fn.locals.any fun l => l.id == x && !fn.mutables.contains l.id

/-- A number that is planned, with its range and its code. -/
structure NumberValue where
  range : IntegerRange
  code : RustExpr

/-- A block that is planned; a terminal one always returns. -/
structure Block where
  code : List RustStmt
  result : Option IntegerRange
  terminal : Bool

abbrev Scope := String → Option IntegerRange

/-- The range of what either gives. -/
def mergeResults : Option IntegerRange → Option IntegerRange → Option IntegerRange
  | none, r => r
  | some a, none => some a
  | some a, some b => some (merge a b)

/-- The checks every expression starts with, on the nodes that remain, the depth and the type. -/
def enter {β : Type*} (remaining : ℤ) (depth : ℕ) (typed : Bool) (k : ℤ → Option β × ℤ) : Option β × ℤ :=
  if remaining - 1 < 0 ∨ 16 < depth ∨ typed = false then (none, remaining - 1) else k (remaining - 1)

mutual
/-- A number with its range, and the nodes that remain. -/
def number : Expr → Scope → ℕ → ℤ → Option NumberValue × ℤ
  | .numLit x _, _, depth, remaining =>
    enter remaining depth true fun remaining => ((integerLiteral x).map fun r => ⟨r, .lit r.min⟩, remaining)
  | .varRef (.loc x) ty, scope, depth, remaining =>
    enter remaining depth (ty == .f64) fun remaining => ((scope x).map fun r => ⟨r, .var (name x)⟩, remaining)
  | .node (.bin op) [l, r] ty, scope, depth, remaining =>
    enter remaining depth (ty == .f64) fun remaining =>
      let a := number l scope (depth + 1) remaining
      let b := number r scope (depth + 1) a.2
      (a.1.bind fun a => b.1.bind fun b =>
        (combineIntegerRanges op a.range b.range).map fun range => ⟨range, .arith op a.code b.code⟩, b.2)
  | .node (.libCall (.math .abs)) [e] ty, scope, depth, remaining =>
    enter remaining depth (ty == .f64) fun remaining =>
      let v := number e scope (depth + 1) remaining
      (v.1.map fun v => ⟨v.range.abs, .abs v.code⟩, v.2)
  | .ternary c thn els ty, scope, depth, remaining =>
    enter remaining depth (ty == .f64) fun remaining =>
      let cond := boolean c scope (depth + 1) remaining
      let a := number thn scope (depth + 1) cond.2
      let b := number els scope (depth + 1) a.2
      (cond.1.bind fun cond => a.1.bind fun a => b.1.map fun b =>
        ⟨merge a.range b.range, .cond cond a.code b.code⟩, b.2)
  | _, _, _, remaining => (none, remaining - 1)
termination_by structural e => e

/-- A condition, and the nodes that remain. Of the operators it lists, `==` and `!=` are none of
the intermediate representation. -/
def boolean : Expr → Scope → ℕ → ℤ → Option RustExpr × ℤ
  | .boolLit b, _, depth, remaining => enter remaining depth true fun remaining => (some (.bool b), remaining)
  | .node (.bin op) [l, r] ty, scope, depth, remaining =>
    enter remaining depth (ty == .bool) fun remaining =>
      if op.isOrdered then
        let a := number l scope (depth + 1) remaining
        let b := number r scope (depth + 1) a.2
        (a.1.bind fun a => b.1.map fun b => .cmp op a.code b.code, b.2)
      else (none, remaining)
  | .short .and l r ty, scope, depth, remaining =>
    enter remaining depth (ty == .bool) fun remaining =>
      let a := boolean l scope (depth + 1) remaining
      let b := boolean r scope (depth + 1) a.2
      (a.1.bind fun a => b.1.map fun b => .and a b, b.2)
  | .short .or l r ty, scope, depth, remaining =>
    enter remaining depth (ty == .bool) fun remaining =>
      let a := boolean l scope (depth + 1) remaining
      let b := boolean r scope (depth + 1) a.2
      (a.1.bind fun a => b.1.map fun b => .or a b, b.2)
  | .node (.unary .not) [e] ty, scope, depth, remaining =>
    enter remaining depth (ty == .bool) fun remaining =>
      let v := boolean e scope (depth + 1) remaining
      (v.1.map fun v => .not v, v.2)
  | _, _, _, remaining => (none, remaining - 1)
termination_by structural e => e
end

/-- The checks a block starts with. -/
def enterBlock (depth length : ℕ) (k : ℤ → Option Block × ℤ) (remaining : ℤ) : Option Block × ℤ :=
  if 16 < depth ∨ 32 < length then (none, remaining) else k remaining

section Blocks

variable (fn : IrCallee)

mutual
/-- A turn of the loop of `block`, with the lines, the result and the flag so far. -/
def blockStmt : Stmt → Scope → ℕ → Block → ℤ → Option (Block × Scope) × ℤ
  | .varDecl x (some e), scope, depth, acc, remaining =>
    if remaining - 1 < 0 ∨ acc.terminal = true then (none, remaining - 1)
    else if fn.isConst x = true ∧ scope x = none then
      let v := number e scope (depth + 1) (remaining - 1)
      (v.1.map fun value =>
        ({ acc with code := acc.code ++ [.letI (name x) value.code] }, Function.update scope x (some value.range)), v.2)
    else (none, remaining - 1)
  | .ret (some e), scope, depth, acc, remaining =>
    if remaining - 1 < 0 ∨ acc.terminal = true then (none, remaining - 1)
    else
      let v := number e scope (depth + 1) (remaining - 1)
      (v.1.map fun value =>
        (⟨acc.code ++ [.ret value.code], mergeResults acc.result (some value.range), true⟩, scope), v.2)
  | .ifElse c thn els, scope, depth, acc, remaining =>
    if remaining - 1 < 0 ∨ acc.terminal = true then (none, remaining - 1)
    else
      let cond := boolean c scope (depth + 1) (remaining - 1)
      let a := enterBlock (depth + 1) thn.length (blockLoop thn scope (depth + 1) ⟨[], none, false⟩) cond.2
      let b := blockElse els scope (depth + 1) a.2
      (cond.1.bind fun cond => a.1.bind fun a => b.1.map fun b =>
        (⟨acc.code ++ [.ifElse cond a.code b.code], mergeResults (mergeResults acc.result a.result) b.result,
          a.terminal && b.terminal⟩, scope), b.2)
  | _, _, _, _, remaining => (none, remaining - 1)

/-- The branch of an absent `else` is empty. -/
def blockElse : Option (List Stmt) → Scope → ℕ → ℤ → Option Block × ℤ
  | none, _, depth, remaining => enterBlock depth 0 (fun remaining => (some ⟨[], none, false⟩, remaining)) remaining
  | some els, scope, depth, remaining =>
    enterBlock depth els.length (blockLoop els scope depth ⟨[], none, false⟩) remaining

def blockLoop : List Stmt → Scope → ℕ → Block → ℤ → Option Block × ℤ
  | [], _, _, acc, remaining => (some acc, remaining)
  | st :: rest, scope, depth, acc, remaining =>
    let r := blockStmt st scope depth acc remaining
    match r.1 with
    | none => (none, r.2)
    | some (acc, scope) => blockLoop rest scope depth acc r.2
end

def block (statements : List Stmt) (scope : Scope) (depth : ℕ) (remaining : ℤ) : Option Block × ℤ :=
  enterBlock depth statements.length (blockLoop fn statements scope depth ⟨[], none, false⟩) remaining

end Blocks

/-- The scope of the parameters. -/
def paramScope (params : List String) (args : List IntegerRange) : Scope := fun x => (params.zip args).lookup x

/-- The integer version of a function. -/
structure Plan where
  range : IntegerRange
  cost : ℤ
  params : List Units
  code : List RustStmt

/-- `RustIntegerCallPlan.build`. -/
def build (fn : IrCallee) (args : List ArgRange) : Option Plan :=
  if fn.async || fn.generator || fn.captures.isSome || fn.cached || fn.returnType != .f64 ||
      fn.params.length != args.length || decide (8 < args.length) || decide (32 < fn.locals.length) ||
      fn.locals.any (fun l => l.boxed || fn.tdz.contains l.id || l.ty != .f64) || fn.paramTypes.any (· != .f64) then
    none
  else
    match args.mapM ArgRange.check with
    | none => none
    | some ranges =>
      let b := block fn fn.body (paramScope fn.params ranges) 0 128
      match b.1 with
      | none => none
      | some block =>
        if block.terminal then
          block.result.map fun range => ⟨range, 128 - b.2, fn.params.map name, block.code⟩
        else none

/-- The emitted closure, called on integers: the value it returns and the `i64` values on the
way. Parameters of one name do not compile, and neither does a body that can end without a
value. -/
def Plan.call (plan : Plan) (args : List ℤ) : Option (ℤ × List ℤ) :=
  if plan.params.Nodup then
    match runStmts plan.code (plan.params.zip args) with
    | some (some n, seen) => some (n, args ++ seen)
    | _ => none
  else none

end RustCalls
