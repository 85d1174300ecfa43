import Scriptc.Ir.IntegerRanges
import Scriptc.Ir.Semantics

/-!
# The tasks a run passes through

`Reach P M fn s₀ p i t s`: in some run of the body of `fn` from `s₀`, the task `t` is started
in the state `s`. The task stands at the place `p`, and a list of operands, statements or
cases starts at its part `i`. There is one constructor for each premise of a rule of `Run`
that is a task of the same activation, so a task is reached whether or not the run around it
ends. The body of a callee is reached in a run of the callee.
-/

namespace Ir

open F64

/-- A task that a call comes to, at its path in the function, with the state then. -/
inductive Reach (P : PowApprox) (M : IrModule) (fn : IrFunction) (s₀ : State) : Path → Nat → Task → State → Prop where
  | body : Reach P M fn s₀ [] 0 (.stmts fn.body) s₀
  -- expressions
  | assigned {p i id e s} : Reach P M fn s₀ p i (.expr (.assignExpr id e)) s → Reach P M fn s₀ (0 :: p) 0 (.expr e) s
  | ternaryCond {p i c a b ty s} : Reach P M fn s₀ p i (.expr (.ternary c a b ty)) s →
      Reach P M fn s₀ (0 :: p) 0 (.expr c) s
  | ternaryThen {p i c a b ty v s s1} : Reach P M fn s₀ p i (.expr (.ternary c a b ty)) s →
      Run P M fn (.expr c) s (.vals [v]) s1 → v.truthy = true → Reach P M fn s₀ (1 :: p) 0 (.expr a) s1
  | ternaryElse {p i c a b ty v s s1} : Reach P M fn s₀ p i (.expr (.ternary c a b ty)) s →
      Run P M fn (.expr c) s (.vals [v]) s1 → v.truthy = false → Reach P M fn s₀ (2 :: p) 0 (.expr b) s1
  | shortLeft {p i op l r ty s} : Reach P M fn s₀ p i (.expr (.short op l r ty)) s →
      Reach P M fn s₀ (0 :: p) 0 (.expr l) s
  | shortRight {p i op l r ty v s s1} : Reach P M fn s₀ p i (.expr (.short op l r ty)) s →
      Run P M fn (.expr l) s (.vals [v]) s1 → op.keeps v = false → Reach P M fn s₀ (1 :: p) 0 (.expr r) s1
  | receiver {p i r b ty s} : Reach P M fn s₀ p i (.expr (.optChain r b ty)) s →
      Reach P M fn s₀ (0 :: p) 0 (.expr r) s
  | chained {p i r b ty v s s1} : Reach P M fn s₀ p i (.expr (.optChain r b ty)) s →
      Run P M fn (.expr r) s (.vals [v]) s1 → v.isNullish = false → Reach P M fn s₀ (1 :: p) 0 (.expr b) s1
  | seqStmts {p i ss r s} : Reach P M fn s₀ p i (.expr (.seqExpr ss r)) s → Reach P M fn s₀ (0 :: p) 0 (.stmts ss) s
  | seqResult {p i ss r s s1} : Reach P M fn s₀ p i (.expr (.seqExpr ss r)) s →
      Run P M fn (.stmts ss) s (.vals []) s1 → Reach P M fn s₀ (1 :: p) 0 (.expr r) s1
  | args {p i k args ty s} : Reach P M fn s₀ p i (.expr (.node k args ty)) s → Reach P M fn s₀ p 0 (.exprs args) s
  | exprsHead {p i e es s} : Reach P M fn s₀ p i (.exprs (e :: es)) s → Reach P M fn s₀ (i :: p) 0 (.expr e) s
  | exprsTail {p i e es v s s1} : Reach P M fn s₀ p i (.exprs (e :: es)) s →
      Run P M fn (.expr e) s (.vals [v]) s1 → Reach P M fn s₀ p (i + 1) (.exprs es) s1
  -- statements
  | stmtsHead {p i st ss s} : Reach P M fn s₀ p i (.stmts (st :: ss)) s → Reach P M fn s₀ (i :: p) 0 (.stmt st) s
  | stmtsTail {p i st ss s s1} : Reach P M fn s₀ p i (.stmts (st :: ss)) s →
      Run P M fn (.stmt st) s (.vals []) s1 → Reach P M fn s₀ p (i + 1) (.stmts ss) s1
  | operands {p i st es s} : Reach P M fn s₀ p i (.stmt st) s → st.operands = some es →
      Reach P M fn s₀ p 0 (.exprs es) s
  | ifCond {p i c a b s} : Reach P M fn s₀ p i (.stmt (.ifElse c a b)) s → Reach P M fn s₀ (0 :: p) 0 (.expr c) s
  | ifThen {p i c a b v s s1} : Reach P M fn s₀ p i (.stmt (.ifElse c a b)) s →
      Run P M fn (.expr c) s (.vals [v]) s1 → v.truthy = true → Reach P M fn s₀ (1 :: p) 0 (.stmts a) s1
  | ifElse {p i c a b v s s1} : Reach P M fn s₀ p i (.stmt (.ifElse c a b)) s →
      Run P M fn (.expr c) s (.vals [v]) s1 → v.truthy = false → Reach P M fn s₀ (2 :: p) 0 (.stmts (b.getD [])) s1
  | whileStmt {p i c b ls s} : Reach P M fn s₀ p i (.stmt (.whileStmt c b ls)) s →
      Reach P M fn s₀ p 0 (.loop (.ofWhile c b ls)) s
  | doWhile {p i c b ls s} : Reach P M fn s₀ p i (.stmt (.doWhile b c ls)) s →
      Reach P M fn s₀ p 0 (.loop (.ofDoWhile b c ls)) s
  | forInit {p i st c u b ls s} : Reach P M fn s₀ p i (.stmt (.forStmt st c u b ls)) s →
      Reach P M fn s₀ (3 :: p) 0 (.stmts st.toList) s
  | forStmt {p i st c u b ls s s1} : Reach P M fn s₀ p i (.stmt (.forStmt st c u b ls)) s →
      Run P M fn (.stmts st.toList) s (.vals []) s1 → Reach P M fn s₀ p 0 (.loop (.ofFor c u b ls)) s1
  | iterable {p i x it b ls s} : Reach P M fn s₀ p i (.stmt (.forOf x it b ls)) s →
      Reach P M fn s₀ (3 :: p) 0 (.expr it) s
  | forOf {p i x it b ls v s s1} : Reach P M fn s₀ p i (.stmt (.forOf x it b ls)) s →
      Run P M fn (.expr it) s (.vals [v]) s1 → Reach P M fn s₀ p 0 (.loop (.ofForOf x b ls)) s1
  | block {p i b ls s} : Reach P M fn s₀ p i (.stmt (.block b ls)) s → Reach P M fn s₀ (1 :: p) 0 (.stmts b) s
  | disc {p i d cs ls s} : Reach P M fn s₀ p i (.stmt (.switch d cs ls)) s → Reach P M fn s₀ (0 :: p) 0 (.expr d) s
  | tests {p i d cs ls v s s1} : Reach P M fn s₀ p i (.stmt (.switch d cs ls)) s →
      Run P M fn (.expr d) s (.vals [v]) s1 → Reach P M fn s₀ (1 :: p) 0 (.tests v cs) s1
  | default {p i d cs ls v k s s1 s2} : Reach P M fn s₀ p i (.stmt (.switch d cs ls)) s →
      Run P M fn (.expr d) s (.vals [v]) s1 → Run P M fn (.tests v cs) s1 .miss s2 →
      defaultOn cs = some (cs.drop k) → Reach P M fn s₀ (1 :: p) k (.fall (cs.drop k)) s2
  | guarded {p i t c x f s} : Reach P M fn s₀ p i (.stmt (.tryCatch t c x f)) s →
      Reach P M fn s₀ p 0 (.guarded t c x) s
  | finallyBody {p i t c x f o s s1} : Reach P M fn s₀ p i (.stmt (.tryCatch t c x (some f))) s →
      Run P M fn (.guarded t c x) s o s1 → o ≠ .cut → Reach P M fn s₀ (2 :: p) 0 (.stmts f) s1
  | tryBody {p i t c x s} : Reach P M fn s₀ p i (.guarded t c x) s → Reach P M fn s₀ (0 :: p) 0 (.stmts t) s
  | catchBody {p i t b x id s s1} : Reach P M fn s₀ p i (.guarded t (some b) x) s →
      Run P M fn (.stmts t) s .thr s1 → Reach P M fn s₀ (1 :: p) 0 (.stmts b) (s1.bindCaught x id)
  -- switches
  | testsDefault {p i d b cs s} : Reach P M fn s₀ p i (.tests d (.mk none b :: cs)) s →
      Reach P M fn s₀ p (i + 1) (.tests d cs) s
  | test {p i d t b cs s} : Reach P M fn s₀ p i (.tests d (.mk (some t) b :: cs)) s →
      Reach P M fn s₀ (0 :: i :: p) 0 (.expr t) s
  | testsHit {p i d t b cs v s s1} : Reach P M fn s₀ p i (.tests d (.mk (some t) b :: cs)) s →
      Run P M fn (.expr t) s (.vals [v]) s1 → Val.strictEq d v = true →
      Reach P M fn s₀ p i (.fall (.mk (some t) b :: cs)) s1
  | testsNext {p i d t b cs v s s1} : Reach P M fn s₀ p i (.tests d (.mk (some t) b :: cs)) s →
      Run P M fn (.expr t) s (.vals [v]) s1 → Val.strictEq d v = false → Reach P M fn s₀ p (i + 1) (.tests d cs) s1
  | fallHead {p i c cs s} : Reach P M fn s₀ p i (.fall (c :: cs)) s → Reach P M fn s₀ (1 :: i :: p) 0 (.stmts c.body) s
  | fallTail {p i c cs s s1} : Reach P M fn s₀ p i (.fall (c :: cs)) s → Run P M fn (.stmts c.body) s (.vals []) s1 →
      Reach P M fn s₀ p (i + 1) (.fall cs) s1
  -- loops
  | loopElem {p i l x v s} : Reach P M fn s₀ p i (.loop l) s → l.elem = some x →
      Reach P M fn s₀ p i (.iter l) (s.setLocal x (some v))
  | loopEnter {p i l s} : Reach P M fn s₀ p i (.loop l) s → l.elem = none → l.doWhile = true ∨ l.cond = none →
      Reach P M fn s₀ p i (.iter l) s
  | loopCond {p i l c s} : Reach P M fn s₀ p i (.loop l) s → l.elem = none → l.doWhile = false → l.cond = some c →
      Reach P M fn s₀ (0 :: p) 0 (.expr c) s
  | loopTrue {p i l c v s s1} : Reach P M fn s₀ p i (.loop l) s → l.elem = none → l.doWhile = false →
      l.cond = some c → Run P M fn (.expr c) s (.vals [v]) s1 → v.truthy = true → Reach P M fn s₀ p i (.iter l) s1
  | iterBody {p i l s} : Reach P M fn s₀ p i (.iter l) s → Reach P M fn s₀ (1 :: p) 0 (.stmts l.body) s
  | iterNext {p i l ob s s1} : Reach P M fn s₀ p i (.iter l) s → Run P M fn (.stmts l.body) s ob s1 →
      (ob = .vals [] ∨ ∃ la, ob = .cont la ∧ aims l.labels la = true) → Reach P M fn s₀ p i (.latch l) s1
  | latchNext {p i l s} : Reach P M fn s₀ p i (.latch l) s → l.doWhile = false → l.update = none →
      Reach P M fn s₀ p i (.loop l) s
  | update {p i l u s} : Reach P M fn s₀ p i (.latch l) s → l.doWhile = false → l.update = some u →
      Reach P M fn s₀ (2 :: p) 0 (.stmt u) s
  | latchUpdate {p i l u s s1} : Reach P M fn s₀ p i (.latch l) s → l.doWhile = false → l.update = some u →
      Run P M fn (.stmt u) s (.vals []) s1 → Reach P M fn s₀ p i (.loop l) s1
  | latchCond {p i l c s} : Reach P M fn s₀ p i (.latch l) s → l.doWhile = true → l.update = none →
      l.cond = some c → Reach P M fn s₀ (0 :: p) 0 (.expr c) s
  | latchTrue {p i l c v s s1} : Reach P M fn s₀ p i (.latch l) s → l.doWhile = true → l.update = none →
      l.cond = some c → Run P M fn (.expr c) s (.vals [v]) s1 → v.truthy = true → Reach P M fn s₀ p i (.loop l) s1

/-- In some run of the function from `s₀`, the expression at the place is evaluated in `s` and
gives the value. -/
def Evaluates (P : PowApprox) (M : IrModule) (fn : IrFunction) (s₀ : State) (p : Path) (e : Expr) (v : Val) : Prop :=
  ∃ i s s', Reach P M fn s₀ p i (.expr e) s ∧ Run P M fn (.expr e) s (.vals [v]) s'

end Ir
