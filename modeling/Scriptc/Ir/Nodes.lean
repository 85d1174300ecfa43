import Scriptc.Ir.Semantics

/-!
# What a run went through

Inversion of the rules for operands, for the arithmetic nodes and for the statements that
evaluate operands and act.
-/

namespace Ir

open IntInfer F64

variable {P : PowApprox} {M : IrModule} {fn : IrFunction} {s s' : State} {vs : List Val}

/-- Two operands are evaluated one after the other. -/
theorem Run.exprs_two {l r : Expr} (h : Run P M fn (.exprs [l, r]) s (.vals vs) s') :
    ∃ v w s1, vs = [v, w] ∧ Run P M fn (.expr l) s (.vals [v]) s1 ∧ Run P M fn (.expr r) s1 (.vals [w]) s' := by
  cases h with
  | exprsCons h1 h2 =>
    cases h2 with
    | exprsCons h2 h3 =>
      cases h3
      · exact ⟨_, _, _, rfl, h1, h2⟩
    | exprsAbrupt _ ho => cases ho
    | exprsLater _ _ ho => cases ho
  | exprsAbrupt _ ho => cases ho
  | exprsLater _ _ ho => cases ho

variable {e : Expr}

theorem Run.exprs_one (h : Run P M fn (.exprs [e]) s (.vals vs) s') :
    ∃ v, vs = [v] ∧ Run P M fn (.expr e) s (.vals [v]) s' := by
  cases h with
  | exprsCons h1 h2 =>
    cases h2
    exact ⟨_, rfl, h1⟩
  | exprsAbrupt _ ho => cases ho
  | exprsLater _ _ ho => cases ho

variable {ty : Ty} {v : Val} {tys : List Ty}

theorem Apply.bin_inv {op : IrNumBinOp}
    (h : Apply P M s (.bin op) tys ty vs v s') : s' = s ∧
      ((op.isArith = true ∧ ∃ x y, vs = [.num x, .num y] ∧ v = .num (jsBin P op x y)) ∨
        (op.isArith = false ∧ (tys = [.f64, .f64] → ∃ x y, vs = [.num x, .num y] ∧ v = .bool (jsCmp op x y)))) := by
  cases h with
  | arith hop => exact ⟨rfl, Or.inl ⟨hop, _, _, rfl, rfl⟩⟩
  | cmp hop => exact ⟨rfl, Or.inr ⟨hop, fun _ => ⟨_, _, rfl, rfl⟩⟩⟩
  | identity hop ht => exact ⟨rfl, Or.inr ⟨hop, fun e => by simp_all⟩⟩

/-- A binary expression evaluates its operands in order, and the operator does the rest. -/
theorem Run.bin_inv {op : IrNumBinOp} {l r : Expr}
    (h : Run P M fn (.expr (.node (.bin op) [l, r] ty)) s (.vals [v]) s') :
    ∃ a b s1, Run P M fn (.expr l) s (.vals [a]) s1 ∧ Run P M fn (.expr r) s1 (.vals [b]) s' ∧
      Apply P M s' (.bin op) [l.ty, r.ty] ty [a, b] v s' := by
  cases h with
  | node he ha =>
    obtain ⟨a, b, s1, rfl, h1, h2⟩ := he.exprs_two
    obtain rfl := ha.bin_inv.1
    exact ⟨a, b, s1, h1, h2, ha⟩
  | nodeAbrupt _ ho => cases ho
  | opaqueDone _ hk => cases hk
  | runsCode _ hk | runsCodeAbrupt _ hk => exact hk.elim

theorem Apply.unary_inv {op : UnOp}
    (h : Apply P M s (.unary op) tys ty vs v s') : s' = s ∧
      match op with
      | .neg => ∃ x, vs = [.num x] ∧ v = .num (F64.neg x)
      | .bitNot => ∃ x, vs = [.num x] ∧ v = .num (F64.bitNot x)
      | .not => ∃ w, vs = [w] ∧ v = .bool (!w.truthy) := by
  cases h <;> exact ⟨rfl, _, rfl, rfl⟩

theorem Run.unary_inv {op : UnOp}
    (h : Run P M fn (.expr (.node (.unary op) [e] ty)) s (.vals [v]) s') :
    ∃ a, Run P M fn (.expr e) s (.vals [a]) s' ∧ Apply P M s' (.unary op) [e.ty] ty [a] v s' := by
  cases h with
  | node he ha =>
    obtain ⟨a, rfl, h1⟩ := he.exprs_one
    obtain rfl := ha.unary_inv.1
    exact ⟨a, h1, ha⟩
  | nodeAbrupt _ ho => cases ho
  | opaqueDone _ hk => cases hk
  | runsCode _ hk | runsCodeAbrupt _ hk => exact hk.elim

/-- A statement that evaluates operands and acts does just that. -/
theorem Run.act_inv {st : Stmt} {es : List Expr} {o : Out} (he : st.operands = some es)
    (h : Run P M fn (.stmt st) s o s') (ho : o.abrupt = false) :
    ∃ vs s1, Run P M fn (.exprs es) s (.vals vs) s1 ∧ Act M s1 st vs o s' := by
  cases h with
  | act h1 h2 h3 =>
    rw [he] at h1
    obtain rfl := Option.some.inj h1
    exact ⟨_, _, h2, h3⟩
  | cut => cases ho
  | actAbrupt _ _ h3 | ifAbrupt _ h3 | forAbrupt _ h3 | forOfAbrupt _ h3 | switchAbrupt _ h3 =>
    rw [h3] at ho
    cases ho
  | _ => cases he

theorem Run.act_one {st : Stmt} {o : Out} (he : st.operands = some [e])
    (h : Run P M fn (.stmt st) s o s') (ho : o.abrupt = false) :
    ∃ v s1, Run P M fn (.expr e) s (.vals [v]) s1 ∧ Act M s1 st [v] o s' := by
  obtain ⟨vs, s1, h1, h2⟩ := h.act_inv he ho
  obtain ⟨v, rfl, h1'⟩ := h1.exprs_one
  exact ⟨v, s1, h1', h2⟩

theorem Apply.abs_inv
    (h : Apply P M s (.libCall (.math .abs)) tys ty vs v s') : s' = s ∧ ∃ x, vs = [.num x] ∧ v = .num (F64.abs x) := by
  cases h
  exact ⟨rfl, _, rfl, rfl⟩

/-!
## Properties of all nodes of a task

A condition on single nodes, asked of a whole task. The lemmas here take it apart along the
syntax, so that proofs over runs can hand every part its own share.
-/

variable (Q : Node → Prop)

def Expr.All (e : Expr) : Prop := ∀ n ∈ e.nodes, Q n

def exprsAll (es : List Expr) : Prop := ∀ n ∈ exprsNodes es, Q n

section Parts

variable {Q}

theorem Expr.all_iff : e.All Q ↔ Q (.expr e) ∧ ∀ n ∈ e.inner, Q n := by
  simp [Expr.All, Expr.nodes]

theorem Expr.All.self (h : e.All Q) : Q (.expr e) := (Expr.all_iff.mp h).1

@[simp] theorem exprsAll_nil : exprsAll Q [] := by simp [exprsAll]

@[simp] theorem exprsAll_cons {es : List Expr} : exprsAll Q (e :: es) ↔ e.All Q ∧ exprsAll Q es := by
  simp [exprsAll, Expr.All, Expr.nodes, or_imp, forall_and, and_assoc]

theorem all_ternary {c a b : Expr} {t : Ty} :
    (Expr.ternary c a b t).All Q ↔ Q (.expr (.ternary c a b t)) ∧ c.All Q ∧ a.All Q ∧ b.All Q := by
  simp [Expr.all_iff, or_imp, forall_and, and_assoc]

theorem all_short {op : ShortOp} {l r : Expr} {t : Ty} :
    (Expr.short op l r t).All Q ↔ Q (.expr (.short op l r t)) ∧ l.All Q ∧ r.All Q := by
  simp [Expr.all_iff, or_imp, forall_and, and_assoc]

theorem all_node {k : Kind} {args : List Expr} {t : Ty} :
    (Expr.node k args t).All Q ↔ Q (.expr (.node k args t)) ∧ exprsAll Q args := by
  simp [Expr.all_iff, exprsAll]

end Parts

end Ir
