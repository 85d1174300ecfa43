import Scriptc.Backend.RustIntegerCalls
import Scriptc.Ir.Ends
import Scriptc.Ir.Nodes

/-!
# Calls specialized to integers are exact where names resolve

A plan comes with a derivation (`Emits`, `EmitsBlock`) that pairs each expression with its
range and its code. Along it the body and the closure compute the same integers, as long as
every emitted name stands for the local it was made from.
-/

namespace RustCalls

open Ir IntInfer F64 IntegerRange List Function Option

/-! ### What the plan pairs up -/

/-- The expression has this code; a number has a range too. -/
inductive Emits (scope : Scope) : Expr → Option IntegerRange → RustExpr → Prop where
  | numLit {x sp r} : integerLiteral x = some r → Emits scope (.numLit x sp) (some r) (.lit r.min)
  | varRef {x r} : scope x = some r → Emits scope (.varRef (.loc x) .f64) (some r) (.var (name x))
  | bin {op l r a b range c d} : Emits scope l (some a) c → Emits scope r (some b) d →
      combineIntegerRanges op a b = some range →
      Emits scope (.node (.bin op) [l, r] .f64) (some range) (.arith op c d)
  | abs {e a c} : Emits scope e (some a) c →
      Emits scope (.node (.libCall (.math .abs)) [e] .f64) (some a.abs) (.abs c)
  | ternary {k thn els a b ck c d} : Emits scope k none ck → Emits scope thn (some a) c → Emits scope els (some b) d →
      Emits scope (.ternary k thn els .f64) (some (merge a b)) (.cond ck c d)
  | boolLit {b} : Emits scope (.boolLit b) none (.bool b)
  | cmp {op l r a b c d} : op.isOrdered = true → Emits scope l (some a) c → Emits scope r (some b) d →
      Emits scope (.node (.bin op) [l, r] .bool) none (.cmp op c d)
  | and {l r c d} : Emits scope l none c → Emits scope r none d → Emits scope (.short .and l r .bool) none (.and c d)
  | or {l r c d} : Emits scope l none c → Emits scope r none d → Emits scope (.short .or l r .bool) none (.or c d)
  | not {e c} : Emits scope e none c → Emits scope (.node (.unary .not) [e] .bool) none (.not c)

theorem Emits.ty_eq {scope : Scope} {e : Expr} {r : IntegerRange} {c : RustExpr} (h : Emits scope e (some r) c) :
    e.ty = .f64 := by
  cases h <;> rfl

theorem enter_eq_some {β : Type*} {remaining : ℤ} {depth : ℕ} {typed : Bool} {k : ℤ → Option β × ℤ} {v : β}
    (h : (enter remaining depth typed k).1 = some v) : typed = true ∧ (k (remaining - 1)).1 = some v := by
  unfold enter at h
  split_ifs at h with hc
  exact ⟨by cases typed <;> simp_all, h⟩

/-- What `number` and `boolean` give has a derivation. -/
theorem emits :
    (∀ e scope depth remaining, ∀ v, (number e scope depth remaining).1 = some v → Emits scope e (some v.range) v.code) ∧
      ∀ e scope depth remaining, ∀ c, (boolean e scope depth remaining).1 = some c → Emits scope e none c := by
  refine number.mutual_induct
    (fun e scope depth remaining => ∀ v, (number e scope depth remaining).1 = some v → Emits scope e (some v.range) v.code)
    (fun e scope depth remaining => ∀ c, (boolean e scope depth remaining).1 = some c → Emits scope e none c)
    ?_ ?_ ?_ ?_ ?_ ?_ ?_ ?_ ?_ ?_ ?_ ?_
  · intro x sp scope depth remaining v h
    rw [number] at h
    obtain ⟨r, hr, rfl⟩ := map_eq_some_iff.mp (enter_eq_some h).2
    exact .numLit hr
  · intro x ty scope depth remaining v h
    rw [number] at h
    obtain ⟨ht, h⟩ := enter_eq_some h
    obtain ⟨r, hr, rfl⟩ := map_eq_some_iff.mp h
    obtain rfl := eq_of_beq ht
    exact .varRef hr
  · intro op l r ty scope depth remaining ihl ihr v h
    rw [number] at h
    obtain ⟨ht, h⟩ := enter_eq_some h
    obtain ⟨a, ha, h⟩ := bind_eq_some_iff.mp h
    obtain ⟨b, hb, h⟩ := bind_eq_some_iff.mp h
    obtain ⟨range, hr, rfl⟩ := map_eq_some_iff.mp h
    obtain rfl := eq_of_beq ht
    exact .bin (ihl _ _ ha) (ihr _ _ hb) hr
  · intro e ty scope depth remaining ih v h
    rw [number] at h
    obtain ⟨ht, h⟩ := enter_eq_some h
    obtain ⟨a, ha, rfl⟩ := map_eq_some_iff.mp h
    obtain rfl := eq_of_beq ht
    exact .abs (ih _ _ ha)
  · intro c thn els ty scope depth remaining ihc iha ihb v h
    rw [number] at h
    obtain ⟨ht, h⟩ := enter_eq_some h
    obtain ⟨k, hk, h⟩ := bind_eq_some_iff.mp h
    obtain ⟨a, ha, h⟩ := bind_eq_some_iff.mp h
    obtain ⟨b, hb, rfl⟩ := map_eq_some_iff.mp h
    obtain rfl := eq_of_beq ht
    exact .ternary (ihc _ _ hk) (iha _ _ ha) (ihb _ _ hb)
  · intro e scope depth remaining h1 h2 h3 h4 h5 v h
    rw [number.eq_6 e scope depth remaining h1 h2 h3 h4 h5] at h
    cases h
  · intro b scope depth remaining c h
    rw [boolean] at h
    obtain rfl := some.inj (enter_eq_some h).2
    exact .boolLit
  · intro op l r ty scope depth remaining ihl ihr c h
    rw [boolean] at h
    obtain ⟨ht, h⟩ := enter_eq_some h
    split_ifs at h with hop
    obtain ⟨a, ha, h⟩ := bind_eq_some_iff.mp h
    obtain ⟨b, hb, rfl⟩ := map_eq_some_iff.mp h
    obtain rfl := eq_of_beq ht
    exact .cmp hop (ihl _ _ ha) (ihr _ _ hb)
  · intro l r ty scope depth remaining ihl ihr c h
    rw [boolean] at h
    obtain ⟨ht, h⟩ := enter_eq_some h
    obtain ⟨a, ha, h⟩ := bind_eq_some_iff.mp h
    obtain ⟨b, hb, rfl⟩ := map_eq_some_iff.mp h
    obtain rfl := eq_of_beq ht
    exact .and (ihl _ _ ha) (ihr _ _ hb)
  · intro l r ty scope depth remaining ihl ihr c h
    rw [boolean] at h
    obtain ⟨ht, h⟩ := enter_eq_some h
    obtain ⟨a, ha, h⟩ := bind_eq_some_iff.mp h
    obtain ⟨b, hb, rfl⟩ := map_eq_some_iff.mp h
    obtain rfl := eq_of_beq ht
    exact .or (ihl _ _ ha) (ihr _ _ hb)
  · intro e ty scope depth remaining ih c h
    rw [boolean] at h
    obtain ⟨ht, h⟩ := enter_eq_some h
    obtain ⟨a, ha, rfl⟩ := map_eq_some_iff.mp h
    obtain rfl := eq_of_beq ht
    exact .not (ih _ _ ha)
  · intro e scope depth remaining h1 h2 h3 h4 h5 v h
    rw [boolean.eq_6 e scope depth remaining h1 h2 h3 h4 h5] at h
    cases h

/-- The first result lies within the second. -/
def ResultLe (a b : Option IntegerRange) : Prop := ∀ r, a = some r → ∃ s, b = some s ∧ r.Within s

theorem ResultLe.refl (a : Option IntegerRange) : ResultLe a a := fun r h => ⟨r, h, .refl r⟩

theorem ResultLe.trans {a b c : Option IntegerRange} (h : ResultLe a b) (h' : ResultLe b c) : ResultLe a c := by
  intro r hr
  obtain ⟨s, hs, h1⟩ := h r hr
  obtain ⟨t, ht, h2⟩ := h' s hs
  exact ⟨t, ht, h1.trans h2⟩

theorem le_mergeResults_left (a b : Option IntegerRange) : ResultLe a (mergeResults a b) := by
  rintro r rfl
  cases b with
  | none => exact ⟨r, rfl, .refl r⟩
  | some b => exact ⟨_, rfl, within_merge_left r b⟩

theorem le_mergeResults_right (a b : Option IntegerRange) : ResultLe b (mergeResults a b) := by
  rintro r rfl
  cases a with
  | none => exact ⟨r, rfl, .refl r⟩
  | some a => exact ⟨_, rfl, within_merge_right a r⟩

/-- The statements have this code, return numbers within the bound only, and with the flag
cannot complete. -/
inductive EmitsBlock (bound : Option IntegerRange) : Scope → List Stmt → Bool → List RustStmt → Prop where
  | nil {scope} : EmitsBlock bound scope [] false []
  | decl {scope x e r c ss t code} : scope x = none → Emits scope e (some r) c →
      EmitsBlock bound (update scope x (some r)) ss t code →
      EmitsBlock bound scope (.varDecl x (some e) :: ss) t (.letI (name x) c :: code)
  | ret {scope e r c} : Emits scope e (some r) c → ResultLe (some r) bound →
      EmitsBlock bound scope [.ret (some e)] true [.ret c]
  | ifElse {scope k thn els ck ta ca tb cb ss t code} : Emits scope k none ck → EmitsBlock bound scope thn ta ca →
      EmitsBlock bound scope (els.getD []) tb cb → EmitsBlock bound scope ss t code →
      EmitsBlock bound scope (.ifElse k thn els :: ss) ((ta && tb) || t) (.ifElse ck ca cb :: code)

section Blocks

variable {fn : IrCallee}

theorem enterBlock_eq_some {depth length : ℕ} {k : ℤ → Option Block × ℤ} {remaining : ℤ} {b : Block}
    (h : (enterBlock depth length k remaining).1 = some b) : (k remaining).1 = some b := by
  unfold enterBlock at h
  split_ifs at h
  exact h

/-- A turn of the loop: what it reads and what it adds. -/
theorem blockStmt_cases {st : Stmt} {scope scope' : Scope} {depth : ℕ} {acc acc' : Block} {remaining : ℤ}
    (h : (blockStmt fn st scope depth acc remaining).1 = some (acc', scope')) : acc.terminal = false ∧
      ((∃ (x : String) (e : Expr) (v : NumberValue), st = .varDecl x (some e) ∧ scope x = none ∧ Emits scope e (some v.range) v.code ∧
          acc' = { acc with code := acc.code ++ [.letI (name x) v.code] } ∧
          scope' = update scope x (some v.range)) ∨
        (∃ (e : Expr) (v : NumberValue), st = .ret (some e) ∧ Emits scope e (some v.range) v.code ∧
          acc' = ⟨acc.code ++ [.ret v.code], mergeResults acc.result (some v.range), true⟩ ∧ scope' = scope) ∨
        ∃ (c : Expr) (thn : List Stmt) (els : Option (List Stmt)) (k : RustExpr) (a b : Block) (d : ℕ) (r r' : ℤ), st = .ifElse c thn els ∧ Emits scope c none k ∧
          (blockLoop fn thn scope d ⟨[], none, false⟩ r).1 = some a ∧ (blockElse fn els scope d r').1 = some b ∧
          acc' = ⟨acc.code ++ [.ifElse k a.code b.code], mergeResults (mergeResults acc.result a.result) b.result,
            a.terminal && b.terminal⟩ ∧ scope' = scope) := by
  cases st with
  | varDecl x init =>
    cases init with
    | none => cases h
    | some e =>
      rw [blockStmt] at h
      split_ifs at h with h1 h2
      obtain ⟨v, hv, he⟩ := map_eq_some_iff.mp h
      cases he
      refine ⟨by simpa using fun ht => h1 (Or.inr ht), Or.inl ⟨x, e, v, rfl, h2.2, emits.1 _ _ _ _ _ hv, rfl, rfl⟩⟩
  | ret value =>
    cases value with
    | none => cases h
    | some e =>
      rw [blockStmt] at h
      split_ifs at h with h1
      obtain ⟨v, hv, he⟩ := map_eq_some_iff.mp h
      cases he
      exact ⟨by simpa using fun ht => h1 (Or.inr ht), Or.inr (Or.inl ⟨e, v, rfl, emits.1 _ _ _ _ _ hv, rfl, rfl⟩)⟩
  | ifElse c thn els =>
    rw [blockStmt] at h
    split_ifs at h with h1
    obtain ⟨k, hk, h⟩ := bind_eq_some_iff.mp h
    obtain ⟨a, ha, h⟩ := bind_eq_some_iff.mp h
    obtain ⟨b, hb, he⟩ := map_eq_some_iff.mp h
    cases he
    exact ⟨by simpa using fun ht => h1 (Or.inr ht), Or.inr (Or.inr ⟨c, thn, els, k, a, b, _, _, _, rfl,
      emits.2 _ _ _ _ _ hk, enterBlock_eq_some ha, hb, rfl, rfl⟩)⟩
  | _ => cases h

/-- What the loop adds to the lines has a derivation, within any bound above the result. -/
theorem blockLoop_emits : ∀ (ss : List Stmt) {scope : Scope} {depth : ℕ} {acc b : Block} {remaining : ℤ},
    (blockLoop fn ss scope depth acc remaining).1 = some b → (acc.terminal = true → ss = []) ∧
      ResultLe acc.result b.result ∧ ∃ code t, b.code = acc.code ++ code ∧ b.terminal = (acc.terminal || t) ∧
        ∀ bound, ResultLe b.result bound → EmitsBlock bound scope ss t code
  | [], _, _, acc, b, _, h => by
    obtain rfl := some.inj h
    exact ⟨fun _ => rfl, .refl _, [], false, by simp, by simp, fun _ _ => .nil⟩
  | st :: rest, scope, depth, acc, b, remaining, h => by
    rw [blockLoop] at h
    split at h
    · cases h
    · rename_i acc' scope' hst
      obtain ⟨hterm, hcases⟩ := blockStmt_cases hst
      refine ⟨fun ht => absurd ht (by simp [hterm]), ?_⟩
      obtain ⟨hrest, hle, code, t, hcode, ht, hem⟩ := blockLoop_emits rest h
      rcases hcases with ⟨x, e, v, rfl, hx, hv, rfl, rfl⟩ | ⟨e, v, rfl, hv, rfl, rfl⟩ |
        ⟨c, thn, els, k, a, b', d, r, r', rfl, hk, ha, hb, rfl, rfl⟩
      · exact ⟨hle, .letI (name x) v.code :: code, t, by simp [hcode], ht, fun bound hbd => .decl hx hv (hem bound hbd)⟩
      · obtain rfl := hrest rfl
        refine ⟨(le_mergeResults_left _ _).trans hle, [.ret v.code], true, ?_, by simp [ht], fun bound hbd =>
          .ret hv ((le_mergeResults_right _ _).trans (hle.trans hbd))⟩
        have := hem _ (.refl _)
        cases this
        simpa using hcode
      · obtain ⟨-, -, ca, ta, hca, hta, hema⟩ := blockLoop_emits thn ha
        have hbe : ∃ cb tb, b'.code = cb ∧ b'.terminal = tb ∧
            ∀ bound, ResultLe b'.result bound → EmitsBlock bound scope' (els.getD []) tb cb := by
          cases els with
          | none =>
            rw [blockElse] at hb
            obtain rfl := some.inj (enterBlock_eq_some hb)
            exact ⟨[], false, rfl, rfl, fun _ _ => .nil⟩
          | some els =>
            rw [blockElse] at hb
            obtain ⟨-, -, cb, tb, hcb, htb, hemb⟩ := blockLoop_emits els (enterBlock_eq_some hb)
            exact ⟨cb, tb, by simpa using hcb, by simpa using htb, hemb⟩
        obtain ⟨cb, tb, rfl, rfl, hemb⟩ := hbe
        refine ⟨(le_mergeResults_left _ _).trans ((le_mergeResults_left _ _).trans hle),
          .ifElse k a.code b'.code :: code, (a.terminal && b'.terminal) || t, by simp [hcode], by simp [ht, hterm],
          fun bound hbd => ?_⟩
        have h1 : ResultLe a.result bound :=
          (le_mergeResults_right _ _).trans ((le_mergeResults_left _ _).trans (hle.trans hbd))
        have h2 : ResultLe b'.result bound := (le_mergeResults_right _ _).trans (hle.trans hbd)
        have hta' : a.terminal = ta := by simpa using hta
        have hca' : a.code = ca := by simpa using hca
        rw [hta', hca']
        exact .ifElse hk (hema bound h1) (hemb bound h2) (hem bound hbd)

end Blocks

/-! ### Where names resolve -/

/-- Of the locals in scope, the innermost first, the first with the emitted name of `x` is `x`. -/
def Resolves (ids : List String) (x : String) : Prop := (ids.find? fun y => name y == name x) = some x

instance (ids : List String) (x : String) : Decidable (Resolves ids x) := inferInstanceAs (Decidable (_ = _))

/-- A reference to a local is one to the innermost binding of its emitted name. -/
def nodeResolved (ids : List String) : Ir.Node → Prop
  | .expr (.varRef (.loc x) _) => Resolves ids x
  | _ => True

/-- The constant a statement declares. -/
def declares : Stmt → List String
  | .varDecl x (some _) => [x]
  | _ => []

mutual
def stmtResolved : Stmt → List String → Prop
  | .varDecl _ (some e), ids | .ret (some e), ids => e.All (nodeResolved ids)
  | .ifElse c a b, ids => c.All (nodeResolved ids) ∧ stmtsResolved a ids ∧ optResolved b ids
  | _, _ => True

/-- Every reference in the statements resolves. A declaration is in scope for what follows it. -/
def stmtsResolved : List Stmt → List String → Prop
  | [], _ => True
  | st :: ss, ids => stmtResolved st ids ∧ stmtsResolved ss (declares st ++ ids)

def optResolved : Option (List Stmt) → List String → Prop
  | none, _ => True
  | some ss, ids => stmtsResolved ss ids
end

/-- The parameters have different emitted names, and every reference resolves. -/
structure IrCallee.Resolved (fn : IrCallee) : Prop where
  params : (fn.params.map name).Nodup
  refs : stmtsResolved fn.body fn.params

/-- The state and the Rust bindings agree on the locals of the scope, as far as a reference to
them resolves. -/
def Agrees (scope : Scope) (ids : List String) (s : State) (env : Env) : Prop :=
  ∀ x r, scope x = some r → ∃ n, r.Has n ∧ s.locals x = some (.num (ofInt n)) ∧
    (Resolves ids x → env.lookup (name x) = some n)

theorem Agrees.declare {scope : Scope} {ids : List String} {s : State} {env : Env} (h : Agrees scope ids s env)
    {x : String} {r : IntegerRange} {n : ℤ} (hx : scope x = none) (hn : r.Has n) :
    Agrees (update scope x (some r)) (x :: ids) (s.setLocal x (some (.num (ofInt n)))) ((name x, n) :: env) := by
  intro y t ht
  by_cases hy : y = x
  · subst hy
    rw [update_self] at ht
    obtain rfl := some.inj ht
    exact ⟨n, hn, by simp [State.setLocal], fun _ => by simp⟩
  · rw [update_of_ne hy] at ht
    obtain ⟨m, hm, hl, he⟩ := h y t ht
    refine ⟨m, hm, by simpa [State.setLocal, hy] using hl, fun hr => ?_⟩
    have hne : name x ≠ name y := by
      intro hxy
      simp only [Resolves, find?_cons, hxy, beq_self_eq_true, some.injEq] at hr
      exact hy hr.symm
    have hr' : Resolves ids y := by
      have hb : (name x == name y) = false := by simpa using hne
      simpa only [Resolves, find?_cons, hb] using hr
    have hb : (name y == name x) = false := by simpa using hne.symm
    rw [lookup_cons, hb]
    exact he hr'

theorem Agrees.frame {scope : Scope} {ids : List String} {s s' : State} {env : Env} (h : Agrees scope ids s env)
    (hs : ∀ x, scope x ≠ none → s'.locals x = s.locals x) : Agrees scope ids s' env := by
  intro x r hx
  obtain ⟨n, hn, hl, he⟩ := h x r hx
  exact ⟨n, hn, by rw [hs x (by simp [hx]), hl], he⟩

/-! ### Expressions -/

theorem checked_of_isSafe {n : ℤ} (h : IsSafe n) : checked n = some n := by
  unfold IsSafe maxSafeInteger at h
  unfold checked
  rw [if_pos (by omega)]

theorem intCmp_spec {a b : IntegerRange} {n m : ℤ} {op : IrNumBinOp} (hop : op.isOrdered = true) (hn : a.Has n)
    (hm : b.Has m) : op.isArith = false ∧ intCmp op n m = some (jsCmp op (ofInt n) (ofInt m)) := by
  have h1 := hn.isSafe
  have h2 := hm.isSafe
  cases op with
  | lt | gt => exact ⟨rfl, by simp [intCmp, jsCmp, lt_ofInt, h1, h2]⟩
  | le | ge => exact ⟨rfl, by simp [intCmp, jsCmp, le_ofInt, h1, h2]⟩
  | _ => cases hop

section Sound

variable {P : PowApprox} {M : IrModule} {fn : IrFunction} {s : State}

theorem gives_one {e : Expr} {Q : Val → Prop} (h : Gives P M fn e s Q) :
    GivesAll P M fn [e] s fun vs => ∃ v, vs = [v] ∧ Q v := by
  refine (givesAll_cons h givesAll_nil).mono ?_
  rintro o s' ⟨rfl, _, rfl, v, _, rfl, hv, rfl⟩
  exact ⟨rfl, _, rfl, v, rfl, hv⟩

theorem gives_two {l r : Expr} {Q R : Val → Prop} (hl : Gives P M fn l s Q) (hr : Gives P M fn r s R) :
    GivesAll P M fn [l, r] s fun vs => ∃ v w, vs = [v, w] ∧ Q v ∧ R w := by
  refine (givesAll_cons hl (gives_one hr)).mono ?_
  rintro o s' ⟨rfl, _, rfl, v, _, rfl, hv, w, rfl, hw⟩
  exact ⟨rfl, _, rfl, v, w, rfl, hv, hw⟩

theorem gives_bin {op : IrNumBinOp} {l r : Expr} {ty : Ty} {x y : F64} (hop : op.isArith = true) (hl : l.ty = .f64)
    (hr : r.ty = .f64) (gl : Gives P M fn l s (· = .num x)) (gr : Gives P M fn r s (· = .num y)) :
    Gives P M fn (.node (.bin op) [l, r] ty) s (· = .num (jsBin P op x y)) := by
  refine gives_node rfl (gives_two gl gr) ?_
  rintro _ ⟨_, _, rfl, rfl, rfl⟩
  simp only [List.map, hl, hr]
  refine ⟨⟨_, rfl, .arith hop⟩, fun v s' ha => ?_⟩
  obtain ⟨rfl, ⟨-, x', y', hxy, rfl⟩ | ⟨hop', -⟩⟩ := ha.bin_inv
  · cases hxy
    exact ⟨rfl, rfl⟩
  · rw [hop] at hop'
    cases hop'

/-- The expression and its code compute the same, on the way through safe integers only. -/
def Same (P : PowApprox) (M : IrModule) (fn : IrFunction) (e : Expr) (s : State) (env : Env) (c : RustExpr) :
    Option IntegerRange → Prop
  | some r => ∃ n seen, r.Has n ∧ Gives P M fn e s (· = .num (ofInt n)) ∧ c.eval env = some (.i64 n, seen) ∧
      ∀ k ∈ seen, IsSafe k
  | none => ∃ b seen, Gives P M fn e s (fun v => v.truthy = b) ∧ c.eval env = some (.bool b, seen) ∧
      ∀ k ∈ seen, IsSafe k

theorem Emits.same {scope : Scope} {e : Expr} {t : Option IntegerRange} {c : RustExpr} (h : Emits scope e t c)
    {ids : List String} {env : Env} (hs : Agrees scope ids s env) (hr : e.All (nodeResolved ids)) :
    Same P M fn e s env c t := by
  induction h with
  | @numLit x sp r hx =>
    obtain ⟨-, rfl⟩ := integerLiteral_eq_some hx
    have hn : r.Has r.min := ⟨le_rfl, r.le⟩
    exact ⟨r.min, [r.min], hn, gives_numLit, by simp [RustExpr.eval, checked_of_isSafe hn.isSafe], by simp [hn.isSafe]⟩
  | @varRef x r hx =>
    obtain ⟨n, hn, hl, he⟩ := hs x r hx
    have := he hr.self
    exact ⟨n, [n], hn, gives_varRef hl trivial, by simp [RustExpr.eval, this], by simp [hn.isSafe]⟩
  | @bin op l r a b range c d hl hr' hc ihl ihr =>
    obtain ⟨hrl, hrr⟩ : l.All (nodeResolved ids) ∧ r.All (nodeResolved ids) := by simpa using (all_node.mp hr).2
    obtain ⟨n, s1, hn, gn, en, sn⟩ := ihl hrl
    obtain ⟨m, s2, hm, gm, em, sm⟩ := ihr hrr
    obtain ⟨hop, k, hk, hrk, hb⟩ := combineIntegerRanges_spec P hc hn hm
    refine ⟨k, s1 ++ (s2 ++ [k]), hrk, ?_, ?_, ?_⟩
    · rw [← hb]
      exact gives_bin hop hl.ty_eq hr'.ty_eq gn gm
    · simp [RustExpr.eval, en, em, hk, checked_of_isSafe hrk.isSafe]
    · exact forall_mem_append.mpr ⟨sn, forall_mem_append.mpr ⟨sm, forall_mem_singleton.mpr hrk.isSafe⟩⟩
  | @abs e a c he ih =>
    obtain ⟨n, s1, hn, gn, en, sn⟩ := ih (by simpa using (all_node.mp hr).2)
    have hk := abs_has hn
    refine ⟨|n|, s1 ++ [|n|], hk, gives_node rfl (gives_one gn) ?_, ?_, ?_⟩
    · rintro _ ⟨_, rfl, rfl⟩
      refine ⟨⟨_, rfl, ?_⟩, fun v s' ha => ?_⟩
      · simp only [List.map, he.ty_eq]
        rw [← abs_ofInt hn.isSafe]
        exact .mathAbs
      · obtain ⟨rfl, x, hx, rfl⟩ := ha.abs_inv
        cases hx
        exact ⟨rfl, by rw [abs_ofInt hn.isSafe]⟩
    · simp [RustExpr.eval, en, checked_of_isSafe hk.isSafe]
    · exact forall_mem_append.mpr ⟨sn, forall_mem_singleton.mpr hk.isSafe⟩
  | @ternary k thn els a b ck c d _ _ _ ihk iha ihb =>
    obtain ⟨-, hrk, hra, hrb⟩ := all_ternary.mp hr
    obtain ⟨v, s0, gk, ek, sk⟩ := ihk hrk
    cases v with
    | true =>
      obtain ⟨n, s1, hn, gn, en, sn⟩ := iha hra
      refine ⟨n, s0 ++ s1, (within_merge_left a b).has hn, gives_ternary gk gn, by simp [RustExpr.eval, ek, en, after],
        forall_mem_append.mpr ⟨sk, sn⟩⟩
    | false =>
      obtain ⟨n, s1, hn, gn, en, sn⟩ := ihb hrb
      refine ⟨n, s0 ++ s1, (within_merge_right a b).has hn, gives_ternary gk gn, by simp [RustExpr.eval, ek, en, after],
        forall_mem_append.mpr ⟨sk, sn⟩⟩
  | @boolLit b => exact ⟨b, [], gives_boolLit.mono (by rintro o s' ⟨rfl, _, rfl, rfl⟩; exact ⟨rfl, _, rfl, rfl⟩), rfl, by simp⟩
  | @cmp op l r a b c d hop hl hr' ihl ihr =>
    obtain ⟨hrl, hrr⟩ : l.All (nodeResolved ids) ∧ r.All (nodeResolved ids) := by simpa using (all_node.mp hr).2
    obtain ⟨n, s1, hn, gn, en, sn⟩ := ihl hrl
    obtain ⟨m, s2, hm, gm, em, sm⟩ := ihr hrr
    obtain ⟨hari, hcmp⟩ := intCmp_spec hop hn hm
    refine ⟨jsCmp op (ofInt n) (ofInt m), s1 ++ s2, gives_node rfl (gives_two gn gm) ?_, ?_, ?_⟩
    · rintro _ ⟨_, _, rfl, rfl, rfl⟩
      simp only [List.map, hl.ty_eq, hr'.ty_eq]
      refine ⟨⟨_, rfl, .cmp hari⟩, fun v s' ha => ?_⟩
      obtain ⟨rfl, ⟨hari', -⟩ | ⟨-, hv⟩⟩ := ha.bin_inv
      · rw [hari] at hari'
        cases hari'
      · obtain ⟨x, y, hxy, rfl⟩ := hv rfl
        cases hxy
        exact ⟨rfl, rfl⟩
    · simp [RustExpr.eval, en, em, hcmp]
    · exact forall_mem_append.mpr ⟨sn, sm⟩
  | @and l r c d _ _ ihl ihr =>
    obtain ⟨-, hrl, hrr⟩ := all_short.mp hr
    obtain ⟨x, s1, gx, ex, sx⟩ := ihl hrl
    obtain ⟨y, s2, gy, ey, sy⟩ := ihr hrr
    have g : Gives P M fn (.short .and l r .bool) s _ := gives_short (Or.inl rfl) gx gy
    cases x with
    | true =>
      refine ⟨y, s1 ++ s2, by simpa using g, by simp [RustExpr.eval, ex, ey, after],
        forall_mem_append.mpr ⟨sx, sy⟩⟩
    | false => exact ⟨false, s1, by simpa using g, by simp [RustExpr.eval, ex], sx⟩
  | @or l r c d _ _ ihl ihr =>
    obtain ⟨-, hrl, hrr⟩ := all_short.mp hr
    obtain ⟨x, s1, gx, ex, sx⟩ := ihl hrl
    obtain ⟨y, s2, gy, ey, sy⟩ := ihr hrr
    have g : Gives P M fn (.short .or l r .bool) s _ := gives_short (Or.inr rfl) gx gy
    cases x with
    | false =>
      refine ⟨y, s1 ++ s2, by simpa using g, by simp [RustExpr.eval, ex, ey, after],
        forall_mem_append.mpr ⟨sx, sy⟩⟩
    | true => exact ⟨true, s1, by simpa using g, by simp [RustExpr.eval, ex], sx⟩
  | @not e c _ ih =>
    obtain ⟨x, s1, gx, ex, sx⟩ := ih (by simpa using (all_node.mp hr).2)
    refine ⟨!x, s1, gives_node rfl (gives_one gx) ?_, by simp [RustExpr.eval, ex], sx⟩
    rintro _ ⟨w, rfl, hw⟩
    refine ⟨⟨_, ?_, .not⟩, fun v s' ha => ?_⟩
    · simp [Val.truthy, hw]
    · obtain ⟨rfl, u, hu, rfl⟩ := ha.unary_inv
      cases hu
      exact ⟨rfl, by simp [Val.truthy, hw]⟩

end Sound

end RustCalls
