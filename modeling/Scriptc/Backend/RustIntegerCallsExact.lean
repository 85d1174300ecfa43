import Scriptc.Backend.RustIntegerCallsSound

/-!
# A specialized call returns what the body returns

Blocks, by induction on their derivation: a block either returns an integer within the bound
from both sides, or completes on both, with the locals of its scope as they were. From it
`build_exact`, for functions in which every emitted name resolves. Names need not: `$` and
`_x24_` share one.
-/

namespace RustCalls

open Ir IntInfer F64 IntegerRange List Option

variable {P : PowApprox} {M : IrModule}

section Blocks

variable {fn : IrFunction} {s : State}

/-- A constant declared with a known number. -/
theorem ends_decl {x : String} {e : Expr} {n : ℤ} (h : Gives P M fn e s (· = .num (ofInt n))) :
    Ends P M fn (.stmt (.varDecl x (some e))) s fun o s' => o = .vals [] ∧ s' = s.setLocal x (some (.num (ofInt n))) := by
  refine ends_act rfl (gives_one h) ?_
  rintro _ ⟨_, rfl, rfl⟩
  refine ⟨⟨_, _, ⟨rfl, rfl⟩, .init⟩, fun o s' ha => ?_⟩
  cases ha
  exact ⟨rfl, rfl⟩

theorem ends_ret {e : Expr} {n : ℤ} (h : Gives P M fn e s (· = .num (ofInt n))) :
    Ends P M fn (.stmt (.ret (some e))) s fun o _ => o = .ret (some (.num (ofInt n))) := by
  refine ends_act rfl (gives_one h) ?_
  rintro _ ⟨_, rfl, rfl⟩
  refine ⟨⟨_, _, rfl, .ret⟩, fun o s' ha => ?_⟩
  cases ha
  rfl

/-- How the statements end, by the value their code returns, if it does. -/
def BlockEnds (P : PowApprox) (M : IrModule) (fn : IrFunction) (bound : Option IntegerRange) (scope : Scope)
    (ss : List Stmt) (s : State) : Option ℤ → Prop
  | some n => (∃ r, bound = some r ∧ r.Has n) ∧ Ends P M fn (.stmts ss) s fun o _ => o = .ret (some (.num (ofInt n)))
  | none => Ends P M fn (.stmts ss) s fun o s' => o = .vals [] ∧ ∀ x, scope x ≠ none → s'.locals x = s.locals x

/-- The code runs through safe integers only, cannot complete where the derivation says so, and
ends as the statements do. -/
def SameBlock (P : PowApprox) (M : IrModule) (fn : IrFunction) (bound : Option IntegerRange) (scope : Scope)
    (ss : List Stmt) (s : State) (env : Env) (terminal : Bool) (code : List RustStmt) : Prop :=
  ∃ res seen, runStmts code env = some (res, seen) ∧ (∀ k ∈ seen, IsSafe k) ∧ (terminal = true → res ≠ none) ∧
    BlockEnds P M fn bound scope ss s res

theorem safe_append {xs ys : List ℤ} (hx : ∀ k ∈ xs, IsSafe k) (hy : ∀ k ∈ ys, IsSafe k) : ∀ k ∈ xs ++ ys, IsSafe k :=
  forall_mem_append.mpr ⟨hx, hy⟩

variable {ids : List String}

theorem stmtsResolved_getD {els : Option (List Stmt)} (h : optResolved els ids) :
    stmtsResolved (els.getD []) ids := by
  cases els with
  | none => simp [stmtsResolved]
  | some ss => simpa [optResolved] using h

/-- The branch that is taken, then what follows the statement. -/
theorem sameBlock_ifElse {bound : Option IntegerRange} {scope : Scope} {env : Env} {k : Expr}
    {thn ss : List Stmt} {els : Option (List Stmt)} {ck : RustExpr} {ca cb code : List RustStmt} {ta tb t v : Bool}
    {s0 : List ℤ} (hs : Agrees scope ids s env) (gk : Gives P M fn k s fun w => w.truthy = v)
    (ek : ck.eval env = some (.bool v, s0)) (sk : ∀ j ∈ s0, IsSafe j)
    (hbranch : SameBlock P M fn bound scope (if v then thn else els.getD []) s env (if v then ta else tb)
      (if v then ca else cb))
    (hrest : ∀ s', Agrees scope ids s' env → SameBlock P M fn bound scope ss s' env t code) :
    SameBlock P M fn bound scope (.ifElse k thn els :: ss) s env ((ta && tb) || t) (.ifElse ck ca cb :: code) := by
  obtain ⟨res, s1, hrun, hsafe, hterm, hends⟩ := hbranch
  have hst : (RustStmt.ifElse ck ca cb).run env = some ((res, env), s0 ++ s1) := by
    cases v with
    | true => simp only [if_true] at hrun; simp [RustStmt.run, ek, after, hrun]
    | false => simp only [Bool.false_eq_true, if_false] at hrun; simp [RustStmt.run, ek, after, hrun]
  cases res with
  | some n =>
    obtain ⟨hb, hends⟩ := hends
    exact ⟨some n, s0 ++ s1, by simp [runStmts, hst], safe_append sk hsafe, by simp, hb,
      ends_abrupt (ends_ifElse gk hends) (by rintro _ _ rfl; rfl)⟩
  | none =>
    have hok : ∀ s', (∀ x, scope x ≠ none → s'.locals x = s.locals x) → SameBlock P M fn bound scope ss s' env t code :=
      fun s' hf => hrest s' (hs.frame hf)
    have hstmt := ends_ifElse gk hends
    -- what follows runs in the same bindings, whichever state the branch leaves
    obtain ⟨_, s2, ⟨-, hf2⟩, -⟩ := hstmt.1
    obtain ⟨res, s3, hrun3, hsafe3, hterm3, -⟩ := hok s2 hf2
    have hvt : (if v then ta else tb) = false := by
      by_contra hc
      exact hterm (by simpa using hc) rfl
    refine ⟨res, (s0 ++ s1) ++ s3, by simp [runStmts, hst, hrun3, after], safe_append (safe_append sk hsafe) hsafe3, ?_, ?_⟩
    · intro ht
      refine hterm3 ?_
      cases v <;> simp_all
    · have later : ∀ s', (∀ x, scope x ≠ none → s'.locals x = s.locals x) → BlockEnds P M fn bound scope ss s' res := by
        intro s' hf
        obtain ⟨res', s4, hrun4, -, -, hends4⟩ := hok s' hf
        rw [hrun3] at hrun4
        cases hrun4
        exact hends4
      cases res with
      | some n =>
        refine ⟨(later s2 hf2).1, ends_cons hstmt fun s' hf => (later s' hf).2⟩
      | none =>
        refine ends_cons hstmt fun s' hf => (later s' hf).mono ?_
        rintro o s'' ⟨rfl, hf'⟩
        exact ⟨rfl, fun x hx => (hf' x hx).trans (hf x hx)⟩

theorem EmitsBlock.same {bound : Option IntegerRange} {scope : Scope} {ss : List Stmt} {t : Bool}
    {code : List RustStmt} (h : EmitsBlock bound scope ss t code) {env : Env}
    (hs : Agrees scope ids s env) (hr : stmtsResolved ss ids) : SameBlock P M fn bound scope ss s env t code := by
  induction h generalizing ids s env with
  | nil =>
    refine ⟨none, [], rfl, by simp, by simp, ends_nil.mono ?_⟩
    rintro o s' ⟨rfl, rfl⟩
    exact ⟨rfl, fun _ _ => rfl⟩
  | @decl scope x e r c ss t code hx he _ ih =>
    simp only [stmtsResolved, stmtResolved] at hr
    obtain ⟨n, s1, hn, gn, en, sn⟩ := he.same hs hr.1
    obtain ⟨res, s2, hrun, hsafe, hterm, hends⟩ := ih (hs.declare hx hn) hr.2
    refine ⟨res, s1 ++ s2, by simp [runStmts, RustStmt.run, en, hrun, after], safe_append sn hsafe, hterm, ?_⟩
    cases res with
    | some m =>
      refine ⟨hends.1, ends_cons (ends_decl gn) ?_⟩
      rintro _ rfl
      exact hends.2
    | none =>
      refine ends_cons (ends_decl gn) ?_
      rintro _ rfl
      refine hends.mono ?_
      rintro o s' ⟨rfl, hf⟩
      refine ⟨rfl, fun y hy => ?_⟩
      have hxy : y ≠ x := fun h => hy (by rw [h, hx])
      rw [hf y (by rwa [Function.update_of_ne hxy])]
      simp [State.setLocal, hxy]
  | @ret scope e r c he hb =>
    simp only [stmtsResolved, stmtResolved] at hr
    obtain ⟨n, s1, hn, gn, en, sn⟩ := he.same hs hr.1
    obtain ⟨b, rfl, hw⟩ := hb r rfl
    refine ⟨some n, s1, by simp [runStmts, RustStmt.run, en], sn, by simp, ⟨b, rfl, hw.has hn⟩, ?_⟩
    exact ends_abrupt (ends_ret gn) (by rintro _ _ rfl; rfl)
  | @ifElse scope k thn els ck ta ca tb cb ss t code hk _ _ _ iha ihb ih =>
    simp only [stmtsResolved, stmtResolved, declares, nil_append] at hr
    obtain ⟨v, s0, gk, ek, sk⟩ := hk.same hs hr.1.1
    refine sameBlock_ifElse hs gk ek sk ?_ fun s' hs' => ih hs' hr.2
    cases v with
    | true => exact iha hs hr.1.2.1
    | false => exact ihb hs (stmtsResolved_getD hr.1.2.2)

end Blocks

/-! ### The whole call -/

/-- The parameters agree with the arguments. -/
theorem paramScope_spec {params : List String} {ranges : List IntegerRange} {ns : List ℤ}
    (h : List.Forall₂ IntegerRange.Has ranges ns) {x : String} {r : IntegerRange} (hx : paramScope params ranges x = some r) :
    ∃ n, r.Has n ∧ (params.zip (ns.map fun n => Val.num (ofInt n))).lookup x = some (.num (ofInt n)) ∧
      (Resolves params x → ((params.map name).zip ns).lookup (name x) = some n) := by
  induction params generalizing ranges ns with
  | nil => simp [paramScope] at hx
  | cons p ps ih =>
    cases h with
    | nil => simp [paramScope] at hx
    | @cons a n as ns hn hs =>
      by_cases hp : x = p
      · subst hp
        simp only [paramScope, zip_cons_cons, lookup_cons, beq_self_eq_true, some.injEq] at hx
        subst hx
        exact ⟨n, hn, by simp, fun _ => by simp⟩
      · have hb : (x == p) = false := by simpa using hp
        simp only [paramScope, zip_cons_cons, lookup_cons, hb] at hx
        obtain ⟨m, hm, hl, he⟩ := ih hs hx
        refine ⟨m, hm, by simpa [lookup_cons, hb] using hl, fun hr => ?_⟩
        have hne : name p ≠ name x := by
          intro hpx
          simp only [Resolves, find?_cons, hpx, beq_self_eq_true, some.injEq] at hr
          exact hp hr.symm
        have hb1 : (name p == name x) = false := by simpa using hne
        have hb2 : (name x == name p) = false := by simpa using hne.symm
        have hr' : Resolves ps x := by simpa only [Resolves, find?_cons, hb1] using hr
        simpa only [map_cons, zip_cons_cons, lookup_cons, hb2] using he hr'

/-- The state a call starts in. -/
def callState (fn : IrFunction) (ns : List ℤ) (caps : String → Option Val) (self : Val) (globals : String → Cell)
    (heap : ℕ → Option Obj) : State :=
  ⟨fn.enter (ns.map fun n => .num (ofInt n)) caps, self, globals, heap⟩

/-- On every tuple of integers in the ranges, the body ends by returning an integer of the plan's
range, and in no other way, and the closure returns it, through safe integers only. -/
def Exact (P : PowApprox) (M : IrModule) (fn : IrCallee) (args : List ArgRange) (plan : Plan) : Prop :=
  ∀ (ns : List ℤ) (caps : String → Option Val) (self : Val) (globals : String → Cell) (heap : ℕ → Option Obj),
    List.Forall₂ (fun (a : ArgRange) n => ∃ r, a.check = some r ∧ r.Has n) args ns →
      ∃ n, plan.range.Has n ∧
        Ends P M fn.toIrFunction (.stmts fn.body) (callState fn.toIrFunction ns caps self globals heap)
          (fun o _ => o = .ret (some (.num (ofInt n)))) ∧
        ∃ seen, plan.call ns = some (n, seen) ∧ ∀ k ∈ seen, IsSafe k

/-- What a plan was built from. -/
theorem build_eq_some {fn : IrCallee} {args : List ArgRange} {plan : Plan} (h : build fn args = some plan) :
    ∃ ranges, args.mapM ArgRange.check = some ranges ∧ plan.params = fn.params.map name ∧
      EmitsBlock (some plan.range) (paramScope fn.params ranges) fn.body true plan.code := by
  unfold build at h
  split_ifs at h
  split at h
  · cases h
  · rename_i ranges hr
    dsimp only at h
    split at h
    · cases h
    · rename_i b hb
      split_ifs at h with ht
      obtain ⟨range, hres, rfl⟩ := map_eq_some_iff.mp h
      obtain ⟨-, -, code, t, hcode, hterm, hem⟩ := blockLoop_emits fn.body (enterBlock_eq_some hb)
      refine ⟨ranges, hr, rfl, ?_⟩
      have htt : t = true := by simpa [ht] using hterm.symm
      subst htt
      have : b.code = code := by simpa using hcode
      rw [this, ← hres]
      exact hem _ (.refl _)

theorem forall₂_check {args : List ArgRange} {ranges : List IntegerRange} (h : args.mapM ArgRange.check = some ranges)
    {ns : List ℤ} (hn : List.Forall₂ (fun (a : ArgRange) n => ∃ r, a.check = some r ∧ r.Has n) args ns) :
    List.Forall₂ IntegerRange.Has ranges ns := by
  induction hn generalizing ranges with
  | nil =>
    obtain rfl : [] = ranges := by simpa using h
    exact .nil
  | cons hd _ ih =>
    obtain ⟨r, hr, hn⟩ := hd
    simp only [mapM_cons, hr, bind_eq_bind, bind_some, bind_eq_some_iff] at h
    obtain ⟨rs, hrs, h⟩ := h
    cases h
    exact .cons hn (ih hrs)

/-- **A specialized call is exact where the emitted names resolve.** -/
theorem build_exact {fn : IrCallee} {args : List ArgRange} {plan : Plan} (h : build fn args = some plan)
    (hr : fn.Resolved) (P : PowApprox) (M : IrModule) : Exact P M fn args plan := by
  obtain ⟨ranges, hc, hp, hem⟩ := build_eq_some h
  intro ns caps self globals heap hns
  have hns' := forall₂_check hc hns
  have hs : Agrees (paramScope fn.params ranges) fn.params (callState fn.toIrFunction ns caps self globals heap)
      ((fn.params.map name).zip ns) := by
    intro x r hx
    obtain ⟨n, hn, hl, he⟩ := paramScope_spec hns' hx
    exact ⟨n, hn, by simp [callState, IrFunction.enter, hl], he⟩
  obtain ⟨res, seen, hrun, hsafe, hterm, hends⟩ := hem.same hs hr.refs
  cases res with
  | none => exact absurd rfl (hterm rfl)
  | some n =>
    obtain ⟨⟨r, hr', hn⟩, hends⟩ := hends
    cases hr'
    refine ⟨n, hn, hends, ns ++ seen, by simp [Plan.call, hp, hr.params, hrun], safe_append ?_ hsafe⟩
    intro k hk
    obtain ⟨i, hi, rfl⟩ := mem_iff_getElem.mp hk
    have := (forall₂_iff_get.mp hns').2 i (by rw [hns'.length_eq]; exact hi) hi
    exact Has.isSafe this

section Examples

private theorem one_le : |(1 : ℤ)| ≤ 2 ^ 53 := by decide

private theorem two_le : |(2 : ℤ)| ≤ 2 ^ 53 := by decide

/-- An integer literal. -/
private def literal (n : ℤ) (h : |n| ≤ 2 ^ 53) : F64 :=
  .fin ⟨n, Binary64.onGrid_intCast h, Binary64.lt_limit (by exact_mod_cast h)⟩

private theorem literal_eq (n : ℤ) (h : |n| ≤ 2 ^ 53) : literal n h = ofInt n := by
  obtain ⟨x, hx, hv⟩ := ofInt_eq_fin h
  rw [hx, literal]
  cases x
  simp_all

private def bareModule : IrModule where
  functions := []
  unions := []
  records := []
  globals := []
  members := []
  names_nodup := by simp

/-- `(a, b) => a - b`. -/
private def difference : IrCallee where
  name := "difference"
  params := ["a.0", "b.0"]
  locals := [⟨"a.0", .f64, false⟩, ⟨"b.0", .f64, false⟩]
  body := [.ret (some (.node (.bin .sub) [.varRef (.loc "a.0") .f64, .varRef (.loc "b.0") .f64] .f64))]
  params_nodup := by simp
  locals_nodup := by simp
  async := false
  generator := false
  captures := none
  tdz := []
  cached := false
  returnType := .f64
  paramTypes := [.f64, .f64]
  mutables := []

private def oneOrTwo : ArgRange := ⟨literal 1 one_le, literal 2 two_le⟩

theorem build_exact_difference :
    ∃ plan, build difference [oneOrTwo, oneOrTwo] = some plan ∧
      Exact floorPow bareModule difference [oneOrTwo, oneOrTwo] plan := by
  obtain ⟨plan, hp⟩ := isSome_iff_exists.mp
    (show (build difference [oneOrTwo, oneOrTwo]).isSome = true by decide +kernel)
  refine ⟨plan, hp, build_exact hp ⟨by decide +kernel, ?_⟩ floorPow bareModule⟩
  have ha : Resolves difference.params "a.0" := by decide +kernel
  have hb : Resolves difference.params "b.0" := by decide +kernel
  simp [difference, stmtsResolved, stmtResolved, Expr.All, Expr.nodes, nodeResolved] at ha hb ⊢
  exact ⟨ha, hb⟩

/-- `() => { const $ = 1; const _x24_ = 2; return $ - _x24_; }`. -/
private def clash : IrCallee where
  name := "clash"
  params := []
  locals := [⟨"$.0", .f64, false⟩, ⟨"_x24_.0", .f64, false⟩]
  body := [.varDecl "$.0" (some (.numLit (literal 1 one_le) none)),
    .varDecl "_x24_.0" (some (.numLit (literal 2 two_le) none)),
    .ret (some (.node (.bin .sub) [.varRef (.loc "$.0") .f64, .varRef (.loc "_x24_.0") .f64] .f64))]
  params_nodup := by simp
  locals_nodup := by simp
  async := false
  generator := false
  captures := none
  tdz := []
  cached := false
  returnType := .f64
  paramTypes := []
  mutables := []

private theorem clash_ends (s : State) :
    Ends floorPow bareModule clash.toIrFunction (.stmts clash.body) s fun o _ => o = .ret (some (.num (ofInt (-1)))) := by
  have h1 : IsSafe 1 := by decide
  have h2 : IsSafe 2 := by decide
  refine ends_cons (ends_decl (n := 1) (by rw [literal_eq]; exact gives_numLit)) ?_
  rintro _ rfl
  refine ends_cons (ends_decl (n := 2) (by rw [literal_eq]; exact gives_numLit)) ?_
  rintro _ rfl
  refine ends_abrupt (ends_ret ?_) (by rintro _ _ rfl; rfl)
  rw [show ofInt (-1) = jsBin floorPow .sub (ofInt 1) (ofInt 2) from (sub_ofInt h1 h2).symm]
  refine gives_bin rfl rfl rfl (gives_varRef ?_ trivial) (gives_varRef ?_ trivial) <;>
    simp [State.get, State.setLocal]

/-- The second constant hides the first one: the closure returns `0`, the body `-1`. -/
theorem not_build_exact : ¬ ∀ (fn : IrCallee) (args : List ArgRange) (plan : Plan), build fn args = some plan →
    Exact floorPow bareModule fn args plan := by
  intro h
  have hb : (build clash []).map (fun p => (p.call []).map (·.1)) = some (some 0) := by decide +kernel
  obtain ⟨plan, hp, hcall⟩ := map_eq_some_iff.mp hb
  obtain ⟨n, -, hends, seen, hc, -⟩ := h clash [] plan hp [] (fun _ => none) .undef (fun _ => ⟨.undef, 0⟩) (fun _ => none) .nil
  rw [hc] at hcall
  obtain rfl : n = 0 := by simpa using hcall
  obtain ⟨_, s', rfl, hrun⟩ := hends.1
  have he := ((clash_ends _).2 _ _ hrun).resolve_left (by simp)
  have he' : ofInt 0 = ofInt (-1) := by simpa using he
  exact absurd (ofInt_inj (by decide) (by decide) he') (by decide)

end Examples

end RustCalls
