import Scriptc.Ir.Semantics

/-!
# Tasks that end, and how

`Ends P M fn t s Q`: the task can be run from `s` to an end that `Q` allows, and no run of it
ends in another way. A total-correctness triple for the part of the language that cannot
loop, with one rule for each construct.
-/

namespace Ir

open F64

variable (P : PowApprox) (M : IrModule) (fn : IrFunction)

def Ends (t : Task) (s : State) (Q : Out → State → Prop) : Prop :=
  (∃ o s', Q o s' ∧ Run P M fn t s o s') ∧ ∀ o s', Run P M fn t s o s' → o = .cut ∨ Q o s'

/-- The expression leaves the state as it is and gives a value that `Q` allows. -/
def Gives (e : Expr) (s : State) (Q : Val → Prop) : Prop :=
  Ends P M fn (.expr e) s fun o s' => s' = s ∧ ∃ v, o = .vals [v] ∧ Q v

/-- So do expressions one after the other. -/
def GivesAll (es : List Expr) (s : State) (Q : List Val → Prop) : Prop :=
  Ends P M fn (.exprs es) s fun o s' => s' = s ∧ ∃ vs, o = .vals vs ∧ Q vs

variable {P M fn} {s : State}

theorem Ends.mono {t : Task} {Q Q' : Out → State → Prop} (h : Ends P M fn t s Q) (hQ : ∀ o s', Q o s' → Q' o s') :
    Ends P M fn t s Q' := by
  obtain ⟨⟨o, s', hq, hr⟩, hall⟩ := h
  exact ⟨⟨o, s', hQ o s' hq, hr⟩, fun o s' hr => (hall o s' hr).imp id (hQ o s')⟩

/-! ### Expressions -/

theorem gives_numLit {x : F64} {sp : Option String} : Gives P M fn (.numLit x sp) s (· = .num x) := by
  refine ⟨⟨_, s, ⟨rfl, _, rfl, rfl⟩, .numLit⟩, fun o s' h => ?_⟩
  cases h with
  | cut => exact Or.inl rfl
  | numLit => exact Or.inr ⟨rfl, _, rfl, rfl⟩

theorem gives_boolLit {b : Bool} : Gives P M fn (.boolLit b) s (· = .bool b) := by
  refine ⟨⟨_, s, ⟨rfl, _, rfl, rfl⟩, .boolLit⟩, fun o s' h => ?_⟩
  cases h with
  | cut => exact Or.inl rfl
  | boolLit => exact Or.inr ⟨rfl, _, rfl, rfl⟩

variable {ty : Ty}

theorem gives_varRef {id : Id} {v : Val} (hg : s.get id = some v) (ha : ty.Admits M v) :
    Gives P M fn (.varRef id ty) s (· = v) := by
  refine ⟨⟨_, s, ⟨rfl, _, rfl, rfl⟩, .varRef hg ha⟩, fun o s' h => ?_⟩
  cases h with
  | cut => exact Or.inl rfl
  | varRef hg' _ =>
    rw [hg] at hg'
    obtain rfl := Option.some.inj hg'
    exact Or.inr ⟨rfl, _, rfl, rfl⟩

theorem givesAll_nil : GivesAll P M fn [] s (· = []) := by
  refine ⟨⟨_, s, ⟨rfl, _, rfl, rfl⟩, .exprsNil⟩, fun o s' h => ?_⟩
  cases h with
  | cut => exact Or.inl rfl
  | exprsNil => exact Or.inr ⟨rfl, _, rfl, rfl⟩

variable {Qs : List Val → Prop} {Q : Val → Prop}

theorem givesAll_cons {e : Expr} {es : List Expr} (h : Gives P M fn e s Q)
    (hs : GivesAll P M fn es s Qs) : GivesAll P M fn (e :: es) s fun vs => ∃ v ws, vs = v :: ws ∧ Q v ∧ Qs ws := by
  obtain ⟨⟨_, _, ⟨rfl, v, rfl, hv⟩, hr⟩, hall⟩ := h
  obtain ⟨⟨_, _, ⟨rfl, ws, rfl, hws⟩, hrs⟩, halls⟩ := hs
  refine ⟨⟨_, _, ⟨rfl, _, rfl, v, ws, rfl, hv, hws⟩, .exprsCons hr hrs⟩, fun o s' h => ?_⟩
  cases h with
  | cut => exact Or.inl rfl
  | exprsCons h1 h2 =>
    obtain ⟨rfl, w, hw, hq⟩ := (hall _ _ h1).resolve_left (by simp)
    obtain ⟨rfl, us, hu, hqs⟩ := (halls _ _ h2).resolve_left (by simp)
    cases hw
    cases hu
    exact Or.inr ⟨rfl, _, rfl, _, _, rfl, hq, hqs⟩
  | exprsAbrupt h1 ho =>
    rcases hall _ _ h1 with rfl | ⟨-, w, rfl, -⟩
    · exact Or.inl rfl
    · cases ho
  | exprsLater h1 h2 ho =>
    obtain ⟨rfl, -⟩ := (hall _ _ h1).resolve_left (by simp)
    rcases halls _ _ h2 with rfl | ⟨-, w, rfl, -⟩
    · exact Or.inl rfl
    · cases ho

/-- The kinds that only compute a value from their operands. -/
def Kind.isPlain : Kind → Bool
  | .bin _ | .unary _ | .libCall (.math _) => true
  | _ => false

theorem gives_node {k : Kind} {args : List Expr}
    (hk : k.isPlain = true) (hs : GivesAll P M fn args s Qs)
    (happ : ∀ vs, Qs vs → (∃ v, Q v ∧ Apply P M s k (args.map Expr.ty) ty vs v s) ∧
      ∀ v s', Apply P M s k (args.map Expr.ty) ty vs v s' → s' = s ∧ Q v) : Gives P M fn (.node k args ty) s Q := by
  obtain ⟨⟨_, _, ⟨rfl, vs, rfl, hvs⟩, hr⟩, hall⟩ := hs
  obtain ⟨⟨v, hv, ha⟩, -⟩ := happ vs hvs
  refine ⟨⟨_, _, ⟨rfl, v, rfl, hv⟩, .node hr ha⟩, fun o s' h => ?_⟩
  have hop : k.isOpaque = false := by
    cases k with
    | libCall f => cases f <;> first | rfl | cases hk
    | bin | unary => rfl
    | _ => cases hk
  have hrc : ¬ k.RunsCode M (args.map Expr.ty) := by
    cases k with
    | libCall f => cases f <;> first | exact id | cases hk
    | bin | unary => exact id
    | _ => cases hk
  cases h with
  | cut => exact Or.inl rfl
  | node h1 h2 =>
    obtain ⟨rfl, ws, hw, hq⟩ := (hall _ _ h1).resolve_left (by simp)
    cases hw
    obtain ⟨rfl, hv⟩ := (happ _ hq).2 _ _ h2
    exact Or.inr ⟨rfl, _, rfl, hv⟩
  | nodeAbrupt h1 ho =>
    rcases hall _ _ h1 with rfl | ⟨-, w, rfl, -⟩
    · exact Or.inl rfl
    · cases ho
  | call | callSuspended | callAbrupt => cases hk
  | opaqueDone _ h2 | opaqueThrow _ h2 =>
    rw [hop] at h2
    cases h2
  | runsCode _ h2 | runsCodeAbrupt _ h2 => exact absurd h2 hrc

/-- A condition whose value is known leaves one branch. -/
theorem gives_ternary {c a d : Expr} {b : Bool} (hc : Gives P M fn c s fun v => v.truthy = b)
    (h : Gives P M fn (if b then a else d) s Q) : Gives P M fn (.ternary c a d ty) s Q := by
  obtain ⟨⟨_, _, ⟨rfl, v, rfl, rfl⟩, hr⟩, hall⟩ := hc
  obtain ⟨⟨o, s', hq, hr'⟩, hall'⟩ := h
  refine ⟨⟨o, s', hq, .ternary hr hr'⟩, fun o s' h => ?_⟩
  cases h with
  | cut => exact Or.inl rfl
  | ternary h1 h2 =>
    obtain ⟨rfl, w, hw, hb⟩ := (hall _ _ h1).resolve_left (by simp)
    cases hw
    rw [hb] at h2
    exact hall' _ _ h2
  | ternaryAbrupt h1 ho =>
    rcases hall _ _ h1 with rfl | ⟨-, w, rfl, -⟩
    · exact Or.inl rfl
    · cases ho

/-- `&&` and `||` on conditions. Which value carries the result is left open. -/
theorem gives_short {op : ShortOp} {l r : Expr} {x y : Bool} (hop : op = .and ∨ op = .or)
    (hl : Gives P M fn l s fun v => v.truthy = x) (hr : Gives P M fn r s fun v => v.truthy = y) :
    Gives P M fn (.short op l r ty) s fun v => v.truthy = if op = .and then x && y else x || y := by
  obtain ⟨⟨_, _, ⟨rfl, v, rfl, hv⟩, hrl⟩, halll⟩ := hl
  obtain ⟨⟨_, _, ⟨rfl, w, rfl, hw⟩, hrr⟩, hallr⟩ := hr
  have keeps : ∀ u : Val, u.truthy = x → op.keeps u = if op = .and then !x else x := by
    intro u hu
    rcases hop with rfl | rfl <;> simp [ShortOp.keeps, hu]
  constructor
  · by_cases hk : op.keeps v = true
    · refine ⟨_, _, ⟨rfl, v, rfl, ?_⟩, .shortLeft hrl hk ⟨rfl, rfl⟩ rfl⟩
      have := keeps v hv
      rcases hop with rfl | rfl <;> simp_all
    · refine ⟨_, _, ⟨rfl, w, rfl, ?_⟩, .shortRight hrl (by simpa using hk) hrr⟩
      have := keeps v hv
      rcases hop with rfl | rfl <;> simp_all
  · intro o s' h
    cases h with
    | cut => exact Or.inl rfl
    | shortLeft h1 hk hp ht =>
      obtain ⟨rfl, u, hu, hq⟩ := (halll _ _ h1).resolve_left (by simp)
      cases hu
      refine Or.inr ⟨rfl, _, rfl, ?_⟩
      have := keeps _ hq
      rcases hop with rfl | rfl <;> simp_all
    | shortRight h1 hk h2 =>
      obtain ⟨rfl, u, hu, hq⟩ := (halll _ _ h1).resolve_left (by simp)
      cases hu
      refine (hallr _ _ h2).imp id fun ⟨he, u', hu', hq'⟩ => ⟨he, u', hu', ?_⟩
      have := keeps _ hq
      rcases hop with rfl | rfl <;> simp_all
    | shortAbrupt h1 ho =>
      rcases halll _ _ h1 with rfl | ⟨-, w, rfl, -⟩
      · exact Or.inl rfl
      · cases ho

/-! ### Statements -/

theorem ends_nil : Ends P M fn (.stmts []) s fun o s' => o = .vals [] ∧ s' = s := by
  refine ⟨⟨_, s, ⟨rfl, rfl⟩, .stmtsNil⟩, fun o s' h => ?_⟩
  cases h with
  | cut => exact Or.inl rfl
  | stmtsNil => exact Or.inr ⟨rfl, rfl⟩

variable {Q : Out → State → Prop}

/-- A statement that completes, and the statements after it. -/
theorem ends_cons {st : Stmt} {ss : List Stmt} {R : State → Prop}
    (h : Ends P M fn (.stmt st) s fun o s' => o = .vals [] ∧ R s') (hs : ∀ s1, R s1 → Ends P M fn (.stmts ss) s1 Q) :
    Ends P M fn (.stmts (st :: ss)) s Q := by
  obtain ⟨⟨_, s1, ⟨rfl, hs1⟩, hr⟩, hall⟩ := h
  obtain ⟨⟨o, s', hq, hr'⟩, -⟩ := hs s1 hs1
  refine ⟨⟨o, s', hq, .stmtsCons hr hr'⟩, fun o s' h => ?_⟩
  cases h with
  | cut => exact Or.inl rfl
  | stmtsCons h1 h2 =>
    obtain ⟨-, hs2⟩ := (hall _ _ h1).resolve_left (by simp)
    exact (hs _ hs2).2 _ _ h2
  | stmtsAbrupt h1 ho =>
    rcases hall _ _ h1 with rfl | ⟨rfl, -⟩
    · exact Or.inl rfl
    · cases ho

/-- A statement that does not complete ends the list. -/
theorem ends_abrupt {st : Stmt} {ss : List Stmt} (h : Ends P M fn (.stmt st) s Q)
    (hQ : ∀ o s', Q o s' → o.abrupt = true) : Ends P M fn (.stmts (st :: ss)) s Q := by
  obtain ⟨⟨o, s1, hq, hr⟩, hall⟩ := h
  refine ⟨⟨o, s1, hq, .stmtsAbrupt hr (hQ o s1 hq)⟩, fun o s' h => ?_⟩
  cases h with
  | cut => exact Or.inl rfl
  | stmtsCons h1 h2 =>
    have := hQ _ _ ((hall _ _ h1).resolve_left (by simp))
    cases this
  | stmtsAbrupt h1 ho => exact hall _ _ h1

theorem ends_act {st : Stmt} {es : List Expr}
    (he : st.operands = some es) (hs : GivesAll P M fn es s Qs)
    (hact : ∀ vs, Qs vs → (∃ o s', Q o s' ∧ Act M s st vs o s') ∧ ∀ o s', Act M s st vs o s' → Q o s') :
    Ends P M fn (.stmt st) s Q := by
  obtain ⟨⟨_, _, ⟨rfl, vs, rfl, hvs⟩, hr⟩, hall⟩ := hs
  obtain ⟨⟨o, s1, hq, ha⟩, -⟩ := hact vs hvs
  refine ⟨⟨o, s1, hq, .act he hr ha⟩, fun o s' h => ?_⟩
  cases h with
  | cut => exact Or.inl rfl
  | act h1 h2 h3 =>
    rw [he] at h1
    obtain rfl := Option.some.inj h1
    obtain ⟨rfl, ws, hw, hq⟩ := (hall _ _ h2).resolve_left (by simp)
    cases hw
    exact Or.inr ((hact _ hq).2 _ _ h3)
  | actAbrupt h1 h2 ho =>
    rw [he] at h1
    obtain rfl := Option.some.inj h1
    rcases hall _ _ h2 with rfl | ⟨-, w, rfl, -⟩
    · exact Or.inl rfl
    · cases ho
  | _ => cases he

theorem ends_ifElse {c : Expr} {a : List Stmt} {els : Option (List Stmt)} {b : Bool}
    (hc : Gives P M fn c s fun v => v.truthy = b) (h : Ends P M fn (.stmts (if b then a else els.getD [])) s Q) :
    Ends P M fn (.stmt (.ifElse c a els)) s Q := by
  obtain ⟨⟨_, _, ⟨rfl, v, rfl, rfl⟩, hr⟩, hall⟩ := hc
  obtain ⟨⟨o, s', hq, hr'⟩, hall'⟩ := h
  refine ⟨⟨o, s', hq, .ifElse hr hr'⟩, fun o s' h => ?_⟩
  cases h with
  | cut => exact Or.inl rfl
  | ifElse h1 h2 =>
    obtain ⟨rfl, w, hw, hb⟩ := (hall _ _ h1).resolve_left (by simp)
    cases hw
    rw [hb] at h2
    exact hall' _ _ h2
  | ifAbrupt h1 ho =>
    rcases hall _ _ h1 with rfl | ⟨-, w, rfl, -⟩
    · exact Or.inl rfl
    · cases ho
  | act h1 => cases h1
  | actAbrupt h1 => cases h1

end Ir
