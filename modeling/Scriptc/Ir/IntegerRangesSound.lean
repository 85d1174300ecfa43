import Scriptc.Ir.Nodes
import Scriptc.Ir.Reach

/-!
# The integer-range analysis is sound

Whatever is reached in a run of the function is, in the list of the analysis' updates, either
forgotten with all that is in it, or visited with facts that hold in the state it is reached
in (`Seen`). An update is never lost: a later one only widens a range or makes it unknown
(`Covers`). So an expression with a range in the map was visited wherever it is reached, each
time with facts that hold, and its value lies in the range.
-/

namespace Ir

open IntInfer F64 IntegerRange List

attribute [elab_as_elim] rangeExpr.induct

/-! ### The map keeps what it is told -/

/-- The entry is at least as cautious as the range. -/
def Covers : Option (Option IntegerRange) → Option IntegerRange → Prop
  | none, _ => False
  | some none, _ => True
  | some (some _), none => False
  | some (some r), some a => a.Within r

theorem covers_self (range : Option IntegerRange) : Covers (some range) range := by
  cases range with
  | none => trivial
  | some a => exact Within.refl a

theorem covers_mergeKnown {previous range a : Option IntegerRange} (h : Covers (some previous) a ∨ Covers (some range) a) :
    Covers (some (mergeKnown previous range)) a := by
  cases previous with
  | none => trivial
  | some x =>
    cases range with
    | none => trivial
    | some y =>
      cases a with
      | none => exact h.elim id id
      | some a => exact h.elim (·.trans (within_merge_left x y)) (·.trans (within_merge_right x y))

section Map

variable {α : Type*} [DecidableEq α] (ident : Path → α)

/-- What an update says of its own place. -/
def Update.Met (R : IntegerRanges α) : Update → Prop
  | .remember p range => Covers (R (ident p)) range
  | .forget p => Covers (R (ident p)) none

theorem Update.apply_met (R : IntegerRanges α) (u : Update) : u.Met ident (u.apply ident R) := by
  cases u with
  | forget p => simp [Met, apply, Covers]
  | remember p range =>
    simp only [Met, apply, Function.update_self]
    cases R (ident p) with
    | none => exact covers_self range
    | some previous => exact covers_mergeKnown (Or.inr (covers_self range))

variable {R : IntegerRanges α}

theorem Update.apply_covers {k : α} {a : Option IntegerRange} (h : Covers (R k) a) (u : Update) :
    Covers (u.apply ident R k) a := by
  cases u with
  | forget p =>
    by_cases hk : k = ident p
    · simp [apply, hk, Covers]
    · simpa [apply, hk] using h
  | remember p range =>
    by_cases hk : k = ident p
    · subst hk
      simp only [apply, Function.update_self]
      cases hR : R (ident p) with
      | none => simp [hR, Covers] at h
      | some previous => exact covers_mergeKnown (Or.inl (by rwa [hR] at h))
    · simpa [apply, hk] using h

theorem Update.apply_keeps {u : Update} (h : u.Met ident R) (w : Update) :
    u.Met ident (w.apply ident R) := by
  cases u with
  | remember p range => exact apply_covers ident h w
  | forget p => exact apply_covers ident h w

theorem foldl_keeps {u : Update} (L : List Update) (h : u.Met ident R) :
    u.Met ident (L.foldl (Update.apply ident) R) := by
  induction L generalizing R with
  | nil => exact h
  | cons w L ih => exact ih (Update.apply_keeps ident h w)

/-- Every update is met by the map at the end. -/
theorem applyAll_met {u : Update} {L : List Update} (h : u ∈ L) : u.Met ident (applyAll ident L) := by
  unfold applyAll
  generalize (fun _ : α => (none : Option (Option IntegerRange))) = R
  induction L generalizing R with
  | nil => cases h
  | cons w L ih =>
    rcases mem_cons.mp h with rfl | h
    · exact foldl_keeps ident L (Update.apply_met ident R u)
    · exact ih h _

end Map

/-! ### Evaluating an expression -/

variable {P : PowApprox} {M : IrModule} {fn : IrFunction} {s s' : State}

/-- Every fact is true of the state. -/
def Facts.Hold (F : Facts) (s : State) : Prop := ∀ id r, F id = some r → ∃ x, s.get id = some (.num x) ∧ r.Holds x

theorem Facts.clear_hold (s : State) : Facts.clear.Hold s := fun _ _ h => by cases h

/-- The range is true of the value. -/
def RangeOf (range : Option IntegerRange) (v : Val) : Prop := ∀ r, range = some r → ∃ x, v = .num x ∧ r.Holds x

variable {op : IrNumBinOp}

theorem binRange_rangeOf {ty : Ty} {a b : Option IntegerRange} {x y : F64} (ha : RangeOf a (.num x))
    (hb : RangeOf b (.num y)) : op.isArith = true → RangeOf (binRange op ty a b) (.num (jsBin P op x y)) := by
  intro hop r hr
  refine ⟨_, rfl, ?_⟩
  unfold binRange at hr
  split_ifs at hr with h1 h2 h3
  · obtain rfl := Option.some.inj hr
    rw [h2]
    exact unsigned_holds_bin P x y
  · obtain rfl := Option.some.inj hr
    exact signed_holds_bin P h3 x y
  · split at hr
    · rename_i ra rb
      obtain ⟨_, e1, hx⟩ := ha ra rfl
      obtain ⟨_, e2, hy⟩ := hb rb rfl
      cases e1
      cases e2
      exact sum_holds hr hx hy
    · rename_i ra rb
      obtain ⟨_, e1, hx⟩ := ha ra rfl
      obtain ⟨_, e2, hy⟩ := hb rb rfl
      cases e1
      cases e2
      exact diff_holds hr hx hy
    · cases hr

theorem binRange_cmp (hop : op.isArith = false) (ty : Ty) (a b : Option IntegerRange) :
    binRange op ty a b = none := by
  unfold binRange
  cases op with
  | lt | le | gt | ge | eq | ne => simp [isSignedOp]
  | _ => cases hop

attribute [local simp] rangeExpr rangeStmt rangeStmts rangeCases Expr.places exprsPlaces Stmt.places stmtsPlaces casesPlaces
  optExprPlaces optStmtPlaces

/-- An evaluated expression keeps the facts true, and its value is in its range. -/
theorem rangeExpr_sound (e : Expr) (p : Path) (F : Facts) {v : Val} (hF : F.Hold s)
    (h : Run P M fn (.expr e) s (.vals [v]) s') :
    (rangeExpr e p F).facts.Hold s' ∧ RangeOf (rangeExpr e p F).range v := by
  induction e, p, F using rangeExpr.induct generalizing s s' v with
  | case1 x sp p F =>
    cases h
    exact ⟨hF, fun r hr => ⟨x, rfl, integerLiteral_holds hr⟩⟩
  | case2 id ty p F =>
    cases h with
    | varRef hg _ =>
      refine ⟨hF, fun r hr => ?_⟩
      obtain ⟨x, hx, hr⟩ := hF id r hr
      rw [hg] at hx
      exact ⟨x, Option.some.inj hx, hr⟩
  | case3 op l r ty p F _ ihl =>
    rename_i ihr
    obtain ⟨x, y, s1, h1, h2, ha⟩ := h.bin_inv
    obtain ⟨hF1, hx⟩ := ihl hF h1
    obtain ⟨hF2, hy⟩ := ihr hF1 h2
    refine ⟨hF2, ?_⟩
    rcases ha.bin_inv.2 with ⟨hop, x, y, hv, rfl⟩ | ⟨hop, -⟩
    · cases hv
      exact binRange_rangeOf hx hy hop
    · intro t ht
      simp only [rangeExpr] at ht
      rw [binRange_cmp hop] at ht
      cases ht
  | case4 op e ty p F ih =>
    obtain ⟨x, h1, ha⟩ := h.unary_inv
    obtain ⟨hF1, -⟩ := ih hF h1
    refine ⟨hF1, fun t ht => ?_⟩
    have hv := ha.unary_inv.2
    cases op with
    | bitNot =>
      obtain ⟨y, -, rfl⟩ := hv
      simp only [rangeExpr, if_true] at ht
      obtain rfl := Option.some.inj ht
      exact ⟨_, rfl, signed_holds _⟩
    | neg | not => simp at ht
  | case5 e p F h1 h2 h3 h4 =>
    rw [rangeExpr.eq_5 e p F h1 h2 h3 h4]
    exact ⟨Facts.clear_hold s', fun t ht => by cases ht⟩

/-! ### What is reached was visited -/

/-- The expressions side by side, visited in order. -/
def rangeExprs : List Expr → Path → Nat → Facts → List Update
  | [], _, _, _ => []
  | e :: es, p, i, F => (rangeExpr e (i :: p) F).updates ++ rangeExprs es p (i + 1) (rangeExpr e (i :: p) F).facts

section Seen

variable (L : List Update) (eligible : Id → Bool)

def Forgotten (qs : List Path) : Prop := forgetAll qs ⊆ L

/-- A statement list was visited without facts, or forgotten. -/
def BodySeen (p : Path) (ss : List Stmt) : Prop :=
  rangeStmts eligible ss p 0 .clear ⊆ L ∨ Forgotten L (stmtsPlaces ss p 0)

def CasesSeen (p : Path) (i : Nat) (cs : List SwitchCase) : Prop :=
  rangeCases eligible cs p i ⊆ L ∨ Forgotten L (casesPlaces cs p i)

/-- The updates hold a visit of the task with facts that are true of the state, or forget
everything in it. Of a statement with bodies, they hold what its parts ask for. -/
def Seen (p : Path) (i : Nat) : Task → State → Prop
  | .expr e, s => (∃ F : Facts, F.Hold s ∧ (rangeExpr e p F).updates ⊆ L) ∨ Forgotten L (e.places p)
  | .exprs es, s => (∃ F : Facts, F.Hold s ∧ rangeExprs es p i F ⊆ L) ∨ Forgotten L (exprsPlaces es p i)
  | .stmt st, s => (∃ F : Facts, F.Hold s ∧ (rangeStmt eligible st p F).2 ⊆ L) ∨ Forgotten L (st.places p)
  | .stmts ss, s => (∃ F : Facts, F.Hold s ∧ rangeStmts eligible ss p i F ⊆ L) ∨ Forgotten L (stmtsPlaces ss p i)
  | .loop o, _ | .iter o, _ | .latch o, _ =>
    Forgotten L (optExprPlaces o.cond (0 :: p)) ∧ Forgotten L (optStmtPlaces o.update (2 :: p)) ∧
      BodySeen L eligible (1 :: p) o.body
  | .tests _ cs, _ | .fall cs, _ => CasesSeen L eligible p i cs
  | .guarded t c _, _ => BodySeen L eligible (0 :: p) t ∧ ∀ b, c = some b → BodySeen L eligible (1 :: p) b
  | .invoke _ _, _ | .user _, _ => True

end Seen

variable {L : List Update} {eligible : Id → Bool} {p : Path} {i : Nat}

@[simp] theorem forgotten_nil : Forgotten L [] := by simp [Forgotten, forgetAll]

@[simp] theorem forgotten_cons {q : Path} {qs : List Path} :
    Forgotten L (q :: qs) ↔ Update.forget q ∈ L ∧ Forgotten L qs := by
  simp [Forgotten, forgetAll]

@[simp] theorem forgotten_append {qs qs' : List Path} :
    Forgotten L (qs ++ qs') ↔ Forgotten L qs ∧ Forgotten L qs' := by
  simp [Forgotten, forgetAll]

@[simp] theorem forgetAll_subset {qs : List Path} : forgetAll qs ⊆ L ↔ Forgotten L qs := Iff.rfl

theorem self_mem_places (e : Expr) (p : Path) : p ∈ e.places p := by
  cases e <;> simp

theorem BodySeen.seen {ss : List Stmt} (h : BodySeen L eligible p ss) (s : State) :
    Seen L eligible p 0 (.stmts ss) s :=
  h.imp (fun h => ⟨.clear, Facts.clear_hold s, h⟩) id

theorem BodySeen.of_none {ss : Option (List Stmt)}
    (h : rangeOptStmts eligible ss p ⊆ L ∨ Forgotten L (optStmtsPlaces ss p)) : BodySeen L eligible p (ss.getD []) := by
  cases ss with
  | none => exact Or.inl (nil_subset _)
  | some ss => exact h

variable {s : State}

/-- An expression of a kind that the analysis does not look into is forgotten. -/
theorem Seen.unvisited {e : Expr} (h : Seen L eligible p i (.expr e) s) (h1 : ∀ x sp, e ≠ .numLit x sp)
    (h2 : ∀ id ty, e ≠ .varRef id ty) (h3 : ∀ k args ty, e ≠ .node k args ty) : Forgotten L (e.places p) := by
  rcases h with ⟨F, -, h⟩ | h
  · rw [rangeExpr.eq_5 e p F (fun x sp he => h1 x sp he) (fun id ty he => h2 id ty he)
      (fun _ _ _ _ he => h3 _ _ _ he) (fun _ _ _ he => h3 _ _ _ he)] at h
    exact h
  · exact h

/-- The operands of a node. -/
theorem Seen.args {k : Kind} {es : List Expr} {ty : Ty} (h : Seen L eligible p i (.expr (.node k es ty)) s) :
    Seen L eligible p 0 (.exprs es) s := by
  rcases h with ⟨F, hF, h⟩ | h
  · generalize he : Expr.node k es ty = e at h
    induction e, p, F using rangeExpr.induct with
    | case1 | case2 => cases he
    | case3 op l r ty' p F _ _ =>
      cases he
      simp only [rangeExpr, append_subset] at h
      exact Or.inl ⟨F, hF, by simpa [rangeExprs] using h.1⟩
    | case4 op e ty' p F _ =>
      cases he
      simp only [rangeExpr, append_subset] at h
      exact Or.inl ⟨F, hF, by simpa [rangeExprs] using h.1⟩
    | case5 e p F h1 h2 h3 h4 =>
      rw [rangeExpr.eq_5 e p F h1 h2 h3 h4] at h
      subst he
      simp only [Expr.places, forgetAll_subset, forgotten_cons] at h
      exact Or.inr h.2
  · simp only [Expr.places, forgotten_cons] at h
    exact Or.inr h.2

/-- The facts after a write are true after it. -/
theorem Facts.Hold.write {F : Facts} (hF : F.Hold s) {id : Id} {range : Option IntegerRange} {v : Val}
    (hv : RangeOf range v) : (F.write eligible id range).Hold (s.set id v) := by
  intro k r hr
  by_cases hk : k = id
  · subst hk
    have hr : range = some r := by
      simp only [Facts.write, Function.update_self] at hr
      split at hr
      · exact hr
      · cases hr
    obtain ⟨x, rfl, hx⟩ := hv r hr
    exact ⟨x, by cases k <;> simp [State.get, State.set, State.setLocal], hx⟩
  · have hr : F k = some r := by simpa [Facts.write, hk] using hr
    obtain ⟨x, hx, hr⟩ := hF k r hr
    refine ⟨x, ?_, hr⟩
    rw [← hx]
    cases k <;> cases id <;> simp_all [State.get, State.set, State.setLocal]

theorem Facts.Hold.declare {F : Facts} (hF : F.Hold s) (x : String) :
    (F.write eligible (.loc x) none).Hold (s.setLocal x none) := by
  intro k r hr
  by_cases hk : k = .loc x
  · subst hk
    simp [Facts.write] at hr
  · have hr : F k = some r := by simpa [Facts.write, hk] using hr
    obtain ⟨y, hy, hr⟩ := hF k r hr
    refine ⟨y, ?_, hr⟩
    rw [← hy]
    cases k <;> simp_all [State.get, State.setLocal]

/-- A statement that completes leaves facts that are true. -/
theorem rangeStmt_sound {st : Stmt} {F : Facts} (hF : F.Hold s) (h : Run P M fn (.stmt st) s (.vals []) s') :
    (rangeStmt eligible st p F).1.Hold s' := by
  cases st with
  | varDecl x init =>
    cases init with
    | none =>
      obtain ⟨vs, s1, h1, ha⟩ := h.act_inv rfl rfl
      cases ha
      cases h1
      exact hF.declare x
    | some e =>
      obtain ⟨v, s1, h1, ha⟩ := h.act_one rfl rfl
      cases ha
      obtain ⟨hF', hv⟩ := rangeExpr_sound e (0 :: p) F hF h1
      exact hF'.write hv
  | assign id e =>
    obtain ⟨v, s1, h1, ha⟩ := h.act_one rfl rfl
    cases ha
    obtain ⟨hF', hv⟩ := rangeExpr_sound e (0 :: p) F hF h1
    exact hF'.write hv
  | exprStmt e =>
    obtain ⟨v, s1, h1, ha⟩ := h.act_one rfl rfl
    cases ha
    exact (rangeExpr_sound e (0 :: p) F hF h1).1
  | ret v => cases v <;> exact Facts.clear_hold s'
  | _ => exact Facts.clear_hold s'

/-- The operands of a statement that evaluates them and acts. -/
theorem Seen.operands {st : Stmt} {es : List Expr} (he : st.operands = some es)
    (h : Seen L eligible p i (.stmt st) s) : Seen L eligible p 0 (.exprs es) s := by
  cases st with
  | varDecl x init =>
    cases init with
    | none =>
      cases he
      exact Or.inl ⟨.clear, Facts.clear_hold s, nil_subset _⟩
    | some e =>
      cases he
      rcases h with ⟨F, hF, h⟩ | h
      · exact Or.inl ⟨F, hF, by simpa [rangeExprs] using h⟩
      · simp only [Stmt.places, optExprPlaces, forgotten_cons] at h
        exact Or.inr (by simpa using h.2)
  | ret v =>
    cases v with
    | none =>
      cases he
      exact Or.inl ⟨.clear, Facts.clear_hold s, nil_subset _⟩
    | some e =>
      cases he
      rcases h with ⟨F, hF, h⟩ | h
      · exact Or.inl ⟨F, hF, by simpa [rangeExprs] using h⟩
      · simp only [Stmt.places, optExprPlaces, forgotten_cons] at h
        exact Or.inr (by simpa using h.2)
  | assign | exprStmt =>
    cases he
    rcases h with ⟨F, hF, h⟩ | h
    · exact Or.inl ⟨F, hF, by simpa [rangeExprs] using h⟩
    · simp only [Stmt.places, forgotten_cons] at h
      exact Or.inr (by simpa using h.2)
  | heapWrite | recordSet | recordKeySet | recordKeyDelete | throwStmt =>
    cases he
    refine Or.inr ?_
    rcases h with ⟨F, -, h⟩ | h
    · simpa using h
    · simp only [Stmt.places, forgotten_cons] at h
      simpa using h.2
  | rethrow | runtimeFence | breakStmt | continueStmt =>
    cases he
    exact Or.inl ⟨.clear, Facts.clear_hold s, nil_subset _⟩
  | _ => cases he

variable {cs : List SwitchCase} {b : List Stmt} {t : Option Expr}

theorem CasesSeen.tail
    (h : CasesSeen L eligible p i (.mk t b :: cs)) : CasesSeen L eligible p (i + 1) cs := by
  refine h.imp (fun h => ?_) fun h => ?_
  · simp only [rangeCases, append_subset] at h
    exact h.2.2
  · simp only [casesPlaces, forgotten_append] at h
    exact h.2.2

theorem CasesSeen.test
    (h : CasesSeen L eligible p i (.mk t b :: cs)) : Forgotten L (optExprPlaces t (0 :: i :: p)) := by
  rcases h with h | h
  · simp only [rangeCases, append_subset] at h
    exact h.1
  · simp only [casesPlaces, forgotten_append] at h
    exact h.1

theorem CasesSeen.body
    (h : CasesSeen L eligible p i (.mk t b :: cs)) : BodySeen L eligible (1 :: i :: p) b := by
  refine h.imp (fun h => ?_) fun h => ?_
  · simp only [rangeCases, append_subset] at h
    exact h.2.1
  · simp only [casesPlaces, forgotten_append] at h
    exact h.2.1

theorem CasesSeen.drop (h : CasesSeen L eligible p i cs) (k : ℕ) :
    CasesSeen L eligible p (i + k) (cs.drop k) := by
  induction k generalizing i cs with
  | zero => exact h
  | succ k ih =>
    cases cs with
    | nil => exact Or.inl (nil_subset _)
    | cons c cs =>
      obtain ⟨t, b⟩ := c
      rw [← Nat.add_assoc, Nat.add_right_comm]
      exact ih h.tail

/-- The parts of an expression the analysis does not look into are forgotten with it. -/
theorem Seen.ternary {c a b : Expr} {ty : Ty} (h : Seen L eligible p i (.expr (.ternary c a b ty)) s) :
    Forgotten L (c.places (0 :: p)) ∧ Forgotten L (a.places (1 :: p)) ∧ Forgotten L (b.places (2 :: p)) := by
  have hall := h.unvisited (by simp) (by simp) (by simp)
  simp only [Expr.places, forgotten_cons, forgotten_append] at hall
  exact hall.2

/-- The bodies of a control-flow statement start without facts, its other parts are forgotten. -/
theorem Seen.ifElse {c : Expr} {a : List Stmt} {b : Option (List Stmt)} (h : Seen L eligible p i (.stmt (.ifElse c a b)) s) :
    Forgotten L (c.places (0 :: p)) ∧ BodySeen L eligible (1 :: p) a ∧ BodySeen L eligible (2 :: p) (b.getD []) := by
  rcases h with ⟨F, -, h⟩ | h
  · simp only [rangeStmt, append_subset, forgetAll_subset] at h
    exact ⟨h.1, .inl h.2.1, .of_none (.inl h.2.2)⟩
  · simp only [Stmt.places, forgotten_cons, forgotten_append] at h
    exact ⟨h.2.1, .inr h.2.2.1, .of_none (.inr h.2.2.2)⟩

variable {l : List String}

theorem Seen.forStmt {init update : Option Stmt} {c : Option Expr}
    (h : Seen L eligible p i (.stmt (.forStmt init c update b l)) s) :
    Forgotten L (optStmtPlaces init (0 :: 3 :: p)) ∧ Forgotten L (optExprPlaces c (0 :: p)) ∧
      Forgotten L (optStmtPlaces update (2 :: p)) ∧ BodySeen L eligible (1 :: p) b := by
  rcases h with ⟨F, -, h⟩ | h
  · simp only [rangeStmt, append_subset, forgetAll_subset] at h
    exact ⟨h.1, h.2.1, h.2.2.1, .inl h.2.2.2⟩
  · simp only [Stmt.places, forgotten_cons, forgotten_append] at h
    exact ⟨h.2.1, h.2.2.1, h.2.2.2.1, .inr h.2.2.2.2⟩

theorem Seen.forOf {x : String} {e : Expr} (h : Seen L eligible p i (.stmt (.forOf x e b l)) s) :
    Forgotten L (e.places (3 :: p)) ∧ BodySeen L eligible (1 :: p) b := by
  rcases h with ⟨F, -, h⟩ | h
  · simp only [rangeStmt, append_subset, forgetAll_subset] at h
    exact ⟨h.1, .inl h.2⟩
  · simp only [Stmt.places, forgotten_cons, forgotten_append] at h
    exact ⟨h.2.1, .inr h.2.2⟩

theorem Seen.switch {d : Expr} (h : Seen L eligible p i (.stmt (.switch d cs l)) s) :
    Forgotten L (d.places (0 :: p)) ∧ CasesSeen L eligible (1 :: p) 0 cs := by
  rcases h with ⟨F, -, h⟩ | h
  · simp only [rangeStmt, append_subset, forgetAll_subset] at h
    exact ⟨h.1, .inl h.2⟩
  · simp only [Stmt.places, forgotten_cons, forgotten_append] at h
    exact ⟨h.2.1, .inr h.2.2⟩

/-- Whatever is reached was visited with facts that hold, or is forgotten. -/
theorem Reach.seen {s₀ : State} {t : Task} (hL : rangeStmts eligible fn.body [] 0 .clear ⊆ L)
    (h : Reach P M fn s₀ p i t s) : Seen L eligible p i t s := by
  induction h with
  | body => exact Or.inl ⟨.clear, Facts.clear_hold s₀, hL⟩
  | assigned _ ih =>
    have := ih.unvisited (by simp) (by simp) (by simp)
    simp only [Expr.places, forgotten_cons] at this
    exact Or.inr this.2
  | ternaryCond _ ih => exact Or.inr ih.ternary.1
  | ternaryThen _ _ _ ih => exact Or.inr ih.ternary.2.1
  | ternaryElse _ _ _ ih => exact Or.inr ih.ternary.2.2
  | shortLeft _ ih | receiver _ ih | seqStmts _ ih =>
    have := ih.unvisited (by simp) (by simp) (by simp)
    simp only [Expr.places, forgotten_cons, forgotten_append] at this
    exact Or.inr this.2.1
  | shortRight _ _ _ ih | chained _ _ _ ih | seqResult _ _ ih =>
    have := ih.unvisited (by simp) (by simp) (by simp)
    simp only [Expr.places, forgotten_cons, forgotten_append] at this
    exact Or.inr this.2.2
  | args _ ih => exact ih.args
  | exprsHead _ ih =>
    rcases ih with ⟨F, hF, h⟩ | h
    · simp only [rangeExprs, append_subset] at h
      exact Or.inl ⟨F, hF, h.1⟩
    · simp only [exprsPlaces, forgotten_append] at h
      exact Or.inr h.1
  | exprsTail _ hr ih =>
    rcases ih with ⟨F, hF, h⟩ | h
    · simp only [rangeExprs, append_subset] at h
      exact Or.inl ⟨_, (rangeExpr_sound _ _ F hF hr).1, h.2⟩
    · simp only [exprsPlaces, forgotten_append] at h
      exact Or.inr h.2
  | stmtsHead _ ih =>
    rcases ih with ⟨F, hF, h⟩ | h
    · simp only [rangeStmts, append_subset] at h
      exact Or.inl ⟨F, hF, h.1⟩
    · simp only [stmtsPlaces, forgotten_append] at h
      exact Or.inr h.1
  | stmtsTail _ hr ih =>
    rcases ih with ⟨F, hF, h⟩ | h
    · simp only [rangeStmts, append_subset] at h
      exact Or.inl ⟨_, rangeStmt_sound hF hr, h.2⟩
    · simp only [stmtsPlaces, forgotten_append] at h
      exact Or.inr h.2
  | operands _ he ih => exact ih.operands he
  | ifCond _ ih => exact Or.inr ih.ifElse.1
  | ifThen _ _ _ ih => exact ih.ifElse.2.1.seen _
  | ifElse _ _ _ ih => exact ih.ifElse.2.2.seen _
  | whileStmt _ ih =>
    rcases ih with ⟨F, -, h⟩ | h
    · simp only [rangeStmt, append_subset, forgetAll_subset] at h
      exact ⟨h.1, forgotten_nil, Or.inl h.2⟩
    · simp only [Stmt.places, forgotten_cons, forgotten_append] at h
      exact ⟨h.2.1, forgotten_nil, Or.inr h.2.2⟩
  | doWhile _ ih =>
    rcases ih with ⟨F, -, h⟩ | h
    · simp only [rangeStmt, append_subset, forgetAll_subset] at h
      exact ⟨h.2, forgotten_nil, Or.inl h.1⟩
    · simp only [Stmt.places, forgotten_cons, forgotten_append] at h
      exact ⟨h.2.1, forgotten_nil, Or.inr h.2.2⟩
  | @forInit q _ st _ _ _ _ _ _ ih =>
    have h : Forgotten L (optStmtPlaces st (0 :: 3 :: q)) := ih.forStmt.1
    cases st with
    | none => exact Or.inr forgotten_nil
    | some st => exact Or.inr (by simpa [stmtsPlaces, optStmtPlaces] using h)
  | forStmt _ _ ih => exact ih.forStmt.2
  | iterable _ ih => exact Or.inr ih.forOf.1
  | forOf _ _ ih => exact ⟨forgotten_nil, forgotten_nil, ih.forOf.2⟩
  | block _ ih =>
    refine BodySeen.seen ?_ _
    rcases ih with ⟨F, -, h⟩ | h
    · exact Or.inl h
    · simp only [Stmt.places, forgotten_cons] at h
      exact Or.inr h.2
  | disc _ ih => exact Or.inr ih.switch.1
  | tests _ _ ih => exact ih.switch.2
  | @default q _ _ cs _ _ k _ _ _ _ _ _ _ ih =>
    have := ih.switch.2.drop k
    rwa [Nat.zero_add] at this
  | guarded _ ih =>
    rcases ih with ⟨F, -, h⟩ | h
    · simp only [rangeStmt, append_subset] at h
      refine ⟨Or.inl h.1, ?_⟩
      rintro b rfl
      exact Or.inl h.2.1
    · simp only [Stmt.places, forgotten_cons, forgotten_append] at h
      refine ⟨Or.inr h.2.1, ?_⟩
      rintro b rfl
      exact Or.inr h.2.2.1
  | finallyBody _ _ _ ih =>
    refine BodySeen.seen ?_ _
    rcases ih with ⟨F, -, h⟩ | h
    · simp only [rangeStmt, append_subset] at h
      exact Or.inl h.2.2
    · simp only [Stmt.places, forgotten_cons, forgotten_append] at h
      exact Or.inr h.2.2.2
  | tryBody _ ih => exact ih.1.seen _
  | catchBody _ _ ih => exact (ih.2 _ rfl).seen _
  | testsDefault _ ih | testsNext _ _ _ ih => exact CasesSeen.tail ih
  | test _ ih => exact Or.inr (CasesSeen.test ih)
  | testsHit _ _ _ ih => exact ih
  | @fallHead _ _ c _ _ _ ih =>
    obtain ⟨t, b⟩ := c
    exact (CasesSeen.body ih).seen _
  | @fallTail _ _ c _ _ _ _ _ ih =>
    obtain ⟨t, b⟩ := c
    exact CasesSeen.tail ih
  | loopElem _ _ ih | loopEnter _ _ _ ih | loopTrue _ _ _ _ _ _ ih | iterNext _ _ _ ih | latchNext _ _ _ ih
  | latchUpdate _ _ _ _ ih | latchTrue _ _ _ _ _ _ ih => exact ih
  | loopCond _ _ _ hc ih | latchCond _ _ _ hc ih => exact Or.inr (by simpa [hc, optExprPlaces] using ih.1)
  | iterBody _ ih => exact ih.2.2.seen _
  | update _ _ hu ih => exact Or.inr (by simpa [hu, optStmtPlaces] using ih.2.1)

/-- A visited expression updates its own place, with its range or to say that nothing is known. -/
theorem rangeExpr_self (e : Expr) (p : Path) (F : Facts) :
    Update.remember p (rangeExpr e p F).range ∈ (rangeExpr e p F).updates ∨
      Update.forget p ∈ (rangeExpr e p F).updates := by
  induction e, p, F using rangeExpr.induct with
  | case1 | case2 | case3 | case4 => exact Or.inl (by simp [rangeExpr])
  | case5 e p F h1 h2 h3 h4 =>
    rw [rangeExpr.eq_5 e p F h1 h2 h3 h4]
    exact Or.inr (mem_map_of_mem (self_mem_places e p))

/-- **The integer-range analysis is sound.** Each time an expression with a range in the map is
evaluated, in any run of the function, its value is an integer in the range that f64 holds
exactly, and not `-0`. -/
theorem analyzeIntegerRanges_sound {α : Type*} [DecidableEq α] (fn : IrFunctionHeader) (ident : Path → α) (s₀ : State)
    {e : Expr} {v : Val} {r : IntegerRange} (hr : analyzeIntegerRanges fn ident (ident p) = some (some r))
    (he : Evaluates P M fn.toIrFunction s₀ p e v) :
    ∃ n : ℤ, v = .num (ofInt n) ∧ r.min ≤ n ∧ n ≤ r.max ∧ IsSafe n := by
  obtain ⟨i, s, s', hreach, hrun⟩ := he
  unfold analyzeIntegerRanges at hr
  split_ifs at hr
  have known : ∀ range, Covers (applyAll ident (rangeStmts fn.eligible fn.body [] 0 .clear) (ident p)) range →
      ∃ a, range = some a ∧ a.Within r := by
    intro range hc
    rw [hr] at hc
    cases range with
    | none => exact hc.elim
    | some a => exact ⟨a, rfl, hc⟩
  rcases hreach.seen (List.Subset.refl _) with ⟨F, hF, hL⟩ | hL
  · rcases rangeExpr_self e p F with hu | hu
    · obtain ⟨a, ha, hw⟩ := known _ (applyAll_met ident (hL hu))
      obtain ⟨x, rfl, n, hn, rfl⟩ := (rangeExpr_sound e p F hF hrun).2 a ha
      exact ⟨n, rfl, (hw.has hn).1, (hw.has hn).2, hn.isSafe⟩
    · obtain ⟨a, ha, -⟩ := known none (applyAll_met ident (hL hu))
      cases ha
  · have hu : Update.forget p ∈ rangeStmts fn.eligible fn.body [] 0 .clear :=
      hL (mem_map_of_mem (self_mem_places e p))
    obtain ⟨a, ha, -⟩ := known none (applyAll_met ident hu)
    cases ha

/-! `const x = 0 | 0; return x + x`: the sum of two 32-bit integers. -/

private def orZero : Expr := .node (.bin .bitOr) [.numLit zero none, .numLit zero none] .f64

private def sumOfTwo : Expr := .node (.bin .add) [.varRef (.loc "x") .f64, .varRef (.loc "x") .f64] .f64

private def doubled : IrFunctionHeader where
  name := "doubled"
  params := []
  locals := [⟨"x", .f64, false⟩]
  body := [.varDecl "x" (some orZero), .ret (some sumOfTwo)]
  params_nodup := nodup_nil
  locals_nodup := nodup_singleton _
  async := false
  generator := false
  captures := none
  tdz := []

private def emptyModule : IrModule where
  functions := []
  unions := []
  records := []
  globals := []
  members := []
  names_nodup := nodup_nil

private def emptyState : State := ⟨fun _ => none, .undef, fun _ => ⟨.undef, 0⟩, fun _ => none⟩

/-- Both operands, and the operator on them. -/
private theorem run_bin (hop : op.isArith = true) {l r : Expr} (hl : l.ty = .f64) (hr : r.ty = .f64)
    {x y : F64} (h1 : Run P M fn (.expr l) s (.vals [.num x]) s) (h2 : Run P M fn (.expr r) s (.vals [.num y]) s) :
    Run P M fn (.expr (.node (.bin op) [l, r] .f64)) s (.vals [.num (jsBin P op x y)]) s := by
  refine .node (.exprsCons h1 (.exprsCons h2 .exprsNil)) ?_
  simp only [List.map, hl, hr]
  exact .arith hop

theorem analyzeIntegerRanges_doubled :
    ∃ n : ℤ, Val.num (add (bitOr zero zero) (bitOr zero zero)) = .num (ofInt n) ∧ -4294967296 ≤ n ∧ n ≤ 4294967294 ∧
      IsSafe n := by
  have hx : Run floorPow emptyModule doubled.toIrFunction (.stmt (.varDecl "x" (some orZero))) emptyState (.vals [])
      (emptyState.setLocal "x" (some (.num (bitOr zero zero)))) :=
    .act rfl (.exprsCons (run_bin rfl rfl rfl .numLit .numLit) .exprsNil) .init
  have hv : Run floorPow emptyModule doubled.toIrFunction (.expr (.varRef (.loc "x") .f64))
      (emptyState.setLocal "x" (some (.num (bitOr zero zero)))) (.vals [.num (bitOr zero zero)])
      (emptyState.setLocal "x" (some (.num (bitOr zero zero)))) :=
    .varRef (by simp [State.get, State.setLocal]) trivial
  have hreach : Reach floorPow emptyModule doubled.toIrFunction emptyState [0, 1] 0 (.expr sumOfTwo)
      (emptyState.setLocal "x" (some (.num (bitOr zero zero)))) :=
    .exprsHead (.operands (.stmtsHead (.stmtsTail .body hx)) rfl)
  exact analyzeIntegerRanges_sound doubled id emptyState
    (r := ⟨-4294967296, 4294967294, by decide, by decide, by decide⟩) (p := [0, 1]) (e := sumOfTwo) (by decide)
    ⟨0, _, _, hreach, run_bin rfl rfl rfl hv hv⟩

end Ir
