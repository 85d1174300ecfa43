import Mathlib.Data.Finset.Card
import Mathlib.Logic.Relation

/-!
# Inert hoisted functions

`isInertHoistedFunctionCallee` of `frontend/cycle-inert.ts`. The walk of a function's body is
abstracted to the checks it makes in order: a construct or reference that is refused whatever
else holds, and the questions about other functions. A function counts as inert while its own
body is walked, and that answer can be kept by another (`not_inert_sound`).
-/

namespace InertCallees

open List Function Option

/-- A check of a body. `needs`: a call or mention that only the function's own inertness
admits. `asks`: one that is admitted either way, after the question has been asked. -/
inductive Check (Fn : Type*) where
  | refused
  | needs (fn : Fn)
  | asks (fn : Fn)

/-- The functions of a program. `body` is `none` for what is no plain function declaration
with a body. -/
structure Program (Fn : Type*) where
  declarations : Finset Fn
  body : Fn → Option (List (Check Fn))
  declared : ∀ fn, body fn ≠ none → fn ∈ declarations

abbrev Memo (Fn : Type*) := Fn → Option Bool

variable {Fn : Type*}

namespace Program

/-- The walk of a body, which stops at the first check that fails. -/
def walkBody (query : Fn → Memo Fn → Option (Bool × Memo Fn)) : List (Check Fn) → Memo Fn → Option (Bool × Memo Fn)
  | [], memo => some (true, memo)
  | .refused :: _, memo => some (false, memo)
  | .needs fn :: checks, memo =>
    match query fn memo with
    | none => none
    | some (ok, memo) => if ok then walkBody query checks memo else some (false, memo)
  | .asks fn :: checks, memo =>
    match query fn memo with
    | none => none
    | some (_, memo) => walkBody query checks memo

variable [DecidableEq Fn] (P : Program Fn)

/-- `none` where the fuel, the depth of the recursion, runs out. -/
def isInertHoistedFunctionCallee : ℕ → Fn → Memo Fn → Option (Bool × Memo Fn)
  | fuel, fn, memo =>
    match P.body fn with
    | none => some (false, memo)
    | some checks =>
      match memo fn with
      | some known => some (known, memo)
      | none =>
        match fuel with
        | 0 => none
        | fuel + 1 =>
          (walkBody (isInertHoistedFunctionCallee fuel) checks (update memo fn (some true))).map
            fun (ok, memo) => (ok, update memo fn (some ok))

/-- Queries made one after the other, with one memo. -/
def queries (fuel : ℕ) : List Fn → Memo Fn → Option (List Bool × Memo Fn)
  | [], memo => some ([], memo)
  | fn :: fns, memo =>
    match P.isInertHoistedFunctionCallee fuel fn memo with
    | none => none
    | some (answer, memo) => (queries fuel fns memo).map fun (answers, memo) => (answer :: answers, memo)

end Program

section

variable (P : Program Fn)

/-- `fn`'s body stands on the inertness of `callee`. -/
def Calls (fn callee : Fn) : Prop := ∃ checks, P.body fn = some checks ∧ .needs callee ∈ checks

/-- The function is no plain declaration, or has a construct that is refused. -/
def Forbids (fn : Fn) : Prop := ∀ checks, P.body fn = some checks → .refused ∈ checks

/-- A call leads to a forbidden construct. -/
def Tainted (fn : Fn) : Prop := ∃ g, Relation.ReflTransGen (Calls P) fn g ∧ Forbids P g

/-- The check fails. -/
def Fails : Check Fn → Prop
  | .refused => True
  | .needs fn => Tainted P fn
  | .asks _ => False

/-- The walk of `fn`, not answered yet in `memo`, comes to a question about `g`. -/
def Walks (memo : Memo Fn) (fn g : Fn) : Prop :=
  memo fn = none ∧ ∃ before after check, P.body fn = some (before ++ check :: after) ∧ (∀ c ∈ before, ¬ Fails P c) ∧
    (check = .needs g ∨ check = .asks g)

/-- The query comes back to no function that leads to a forbidden construct. -/
def NoReturn (memo : Memo Fn) (fn : Fn) : Prop :=
  ∀ g, Relation.ReflTransGen (Walks P memo) fn g → Tainted P g → ¬ Relation.TransGen (Walks P memo) g g

/-- The answers kept are right, those of the functions in progress aside. -/
structure MemoOk (memo₀ : Memo Fn) (stack : List Fn) (memo : Memo Fn) : Prop where
  exact : ∀ fn b, fn ∉ stack → memo fn = some b → (b = true ↔ ¬ Tainted P fn)
  inProgress : ∀ fn ∈ stack, memo fn = some true
  grows : ∀ fn, memo fn = none → memo₀ fn = none

end

variable {P : Program Fn} {memo₀ memo memo' : Memo Fn} {stack : List Fn} {fn g : Fn} {checks : List (Check Fn)} {b : Bool}

theorem tainted_of_none (h : P.body fn = none) : Tainted P fn := by
  refine ⟨fn, .refl, fun checks hc => ?_⟩
  rw [h] at hc
  cases hc

theorem tainted_iff (h : P.body fn = some checks) : Tainted P fn ↔ ∃ c ∈ checks, Fails P c := by
  constructor
  · rintro ⟨g, hg, hf⟩
    rcases hg.cases_head with rfl | ⟨callee, ⟨checks', hc, hmem⟩, hg⟩
    · exact ⟨.refused, hf checks h, trivial⟩
    · rw [h] at hc
      cases hc
      exact ⟨_, hmem, g, hg, hf⟩
  · rintro ⟨c, hc, hfail⟩
    cases c with
    | refused =>
      refine ⟨fn, .refl, fun checks' h' => ?_⟩
      rw [h] at h'
      cases h'
      exact hc
    | needs callee =>
      obtain ⟨g, hg, hf⟩ := hfail
      exact ⟨g, .head ⟨checks, h, hc⟩ hg, hf⟩
    | asks callee => exact hfail.elim

section

variable [DecidableEq Fn]

theorem MemoOk.push (h : MemoOk P memo₀ stack memo) : MemoOk P memo₀ (fn :: stack) (update memo fn (some true)) where
  exact g b hg hb := by
    have hne : g ≠ fn := fun h => hg (h ▸ mem_cons_self)
    rw [update_of_ne hne] at hb
    exact h.exact g b (fun hm => hg (mem_cons_of_mem _ hm)) hb
  inProgress g hg := by
    by_cases hne : g = fn
    · rw [hne, update_self]
    · rw [update_of_ne hne]
      exact h.inProgress g ((mem_cons.mp hg).resolve_left hne)
  grows g hg := by
    by_cases hne : g = fn
    · rw [hne, update_self] at hg
      cases hg
    · rw [update_of_ne hne] at hg
      exact h.grows g hg

theorem MemoOk.pop (h : MemoOk P memo₀ (fn :: stack) memo) (hfn : fn ∉ stack) (hb : b = true ↔ ¬ Tainted P fn) :
    MemoOk P memo₀ stack (update memo fn (some b)) where
  exact g c hg hc := by
    by_cases hne : g = fn
    · subst hne
      rw [update_self] at hc
      cases hc
      exact hb
    · rw [update_of_ne hne] at hc
      exact h.exact g c (by simp [hne, hg]) hc
  inProgress g hg := by
    have hne : g ≠ fn := fun h => hfn (h ▸ hg)
    rw [update_of_ne hne]
    exact h.inProgress g (mem_cons_of_mem _ hg)
  grows g hg := by
    by_cases hne : g = fn
    · rw [hne, update_self] at hg
      cases hg
    · rw [update_of_ne hne] at hg
      exact h.grows g hg

end

variable {query : Fn → Memo Fn → Option (Bool × Memo Fn)}

/-- The walk of the checks after `before`, when every question is answered right. -/
theorem walkBody_spec (before : List (Check Fn))
    (hquery : ∀ g, Walks P memo₀ fn g → ∀ memo b memo', MemoOk P memo₀ stack memo → query g memo = some (b, memo') →
      (b = true ↔ ¬ Tainted P g) ∧ MemoOk P memo₀ stack memo')
    (hfn : memo₀ fn = none) (hbody : P.body fn = some (before ++ checks)) (hbefore : ∀ c ∈ before, ¬ Fails P c)
    (hm : MemoOk P memo₀ stack memo) (h : Program.walkBody query checks memo = some (b, memo')) :
    (b = true ↔ ¬ Tainted P fn) ∧ MemoOk P memo₀ stack memo' := by
  induction checks generalizing before memo with
  | nil =>
    cases h
    rw [append_nil] at hbody
    refine ⟨⟨fun _ => ?_, fun _ => rfl⟩, hm⟩
    rw [tainted_iff hbody]
    rintro ⟨c, hc, hf⟩
    exact hbefore c hc hf
  | cons check checks ih =>
    have fails (hf : Fails P check) : Tainted P fn := (tainted_iff hbody).mpr ⟨check, by simp, hf⟩
    have next (hf : ¬ Fails P check) {memo₁ : Memo Fn} (hm₁ : MemoOk P memo₀ stack memo₁)
        (h₁ : Program.walkBody query checks memo₁ = some (b, memo')) :
        (b = true ↔ ¬ Tainted P fn) ∧ MemoOk P memo₀ stack memo' := by
      refine ih (before ++ [check]) (by simpa using hbody) (fun c hc => ?_) hm₁ h₁
      rcases mem_append.mp hc with hc | hc
      · exact hbefore c hc
      · rw [mem_singleton.mp hc]
        exact hf
    cases check with
    | refused =>
      cases h
      exact ⟨⟨nofun, fun hn => absurd (fails trivial) hn⟩, hm⟩
    | needs g =>
      unfold Program.walkBody at h
      split at h
      · cases h
      · next ok memo₁ hq =>
        obtain ⟨hok, hm₁⟩ := hquery g ⟨hfn, before, checks, _, hbody, hbefore, .inl rfl⟩ memo ok memo₁ hm hq
        split at h
        · next hyes => exact next (hok.mp hyes) hm₁ h
        · next hno =>
          cases h
          have tainted : Tainted P g := by
            by_contra hn
            exact hno (hok.mpr hn)
          exact ⟨⟨nofun, fun hn => absurd (fails tainted) hn⟩, hm₁⟩
    | asks g =>
      unfold Program.walkBody at h
      split at h
      · cases h
      · next ok memo₁ hq =>
        obtain ⟨-, hm₁⟩ := hquery g ⟨hfn, before, checks, _, hbody, hbefore, .inr rfl⟩ memo ok memo₁ hm hq
        exact next id hm₁ h

section

variable [DecidableEq Fn]

/-- What a query does. -/
theorem isInert_cases {fuel : ℕ} (h : P.isInertHoistedFunctionCallee fuel fn memo = some (b, memo')) :
    (P.body fn = none ∧ b = false ∧ memo' = memo) ∨ (memo fn = some b ∧ memo' = memo) ∨
      ∃ n checks memo₁, fuel = n + 1 ∧ P.body fn = some checks ∧ memo fn = none ∧
        Program.walkBody (P.isInertHoistedFunctionCallee n) checks (update memo fn (some true)) = some (b, memo₁) ∧
        memo' = update memo₁ fn (some b) := by
  unfold Program.isInertHoistedFunctionCallee at h
  split at h
  · next hnone =>
    cases h
    exact .inl ⟨hnone, rfl, rfl⟩
  · next checks hbody =>
    split at h
    · next known hknown =>
      cases h
      exact .inr (.inl ⟨hknown, rfl⟩)
    · next hnone =>
      split at h
      · cases h
      · next n =>
        obtain ⟨⟨ok, memo₁⟩, hwalk, heq⟩ := map_eq_some_iff.mp h
        cases heq
        exact .inr (.inr ⟨n, checks, memo₁, rfl, hbody, hnone, hwalk, rfl⟩)

/-- A question on the way: every function in progress leads to it. -/
theorem isInert_spec {root : Fn} (hroot : NoReturn P memo₀ root) :
    ∀ (fuel : ℕ) (stack : List Fn) (fn : Fn) (memo : Memo Fn) (b : Bool) (memo' : Memo Fn), MemoOk P memo₀ stack memo →
      Relation.ReflTransGen (Walks P memo₀) root fn → (∀ g ∈ stack, Relation.TransGen (Walks P memo₀) g fn) →
      P.isInertHoistedFunctionCallee fuel fn memo = some (b, memo') →
      (b = true ↔ ¬ Tainted P fn) ∧ MemoOk P memo₀ stack memo' := by
  intro fuel
  induction fuel using Nat.strong_induction_on with
  | _ fuel ih =>
    intro stack fn memo b memo' hm hreach hstack h
    rcases isInert_cases h with ⟨hnone, rfl, rfl⟩ | ⟨hknown, rfl⟩ | ⟨n, checks, memo₁, rfl, hbody, hnone, hwalk, rfl⟩
    · exact ⟨⟨nofun, fun hn => absurd (tainted_of_none hnone) hn⟩, hm⟩
    · refine ⟨?_, hm⟩
      by_cases hmem : fn ∈ stack
      · -- the provisional answer, right because the function is not tainted
        have htrue := hm.inProgress fn hmem
        rw [hknown] at htrue
        cases htrue
        exact ⟨fun _ ht => hroot fn hreach ht (hstack fn hmem), fun _ => rfl⟩
      · exact hm.exact fn b hmem hknown
    · have hmem : fn ∉ stack := by
        intro hmem
        rw [hm.inProgress fn hmem] at hnone
        cases hnone
      have hquery : ∀ g, Walks P memo₀ fn g → ∀ memo b memo', MemoOk P memo₀ (fn :: stack) memo →
          P.isInertHoistedFunctionCallee n g memo = some (b, memo') →
          (b = true ↔ ¬ Tainted P g) ∧ MemoOk P memo₀ (fn :: stack) memo' := by
        intro g hg memo b memo' hm hq
        refine ih n (by omega) (fn :: stack) g memo b memo' hm (hreach.tail hg) (fun k hk => ?_) hq
        rcases mem_cons.mp hk with rfl | hk
        · exact .single hg
        · exact (hstack k hk).tail hg
      obtain ⟨hok, hm₁⟩ := walkBody_spec [] hquery (hm.grows fn hnone) hbody (by simp) hm.push hwalk
      exact ⟨hok, hm₁.pop hmem hok⟩

/-! ### Enough fuel -/

omit [DecidableEq Fn] in
theorem walkBody_keeps {Q : Memo Fn → Prop}
    (hquery : ∀ g memo b memo', Q memo → query g memo = some (b, memo') → Q memo') (hm : Q memo)
    (h : Program.walkBody query checks memo = some (b, memo')) : Q memo' := by
  induction checks generalizing memo with
  | nil =>
    cases h
    exact hm
  | cons check checks ih =>
    cases check with
    | refused =>
      cases h
      exact hm
    | needs g =>
      unfold Program.walkBody at h
      split at h
      · cases h
      · next ok memo₁ hq =>
        have hm₁ := hquery g memo ok memo₁ hm hq
        split at h
        · exact ih hm₁ h
        · cases h
          exact hm₁
    | asks g =>
      unfold Program.walkBody at h
      split at h
      · cases h
      · next ok memo₁ hq => exact ih (hquery g memo ok memo₁ hm hq) h

omit [DecidableEq Fn] in
theorem walkBody_ne_none {Q : Memo Fn → Prop}
    (hsome : ∀ g memo, Q memo → query g memo ≠ none)
    (hquery : ∀ g memo b memo', Q memo → query g memo = some (b, memo') → Q memo') (hm : Q memo) :
    Program.walkBody query checks memo ≠ none := by
  induction checks generalizing memo with
  | nil => nofun
  | cons check checks ih =>
    cases check with
    | refused => nofun
    | needs g =>
      unfold Program.walkBody
      split
      · next hnone => exact absurd hnone (hsome g memo hm)
      · next ok memo₁ hq =>
        split
        · exact ih (hquery g memo ok memo₁ hm hq)
        · nofun
    | asks g =>
      unfold Program.walkBody
      split
      · next hnone => exact absurd hnone (hsome g memo hm)
      · next ok memo₁ hq => exact ih (hquery g memo ok memo₁ hm hq)

/-- The declarations without an answer. -/
def unanswered (P : Program Fn) (memo : Memo Fn) : Finset Fn := P.declarations.filter fun fn => memo fn = none

theorem unanswered_update_subset : unanswered P (update memo fn (some b)) ⊆ unanswered P memo := by
  intro g hg
  obtain ⟨hg, hnone⟩ := Finset.mem_filter.mp hg
  refine Finset.mem_filter.mpr ⟨hg, ?_⟩
  by_cases hne : g = fn
  · rw [hne, update_self] at hnone
    cases hnone
  · rwa [update_of_ne hne] at hnone

theorem unanswered_update_ssubset (h : fn ∈ unanswered P memo) :
    unanswered P (update memo fn (some b)) ⊂ unanswered P memo := by
  refine ⟨unanswered_update_subset, fun hsub => ?_⟩
  have := (Finset.mem_filter.mp (hsub h)).2
  rw [update_self] at this
  cases this

/-- A query answers for more functions, not fewer. -/
theorem isInert_unanswered :
    ∀ (fuel : ℕ) (fn : Fn) (memo : Memo Fn) (b : Bool) (memo' : Memo Fn),
      P.isInertHoistedFunctionCallee fuel fn memo = some (b, memo') → unanswered P memo' ⊆ unanswered P memo := by
  intro fuel
  induction fuel using Nat.strong_induction_on with
  | _ fuel ih =>
    intro fn memo b memo' h
    rcases isInert_cases h with ⟨-, -, rfl⟩ | ⟨-, rfl⟩ | ⟨n, checks, memo₁, rfl, -, -, hwalk, rfl⟩
    · exact Finset.Subset.refl _
    · exact Finset.Subset.refl _
    · have push : unanswered P (update memo fn (some true)) ⊆ unanswered P memo := unanswered_update_subset
      have walked := walkBody_keeps (Q := fun m => unanswered P m ⊆ unanswered P memo)
        (fun g m c m' hm hq => (ih n (by omega) g m c m' hq).trans hm) push hwalk
      exact unanswered_update_subset.trans walked

theorem isInert_ne_none :
    ∀ (fuel : ℕ) (fn : Fn) (memo : Memo Fn), (unanswered P memo).card ≤ fuel →
      P.isInertHoistedFunctionCallee fuel fn memo ≠ none := by
  intro fuel
  induction fuel with
  | zero =>
    intro fn memo hfuel
    unfold Program.isInertHoistedFunctionCallee
    split
    · nofun
    · next checks hbody =>
      split
      · nofun
      · next hnone =>
        have hmem : fn ∈ unanswered P memo := Finset.mem_filter.mpr ⟨P.declared fn (by simp [hbody]), hnone⟩
        exact absurd (Finset.card_pos.mpr ⟨fn, hmem⟩) (by omega)
  | succ n ih =>
    intro fn memo hfuel
    unfold Program.isInertHoistedFunctionCallee
    split
    · nofun
    · next checks hbody =>
      split
      · nofun
      · next hnone =>
        have hmem : fn ∈ unanswered P memo := Finset.mem_filter.mpr ⟨P.declared fn (by simp [hbody]), hnone⟩
        have hlt := Finset.card_lt_card (unanswered_update_ssubset (b := true) hmem)
        rw [Ne, map_eq_none_iff]
        refine walkBody_ne_none (Q := fun m => (unanswered P m).card ≤ n) (fun g m hm => ih g m hm) ?_ (by omega)
        exact fun g m c m' hm hq => (Finset.card_le_card (isInert_unanswered n g m c m' hq)).trans hm

/-! ### Runs of queries -/

/-- Each query comes back to no function that leads to a forbidden construct. -/
def NoReturns (P : Program Fn) (fuel : ℕ) : List Fn → Memo Fn → Prop
  | [], _ => True
  | fn :: fns, memo =>
    NoReturn P memo fn ∧ ∀ b memo', P.isInertHoistedFunctionCallee fuel fn memo = some (b, memo') → NoReturns P fuel fns memo'

theorem queries_run {fuel : ℕ} (hfuel : P.declarations.card ≤ fuel) :
    ∀ (fns : List Fn) (memo : Memo Fn), MemoOk P memo [] memo → NoReturns P fuel fns memo →
      ∃ answers memo', P.queries fuel fns memo = some (answers, memo') ∧
        List.Forall₂ (fun fn answer => answer = true ↔ ¬ Tainted P fn) fns answers := by
  intro fns
  induction fns with
  | nil => exact fun memo _ _ => ⟨[], memo, rfl, .nil⟩
  | cons fn fns ih =>
    rintro memo hm ⟨hfn, hfns⟩
    have hsome := isInert_ne_none (P := P) fuel fn memo ((Finset.card_filter_le _ _).trans hfuel)
    obtain ⟨⟨b, memo₁⟩, hb⟩ := ne_none_iff_exists'.mp hsome
    obtain ⟨hanswer, hm₁⟩ := isInert_spec hfn fuel [] fn memo b memo₁ hm .refl (by simp) hb
    obtain ⟨answers, memo', hrest, hall⟩ := ih memo₁ ⟨hm₁.exact, by simp, fun _ h => h⟩ (hfns b memo₁ hb)
    exact ⟨b :: answers, memo', by simp [Program.queries, hb, hrest], .cons hanswer hall⟩

/-- In a run of queries that come back to no function leading to a forbidden construct, each
answer is right. -/
theorem queries_sound (P : Program Fn) {fuel : ℕ} (hfuel : P.declarations.card ≤ fuel) (fns : List Fn)
    (h : NoReturns P fuel fns fun _ => none) :
    ∃ answers memo, P.queries fuel fns (fun _ => none) = some (answers, memo) ∧
      List.Forall₂ (fun fn answer => answer = true ↔ ¬ Tainted P fn) fns answers :=
  queries_run hfuel fns _ ⟨nofun, by simp, fun _ h => h⟩ h

end

/-- `f() { g(); this; }`, `g() { f(); }`. -/
private def borrowing : Program ℕ where
  declarations := {0, 1}
  body
    | 0 => some [.needs 1, .refused]
    | 1 => some [.needs 0]
    | _ => none
  declared fn h := by
    split at h
    · simp
    · simp
    · exact absurd rfl h

/-- `g` keeps the answer it got while `f` was walked. -/
theorem not_inert_sound : ¬ ∀ (P : Program ℕ) (fuel : ℕ) (fns : List ℕ) (answers : List Bool) (memo : Memo ℕ),
    P.queries fuel fns (fun _ => none) = some (answers, memo) →
      List.Forall₂ (fun fn answer => answer = true → ¬ Tainted P fn) fns answers := by
  intro h
  have run : ∃ memo, borrowing.queries 2 [0, 1] (fun _ => none) = some ([false, true], memo) := ⟨_, rfl⟩
  obtain ⟨memo, run⟩ := run
  cases h borrowing 2 [0, 1] [false, true] memo run with
  | cons _ h =>
    cases h with
    | cons h _ =>
      refine h rfl ⟨0, .single ⟨[.needs 0], rfl, by simp⟩, fun checks hc => ?_⟩
      obtain rfl : [.needs 1, .refused] = checks := some.inj hc
      simp

/-- Two functions that call each other, and one that uses `this` before it calls itself. -/
private def recursive : Program ℕ where
  declarations := {0, 1, 2}
  body
    | 0 => some [.needs 1]
    | 1 => some [.asks 2, .needs 0]
    | 2 => some [.refused, .needs 2]
    | _ => none
  declared fn h := by
    split at h
    · simp
    · simp
    · simp
    · exact absurd rfl h

private theorem recursive_tainted {g : ℕ} (h : Tainted recursive g) : g ≠ 0 ∧ g ≠ 1 := by
  obtain ⟨f, hf, hforbids⟩ := h
  by_contra hn
  have hg : g = 0 ∨ g = 1 := by omega
  have hend : f = 0 ∨ f = 1 := by
    clear hforbids
    induction hf with
    | refl => exact hg
    | tail _ hcall ih =>
      obtain ⟨checks, hbody, hmem⟩ := hcall
      rcases ih with rfl | rfl
      · obtain rfl : [.needs 1] = checks := some.inj hbody
        simp at hmem
        omega
      · obtain rfl : [.asks 2, .needs 0] = checks := some.inj hbody
        simp at hmem
        omega
  rcases hend with rfl | rfl
  · simpa using hforbids [.needs 1] rfl
  · simpa using hforbids [.asks 2, .needs 0] rfl

private theorem recursive_noReturn (memo : Memo ℕ) (fn : ℕ) : NoReturn recursive memo fn := by
  intro g _ htainted hreturn
  obtain ⟨h0, h1⟩ := recursive_tainted htainted
  obtain ⟨h, ⟨-, before, after, check, hbody, hbefore, hcheck⟩, -⟩ := Relation.TransGen.head'_iff.mp hreturn
  match g, h0, h1 with
  | 2, _, _ =>
    obtain hchecks : [.refused, .needs 2] = before ++ check :: after := some.inj hbody
    cases before with
    | nil =>
      obtain rfl : .refused = check := (List.cons.inj hchecks).1
      simp at hcheck
    | cons c before =>
      obtain rfl : .refused = c := (List.cons.inj hchecks).1
      exact hbefore _ mem_cons_self trivial
  | g + 3, _, _ => cases hbody

theorem queries_sound_recursive :
    ∃ answers memo, recursive.queries 3 [2, 0, 1] (fun _ => none) = some (answers, memo) ∧
      List.Forall₂ (fun fn answer => answer = true ↔ ¬ Tainted recursive fn) [2, 0, 1] answers :=
  queries_sound recursive (by decide) _ ⟨recursive_noReturn _ _, fun _ _ _ => ⟨recursive_noReturn _ _, fun _ _ _ =>
    ⟨recursive_noReturn _ _, fun _ _ _ => trivial⟩⟩⟩

end InertCallees
