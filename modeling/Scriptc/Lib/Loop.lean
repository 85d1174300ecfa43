import Mathlib.Data.List.Forall2
import Mathlib.Order.Nat

/-!
# Loops with a bound

A loop is a step that says when it is over. It is run for a number of steps fixed in advance,
and a measure that every step lowers tells how many are enough. A loop over a list, or one that
counts, can fail in a turn; what holds of it is said for the runs that succeed.
-/

namespace Loop

open List

variable {σ : Type*}

/-- Step until the loop is over, at most `n` times. -/
def run (step : σ → Option σ) : ℕ → σ → σ
  | 0, s => s
  | n + 1, s =>
    match step s with
    | none => s
    | some s' => run step n s'

variable {step : σ → Option σ} {I : σ → Prop} {μ : σ → ℕ}

/-- **The rule for loops.** An invariant kept by steps that lower a measure holds at the end, and
the end is reached within the measure. -/
theorem run_spec (h : ∀ s s', I s → step s = some s' → I s' ∧ μ s' < μ s) :
    ∀ (n : ℕ) {s : σ}, I s → μ s ≤ n → I (run step n s) ∧ step (run step n s) = none
  | 0, s, hs, hn => by
    refine ⟨hs, ?_⟩
    cases he : step s with
    | none => exact he
    | some s' =>
      have := (h s s' hs he).2
      omega
  | n + 1, s, hs, hn => by
    rw [run]
    cases he : step s with
    | none => exact ⟨hs, he⟩
    | some s' =>
      obtain ⟨hs', hlt⟩ := h s s' hs he
      exact run_spec h n hs' (by omega)

/-- Two loops in step: what the one does, seen through a map, is what the other does. -/
theorem run_map {τ : Type*} {step' : τ → Option τ} (f : σ → τ)
    (h : ∀ s, I s → (step s).map f = step' (f s) ∧ ∀ s', step s = some s' → I s') (n : ℕ) {s : σ} (hs : I s) :
    I (run step n s) ∧ f (run step n s) = run step' n (f s) := by
  induction n generalizing s with
  | zero => exact ⟨hs, rfl⟩
  | succ n ih =>
    obtain ⟨hmap, hkeep⟩ := h s hs
    rw [run, run, ← hmap]
    cases he : step s with
    | none => exact ⟨hs, rfl⟩
    | some s' => exact ih (hkeep s' he)

end Loop

/-! ### Loops that can fail -/

namespace Except

open List

variable {ε : Type*} {α β : Type} {x : Except ε α} {g : α → Except ε β}

theorem bind_eq_ok {b : β} : x >>= g = .ok b ↔ ∃ a, x = .ok a ∧ g a = .ok b := by
  cases x with
  | error e =>
    constructor
    · intro h
      cases h
    · rintro ⟨a, ha, -⟩
      cases ha
  | ok a =>
    constructor
    · exact fun h => ⟨a, rfl, h⟩
    · rintro ⟨a', ha, h⟩
      cases ha
      exact h

/-! ### What holds of the result -/

/-- What holds of the result of a computation that may fail, and of its failures. -/
def Post (E : ε → Prop) (P : α → Prop) : Except ε α → Prop
  | .ok a => P a
  | .error e => E e

variable {E : ε → Prop} {P : α → Prop} {Q : β → Prop}

theorem Post.mono {P' : α → Prop} (h : Post E P x) (hP : ∀ a, P a → P' a) : Post E P' x := by
  cases x with
  | ok a => exact hP a h
  | error e => exact h

theorem Post.exists_eq_ok (h : Post (fun _ => False) P x) : ∃ a, x = .ok a ∧ P a := by
  cases x with
  | ok a => exact ⟨a, rfl, h⟩
  | error e => exact h.elim

theorem Post.bind (h : Post E P x) (hg : ∀ a, P a → Post E Q (g a)) :
    Post E Q (x >>= g) := by
  cases x with
  | ok a => exact hg a h
  | error e => exact h

/-- A counting loop, with an invariant that every turn keeps. -/
theorem Post.foldlM_range {g : α → ℕ → Except ε α} {I : ℕ → α → Prop} {n : ℕ}
    (step : ∀ k < n, ∀ a, I k a → Post E (I (k + 1)) (g a k)) {a : α} (h0 : I 0 a) :
    Post E (I n) ((List.range n).foldlM g a) := by
  induction n with
  | zero => exact h0
  | succ n ih =>
    rw [range_succ, foldlM_append]
    refine Post.bind (ih fun k hk => step k (by omega)) fun b hb => ?_
    rw [foldlM_cons]
    refine Post.bind (step n (by omega) b hb) fun c hc => ?_
    exact hc

/-- A loop over a list whose turns are collected. -/
theorem Post.mapM {R : α → β → Prop} {l : List α} (h : ∀ a ∈ l, Post E (R a) (g a)) :
    Post E (fun r => List.Forall₂ R l r) (l.mapM g) := by
  induction l with
  | nil => exact List.Forall₂.nil
  | cons a l ih =>
    rw [mapM_cons]
    refine Post.bind (h a mem_cons_self) fun b hb => ?_
    refine Post.bind (ih fun c hc => h c (mem_cons_of_mem _ hc)) fun bs hbs => ?_
    exact List.Forall₂.cons hb hbs

/-- A loop that counts down. -/
def downM (g : α → ℕ → Except ε α) : ℕ → α → Except ε α
  | 0, a => .ok a
  | n + 1, a => g a n >>= downM g n

theorem Post.downM {g : α → ℕ → Except ε α} {I : ℕ → α → Prop} {n : ℕ}
    (step : ∀ k < n, ∀ a, I (k + 1) a → Post E (I k) (g a k)) {a : α} (h0 : I n a) :
    Post E (I 0) (Except.downM g n a) := by
  induction n generalizing a with
  | zero => exact h0
  | succ n ih => exact Post.bind (step n (by omega) a h0) fun b hb => ih (fun k hk => step k (by omega)) hb

end Except

namespace List.Forall₂

open List

variable {α β : Type} {R : α → β → Prop} {l : List α} {r : List β}

theorem exists_right (h : Forall₂ R l r) : ∀ a ∈ l, ∃ b ∈ r, R a b := by
  induction h with
  | nil => simp
  | cons hab _ ih =>
    refine forall_mem_cons.mpr ⟨⟨_, mem_cons_self, hab⟩, fun a ha => ?_⟩
    obtain ⟨b, hb, hab⟩ := ih a ha
    exact ⟨b, mem_cons_of_mem _ hb, hab⟩

theorem exists_left (h : Forall₂ R l r) : ∀ b ∈ r, ∃ a ∈ l, R a b := h.flip.exists_right

/-- What holds between the turns of a loop holds between their results. -/
theorem pairwise {S : α → α → Prop} {T : β → β → Prop} (h : Forall₂ R l r) (hl : l.Pairwise S)
    (hST : ∀ a ∈ l, ∀ a' ∈ l, ∀ b b', S a a' → R a b → R a' b' → T b b') : r.Pairwise T := by
  induction h with
  | nil => exact .nil
  | cons hab hlr ih =>
    obtain ⟨hfirst, hl⟩ := pairwise_cons.mp hl
    refine .cons (fun b' hb' => ?_) (ih hl fun a ha a' ha' => hST a (mem_cons_of_mem _ ha) a' (mem_cons_of_mem _ ha'))
    obtain ⟨a', ha', hab'⟩ := hlr.exists_left b' hb'
    exact hST _ mem_cons_self a' (mem_cons_of_mem _ ha') _ b' (hfirst a' ha') hab hab'

end List.Forall₂

namespace Option

open List

variable {α β : Type} {g : α → Option β} {l : List α} {r : List β}

/-- The same where a turn that fails says nothing. -/
theorem mapM_eq_some : l.mapM g = some r ↔ List.Forall₂ (fun a b => g a = some b) l r := by
  induction l generalizing r with
  | nil => rw [mapM_nil, forall₂_nil_left_iff, pure_def, some_inj, eq_comm]
  | cons a l ih =>
    rw [mapM_cons, bind_eq_bind, bind_eq_some_iff, forall₂_cons_left_iff]
    constructor
    · rintro ⟨b, hb, h⟩
      obtain ⟨bs, hbs, h⟩ := bind_eq_some_iff.mp h
      cases h
      exact ⟨b, bs, hb, ih.mp hbs, rfl⟩
    · rintro ⟨b, bs, hb, hbs, rfl⟩
      exact ⟨b, hb, bind_eq_some_iff.mpr ⟨bs, ih.mpr hbs, rfl⟩⟩

theorem exists_mapM (h : ∀ a ∈ l, (g a).isSome) : ∃ r, l.mapM g = some r := by
  induction l with
  | nil => exact ⟨[], rfl⟩
  | cons a l ih =>
    obtain ⟨b, hb⟩ := isSome_iff_exists.mp (h a mem_cons_self)
    obtain ⟨r, hr⟩ := ih fun c hc => h c (mem_cons_of_mem _ hc)
    exact ⟨b :: r, mapM_eq_some.mpr (.cons hb (mapM_eq_some.mp hr))⟩

theorem mapM_congr {f : α → Option β} (h : ∀ a ∈ l, f a = g a) : l.mapM f = l.mapM g := by
  induction l with
  | nil => rfl
  | cons a l ih => rw [mapM_cons, mapM_cons, h a mem_cons_self, ih fun b hb => h b (mem_cons_of_mem a hb)]

/-- Every turn succeeds, and the results are collected. -/
theorem mapM_eq_some_iff_filterMap : l.mapM g = some r ↔ (∀ a ∈ l, (g a).isSome) ∧ l.filterMap g = r := by
  have hresult : ∀ r, l.mapM g = some r → (∀ a ∈ l, (g a).isSome) ∧ l.filterMap g = r := by
    intro r h
    induction mapM_eq_some.mp h with
    | nil => exact ⟨by simp, rfl⟩
    | cons hb hbs ih =>
      obtain ⟨hall, hfilter⟩ := ih (mapM_eq_some.mpr hbs)
      refine ⟨forall_mem_cons.mpr ⟨by rw [hb]; rfl, hall⟩, ?_⟩
      rw [filterMap_cons_some hb, hfilter]
  refine ⟨hresult r, ?_⟩
  rintro ⟨hall, rfl⟩
  obtain ⟨r, hr⟩ := exists_mapM hall
  rw [(hresult r hr).2, hr]

end Option
