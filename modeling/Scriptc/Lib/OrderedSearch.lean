import Mathlib.Data.Set.Finite.Basic
import Mathlib.Order.WellFounded
import Mathlib.Logic.Relation

/-!
# Ordered search

A node has probes, tried in order: an answer that ends the search, or another node to search first.
Nothing marks the nodes that were visited. The search of a node ends unless it runs into a node that
it comes back to, past probes that lead to no answer.
-/

namespace OrderedSearch

open List

/-- A probe: an answer, or a node to visit. -/
inductive Probe (α β : Type*)
  | found (b : β)
  | visit (a : α)
  deriving DecidableEq

variable {α β : Type*}

/-- The first probe that answers. `none` where a visit does not come back. -/
def firstOf (f : α → Option (Option β)) : List (Probe α β) → Option (Option β)
  | [] => some none
  | .found b :: _ => some (some b)
  | .visit a :: ps =>
    match f a with
    | some none => firstOf f ps
    | r => r

/-- The search of a node, so many levels deep at most. -/
def search (expand : α → List (Probe α β)) : ℕ → α → Option (Option β)
  | 0, _ => none
  | n + 1, a => firstOf (search expand n) (expand a)

variable (expand : α → List (Probe α β))

/-- An answer can be reached by visits, in whatever order. -/
def Answers (a : α) : Prop := ∃ c, Relation.ReflTransGen (fun x y => .visit y ∈ expand x) a c ∧ ∃ b, .found b ∈ expand c

/-- The probe leads to no answer. -/
def Barren : Probe α β → Prop
  | .found _ => False
  | .visit a => ¬ Answers expand a

/-- The search comes to the visit: no probe before it leads to an answer. -/
def Turn (ps : List (Probe α β)) (a : α) : Prop :=
  ∃ before after, ps = before ++ .visit a :: after ∧ ∀ p ∈ before, Barren expand p

/-- From a node to one whose turn comes. -/
def Step (a b : α) : Prop := Turn expand (expand a) b

/-- A node that comes back to itself is ahead. -/
def Loops (a : α) : Prop := ∃ d, Relation.ReflTransGen (Step expand) a d ∧ Relation.TransGen (Step expand) d d

/-- The same of a list of probes. -/
def Trapped (ps : List (Probe α β)) : Prop := ∃ a, Turn expand ps a ∧ Loops expand a

variable {expand} {f g : α → Option (Option β)} {ps : List (Probe α β)} {a b : α} {n m : ℕ} {r : Option β}

theorem turn_of_head (h : ps.head? = some (.visit a)) : Turn expand ps a := by
  cases ps with
  | nil => cases h
  | cons p ps =>
    obtain rfl : p = .visit a := Option.some.inj h
    exact ⟨[], ps, rfl, by simp⟩

/-! ### Answers of a search -/

theorem exists_of_firstOf {b : β} (h : firstOf f ps = some (some b)) :
    .found b ∈ ps ∨ ∃ a, .visit a ∈ ps ∧ f a = some (some b) := by
  induction ps with
  | nil => cases h
  | cons p ps ih =>
    cases p with
    | found b' =>
      cases h
      exact .inl mem_cons_self
    | visit a =>
      rw [firstOf] at h
      split at h
      · rcases ih h with hb | ⟨c, hc, hf⟩
        · exact .inl (mem_cons_of_mem _ hb)
        · exact .inr ⟨c, mem_cons_of_mem _ hc, hf⟩
      · exact .inr ⟨a, mem_cons_self, h⟩

theorem none_of_firstOf (h : firstOf f ps = some none) :
    (∀ b, .found b ∉ ps) ∧ ∀ a, .visit a ∈ ps → f a = some none := by
  induction ps with
  | nil => simp
  | cons p ps ih =>
    cases p with
    | found b => cases h
    | visit a =>
      rw [firstOf] at h
      split at h
      next ha =>
        obtain ⟨h1, h2⟩ := ih h
        simp only [mem_cons, reduceCtorEq, Probe.visit.injEq, false_or]
        refine ⟨h1, ?_⟩
        rintro c (rfl | hc)
        · exact ha
        · exact h2 c hc
      next hne => exact absurd h hne

theorem answers_of_search {b : β} (h : search expand n a = some (some b)) : Answers expand a := by
  induction n generalizing a with
  | zero => cases h
  | succ n ih =>
    rcases exists_of_firstOf h with hb | ⟨c, hc, hs⟩
    · exact ⟨a, .refl, b, hb⟩
    · obtain ⟨d, hd, hf⟩ := ih hs
      exact ⟨d, .head hc hd, hf⟩

/-- A search that comes back without an answer has been everywhere. -/
theorem not_answers_of_search (h : search expand n a = some none) : ¬ Answers expand a := by
  rintro ⟨c, hc, b, hb⟩
  have hall : ∃ m, search expand m c = some none := by
    clear hb
    induction hc with
    | refl => exact ⟨n, h⟩
    | tail _ hedge ih =>
      obtain ⟨m, hm⟩ := ih
      cases m with
      | zero => cases hm
      | succ m => exact ⟨m, (none_of_firstOf hm).2 _ hedge⟩
  obtain ⟨m, hm⟩ := hall
  cases m with
  | zero => cases hm
  | succ m => exact (none_of_firstOf hm).1 b hb

/-! ### More levels -/

theorem firstOf_mono (hfg : ∀ a r, f a = some r → g a = some r) (h : firstOf f ps = some r) : firstOf g ps = some r := by
  induction ps with
  | nil => exact h
  | cons p ps ih =>
    cases p with
    | found b => exact h
    | visit a =>
      rw [firstOf] at h ⊢
      split at h
      next ha =>
        rw [hfg a none ha]
        exact ih h
      next hne =>
        rw [hfg a r h]
        cases r with
        | none => exact absurd h hne
        | some b => rfl

theorem search_succ (h : search expand n a = some r) : search expand (n + 1) a = some r := by
  induction n generalizing a r with
  | zero => cases h
  | succ n ih => exact firstOf_mono (fun _ _ => ih) h

theorem search_mono (hnm : n ≤ m) (h : search expand n a = some r) : search expand m a = some r := by
  induction hnm with
  | refl => exact h
  | step _ ih => exact search_succ ih

/-! ### When a search ends -/

/-- A search that ends has come back from every visit whose turn came. -/
theorem search_of_turn (h : (firstOf (search expand n) ps).isSome) (ht : Turn expand ps a) :
    (search expand n a).isSome := by
  obtain ⟨before, after, rfl, hb⟩ := ht
  induction before with
  | nil =>
    rw [nil_append, firstOf] at h
    split at h
    next ha => rw [ha]; rfl
    next => exact h
  | cons p before ih =>
    have hp := hb p mem_cons_self
    have hrest := fun q hq => hb q (mem_cons_of_mem _ hq)
    cases p with
    | found b => exact hp.elim
    | visit c =>
      rw [cons_append, firstOf] at h
      split at h
      · exact ih hrest h
      next hne =>
        obtain ⟨r, hr⟩ := Option.isSome_iff_exists.mp h
        cases r with
        | none => exact absurd hr hne
        | some b => exact absurd (answers_of_search hr) hp

theorem search_of_step (h : (search expand n a).isSome) (hs : Step expand a b) :
    ∃ m < n, (search expand m b).isSome := by
  cases n with
  | zero => cases h
  | succ n => exact ⟨n, Nat.lt_succ_self n, search_of_turn h hs⟩

theorem search_of_transGen (h : (search expand n a).isSome) (hs : Relation.TransGen (Step expand) a b) :
    ∃ m < n, (search expand m b).isSome := by
  induction hs with
  | single hs => exact search_of_step h hs
  | tail _ hs ih =>
    obtain ⟨m, hm, hd⟩ := ih
    obtain ⟨k, hk, hd⟩ := search_of_step hd hs
    exact ⟨k, hk.trans hm, hd⟩

/-- A search that ends meets no node that comes back to itself. -/
theorem not_loops_of_search (h : (search expand n a).isSome) : ¬ Loops expand a := by
  rintro ⟨d, had, hdd⟩
  have hd : ∃ m, (search expand m d).isSome := by
    rcases Relation.reflTransGen_iff_eq_or_transGen.mp had with rfl | had
    · exact ⟨n, h⟩
    · obtain ⟨m, -, hm⟩ := search_of_transGen h had
      exact ⟨m, hm⟩
  -- the fewest levels at which the search of `d` ends are not the fewest
  obtain ⟨m, hm, hs⟩ := search_of_transGen (Nat.find_spec hd) hdd
  exact Nat.find_min hd hm hs

/-- Probes end when the visits whose turn comes do. -/
theorem firstOf_of_turns (h : ∀ a, Turn expand ps a → ∃ n, (search expand n a).isSome) :
    ∃ n, (firstOf (search expand n) ps).isSome := by
  induction ps with
  | nil => exact ⟨0, rfl⟩
  | cons p ps ih =>
    cases p with
    | found b => exact ⟨0, rfl⟩
    | visit a =>
      obtain ⟨n, hn⟩ := h a ⟨[], ps, rfl, by simp⟩
      obtain ⟨r, hr⟩ := Option.isSome_iff_exists.mp hn
      cases r with
      | some b => exact ⟨n, by simp [firstOf, hr]⟩
      | none =>
        have hbar := not_answers_of_search hr
        obtain ⟨m, hm⟩ := ih fun c hc => by
          obtain ⟨before, after, rfl, hb⟩ := hc
          refine h c ⟨.visit a :: before, after, rfl, ?_⟩
          intro q hq
          rcases mem_cons.mp hq with rfl | hq
          · exact hbar
          · exact hb q hq
        obtain ⟨r, hm⟩ := Option.isSome_iff_exists.mp hm
        refine ⟨max n m, ?_⟩
        rw [firstOf, search_mono (le_max_left n m) hr]
        simp only [firstOf_mono (fun _ _ => search_mono (le_max_right n m)) hm, Option.isSome_some]

theorem search_of_steps (h : ∀ b, Step expand a b → ∃ n, (search expand n b).isSome) :
    ∃ n, (search expand n a).isSome := by
  obtain ⟨n, hn⟩ := firstOf_of_turns h
  exact ⟨n + 1, hn⟩

/-- Where finitely many nodes lead anywhere, the search of a node that does not loop ends. -/
theorem search_of_not_loops (hfin : {a | ∃ b, Step expand a b}.Finite) (h : ¬ Loops expand a) :
    ∃ n, (search expand n a).isSome := by
  let nodes := {x // (∃ y, Step expand x y) ∧ Relation.ReflTransGen (Step expand) a x}
  let later (x y : nodes) : Prop := Relation.TransGen (Step expand) y.1 x.1
  have : Finite nodes := (hfin.subset fun x hx => hx.1 : {x | (∃ y, Step expand x y) ∧ _}.Finite)
  have : IsTrans nodes later := ⟨fun _ _ _ hxy hyz => Relation.TransGen.trans hyz hxy⟩
  have : Std.Irrefl later := ⟨fun x hx => h ⟨x.1, x.2.2, hx⟩⟩
  have wf := Finite.wellFounded_of_trans_of_irrefl later
  have hnodes : ∀ x : nodes, ∃ n, (search expand n x.1).isSome := by
    intro x
    induction x using wf.induction with
    | _ x ih =>
      refine search_of_steps fun y hy => ?_
      by_cases hsrc : ∃ z, Step expand y z
      · exact ih ⟨y, hsrc, x.2.2.tail hy⟩ (.single hy)
      · exact search_of_steps fun z hz => absurd ⟨z, hz⟩ hsrc
  by_cases hsrc : ∃ y, Step expand a y
  · exact hnodes ⟨a, hsrc, .refl⟩
  · exact search_of_steps fun z hz => absurd ⟨z, hz⟩ hsrc

/-- **When an ordered search ends**: when no visit whose turn comes leads to a node that comes back to
itself. -/
theorem ends_iff (hfin : {a | ∃ b, Step expand a b}.Finite) :
    (∃ n, (firstOf (search expand n) ps).isSome) ↔ ¬ Trapped expand ps := by
  constructor
  · rintro ⟨n, hn⟩ ⟨a, ht, hl⟩
    exact not_loops_of_search (search_of_turn hn ht) hl
  · intro h
    exact firstOf_of_turns fun a ha => search_of_not_loops hfin fun hl => h ⟨a, ha, hl⟩

end OrderedSearch
