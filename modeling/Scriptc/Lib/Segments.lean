import Mathlib.Data.List.DropRight
import Mathlib.Data.Nat.Notation

/-!
# Segments

A text whose segments stand between separators: what it is cut into, and how it ends.
-/

namespace Scriptc.Segments

open List

variable {α : Type}

/-- The segments with a separator between each two. -/
def text (sep : α) (segments : List (List α)) : List α := [sep].intercalate segments

/-- Segments that a text gives back: none is empty, none has the separator in it. -/
def Proper (sep : α) (segments : List (List α)) : Prop := ∀ s ∈ segments, s ≠ [] ∧ sep ∉ s

variable {sep : α} {ss ts : List (List α)} {s : List α}

@[simp] theorem text_nil : text sep [] = [] := rfl

@[simp] theorem text_singleton : text sep [s] = s := intercalate_singleton

theorem text_cons (h : ss ≠ []) : text sep (s :: ss) = s ++ sep :: text sep ss := by
  rw [text, intercalate_cons_of_ne_nil h, append_assoc, singleton_append, ← text]

theorem text_append (hs : ss ≠ []) (ht : ts ≠ []) : text sep (ss ++ ts) = text sep ss ++ sep :: text sep ts := by
  induction ss with
  | nil => exact absurd rfl hs
  | cons s ss ih =>
    by_cases hss : ss = []
    · rw [hss, singleton_append, text_cons ht, text_singleton]
    · rw [cons_append, text_cons (by simp [hss]), ih hss, text_cons hss, append_assoc, cons_append]

/-- A segment is added behind a separator, unless it is the first. -/
theorem text_snoc [DecidableEq α] (sep : α) (ss : List (List α)) (s : List α) :
    (if decide (ss ≠ []) then text sep ss ++ [sep] else text sep ss) ++ s = text sep (ss ++ [s]) := by
  by_cases hss : ss = []
  · simp [hss]
  · rw [if_pos (by simpa using hss), text_append hss (by simp), text_singleton, append_assoc, singleton_append]

theorem proper_nil : Proper sep [] := fun _ h => absurd h not_mem_nil

theorem Proper.of_append (h : Proper sep (ss ++ ts)) : Proper sep ss ∧ Proper sep ts :=
  ⟨fun s hs => h s (mem_append_left _ hs), fun s hs => h s (mem_append_right _ hs)⟩

theorem Proper.append (hs : Proper sep ss) (ht : Proper sep ts) : Proper sep (ss ++ ts) := fun s h =>
  (mem_append.mp h).elim (hs s) (ht s)

theorem Proper.singleton (hne : s ≠ []) (hsep : sep ∉ s) : Proper sep [s] := by
  intro t ht
  rw [mem_singleton.mp ht]
  exact ⟨hne, hsep⟩

theorem text_eq_nil (h : ∀ s ∈ ss, s ≠ []) : text sep ss = [] ↔ ss = [] := by
  constructor
  · intro htext
    cases ss with
    | nil => rfl
    | cons s ss =>
      have hne := h s (mem_cons_self ..)
      by_cases hss : ss = []
      · rw [hss, text_singleton] at htext
        exact absurd htext hne
      · rw [text_cons hss] at htext
        simp at htext
  · rintro rfl
    rfl

theorem Proper.text_eq_nil (h : Proper sep ss) : text sep ss = [] ↔ ss = [] :=
  Segments.text_eq_nil fun s hs => (h s hs).1

/-- The text of proper segments neither begins nor ends with a separator. -/
theorem Proper.head_ne (h : Proper sep ss) : (text sep ss).head? ≠ some sep := by
  cases ss with
  | nil => simp
  | cons s ss =>
    obtain ⟨hne, hsep⟩ := h s (mem_cons_self ..)
    obtain ⟨c, s, rfl⟩ := exists_cons_of_ne_nil hne
    have hc : c ≠ sep := fun heq => hsep (heq ▸ mem_cons_self ..)
    by_cases hss : ss = []
    · rw [hss, text_singleton]
      simpa using hc
    · rw [text_cons hss]
      simpa using hc

theorem Proper.getLast_ne (h : Proper sep ss) : (text sep ss).getLast? ≠ some sep := by
  rcases eq_nil_or_concat' ss with rfl | ⟨init, s, rfl⟩
  · simp
  · obtain ⟨hne, hsep⟩ := h s (by simp)
    have hlast : s.getLast? ≠ some sep := fun heq => hsep (mem_of_getLast? heq)
    by_cases hinit : init = []
    · rw [hinit, nil_append, text_singleton]
      exact hlast
    · rw [text_append hinit (by simp), text_singleton]
      obtain ⟨c, s, rfl⟩ := exists_cons_of_ne_nil hne
      simpa using hlast

theorem Proper.count [DecidableEq α] (h : Proper sep ss) (hne : ss ≠ []) :
    (text sep ss).count sep + 1 = ss.length := by
  induction ss with
  | nil => exact absurd rfl hne
  | cons s ss ih =>
    have hs : s.count sep = 0 := count_eq_zero.mpr (h s (mem_cons_self ..)).2
    by_cases hss : ss = []
    · rw [hss, text_singleton, hs]
      rfl
    · have := ih (fun t ht => h t (mem_cons_of_mem _ ht)) hss
      rw [text_cons hss, count_append, count_cons_self, hs, length_cons]
      omega

/-- Splitting a text gives its segments back. -/
theorem Proper.filter_splitOn [DecidableEq α] (h : Proper sep ss) :
    ((text sep ss).splitOn sep).filter (· ≠ []) = ss := by
  by_cases hss : ss = []
  · rw [hss]
    simp
  · rw [text, splitOn_intercalate sep (fun s hs => (h s hs).2) hss, filter_eq_self]
    exact fun s hs => by simpa using (h s hs).1

/-! ### The end of a text -/

/-- A text as what stands before its last segment, that segment and the separators after it. -/
structure Ending (sep : α) (text before last : List α) (after : ℕ) : Prop where
  text_eq : text = before ++ last ++ replicate after sep
  not_mem : sep ∉ last
  before_eq : before = [] ∨ ∃ u, before = u ++ [sep]
  of_last : last = [] → before = []

theorem Ending.reverse_eq {t before last : List α} {n : ℕ} (h : Ending sep t before last n) :
    t.reverse = replicate n sep ++ (last.reverse ++ before.reverse) := by
  rw [h.text_eq, reverse_append, reverse_append, reverse_replicate]

variable [DecidableEq α]

theorem exists_ending (sep : α) (text : List α) : ∃ before last after, Ending sep text before last after := by
  let trimmed := text.rdropWhile (· = sep)
  have hrest : text = trimmed ++ replicate (text.rtakeWhile (· = sep)).length sep := by
    conv_lhs => rw [← rdropWhile_append_rtakeWhile (p := fun c => decide (c = sep)) (l := text)]
    congr 1
    refine eq_replicate_of_mem fun c hc => ?_
    simpa using mem_rtakeWhile_imp hc
  have hsplit : trimmed.rdropWhile (· ≠ sep) ++ trimmed.rtakeWhile (· ≠ sep) = trimmed :=
    rdropWhile_append_rtakeWhile
  refine ⟨trimmed.rdropWhile (· ≠ sep), trimmed.rtakeWhile (· ≠ sep),
    (text.rtakeWhile (· = sep)).length, ?_, ?_, ?_, ?_⟩
  · rw [hsplit]
    exact hrest
  · intro hmem
    simpa using mem_rtakeWhile_imp hmem
  · rcases eq_nil_or_concat' (trimmed.rdropWhile (· ≠ sep)) with hnil | ⟨u, c, hu⟩
    · exact .inl hnil
    · have hlast := rdropWhile_last_not (fun c => decide (c ≠ sep)) trimmed (by rw [hu]; simp)
      simp only [hu, getLast_append_singleton] at hlast
      exact .inr ⟨u, by rw [hu]; simpa using hlast⟩
  · intro hnil
    by_contra hne
    rw [hnil, append_nil] at hsplit
    have htrimmed : trimmed ≠ [] := hsplit ▸ hne
    have hlast := rtakeWhile_eq_nil_iff.mp hnil htrimmed
    have := rdropWhile_last_not (fun c => decide (c = sep)) text htrimmed
    simp only [decide_eq_true_eq, ne_eq, not_not] at hlast this
    exact this hlast

namespace Ending

variable {t before last : List α} {n : ℕ}

/-- The text without the separators at its end. -/
theorem trimmed (h : Ending sep t before last n) : t.rdropWhile (· = sep) = before ++ last := by
  have hstop : (last.reverse ++ before.reverse).dropWhile (· = sep) = last.reverse ++ before.reverse := by
    cases hlast : last.reverse with
    | nil =>
      rw [h.of_last (by simpa using hlast)]
      rfl
    | cons c w =>
      have hmem : c ∈ last := mem_reverse.mp (hlast ▸ mem_cons_self ..)
      have hc : c ≠ sep := fun heq => h.not_mem (heq ▸ hmem)
      rw [cons_append, dropWhile_cons_of_neg (by simpa using hc)]
  rw [List.rdropWhile, h.reverse_eq, dropWhile_append_of_pos (by simp), hstop, ← reverse_append,
    reverse_reverse]

theorem component (h : Ending sep t before last n) : (before ++ last).rtakeWhile (· ≠ sep) = last := by
  have hnone : before.reverse.takeWhile (· ≠ sep) = [] := by
    rcases h.before_eq with rfl | ⟨u, rfl⟩
    · rfl
    · rw [reverse_append, reverse_singleton, singleton_append, takeWhile_cons_of_neg (by simp)]
  have hall : ∀ c ∈ last.reverse, decide (c ≠ sep) = true := by
    intro c hc
    exact decide_eq_true fun heq => h.not_mem (heq ▸ mem_reverse.mp hc)
  rw [List.rtakeWhile, reverse_append, takeWhile_append_of_pos hall, hnone, append_nil,
    reverse_reverse]

end Ending

/-! ### Where two texts part -/

theorem exists_parting (s t : List α) : ∃ p u v, s = p ++ u ∧ t = p ++ v ∧
    (u = [] ∨ v = [] ∨ ∃ x y u' v', u = x :: u' ∧ v = y :: v' ∧ x ≠ y) := by
  induction s generalizing t with
  | nil => exact ⟨[], [], t, rfl, rfl, .inl rfl⟩
  | cons x s ih =>
    cases t with
    | nil => exact ⟨[], x :: s, [], rfl, rfl, .inr (.inl rfl)⟩
    | cons y t =>
      by_cases hxy : x = y
      · obtain ⟨p, u, v, rfl, rfl, hparts⟩ := ih t
        exact ⟨x :: p, u, v, rfl, by rw [hxy]; rfl, hparts⟩
      · exact ⟨[], x :: s, y :: t, rfl, rfl, .inr (.inr ⟨x, y, s, t, rfl, rfl, hxy⟩)⟩

end Scriptc.Segments
