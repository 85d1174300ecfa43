import Mathlib.Data.List.Infix
import Mathlib.Data.List.Basic

/-!
# Occurrences of a list in another

The first and the last place where a list stands in another, and the pieces between the occurrences
that a scan from the left finds, none of which begins inside of another.
-/

namespace Occurrence

open List

variable {α : Type*} {hay needle : List α} {i : ℕ}

theorem infix_iff : needle <:+: hay ↔ ∃ i ≤ hay.length, needle <+: hay.drop i := by
  constructor
  · rintro ⟨a, b, rfl⟩
    refine ⟨a.length, by simp, ?_⟩
    rw [append_assoc, drop_left]
    exact prefix_append _ _
  · rintro ⟨i, -, hp⟩
    exact hp.isInfix.trans (drop_suffix i hay).isInfix

section Search

variable [DecidableEq α]

/-- The needle stands at a place. -/
def standsAt (hay needle : List α) (i : ℕ) : Bool := (hay.drop i).take needle.length = needle

theorem standsAt_iff : standsAt hay needle i = true ↔ needle <+: hay.drop i := by
  rw [standsAt, decide_eq_true_iff, prefix_iff_eq_take, eq_comm]

theorem standsAt_lt (h : standsAt hay needle i = true) (hi : i ≤ hay.length) : i < hay.length + 1 - needle.length := by
  have hle := (standsAt_iff.mp h).length_le
  rw [length_drop] at hle
  omega

/-- `windows(needle.len()).position(..)`. -/
def first (hay needle : List α) : Option ℕ := (List.range (hay.length + 1 - needle.length)).find? (standsAt hay needle)

/-- `windows(needle.len()).take(count).rposition(..)`. -/
def last (hay needle : List α) (count : ℕ) : Option ℕ :=
  (List.range (min count (hay.length + 1 - needle.length))).reverse.find? (standsAt hay needle)

theorem first_eq_some : first hay needle = some i ↔ needle <+: hay.drop i ∧ ∀ j < i, ¬ needle <+: hay.drop j := by
  rw [first, List.find?_range_eq_some]
  simp only [mem_range, standsAt_iff, Bool.not_eq_true', ← Bool.not_eq_true]
  constructor
  · rintro ⟨h, -, hbefore⟩
    exact ⟨h, hbefore⟩
  · rintro ⟨h, hbefore⟩
    refine ⟨h, standsAt_lt (standsAt_iff.mpr h) ?_, hbefore⟩
    by_contra hi
    rw [drop_eq_nil_of_le (by omega), prefix_nil] at h
    exact hbefore 0 (by omega) (h ▸ nil_prefix)

theorem first_eq_none : first hay needle = none ↔ ∀ i ≤ hay.length, ¬ needle <+: hay.drop i := by
  simp only [first, List.find?_range_eq_none, Bool.not_eq_true', ← Bool.not_eq_true, standsAt_iff]
  constructor
  · intro h i hi hp
    exact h i (standsAt_lt (standsAt_iff.mpr hp) hi) hp
  · intro h i hi
    exact h i (by omega)

/-- Looking back from a place finds the needle there when it stands there. -/
theorem last_eq_self (hi : i + needle.length ≤ hay.length) : last hay needle (i + 1) = some i ↔ needle <+: hay.drop i := by
  have hcount : min (i + 1) (hay.length + 1 - needle.length) = i + 1 := by omega
  rw [last, hcount, range_succ, reverse_append, reverse_singleton, singleton_append, ← standsAt_iff]
  cases h : standsAt hay needle i with
  | true => simp [h]
  | false =>
    simp only [find?_cons, h, Bool.false_eq_true, iff_false]
    intro hfind
    have hmem := mem_of_find?_eq_some hfind
    simp at hmem

theorem last_lt {count : ℕ} (h : last hay needle count = some i) : i < count := by
  have hmem := mem_of_find?_eq_some h
  rw [mem_reverse, mem_range] at hmem
  omega

end Search

/-! ### Between the occurrences -/

/-- The pieces that a scan from the left leaves. -/
inductive Split (sep : List α) : List α → List (List α) → Prop
  | last {u : List α} : ¬ sep <:+: u → Split sep u [u]
  | next {p rest : List α} {ps : List (List α)} : (∀ i < p.length, ¬ sep <+: (p ++ sep ++ rest).drop i) →
      Split sep rest ps → Split sep (p ++ sep ++ rest) (p :: ps)

variable {sep u : List α} {ps : List (List α)}

theorem Split.ne_nil (h : Split sep u ps) : ps ≠ [] := by
  cases h <;> exact cons_ne_nil _ _

theorem Split.eq_singleton (h : Split sep u ps) (hone : ¬ 1 < ps.length) : ps = [u] := by
  cases h with
  | last _ => rfl
  | next _ hrest =>
    have hpos := length_pos_iff.mpr hrest.ne_nil
    rw [length_cons] at hone
    omega

/-- With the separator between them the pieces are the whole. -/
theorem Split.intercalate (h : Split sep u ps) : sep.intercalate ps = u := by
  induction h with
  | last _ => exact intercalate_singleton
  | next _ hrest ih => rw [intercalate_cons_of_ne_nil hrest.ne_nil, ih]

/-- No piece holds the separator. -/
theorem Split.not_infix (hsep : sep ≠ []) (h : Split sep u ps) : ∀ p ∈ ps, ¬ sep <:+: p := by
  induction h with
  | last hnot => simpa using hnot
  | next hfirst _ ih =>
    refine forall_mem_cons.mpr ⟨?_, ih⟩
    rintro ⟨a, b, rfl⟩
    have hpos := length_pos_iff.mpr hsep
    refine hfirst a.length (by simp; omega) ?_
    rw [append_assoc, append_assoc, append_assoc, drop_left]
    exact prefix_append _ _

theorem Split.length_le (hsep : sep ≠ []) (h : Split sep u ps) : ps.length ≤ u.length + 1 := by
  have hpos := length_pos_iff.mpr hsep
  induction h with
  | last _ => simp
  | next _ _ ih =>
    simp only [length_cons, length_append]
    omega

variable [DecidableEq α]

/-- The first occurrence, where the scan goes on. -/
theorem first_next {p rest : List α} (hfirst : ∀ i < p.length, ¬ sep <+: (p ++ sep ++ rest).drop i) :
    first (p ++ sep ++ rest) sep = some p.length := by
  refine first_eq_some.mpr ⟨?_, hfirst⟩
  rw [append_assoc, drop_left]
  exact prefix_append _ _

theorem first_last (hnot : ¬ sep <:+: u) : first u sep = none :=
  first_eq_none.mpr fun i hi hp => hnot (infix_iff.mpr ⟨i, hi, hp⟩)

theorem Split.exists (hsep : sep ≠ []) (u : List α) : ∃ ps, Split sep u ps := by
  induction hn : u.length using Nat.strong_induction_on generalizing u with
  | _ n ih =>
    cases hf : first u sep with
    | none =>
      refine ⟨_, .last fun hin => ?_⟩
      obtain ⟨i, hi, hp⟩ := infix_iff.mp hin
      exact first_eq_none.mp hf i hi hp
    | some i =>
      obtain ⟨⟨rest, hrest⟩, hbefore⟩ := first_eq_some.mp hf
      have hpos := length_pos_iff.mpr hsep
      have htake := length_take_le i u
      have hu : u.take i ++ sep ++ rest = u := by rw [append_assoc, hrest, take_append_drop]
      generalize u.take i = p at hu htake
      subst hu
      obtain ⟨ps, hps⟩ := ih rest.length (by simp only [length_append] at hn; omega) rest rfl
      exact ⟨p :: ps, .next (fun j hj => hbefore j (by omega)) hps⟩

/-- There is one way to split. -/
theorem Split.unique {qs : List (List α)} (h : Split sep u ps) (h' : Split sep u qs) : ps = qs := by
  induction h generalizing qs with
  | last hnot =>
    cases h' with
    | last _ => rfl
    | next _ _ => exact absurd ⟨_, _, rfl⟩ hnot
  | @next p rest ps hfirst _ ih =>
    generalize hu : p ++ sep ++ rest = u at h'
    cases h' with
    | last hnot => exact absurd ⟨_, _, hu⟩ hnot
    | @next q rest' qs hfirst' hqs =>
      have hp := first_next hfirst
      rw [hu, first_next hfirst', Option.some_inj] at hp
      rw [append_assoc, append_assoc] at hu
      obtain ⟨rfl, htail⟩ := append_inj hu hp.symm
      rw [ih (append_cancel_left htail ▸ hqs)]

end Occurrence
