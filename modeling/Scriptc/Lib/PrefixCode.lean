import Mathlib.Data.List.Basic

/-!
# Prefix codes

A code gives every symbol a word, and no word begins another one. A text in such a code is read
letter by letter: what has been read since the last symbol is a part of a word, and when it is a
whole word, its symbol is out. What such a reader accepts is what the code spells, up to the part
of a word at the end (`read_eq_some_iff`), and it can be spelled in one way only (`Lawful.unique`).
-/

namespace PrefixCode

open List

variable {σ α : Type} {word : σ → List α}

/-- No word is empty or begins the word of another symbol. -/
structure Lawful (word : σ → List α) : Prop where
  ne_nil : ∀ s, word s ≠ []
  eq_of_prefix : ∀ s t, word s <+: word t → s = t

/-- A part of a word, but not all of it. -/
def Pending (word : σ → List α) (p : List α) : Prop := ∃ s, p <+: word s ∧ p ≠ word s

def spell (word : σ → List α) (ss : List σ) : List α := ss.flatMap word

@[simp] theorem spell_nil : spell word [] = [] := rfl

@[simp] theorem spell_cons (s : σ) (ss : List σ) : spell word (s :: ss) = word s ++ spell word ss := rfl

theorem pending_nil (h : Lawful word) (s : σ) : Pending word [] := ⟨s, nil_prefix, (h.ne_nil s).symm⟩

/-- No word begins a part of a word. -/
theorem Lawful.not_prefix (h : Lawful word) {p : List α} (hp : Pending word p) (s : σ) : ¬word s <+: p := by
  obtain ⟨t, ht, hne⟩ := hp
  intro hs
  obtain rfl := h.eq_of_prefix s t (hs.trans ht)
  exact hne (ht.eq_of_length (Nat.le_antisymm ht.length_le hs.length_le))

/-- Two words that begin one text are one word. -/
theorem Lawful.eq_of_prefixes (h : Lawful word) {s t : σ} {l : List α} (hs : word s <+: l) (ht : word t <+: l) : s = t := by
  rcases prefix_or_prefix_of_prefix hs ht with hp | hp
  · exact h.eq_of_prefix s t hp
  · exact (h.eq_of_prefix t s hp).symm

/-- There is one way to spell a text. -/
theorem Lawful.unique (h : Lawful word) {ss ts : List σ} {p q : List α} (hp : Pending word p) (hq : Pending word q)
    (heq : spell word ss ++ p = spell word ts ++ q) : ss = ts ∧ p = q := by
  induction ss generalizing ts with
  | nil =>
    cases ts with
    | nil => exact ⟨rfl, heq⟩
    | cons t ts =>
      rw [spell_nil, nil_append, spell_cons, append_assoc] at heq
      exact absurd ⟨_, heq.symm⟩ (h.not_prefix hp t)
  | cons s ss ih =>
    rw [spell_cons, append_assoc] at heq
    cases ts with
    | nil =>
      rw [spell_nil, nil_append] at heq
      exact absurd ⟨_, heq⟩ (h.not_prefix hq s)
    | cons t ts =>
      rw [spell_cons, append_assoc] at heq
      obtain rfl := h.eq_of_prefixes (prefix_append (word s) _) ⟨_, heq.symm⟩
      obtain ⟨rfl, rfl⟩ := ih (append_cancel_left heq)
      exact ⟨rfl, rfl⟩

/-! ### Reading -/

/-- What was read since the last symbol, and the symbols. -/
structure Walk (σ α : Type) where
  path : List α
  out : List σ

variable {β : Type}

/-- A machine reads the code. Its state has a walk, and a good state is one that has not gone astray:
a whole word gives its symbol, if the symbol is wanted, and with a part of a word the walk goes on. -/
structure Reads (word : σ → List α) (wanted : σ → Prop) (good : β → Prop) (walk : β → Walk σ α) (step : β → α → Option β) :
    Prop where
  whole : ∀ w a s, good w → (walk w).path ++ [a] = word s → wanted s →
    ∃ w', step w a = some w' ∧ good w' ∧ walk w' = ⟨[], (walk w).out ++ [s]⟩
  unwanted : ∀ w a s, good w → (walk w).path ++ [a] = word s → ¬wanted s → step w a = none
  part : ∀ w a, good w → Pending word ((walk w).path ++ [a]) →
    ∃ w', step w a = some w' ∧ good w' ∧ walk w' = ⟨(walk w).path ++ [a], (walk w).out⟩
  other : ∀ w a, good w → (∀ s, ¬(walk w).path ++ [a] <+: word s) → step w a = none

variable {wanted : σ → Prop} {good : β → Prop} {walk : β → Walk σ α} {step : β → α → Option β}

/-- The symbols that a walk has still to give, and what it ends with. -/
def Finishes (word : σ → List α) (wanted : σ → Prop) (w : Walk σ α) (l : List α) (w' : Walk σ α) : Prop :=
  ∃ ss, w'.out = w.out ++ ss ∧ w.path ++ l = spell word ss ++ w'.path ∧ Pending word w'.path ∧ ∀ s ∈ ss, wanted s

variable {w w' : Walk σ α}

/-- A word that was begun is the first one that is spelled. -/
theorem Lawful.finishes_whole (h : Lawful word) {a : α} {l : List α} {s : σ}
    (hs : w.path ++ [a] = word s) : Finishes word wanted w (a :: l) w' ↔
      wanted s ∧ Finishes word wanted ⟨[], w.out ++ [s]⟩ l w' := by
  have hsplit : w.path ++ a :: l = word s ++ l := by rw [← hs, append_assoc, singleton_append]
  constructor
  · rintro ⟨ss, hout, heq, hp, hw⟩
    rw [hsplit] at heq
    cases ss with
    | nil =>
      rw [spell_nil, nil_append] at heq
      exact absurd ⟨_, heq⟩ (h.not_prefix hp s)
    | cons t ss =>
      rw [spell_cons, append_assoc] at heq
      obtain rfl := h.eq_of_prefixes (prefix_append (word s) _) ⟨_, heq.symm⟩
      refine ⟨hw s mem_cons_self, ss, ?_, append_cancel_left heq, hp, fun t ht => hw t (mem_cons_of_mem s ht)⟩
      rw [hout, append_assoc, singleton_append]
  · rintro ⟨hws, ss, hout, heq, hp, hw⟩
    refine ⟨s :: ss, ?_, ?_, hp, forall_mem_cons.mpr ⟨hws, hw⟩⟩
    · rw [hout, append_assoc, singleton_append]
    · rw [hsplit, spell_cons, append_assoc]
      exact congrArg (word s ++ ·) heq

/-- What begins no word is not spelled. -/
theorem Lawful.not_finishes (h : Lawful word) {a : α} {l : List α} (hw : Pending word w.path)
    (ha : ∀ s, ¬w.path ++ [a] <+: word s) : ¬Finishes word wanted w (a :: l) w' := by
  rintro ⟨ss, -, heq, ⟨t, ht, -⟩, -⟩
  have hbegin : w.path ++ [a] <+: w.path ++ a :: l := ⟨l, by rw [append_assoc, singleton_append]⟩
  cases ss with
  | nil =>
    rw [spell_nil, nil_append] at heq
    exact ha t ((heq ▸ hbegin).trans ht)
  | cons s ss =>
    rw [spell_cons, append_assoc] at heq
    have hs : word s <+: w.path ++ a :: l := ⟨_, heq.symm⟩
    rcases prefix_or_prefix_of_prefix hbegin hs with hp | hp
    · exact ha s hp
    · -- the word ends before the letter, or with it
      rcases prefix_concat_iff.mp hp with heq' | hp
      · exact ha s (heq' ▸ prefix_rfl)
      · exact h.not_prefix hw s hp

theorem finishes_nil_iff (h : Lawful word) (hw : Pending word w.path) :
    Finishes word wanted w [] w' ↔ w = w' := by
  constructor
  · rintro ⟨ss, hout, heq, -, -⟩
    rw [append_nil] at heq
    cases ss with
    | nil =>
      rw [spell_nil, nil_append] at heq
      rw [append_nil] at hout
      cases w
      cases w'
      rw [Walk.mk.injEq]
      exact ⟨heq, hout.symm⟩
    | cons s ss =>
      rw [spell_cons, append_assoc] at heq
      exact absurd ⟨_, heq.symm⟩ (h.not_prefix hw s)
  · rintro rfl
    exact ⟨[], by simp, by simp, hw, by simp⟩

/-- **What a reader accepts** is what the code spells. -/
theorem Lawful.read_iff (h : Lawful word) (r : Reads word wanted good walk step) {w : β} (hg : good w)
    (hw : Pending word (walk w).path) (l : List α) (v : Walk σ α) :
    (∃ w', l.foldlM step w = some w' ∧ walk w' = v) ↔ Finishes word wanted (walk w) l v := by
  induction l generalizing w with
  | nil =>
    rw [finishes_nil_iff h hw]
    exact ⟨fun ⟨w', heq, hv⟩ => Option.some.inj heq ▸ hv, fun heq => ⟨w, rfl, heq⟩⟩
  | cons a l ih =>
    rw [foldlM_cons]
    by_cases hword : ∃ s, (walk w).path ++ [a] <+: word s
    · obtain ⟨s, hs⟩ := hword
      by_cases heq : (walk w).path ++ [a] = word s
      · rw [h.finishes_whole heq]
        by_cases hws : wanted s
        · obtain ⟨w', hstep, hg', hw'⟩ := r.whole w a s hg heq hws
          rw [hstep, Option.bind_eq_bind, Option.bind_some, ih hg' (hw' ▸ pending_nil h s), hw']
          exact (and_iff_right hws).symm
        · rw [r.unwanted w a s hg heq hws]
          exact ⟨nofun, fun hf => absurd hf.1 hws⟩
      · have hpart : Pending word ((walk w).path ++ [a]) := ⟨s, hs, heq⟩
        obtain ⟨w', hstep, hg', hw'⟩ := r.part w a hg hpart
        rw [hstep, Option.bind_eq_bind, Option.bind_some, ih hg' (hw' ▸ hpart), hw', Finishes, Finishes, append_assoc,
          singleton_append]
    · have hnone : ∀ s, ¬(walk w).path ++ [a] <+: word s := fun s hs => hword ⟨s, hs⟩
      rw [r.other w a hg hnone]
      exact ⟨nofun, fun hf => absurd hf (h.not_finishes hw hnone)⟩

end PrefixCode
