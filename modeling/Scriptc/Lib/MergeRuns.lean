import Mathlib.Data.List.Perm.Basic

/-!
# Sorting by merging runs

What a bottom-up merge sort does to a list, apart from how it stores it. A choice `D x y b` says
whether the head `y` of the right run may (`b`) or may not go before the head `x` of the left run.
Whatever the choices are, the result is a permutation; where they follow a total preorder it is
the stable sort.
-/

namespace MergeRuns

open List

variable {α : Type*} {D : α → α → Bool → Prop} {w : ℕ} {xs ys zs : List α}

/-- Two runs and a merge of them. -/
inductive Merged (D : α → α → Bool → Prop) : List α → List α → List α → Prop where
  | left_nil (ys : List α) : Merged D [] ys ys
  | right_nil (xs : List α) : Merged D xs [] xs
  | take_right {x y : α} {xs ys zs : List α} : D x y true → Merged D (x :: xs) ys zs → Merged D (x :: xs) (y :: ys) (y :: zs)
  | take_left {x y : α} {xs ys zs : List α} : D x y false → Merged D xs (y :: ys) zs → Merged D (x :: xs) (y :: ys) (x :: zs)

/-- Two adjacent runs are merged, or left as they are when the choice at their border allows it. -/
inductive Joined (D : α → α → Bool → Prop) (xs ys : List α) : List α → Prop where
  | merge {zs : List α} : Merged D xs ys zs → Joined D xs ys zs
  | keep {x y : α} {xs' ys' : List α} : xs = xs' ++ [x] → ys = y :: ys' → D x y false → Joined D xs ys (xs ++ ys)
  | last : ys = [] → Joined D xs ys (xs ++ ys)

/-- A pass joins the runs of a width two by two. -/
inductive Pass (D : α → α → Bool → Prop) (w : ℕ) : List α → List α → Prop where
  | done : Pass D w [] []
  | join {xs zs zs' : List α} : xs ≠ [] → Joined D (xs.take w) ((xs.drop w).take w) zs →
      Pass D w (xs.drop (w + w)) zs' → Pass D w xs (zs ++ zs')

/-- Passes of doubling widths, until one run is left. -/
inductive Passes (D : α → α → Bool → Prop) : ℕ → List α → List α → Prop where
  | done {w : ℕ} {xs : List α} : xs.length ≤ w → Passes D w xs xs
  | pass {w : ℕ} {xs ys zs : List α} : Pass D w xs ys → Passes D (w * 2) ys zs → Passes D w xs zs

/-! ### Permutations -/

theorem Merged.perm (m : Merged D xs ys zs) : zs.Perm (xs ++ ys) := by
  induction m with
  | left_nil ys => exact .refl _
  | right_nil xs => rw [append_nil]
  | take_right _ _ ih => exact (ih.cons _).trans perm_middle.symm
  | take_left _ _ ih => exact ih.cons _

theorem Joined.perm (j : Joined D xs ys zs) : zs.Perm (xs ++ ys) := by
  cases j with
  | merge m => exact m.perm
  | keep _ _ _ => exact .refl _
  | last _ => exact .refl _

theorem take_take_drop (xs : List α) (w : ℕ) : xs.take w ++ (xs.drop w).take w ++ xs.drop (w + w) = xs := by
  rw [append_assoc, Nat.add_comm, ← drop_drop, take_append_drop, take_append_drop]

theorem Pass.perm (p : Pass D w xs zs) : zs.Perm xs := by
  induction p with
  | done => exact .refl _
  | @join xs zs zs' _ j _ ih =>
    have h := j.perm.append ih
    rwa [take_take_drop] at h

theorem Passes.perm (p : Passes D w xs zs) : zs.Perm xs := by
  induction p with
  | done _ => exact .refl _
  | pass p _ ih => exact ih.trans p.perm

/-! ### Stable sorting -/

/-- The order that the choices follow: a right head goes first only where it is strictly smaller. -/
def Follows (le : α → α → Bool) (x y : α) (b : Bool) : Prop := b = !le x y

/-- Neither of the two is strictly smaller. -/
def same (le : α → α → Bool) (x y : α) : Bool := le x y && le y x

/-- In order, with the elements that are equal in the order where they were. -/
structure Stable (le : α → α → Bool) (xs zs : List α) : Prop where
  sorted : zs.Pairwise (le · · = true)
  stable : ∀ c, zs.filter (same le c) = xs.filter (same le c)

section Order

variable {le : α → α → Bool} (total : ∀ x y, le x y = true ∨ le y x = true)
  (trans : ∀ x y z, le x y = true → le y z = true → le x z = true)

include total trans

theorem Merged.sorted (m : Merged (Follows le) xs ys zs) (hx : xs.Pairwise (le · · = true))
    (hy : ys.Pairwise (le · · = true)) : zs.Pairwise (le · · = true) := by
  induction m with
  | left_nil ys => exact hy
  | right_nil xs => exact hx
  | @take_right x y xs ys zs hd m ih =>
    obtain ⟨hxs, -⟩ := pairwise_cons.mp hx
    obtain ⟨hys, hy⟩ := pairwise_cons.mp hy
    have hyx : le y x = true := (total x y).resolve_left (by simpa [Follows] using hd)
    refine pairwise_cons.mpr ⟨fun z hz => ?_, ih hx hy⟩
    rcases mem_append.mp (m.perm.mem_iff.mp hz) with hz | hz
    · rcases mem_cons.mp hz with rfl | hz
      · exact hyx
      · exact trans _ _ _ hyx (hxs z hz)
    · exact hys z hz
  | @take_left x y xs ys zs hd m ih =>
    obtain ⟨hxs, hx⟩ := pairwise_cons.mp hx
    obtain ⟨hys, -⟩ := pairwise_cons.mp hy
    have hxy : le x y = true := by simpa [Follows] using hd
    refine pairwise_cons.mpr ⟨fun z hz => ?_, ih hx hy⟩
    rcases mem_append.mp (m.perm.mem_iff.mp hz) with hz | hz
    · exact hxs z hz
    · rcases mem_cons.mp hz with rfl | hz
      · exact hxy
      · exact trans _ _ _ hxy (hys z hz)

omit total in
/-- An element that goes before the left run is equal to none of it. -/
theorem Merged.filter (m : Merged (Follows le) xs ys zs) (hx : xs.Pairwise (le · · = true)) (c : α) :
    zs.filter (same le c) =
      xs.filter (same le c) ++ ys.filter (same le c) := by
  induction m with
  | left_nil ys => rfl
  | right_nil xs => simp
  | @take_right x y xs ys zs hd m ih =>
    have hxy : le x y = false := by simpa [Follows] using hd
    obtain ⟨hxs, -⟩ := pairwise_cons.mp hx
    have ih := ih hx
    by_cases hy : same le c y = true
    · have hnone : (x :: xs).filter (same le c) = [] := by
        rw [filter_eq_nil_iff]
        intro z hz hzc
        simp only [same, Bool.and_eq_true] at hy hzc
        have hzy : le z y = true := trans _ _ _ hzc.2 hy.1
        rcases mem_cons.mp hz with rfl | hz
        · rw [hzy] at hxy
          cases hxy
        · rw [trans _ _ _ (hxs z hz) hzy] at hxy
          cases hxy
      rw [hnone, nil_append] at ih ⊢
      rw [filter_cons_of_pos hy, filter_cons_of_pos hy, ih]
    · rw [filter_cons_of_neg hy, filter_cons_of_neg hy, ih]
  | @take_left x y xs ys zs hd m ih =>
    have ih := ih (pairwise_cons.mp hx).2
    by_cases hc : same le c x = true
    · rw [filter_cons_of_pos hc, filter_cons_of_pos hc, ih, cons_append]
    · rw [filter_cons_of_neg hc, filter_cons_of_neg hc, ih]

theorem Joined.sorted (j : Joined (Follows le) xs ys zs) (hx : xs.Pairwise (le · · = true))
    (hy : ys.Pairwise (le · · = true)) : zs.Pairwise (le · · = true) := by
  cases j with
  | merge m => exact m.sorted total trans hx hy
  | @keep x y xs' ys' he hf hd =>
    have hxy : le x y = true := by simpa [Follows] using hd
    refine pairwise_append.mpr ⟨hx, hy, fun a ha b hb => ?_⟩
    have hrefl : ∀ z, le z z = true := fun z => (total z z).elim id id
    have hax : le a x = true := by
      subst he
      rcases mem_append.mp ha with ha | ha
      · exact (pairwise_append.mp hx).2.2 a ha x (by simp)
      · rw [mem_singleton.mp ha]
        exact hrefl x
    have hyb : le y b = true := by
      subst hf
      rcases mem_cons.mp hb with rfl | hb
      · exact hrefl b
      · exact (pairwise_cons.mp hy).1 b hb
    exact trans _ _ _ hax (trans _ _ _ hxy hyb)
  | last he =>
    subst he
    rwa [append_nil]

omit total in
theorem Joined.filter (j : Joined (Follows le) xs ys zs) (hx : xs.Pairwise (le · · = true)) (c : α) :
    zs.filter (same le c) =
      xs.filter (same le c) ++ ys.filter (same le c) := by
  cases j with
  | merge m => exact m.filter trans hx c
  | keep _ _ _ => rw [filter_append]
  | last _ => rw [filter_append]

end Order

/-- Every run of a width is in order. -/
inductive Runs (le : α → α → Bool) (w : ℕ) : List α → Prop where
  | nil : Runs le w []
  | cons {xs : List α} : (xs.take w).Pairwise (le · · = true) → Runs le w (xs.drop w) → Runs le w xs

variable {le : α → α → Bool}

theorem Runs.head (r : Runs le w xs) : (xs.take w).Pairwise (le · · = true) := by
  cases r with
  | nil => simp
  | cons h _ => exact h

theorem Runs.tail (r : Runs le w xs) : Runs le w (xs.drop w) := by
  cases r with
  | nil => rw [drop_nil]; exact .nil
  | cons _ h => exact h

theorem runs_one : ∀ xs : List α, Runs le 1 xs
  | [] => .nil
  | x :: xs => .cons (by simp) (runs_one xs)

section Order

variable (total : ∀ x y, le x y = true ∨ le y x = true)
  (trans : ∀ x y z, le x y = true → le y z = true → le x z = true)
include total trans

/-- **A pass** doubles the runs and keeps equal elements in their order. -/
theorem Pass.runs (p : Pass (Follows le) w xs zs) (r : Runs le w xs) : Runs le (w * 2) zs ∧
    ∀ c, zs.filter (same le c) = xs.filter (same le c) := by
  induction p with
  | done => exact ⟨.nil, fun _ => rfl⟩
  | @join xs zs zs' _ j p ih =>
    have r' : Runs le w (xs.drop (w + w)) := by
      rw [← drop_drop]
      exact r.tail.tail
    obtain ⟨hr, hf⟩ := ih r'
    have hlen : zs.length = min w xs.length + min w (xs.length - w) := by
      rw [j.perm.length_eq, length_append, length_take, length_take, length_drop]
    have hlen' : zs'.length = xs.length - (w + w) := by rw [p.perm.length_eq, length_drop]
    refine ⟨.cons ?_ ?_, fun c => ?_⟩
    · have htake : (zs ++ zs').take (w * 2) = zs := by
        rw [take_append, take_of_length_le (by omega)]
        have : zs'.take (w * 2 - zs.length) = [] := by
          rw [take_eq_nil_iff]
          by_cases hw : xs.length ≤ w + w
          · exact .inr (length_eq_zero_iff.mp (by omega))
          · exact .inl (by omega)
        rw [this, append_nil]
      rw [htake]
      exact j.sorted total trans r.head r.tail.head
    · have hdrop : (zs ++ zs').drop (w * 2) = zs' := by
        rw [drop_append, drop_eq_nil_of_le (by omega), nil_append]
        by_cases hw : xs.length ≤ w + w
        · rw [length_eq_zero_iff.mp (show zs'.length = 0 by omega), drop_nil]
        · rw [show w * 2 - zs.length = 0 by omega, drop_zero]
      rw [hdrop]
      exact hr
    · rw [filter_append, j.filter trans r.head c, hf c, ← filter_append, ← filter_append, take_take_drop]

/-- **Passes of doubling widths sort, and the sort is stable.** -/
theorem Passes.stable (p : Passes (Follows le) w xs zs) (r : Runs le w xs) : Stable le xs zs := by
  induction p with
  | @done w xs hw =>
    refine ⟨?_, fun _ => rfl⟩
    have := r.head
    rwa [take_of_length_le hw] at this
  | pass p _ ih =>
    obtain ⟨hr, hf⟩ := p.runs total trans r
    obtain ⟨hs, hst⟩ := ih hr
    exact ⟨hs, fun c => (hst c).trans (hf c)⟩

end Order

end MergeRuns
