import Mathlib.Data.List.Count
import Mathlib.Data.List.Dedup
import Mathlib.Data.List.Flatten
import Mathlib.Data.List.Perm.Basic
import Mathlib.Data.Set.Finite.List
import Mathlib.Order.WellFounded
import Mathlib.Logic.Relation

/-!
# Graphs given by successor lists

What is reachable from a list of roots, and how many edges come in to a node. A successor that is
listed twice is two edges.
-/

namespace Graph

open List Function

variable {α : Type*} {succ succ' : α → List α} {roots roots' nodes : List α} {x y : α}

/-- `x` can be reached from one of the roots. -/
def Reach (succ : α → List α) (roots : List α) (x : α) : Prop :=
  ∃ r ∈ roots, Relation.ReflTransGen (fun a b => b ∈ succ a) r x

namespace Reach

theorem root (h : x ∈ roots) : Reach succ roots x := ⟨x, h, .refl⟩

theorem tail (h : Reach succ roots x) (hy : y ∈ succ x) : Reach succ roots y := by
  obtain ⟨r, hr, hp⟩ := h
  exact ⟨r, hr, hp.tail hy⟩

theorem trans (h : Reach succ roots x) (hy : Reach succ [x] y) : Reach succ roots y := by
  obtain ⟨r, hr, hp⟩ := h
  obtain ⟨r', hr', hp'⟩ := hy
  obtain rfl : r' = x := by simpa using hr'
  exact ⟨r, hr, hp.trans hp'⟩

variable {S : α → Prop}

/-- **The induction rule**: a set that holds the roots and is closed along edges holds all that is
reachable. -/
theorem induct (h : Reach succ roots x) (h0 : ∀ r ∈ roots, S r)
    (hs : ∀ a, S a → ∀ b ∈ succ a, S b) : S x := by
  obtain ⟨r, hr, hp⟩ := h
  induction hp with
  | refl => exact h0 r hr
  | tail _ hb ih => exact hs _ ih _ hb

/-- The same, where the set is closed along the edges of what is reachable. -/
theorem induct' (h : Reach succ roots x) (h0 : ∀ r ∈ roots, S r)
    (hs : ∀ a, Reach succ roots a → S a → ∀ b ∈ succ a, S b) : S x := by
  refine (h.induct (S := fun a => Reach succ roots a ∧ S a) (fun r hr => ⟨.root hr, h0 r hr⟩) ?_).2
  rintro a ⟨ha, hS⟩ b hb
  exact ⟨ha.tail hb, hs a ha hS b hb⟩

theorem mono (h : Reach succ roots x) (hr : ∀ r ∈ roots, Reach succ roots' r) : Reach succ roots' x :=
  h.induct hr fun _ ha _ hb => ha.tail hb

/-- The first step of a path. -/
theorem cases_head (h : Reach succ [x] y) : y = x ∨ Reach succ (succ x) y := by
  refine h.induct (S := fun z => z = x ∨ Reach succ (succ x) z) (fun r hr => .inl (by simpa using hr)) ?_
  rintro a (rfl | ha) b hb
  · exact .inr (.root hb)
  · exact .inr (ha.tail hb)

/-- Edges that are the same at all that is reachable reach the same. -/
theorem congr (h : Reach succ roots x) (he : ∀ a, Reach succ roots a → succ' a = succ a) : Reach succ' roots x :=
  h.induct' (fun _ hr => .root hr) fun a ha hS b hb => hS.tail (by rwa [he a ha])

/-- A path into a closed set enters it somewhere: at a root, or along an edge from outside. -/
theorem enters (h : Reach succ roots x) (hx : S x) :
    ∃ y, S y ∧ Reach succ [y] x ∧ (y ∈ roots ∨ ∃ a, ¬ S a ∧ Reach succ roots a ∧ y ∈ succ a) := by
  classical
  obtain ⟨r, hr, hp⟩ := h
  -- along the path, from its end: the last edge that comes from outside
  induction hp with
  | refl => exact ⟨r, hx, .root (by simp), .inl hr⟩
  | @tail b c hb hbc ih =>
    by_cases hS : S b
    · obtain ⟨y, hy, hyb, hin⟩ := ih hS
      exact ⟨y, hy, hyb.tail hbc, hin⟩
    · exact ⟨c, hx, .root (by simp), .inr ⟨b, hS, ⟨r, hr, hb⟩, hbc⟩⟩

end Reach

/-- Where no cycle leads through a marked node, a finite set in which every node comes after a
marked one is empty. -/
theorem none_of_marked (nodes : List α) (S marked : α → Prop) (hfin : ∀ x, S x → x ∈ nodes)
    (hcyc : ∀ d, S d → marked d → ¬ Reach succ (succ d) d)
    (hanc : ∀ x, S x → ∃ d, S d ∧ marked d ∧ Reach succ (succ d) x) (x : α) : ¬ S x := by
  let before (a b : {a // a ∈ nodes}) : Prop := S a ∧ marked a ∧ Reach succ (succ a) b
  have : IsTrans _ before := ⟨fun a b c hab hbc => ⟨hab.1, hab.2.1, hbc.2.2.mono fun r hr => hab.2.2.tail hr⟩⟩
  have : Std.Irrefl before := ⟨fun a ha => hcyc a ha.1 ha.2.1 ha.2.2⟩
  have : Finite {a // a ∈ nodes} := finite_toSet nodes
  have wf := Finite.wellFounded_of_trans_of_irrefl before
  suffices hs : ∀ a : {a // a ∈ nodes}, ¬ S a from fun hx => hs ⟨x, hfin x hx⟩ hx
  intro a
  induction a using wf.induction with
  | _ a ih =>
    intro ha
    obtain ⟨d, hd, hm, hr⟩ := hanc a ha
    exact ih ⟨d, hfin d hd⟩ ⟨hd, hm, hr⟩ hd

/-! ### Edges coming in -/

section Indegree

variable [DecidableEq α]

/-- How many edges of the nodes lead to `x`. -/
def indegree (succ : α → List α) (nodes : List α) (x : α) : ℕ := (nodes.flatMap succ).count x

@[simp] theorem indegree_nil : indegree succ [] x = 0 := rfl

theorem indegree_cons (a : α) : indegree succ (a :: nodes) x = (succ a).count x + indegree succ nodes x := by
  simp [indegree]

theorem indegree_append (l l' : List α) : indegree succ (l ++ l') x = indegree succ l x + indegree succ l' x := by
  simp [indegree]

theorem indegree_perm {l l' : List α} (h : l.Perm l') : indegree succ l x = indegree succ l' x :=
  (h.flatMap_right succ).count_eq x

theorem indegree_pos : 0 < indegree succ nodes x ↔ ∃ a ∈ nodes, x ∈ succ a := by
  rw [indegree, count_pos_iff]
  simp

theorem indegree_congr (h : ∀ a ∈ nodes, succ a = succ' a) : indegree succ nodes x = indegree succ' nodes x := by
  rw [indegree, indegree, flatMap_congr h]

/-- The edges from a part of the nodes and those from the rest. -/
theorem indegree_split (succ : α → List α) {part : List α} (hn : nodes.Nodup) (hp : part.Nodup) (hsub : part ⊆ nodes) :
    indegree succ nodes x = indegree succ part x + indegree succ (nodes.filter (· ∉ part)) x := by
  have hperm : nodes.Perm (part ++ nodes.filter (· ∉ part)) := by
    refine (perm_ext_iff_of_nodup hn ?_).mpr fun a => ?_
    · refine hp.append (hn.filter _) fun a ha hf => ?_
      simp [ha] at hf
    · by_cases ha : a ∈ part
      · simp [ha, hsub ha]
      · simp [ha]
  rw [indegree_perm hperm, indegree_append]

/-- Taking one node away takes its edges away. -/
theorem indegree_erase (hy : y ∈ nodes) :
    indegree succ nodes x = (succ y).count x + indegree succ (nodes.erase y) x := by
  rw [indegree_perm (perm_cons_erase hy), indegree_cons]

/-- New successors for one node. -/
theorem indegree_update (succ : α → List α) (hn : nodes.Nodup) (hy : y ∈ nodes) (l : List α) :
    indegree (update succ y l) nodes x + (succ y).count x = indegree succ nodes x + l.count x := by
  rw [indegree_erase hy, indegree_erase hy, update_self]
  have : ∀ a ∈ nodes.erase y, update succ y l a = succ a := by
    intro a ha
    rw [update_of_ne]
    rintro rfl
    exact hn.not_mem_erase ha
  rw [indegree_congr this]
  omega

/-- One node more in a part of the nodes. -/
theorem indegree_filter_insert {p q : α → Bool} (hn : nodes.Nodup) (hy : y ∈ nodes) (hp : p y = false) (hq : q y = true)
    (ho : ∀ a, a ≠ y → p a = q a) :
    indegree succ (nodes.filter q) x = (succ y).count x + indegree succ (nodes.filter p) x := by
  have hyq : y ∈ nodes.filter q := mem_filter.mpr ⟨hy, hq⟩
  rw [indegree_erase hyq]
  congr 1
  refine indegree_perm ((perm_ext_iff_of_nodup ((hn.filter _).erase _) (hn.filter _)).mpr fun a => ?_)
  rw [(hn.filter _).mem_erase_iff, mem_filter, mem_filter]
  by_cases hay : a = y
  · subst hay
    simp [hp]
  · simp [hay, ho a hay]

theorem indegree_filter_le (p : α → Bool) : indegree succ (nodes.filter p) x ≤ indegree succ nodes x := by
  induction nodes with
  | nil => simp
  | cons a l ih =>
    by_cases ha : p a = true
    · rw [filter_cons_of_pos ha, indegree_cons, indegree_cons]
      omega
    · rw [filter_cons_of_neg ha, indegree_cons]
      omega

end Indegree

/-! ### The length of the edge lists -/

/-- How many edges a part of the nodes has. -/
def outdegree (succ : α → List α) (nodes : List α) : ℕ := (nodes.flatMap succ).length

theorem outdegree_cons (a : α) : outdegree succ (a :: nodes) = (succ a).length + outdegree succ nodes := by
  simp [outdegree]

theorem outdegree_filter_le (p : α → Bool) : outdegree succ (nodes.filter p) ≤ outdegree succ nodes := by
  induction nodes with
  | nil => simp
  | cons a l ih =>
    by_cases ha : p a = true
    · rw [filter_cons_of_pos ha, outdegree_cons, outdegree_cons]
      omega
    · rw [filter_cons_of_neg ha, outdegree_cons]
      omega

theorem outdegree_mono (succ : α → List α) {p q : α → Bool} (h : ∀ a ∈ nodes, p a = true → q a = true) :
    outdegree succ (nodes.filter p) ≤ outdegree succ (nodes.filter q) := by
  induction nodes with
  | nil => simp
  | cons a l ih =>
    have ih := ih fun b hb => h b (mem_cons_of_mem _ hb)
    have ha := h a mem_cons_self
    by_cases hp : p a = true
    · rw [filter_cons_of_pos hp, filter_cons_of_pos (ha hp), outdegree_cons, outdegree_cons]
      omega
    · rw [filter_cons_of_neg hp]
      by_cases hq : q a = true
      · rw [filter_cons_of_pos hq, outdegree_cons]
        omega
      · rwa [filter_cons_of_neg hq]

/-- One node less. -/
theorem outdegree_lt [DecidableEq α] (succ : α → List α) {p q : α → Bool} (hy : y ∈ nodes) (hp : p y = false) (hq : q y = true)
    (ho : ∀ a ∈ nodes, p a = true → q a = true) :
    (succ y).length + outdegree succ (nodes.filter p) ≤ outdegree succ (nodes.filter q) := by
  induction nodes with
  | nil => exact absurd hy not_mem_nil
  | cons a l ih =>
    have hmono := outdegree_mono succ fun b hb => ho b (mem_cons_of_mem _ hb)
    by_cases hay : a = y
    · subst hay
      rw [filter_cons_of_neg (by simp [hp]), filter_cons_of_pos hq, outdegree_cons]
      omega
    · have hyl : y ∈ l := (mem_cons.mp hy).resolve_left (Ne.symm hay)
      have ih := ih hyl fun b hb => ho b (mem_cons_of_mem _ hb)
      have ha := ho a mem_cons_self
      by_cases hpa : p a = true
      · rw [filter_cons_of_pos hpa, filter_cons_of_pos (ha hpa), outdegree_cons, outdegree_cons]
        omega
      · rw [filter_cons_of_neg hpa]
        by_cases hqa : q a = true
        · rw [filter_cons_of_pos hqa, outdegree_cons]
          omega
        · rwa [filter_cons_of_neg hqa]

end Graph
