import Mathlib.Data.Finset.Card
import Mathlib.Data.List.Basic
import Mathlib.Logic.Relation

/-!
# Forests given by parents

Every node has a parent or is a root. What is above a node is a chain, so that two nodes have
something below them both only when one is below the other; and the number of the nodes below goes
down along every edge, which bounds the recursions over the children.
-/

namespace Forest

variable {α : Type*} {parent : α → Option α} {nodes : Finset α} {a b c d e : α}

/-- `d` is `a` or descends from it. -/
def Below (parent : α → Option α) (a d : α) : Prop := Relation.ReflTransGen (fun x y => parent y = some x) a d

/-- `d` descends from `a`. -/
def StrictlyBelow (parent : α → Option α) (a d : α) : Prop := Relation.TransGen (fun x y => parent y = some x) a d

/-- No node descends from itself. -/
def Acyclic (parent : α → Option α) : Prop := ∀ c, ¬ StrictlyBelow parent c c

/-- Nothing is below both. -/
def Apart (parent : α → Option α) (a b : α) : Prop := ∀ d, Below parent a d → ¬ Below parent b d

theorem Below.refl (a : α) : Below parent a a := Relation.ReflTransGen.refl

theorem Below.trans (h : Below parent a b) (h' : Below parent b c) : Below parent a c := Relation.ReflTransGen.trans h h'

theorem Below.child (h : parent d = some a) : Below parent a d := Relation.ReflTransGen.single h

theorem below_iff : Below parent a d ↔ d = a ∨ StrictlyBelow parent a d := Relation.reflTransGen_iff_eq_or_transGen

/-- The first step down. -/
theorem strictlyBelow_iff_child : StrictlyBelow parent a d ↔ ∃ x, parent x = some a ∧ Below parent x d :=
  Relation.TransGen.head'_iff

/-- The last step down. -/
theorem strictlyBelow_iff_parent : StrictlyBelow parent a d ↔ ∃ x, Below parent a x ∧ parent d = some x :=
  Relation.TransGen.tail'_iff

theorem below_iff_child : Below parent a d ↔ d = a ∨ ∃ x, parent x = some a ∧ Below parent x d := by
  rw [below_iff, strictlyBelow_iff_child]

/-- **What is above a node is a chain.** -/
theorem Below.chain (ha : Below parent a d) (hb : Below parent b d) : Below parent a b ∨ Below parent b a := by
  have hunique : Relator.RightUnique (Function.swap fun x y => parent y = some x) := by
    intro x y z hy hz
    exact Option.some.inj (hy.symm.trans hz)
  rcases Relation.ReflTransGen.total_of_right_unique hunique ha.swap hb.swap with h | h
  · exact .inr h.swap
  · exact .inl h.swap

theorem Acyclic.antisymm (hc : Acyclic parent) (h : Below parent a b) (h' : Below parent b a) : a = b := by
  rcases below_iff.mp h with rfl | hs
  · rfl
  · exact absurd (Relation.TransGen.trans_left hs h') (hc a)

theorem Acyclic.not_below (hc : Acyclic parent) (h : parent d = some a) : ¬ Below parent d a := by
  intro h'
  have heq := hc.antisymm (Below.child h) h'
  subst heq
  exact hc a (.single h)

/-- Brothers have nothing below them in common. -/
theorem Acyclic.brothers (hc : Acyclic parent) (ha : parent a = some c) (hb : parent b = some c) (hne : a ≠ b) :
    Apart parent a b := by
  have hnot : ∀ {a b}, parent a = some c → parent b = some c → a ≠ b → ¬ Below parent a b := by
    intro a b ha hb hne h
    rcases below_iff.mp h with rfl | hs
    · exact hne rfl
    · obtain ⟨x, hx, hxb⟩ := strictlyBelow_iff_parent.mp hs
      obtain rfl := Option.some.inj (hb.symm.trans hxb)
      exact hc.not_below ha hx
  intro d had hbd
  rcases had.chain hbd with h | h
  · exact hnot ha hb hne h
  · exact hnot hb ha hne.symm h

/-- Nor have roots. -/
theorem roots_apart (ha : parent a = none) (hb : parent b = none) (hne : a ≠ b) : Apart parent a b := by
  have hnot : ∀ {a b}, parent b = none → a ≠ b → ¬ Below parent a b := by
    intro a b hb hne h
    rcases below_iff.mp h with rfl | hs
    · exact hne rfl
    · obtain ⟨x, -, hx⟩ := strictlyBelow_iff_parent.mp hs
      rw [hb] at hx
      cases hx
  intro d had hbd
  rcases had.chain hbd with h | h
  · exact hnot hb hne h
  · exact hnot ha hne.symm h

/-! ### Counting -/

open Classical in
/-- How many nodes are below. -/
noncomputable def count (parent : α → Option α) (nodes : Finset α) (c : α) : ℕ := {d ∈ nodes | Below parent c d}.card

theorem count_pos (h : c ∈ nodes) : 0 < count parent nodes c := by
  classical
  exact Finset.card_pos.mpr ⟨c, Finset.mem_filter.mpr ⟨h, Below.refl c⟩⟩

theorem count_le (c : α) : count parent nodes c ≤ nodes.card := by
  classical
  exact Finset.card_filter_le _ _

/-- Fewer nodes are below a child. -/
theorem Acyclic.count_lt (hc : Acyclic parent) (h : parent d = some c) (hn : c ∈ nodes) :
    count parent nodes d < count parent nodes c := by
  classical
  refine Finset.card_lt_card (Finset.ssubset_iff_of_subset ?_ |>.mpr ⟨c, ?_, ?_⟩)
  · intro x hx
    obtain ⟨hx, hb⟩ := Finset.mem_filter.mp hx
    exact Finset.mem_filter.mpr ⟨hx, (Below.child h).trans hb⟩
  · exact Finset.mem_filter.mpr ⟨hn, Below.refl c⟩
  · intro hin
    exact hc.not_below h (Finset.mem_filter.mp hin).2

/-- Every node is below a root. -/
theorem Acyclic.exists_root (hc : Acyclic parent) (hp : ∀ x y, parent x = some y → y ∈ nodes) (h : c ∈ nodes) :
    ∃ r ∈ nodes, parent r = none ∧ Below parent r c := by
  induction hn : nodes.card - count parent nodes c using Nat.strong_induction_on generalizing c with
  | _ n ih =>
    cases hr : parent c with
    | none => exact ⟨c, h, hr, Below.refl c⟩
    | some p =>
      have hlt := hc.count_lt hr (hp c p hr)
      have hle : count parent nodes p ≤ nodes.card := count_le p
      obtain ⟨r, hrn, hroot, hb⟩ := ih _ (by omega) (hp c p hr) rfl
      exact ⟨r, hrn, hroot, hb.trans (Below.child hr)⟩

end Forest
