import Mathlib.Algebra.Order.Group.Nat
import Mathlib.Data.List.Basic
import Mathlib.Data.List.Dedup
import Mathlib.Data.List.Forall2

/-!
# Ordered maps that change while they are iterated

An ordered map is a list of slots in the order in which their keys were first inserted. A deletion
empties a slot, and a cursor is a position in the list: it shows the entries that it reaches, those
included that come after it was opened. `step` is this machine, with any number of cursors.

An implementation may drop empty slots when no cursor is open. `Sim` relates its slots and cursors
to those of the machine: the entries are the same, and at each cursor so are those before it and
those after it. Every operation keeps the relation when both sides perform it
(`Sim.put`, `Sim.append`, `Sim.erase`, `Sim.clear`, `Sim.next`, `Sim.opened`, `Sim.closed`), and so
does dropping the empty slots of one side (`Sim.compact`).

Keys are compared by a predicate, of which nothing is asked.
-/

namespace LiveMap

open List

variable {K V : Type}

abbrev Slots (K V : Type) := List (Option (K × V))

/-- The entries. -/
def live (l : Slots K V) : List (K × V) := l.filterMap id

@[simp] theorem live_nil : live ([] : Slots K V) = [] := rfl

@[simp] theorem live_none (l : Slots K V) : live (none :: l) = live l := rfl

@[simp] theorem live_some (e : K × V) (l : Slots K V) : live (some e :: l) = e :: live l := rfl

@[simp] theorem live_append (l m : Slots K V) : live (l ++ m) = live l ++ live m := filterMap_append

/-! ### The operations on slots -/

/-- The first entry whose key matches. -/
def find (p : K → Bool) (l : Slots K V) : Option (K × V) := (live l).find? fun e => p e.1

/-- Whether there is one. -/
def has (p : K → Bool) (l : Slots K V) : Bool := (live l).any fun e => p e.1

/-- Change the first slot whose key matches. -/
def alter (p : K → Bool) (f : K × V → Option (K × V)) : Slots K V → Slots K V
  | [] => []
  | none :: l => none :: alter p f l
  | some e :: l => if p e.1 then f e :: l else some e :: alter p f l

/-- The value of the first entry whose key matches. -/
def put (p : K → Bool) (v : V) : Slots K V → Slots K V := alter p fun e => some (e.1, v)

/-- Empty the first slot whose key matches. -/
def erase (p : K → Bool) : Slots K V → Slots K V := alter p fun _ => none

/-- Empty every slot. -/
def clear (l : Slots K V) : Slots K V := l.map fun _ => none

/-- A new value for the key, at the end if there was none. -/
def set (p : K → Bool) (k : K) (v : V) (l : Slots K V) : Slots K V := if has p l then put p v l else l ++ [some (k, v)]

/-- The next entry from a position on, and the position after it. -/
def advance : Slots K V → ℕ → Option ((K × V) × ℕ)
  | [], _ => none
  | none :: l, i => advance l (i + 1)
  | some e :: _, i => some (e, i + 1)

/-! ### The machine -/

inductive Op (K V : Type) where
  | set (k : K) (v : V)
  | get (k : K)
  | has (k : K)
  | delete (k : K)
  | clear
  | size
  | enter
  | next (c : ℕ)
  | leave (c : ℕ)

inductive Res (K V : Type) where
  | done
  | value (v : Option V)
  | flag (b : Bool)
  | count (n : ℕ)
  | entry (e : Option (K × V))
  deriving DecidableEq

/-- A map with its cursors. -/
structure State (K V : Type) where
  slots : Slots K V
  /-- The positions of the cursors; one that is closed or has come to the end has none. -/
  cursors : List (Option ℕ)

/-- The key that a cursor shows for a key that was inserted, and when two keys are the same. -/
structure Keys (K : Type) where
  stored : K → K
  same : K → K → Bool

variable (keys : Keys K)

def next (s : State K V) (c : ℕ) : State K V × Res K V :=
  match s.cursors[c]? with
  | some (some j) =>
    match advance (s.slots.drop j) j with
    | some (e, j') => ({ s with cursors := s.cursors.set c (some j') }, .entry (some e))
    | none => ({ s with cursors := s.cursors.set c none }, .entry none)
  | _ => (s, .entry none)

def step (s : State K V) : Op K V → State K V × Res K V
  | .set k v => ({ s with slots := set (keys.same · k) (keys.stored k) v s.slots }, .done)
  | .get k => (s, .value ((find (keys.same · k) s.slots).map Prod.snd))
  | .has k => (s, .flag (has (keys.same · k) s.slots))
  | .delete k => ({ s with slots := erase (keys.same · k) s.slots }, .flag (has (keys.same · k) s.slots))
  | .clear => ({ s with slots := clear s.slots }, .done)
  | .size => (s, .count (live s.slots).length)
  | .enter => ({ s with cursors := s.cursors ++ [some 0] }, .done)
  | .next c => next s c
  | .leave c => ({ s with cursors := s.cursors.set c none }, .done)

/-- The state after some operations. -/
def after (s : State K V) (ops : List (Op K V)) : State K V := ops.foldl (fun s op => (step keys s op).1) s

/-- The results of a run. -/
def run : State K V → List (Op K V) → List (Res K V)
  | _, [] => []
  | s, op :: ops => (step keys s op).2 :: run (step keys s op).1 ops

/-! ### One slot is changed -/

variable {p : K → Bool} {f : K × V → Option (K × V)}

/-- The change, on the entries alone. -/
def alterLive (p : K → Bool) (f : K × V → Option (K × V)) : List (K × V) → List (K × V)
  | [] => []
  | e :: l => if p e.1 then (f e).toList ++ l else e :: alterLive p f l

theorem live_alter (l : Slots K V) : live (alter p f l) = alterLive p f (live l) := by
  induction l with
  | nil => rfl
  | cons s l ih =>
    cases s with
    | none => exact ih
    | some e =>
      rw [alter, live_some, alterLive]
      split_ifs
      · cases h : f e <;> simp
      · rw [live_some, ih]

@[simp] theorem length_alter (l : Slots K V) : (alter p f l).length = l.length := by
  induction l with
  | nil => rfl
  | cons s l ih =>
    cases s with
    | none => rw [alter, length_cons, length_cons, ih]
    | some e =>
      rw [alter]
      split_ifs
      · rfl
      · rw [length_cons, length_cons, ih]

/-- The first match is before a position, or after it. -/
theorem alter_append (l m : Slots K V) : alter p f (l ++ m) = if has p l then alter p f l ++ m else l ++ alter p f m := by
  induction l with
  | nil => rfl
  | cons s l ih =>
    cases s with
    | none =>
      rw [cons_append, alter, ih, alter]
      have : has p (none :: l) = has p l := rfl
      rw [this]
      split_ifs <;> rfl
    | some e =>
      have h : has p (some e :: l) = (p e.1 || has p l) := rfl
      rw [cons_append, alter, alter, h]
      by_cases hp : p e.1 = true
      · rw [if_pos hp, if_pos hp, hp, Bool.true_or, if_pos rfl, cons_append]
      · rw [if_neg hp, if_neg hp, ih, Bool.eq_false_iff.mpr hp, Bool.false_or]
        split_ifs <;> rfl

variable {l : Slots K V}

theorem alter_eq_self (h : has p l = false) : alter p f l = l := by
  have happ := alter_append (p := p) (f := f) l []
  rw [append_nil, h, if_neg Bool.false_ne_true] at happ
  exact happ.trans (append_nil l)

variable {i : ℕ}

theorem alter_take (hi : i ≤ l.length) :
    (alter p f l).take i = if has p (l.take i) then alter p f (l.take i) else l.take i := by
  conv_lhs => rw [← take_append_drop i l, alter_append]
  have hlen : (l.take i).length = i := by rw [length_take, min_eq_left hi]
  split_ifs
  · rw [take_left' (by rw [length_alter, hlen])]
  · rw [take_left' hlen]

theorem alter_drop (hi : i ≤ l.length) :
    (alter p f l).drop i = if has p (l.take i) then l.drop i else alter p f (l.drop i) := by
  conv_lhs => rw [← take_append_drop i l, alter_append]
  have hlen : (l.take i).length = i := by rw [length_take, min_eq_left hi]
  split_ifs
  · rw [drop_left' (by rw [length_alter, hlen])]
  · rw [drop_left' hlen]

/-- Where there is only one match. -/
theorem alter_eq_set {e : K × V} (he : l[i]? = some (some e)) (hp : p e.1 = true)
    (honly : ∀ j e', l[j]? = some (some e') → p e'.1 = true → j = i) : alter p f l = l.set i (f e) := by
  induction l generalizing i with
  | nil => cases he
  | cons s l ih =>
    cases i with
    | zero =>
      obtain rfl : s = some e := Option.some.inj he
      rw [alter, if_pos hp, set_cons_zero]
    | succ i =>
      have hl : alter p f l = l.set i (f e) := ih he fun j e' hj hp' => Nat.succ.inj (honly (j + 1) e' hj hp')
      cases s with
      | none => rw [alter, hl, set_cons_succ]
      | some e' =>
        have hne : ¬p e'.1 = true := fun hp' => absurd (honly 0 e' rfl hp') (Nat.succ_ne_zero i).symm
        rw [alter, if_neg hne, hl, set_cons_succ]

/-! ### The relation -/

/-- The same entries before and after two positions. -/
structure At (l m : Slots K V) (i j : ℕ) : Prop where
  left : i ≤ l.length
  right : j ≤ m.length
  before : live (l.take i) = live (m.take j)
  after : live (l.drop i) = live (m.drop j)

def CursorSim (l m : Slots K V) : Option ℕ → Option ℕ → Prop
  | some i, some j => At l m i j
  | none, none => True
  | _, _ => False

/-- The slots and cursors of an implementation, and those of the machine. -/
structure Sim (l : Slots K V) (cs : List (Option ℕ)) (s : State K V) : Prop where
  live : live l = live s.slots
  cursors : List.Forall₂ (CursorSim l s.slots) cs s.cursors

variable {l m : Slots K V} {cs : List (Option ℕ)} {s : State K V}

theorem has_eq (h : live l = live m) : has p l = has p m := by rw [has, has, h]

theorem find_eq (h : live l = live m) : find p l = find p m := by rw [find, find, h]

/-- The only match is found. -/
theorem find_eq_some {e : K × V} (he : e ∈ live l) (hp : p e.1 = true) (honly : ∀ e' ∈ live l, p e'.1 = true → e' = e) :
    find p l = some e := by
  rw [find]
  cases hf : (live l).find? fun e => p e.1 with
  | none => exact absurd hp (find?_eq_none.mp hf e he)
  | some e' =>
    have hp' := find?_some hf
    rw [honly e' (mem_of_find?_eq_some hf) hp']

theorem find_eq_none (h : has p l = false) : find p l = none := by
  rw [find, find?_eq_none]
  exact fun e he => any_eq_false.mp h e he

variable {i j : ℕ}

theorem At.alter (h : At l m i j) : At (alter p f l) (alter p f m) i j := by
  have hb : has p (l.take i) = has p (m.take j) := has_eq h.before
  refine ⟨by rw [length_alter]; exact h.left, by rw [length_alter]; exact h.right, ?_, ?_⟩
  · rw [alter_take h.left, alter_take h.right, hb]
    split_ifs
    · rw [live_alter, live_alter, h.before]
    · exact h.before
  · rw [alter_drop h.left, alter_drop h.right, hb]
    split_ifs
    · exact h.after
    · rw [live_alter, live_alter, h.after]

theorem At.append (h : At l m i j) (e : Option (K × V)) : At (l ++ [e]) (m ++ [e]) i j := by
  refine ⟨?_, ?_, ?_, ?_⟩
  · rw [length_append]
    exact h.left.trans (Nat.le_add_right _ _)
  · rw [length_append]
    exact h.right.trans (Nat.le_add_right _ _)
  · rw [take_append_of_le_length h.left, take_append_of_le_length h.right, h.before]
  · rw [drop_append_of_le_length h.left, drop_append_of_le_length h.right, live_append, live_append, h.after]

@[simp] theorem live_clear (l : Slots K V) : live (clear l) = [] := by
  induction l with
  | nil => rfl
  | cons s l ih => exact ih

theorem At.clear (h : At l m i j) : At (clear l) (clear m) i j := by
  refine ⟨by rw [LiveMap.clear, length_map]; exact h.left, by rw [LiveMap.clear, length_map]; exact h.right, ?_, ?_⟩
  · rw [LiveMap.clear, LiveMap.clear, ← map_take, ← map_take]
    exact (live_clear _).trans (live_clear _).symm
  · rw [LiveMap.clear, LiveMap.clear, ← map_drop, ← map_drop]
    exact (live_clear _).trans (live_clear _).symm

/-- What holds of the positions holds of the cursors. -/
theorem CursorSim.map {l' m' : Slots K V} (h : ∀ i j, At l m i j → At l' m' i j) {a b : Option ℕ} (hc : CursorSim l m a b) :
    CursorSim l' m' a b := by
  cases a with
  | none =>
    cases b with
    | none => trivial
    | some j => exact hc.elim
  | some i =>
    cases b with
    | none => exact hc.elim
    | some j => exact h i j hc

theorem Sim.alter (h : Sim l cs s) : Sim (alter p f l) cs { s with slots := alter p f s.slots } :=
  ⟨by rw [live_alter, live_alter, h.live], h.cursors.imp fun _ _ => CursorSim.map fun _ _ => At.alter⟩

theorem Sim.append (h : Sim l cs s) (e : Option (K × V)) : Sim (l ++ [e]) cs { s with slots := s.slots ++ [e] } :=
  ⟨by rw [live_append, live_append, h.live], h.cursors.imp fun _ _ => CursorSim.map fun _ _ h => h.append e⟩

theorem Sim.clear (h : Sim l cs s) : Sim (clear l) cs { s with slots := clear s.slots } :=
  ⟨(live_clear _).trans (live_clear _).symm, h.cursors.imp fun _ _ => CursorSim.map fun _ _ => At.clear⟩

/-- A key is set on both sides. -/
theorem Sim.set (h : Sim l cs s) (k : K) (v : V) : Sim (set p k v l) cs { s with slots := set p k v s.slots } := by
  rw [LiveMap.set, LiveMap.set, has_eq h.live]
  split_ifs
  · exact h.alter
  · exact h.append _

/-- The empty slots are dropped. -/
def compact (l : Slots K V) : Slots K V := l.filter Option.isSome

@[simp] theorem live_compact (l : Slots K V) : live (compact l) = live l := by
  induction l with
  | nil => rfl
  | cons s l ih =>
    cases s with
    | none => exact ih
    | some e => exact congrArg (e :: ·) ih

/-- When no cursor is open, only the entries count. -/
theorem Sim.replace (h : Sim l cs s) (hcs : ∀ c ∈ cs, c = none) {l' : Slots K V} (hl : LiveMap.live l' = LiveMap.live l) :
    Sim l' cs s := by
  refine ⟨hl.trans h.live, ?_⟩
  rw [forall₂_iff_get]
  have hc := forall₂_iff_get.mp h.cursors
  refine ⟨hc.1, fun i h1 h2 => ?_⟩
  have hi := hc.2 i h1 h2
  have hnone : cs.get ⟨i, h1⟩ = none := hcs _ (get_mem _ _)
  rw [hnone] at hi ⊢
  cases hb : s.cursors.get ⟨i, h2⟩ with
  | none => trivial
  | some j =>
    rw [hb] at hi
    exact hi.elim

/-! ### Cursors -/

/-- What a cursor shows next, and what is left. -/
theorem advance_spec (hi : i ≤ l.length) :
    (advance (l.drop i) i = none ∧ live (l.drop i) = []) ∨
    ∃ e i', advance (l.drop i) i = some (e, i') ∧ i < i' ∧ i' ≤ l.length ∧
      live (l.take i') = live (l.take i) ++ [e] ∧ live (l.drop i) = e :: live (l.drop i') := by
  obtain ⟨n, hn⟩ : ∃ n, n = l.length - i := ⟨_, rfl⟩
  induction n generalizing i with
  | zero =>
    have : l.drop i = [] := drop_of_length_le (by omega)
    exact .inl (by rw [this]; exact ⟨rfl, rfl⟩)
  | succ n ih =>
    have hlt : i < l.length := by omega
    rw [drop_eq_getElem_cons hlt]
    cases hx : l[i] with
    | none =>
      rw [advance, live_none]
      have htake : live (l.take (i + 1)) = live (l.take i) := by
        rw [take_add_one, List.getElem?_eq_getElem hlt, hx, live_append]
        simp
      rcases ih (i := i + 1) hlt (by omega) with h | ⟨e, i', h1, h2, h3, h4, h5⟩
      · exact .inl h
      · exact .inr ⟨e, i', h1, by omega, h3, by rw [h4, htake], h5⟩
    | some e =>
      refine .inr ⟨e, i + 1, rfl, by omega, hlt, ?_, rfl⟩
      rw [take_add_one, List.getElem?_eq_getElem hlt, hx, live_append]
      simp

/-- Two cursors show the same entry. -/
theorem At.next (h : At l m i j) :
    (advance (l.drop i) i = none ∧ advance (m.drop j) j = none) ∨
    ∃ e i' j', advance (l.drop i) i = some (e, i') ∧ advance (m.drop j) j = some (e, j') ∧ At l m i' j' := by
  rcases advance_spec h.left with ⟨h1, h2⟩ | ⟨e, i', h1, -, hi', hb, ha⟩
  · rcases advance_spec h.right with ⟨h3, -⟩ | ⟨e, j', -, -, -, -, ha'⟩
    · exact .inl ⟨h1, h3⟩
    · rw [← h.after, h2] at ha'
      cases ha'
  · rcases advance_spec h.right with ⟨-, h4⟩ | ⟨e', j', h3, -, hj', hb', ha'⟩
    · rw [h.after, h4] at ha
      cases ha
    · rw [← h.after, ha, List.cons.injEq] at ha'
      obtain ⟨rfl, hafter⟩ := ha'
      exact .inr ⟨e, i', j', h1, h3, hi', hj', by rw [hb, hb', h.before], hafter⟩

theorem forall₂_set {α β : Type} {R : α → β → Prop} {as : List α} {bs : List β} (h : List.Forall₂ R as bs) (c : ℕ) {a : α} {b : β}
    (hab : R a b) : List.Forall₂ R (as.set c a) (bs.set c b) := by
  induction h generalizing c with
  | nil => exact .nil
  | cons hx hl ih =>
    cases c with
    | zero => exact .cons hab hl
    | succ c => exact .cons hx (ih c)

theorem Sim.cursor (h : Sim l cs s) (c : ℕ) : (∃ i j, cs[c]? = some (some i) ∧ s.cursors[c]? = some (some j) ∧ At l s.slots i j) ∨
    ((∀ i, cs[c]? ≠ some (some i)) ∧ ∀ j, s.cursors[c]? ≠ some (some j)) := by
  have hlen := h.cursors.length_eq
  by_cases hc : c < cs.length
  · have hr := (forall₂_iff_get.mp h.cursors).2 c hc (hlen ▸ hc)
    rw [get_eq_getElem, get_eq_getElem] at hr
    rw [List.getElem?_eq_getElem hc, List.getElem?_eq_getElem (hlen ▸ hc)]
    generalize cs[c] = a at hr
    generalize s.cursors[c] = b at hr
    cases a with
    | none =>
      cases b with
      | none => exact .inr ⟨by simp, by simp⟩
      | some j => exact hr.elim
    | some i =>
      cases b with
      | none => exact hr.elim
      | some j => exact .inl ⟨i, j, rfl, rfl, hr⟩
  · rw [List.getElem?_eq_none (not_lt.mp hc), List.getElem?_eq_none (hlen ▸ not_lt.mp hc)]
    exact .inr ⟨by simp, by simp⟩

theorem Sim.opened (h : Sim l cs s) : Sim l (cs ++ [some 0]) { s with cursors := s.cursors ++ [some 0] } :=
  ⟨h.live, rel_append h.cursors (.cons ⟨Nat.zero_le _, Nat.zero_le _, rfl, h.live⟩ .nil)⟩

theorem Sim.closed (h : Sim l cs s) (c : ℕ) : Sim l (cs.set c none) { s with cursors := s.cursors.set c none } :=
  ⟨h.live, forall₂_set h.cursors c trivial⟩

theorem Sim.moved (h : Sim l cs s) (c : ℕ) (hij : At l s.slots i j) :
    Sim l (cs.set c (some i)) { s with cursors := s.cursors.set c (some j) } :=
  ⟨h.live, forall₂_set h.cursors c hij⟩

/-- How many cursors are open after one has moved, or was closed. -/
theorem countP_moved {c : ℕ} (h : cs[c]? = some (some i)) (j : Option ℕ) :
    (cs.set c j).countP Option.isSome = cs.countP Option.isSome - 1 + if j.isSome then 1 else 0 := by
  obtain ⟨hlt, hx⟩ := List.getElem?_eq_some_iff.mp h
  rw [countP_set hlt, hx, Option.isSome_some, if_pos rfl]

theorem countP_open {c : ℕ} (h : cs[c]? = some (some i)) : 0 < cs.countP Option.isSome :=
  countP_pos_iff.mpr ⟨some i, mem_of_getElem? h, rfl⟩

theorem next_of_closed {c : ℕ} (h : ∀ j, s.cursors[c]? ≠ some (some j)) : next s c = (s, .entry none) := by
  rw [next]
  split
  · next j hj => exact absurd hj (h j)
  · rfl

/-- A cursor that is not open is closed already. -/
theorem set_none_of_closed {cs : List (Option ℕ)} {c : ℕ} (h : ∀ j, cs[c]? ≠ some (some j)) : cs.set c none = cs := by
  by_cases hc : c < cs.length
  · have hx : cs[c] = none := by
      cases hx : cs[c] with
      | none => rfl
      | some j => exact absurd (by rw [List.getElem?_eq_getElem hc, hx]) (h j)
    rw [← hx, set_getElem_self]
  · exact set_eq_of_length_le (not_lt.mp hc)

/-! ### Keys stay apart -/

/-- Sameness that tells keys apart consistently. A key need not be the same as itself. -/
structure Keys.Lawful (keys : Keys K) : Prop where
  symm : ∀ {a b}, keys.same a b = true → keys.same b a = true
  trans : ∀ {a b c}, keys.same a b = true → keys.same b c = true → keys.same a c = true
  stored : ∀ a k, keys.same a (keys.stored k) = keys.same a k

/-- No two entries have the same key. -/
def Distinct (keys : Keys K) (l : Slots K V) : Prop := (live l).Pairwise fun a b => keys.same a.1 b.1 = false

variable {keys : Keys K}

theorem alterLive_put_keys (v : V) (l : List (K × V)) :
    (alterLive p (fun e => some (e.1, v)) l).map Prod.fst = l.map Prod.fst := by
  induction l with
  | nil => rfl
  | cons e l ih =>
    rw [alterLive]
    split_ifs
    · rfl
    · rw [map_cons, map_cons, ih]

theorem alterLive_erase_sublist (l : List (K × V)) : (alterLive p (fun _ => none) l).Sublist l := by
  induction l with
  | nil => exact List.Sublist.slnil
  | cons e l ih =>
    rw [alterLive]
    split_ifs
    · exact sublist_cons_self e l
    · exact ih.cons_cons e

theorem length_live_put (v : V) (l : Slots K V) : (live (put p v l)).length = (live l).length := by
  have h := congrArg List.length (alterLive_put_keys (p := p) v (live l))
  rw [length_map, length_map] at h
  rw [put, live_alter, h]

theorem length_live_erase (h : has p l = true) : (live (erase p l)).length + 1 = (live l).length := by
  induction l with
  | nil => cases h
  | cons s l ih =>
    cases s with
    | none => exact ih h
    | some e =>
      rw [LiveMap.erase, LiveMap.alter]
      split_ifs with he
      · rfl
      · rw [live_some, live_some, length_cons, length_cons]
        have hl : has p l = true := by
          have hcons : has p (some e :: l) = (p e.1 || has p l) := rfl
          rwa [hcons, Bool.eq_false_iff.mpr he, Bool.false_or] at h
        rw [← ih hl]
        rfl

theorem distinct_iff : Distinct keys l ↔ ((live l).map Prod.fst).Pairwise fun a b => keys.same a b = false := by
  rw [Distinct, pairwise_map]

theorem Distinct.erase (h : Distinct keys l) : Distinct keys (erase p l) := by
  rw [Distinct, LiveMap.erase, live_alter]
  exact h.sublist (alterLive_erase_sublist _)

theorem Distinct.set (h : Distinct keys l) (lawful : keys.Lawful) (k : K) (v : V) :
    Distinct keys (set (keys.same · k) (keys.stored k) v l) := by
  rw [LiveMap.set]
  split_ifs with hk
  · rw [distinct_iff] at h ⊢
    rw [put, live_alter, alterLive_put_keys]
    exact h
  · rw [has, any_eq_true, not_exists] at hk
    rw [Distinct, live_append, pairwise_append]
    refine ⟨h, pairwise_singleton _ _, fun a ha b hb => ?_⟩
    obtain rfl : b = (keys.stored k, v) := mem_singleton.mp hb
    have hne := hk a
    rw [not_and, Bool.not_eq_true] at hne
    rw [lawful.stored]
    exact hne ha

theorem Distinct.of_live {l' : Slots K V} (h : Distinct keys l) (hl : live l' = live l) : Distinct keys l' := by
  rw [Distinct, hl]
  exact h

/-- Two entries with the same key are one. -/
theorem Distinct.unique (h : Distinct keys l) (lawful : keys.Lawful) {k : K} {a b : K × V}
    (hi : l[i]? = some (some a)) (hj : l[j]? = some (some b)) (ha : keys.same a.1 k = true) (hb : keys.same b.1 k = true) :
    i = j := by
  by_contra hne
  have key : ∀ {i j : ℕ} {a b : K × V}, i < j → l[i]? = some (some a) → l[j]? = some (some b) →
      keys.same a.1 k = true → keys.same b.1 k = true → False := by
    intro i j a b hlt hi hj ha hb
    obtain ⟨hil, hix⟩ := List.getElem?_eq_some_iff.mp hi
    have hj' : some b ∈ l.drop (i + 1) := by
      refine mem_of_getElem? (i := j - (i + 1)) ?_
      rw [getElem?_drop, ← hj]
      congr 1
      omega
    have hsplit : live l = live (l.take i) ++ (a :: live (l.drop (i + 1))) := by
      rw [← live_some, ← live_append, ← hix, getElem_cons_drop, take_append_drop]
    rw [Distinct, hsplit, pairwise_append, pairwise_cons] at h
    have hf := h.2.1.1 b (mem_filterMap.mpr ⟨some b, hj', rfl⟩)
    rw [lawful.trans ha (lawful.symm hb)] at hf
    cases hf
  rcases Nat.lt_or_gt_of_ne hne with hlt | hlt
  · exact key hlt hi hj ha hb
  · exact key hlt hj hi hb ha

/-! ### Keys that are compared in two ways -/

theorem has_congr (q : K → Bool) (h : ∀ e ∈ live l, p e.1 = q e.1) : has p l = has q l := by
  rw [has, has, Bool.eq_iff_iff, any_eq_true, any_eq_true]
  refine exists_congr fun e => and_congr_right fun he => ?_
  rw [h e he]

theorem find_congr (q : K → Bool) (h : ∀ e ∈ live l, p e.1 = q e.1) : find p l = find q l := by
  rw [find, find, ← List.head?_filter, ← List.head?_filter, filter_congr h]

theorem alter_congr (q : K → Bool) (h : ∀ e ∈ live l, p e.1 = q e.1) : alter p f l = alter q f l := by
  induction l with
  | nil => rfl
  | cons s l ih =>
    cases s with
    | none => rw [alter, alter, ih h]
    | some e =>
      rw [live_some, forall_mem_cons] at h
      rw [alter, alter, h.1, ih h.2]

variable {keys' : Keys K} {P Q : K → Prop}

/-- The two ways keep keys that are set alike, and agree on those that are stored. -/
structure Agree (keys keys' : Keys K) (P Q : K → Prop) : Prop where
  stored : ∀ k, Q k → keys.stored k = keys'.stored k
  mem : ∀ k, Q k → P (keys.stored k)
  same : ∀ a k, P a → keys.same a k = keys'.same a k

/-- The key that an operation sets. -/
def Op.Sets (Q : K → Prop) : Op K V → Prop
  | .set k _ => Q k
  | _ => True

theorem Op.sets_true (op : Op K V) : op.Sets fun _ => True := by
  cases op <;> trivial

theorem mem_live_step (a : Agree keys keys' P Q) (hs : ∀ e ∈ live s.slots, P e.1) {op : Op K V} (ho : op.Sets Q) :
    ∀ e ∈ live (step keys s op).1.slots, P e.1 := by
  have hput : ∀ q (v : V), ∀ e ∈ live (put q v s.slots), P e.1 := by
    intro q v e he
    rw [put, live_alter] at he
    have hmem := mem_map_of_mem (f := Prod.fst) he
    rw [alterLive_put_keys, mem_map] at hmem
    obtain ⟨e', he', hfst⟩ := hmem
    rw [← hfst]
    exact hs e' he'
  cases op with
  | set k v =>
    intro e he
    rw [step, set] at he
    dsimp only at he
    split_ifs at he
    · exact hput _ v e he
    · rw [live_append, mem_append] at he
      rcases he with he | he
      · exact hs e he
      · obtain rfl : e = (keys.stored k, v) := mem_singleton.mp he
        exact a.mem k ho
  | delete k =>
    intro e he
    rw [step, erase] at he
    dsimp only at he
    rw [live_alter] at he
    exact hs e ((alterLive_erase_sublist _).subset he)
  | clear =>
    intro e he
    rw [step, live_clear] at he
    cases he
  | next c =>
    rw [step, next]
    split
    · split <;> exact hs
    · exact hs
  | _ => exact hs

theorem step_congr (a : Agree keys keys' P Q) (hs : ∀ e ∈ live s.slots, P e.1) {op : Op K V} (ho : op.Sets Q) :
    step keys s op = step keys' s op := by
  have hagree : ∀ k, ∀ e ∈ live s.slots, keys.same e.1 k = keys'.same e.1 k := fun k e he => a.same e.1 k (hs e he)
  cases op with
  | set k v =>
    rw [step, step, set, set, put, put, has_congr (keys'.same · k) (hagree k), alter_congr (keys'.same · k) (hagree k),
      a.stored k ho]
  | get k => rw [step, step, find_congr (keys'.same · k) (hagree k)]
  | has k => rw [step, step, has_congr (keys'.same · k) (hagree k)]
  | delete k => rw [step, step, erase, erase, has_congr (keys'.same · k) (hagree k), alter_congr (keys'.same · k) (hagree k)]
  | _ => rfl

/-- Runs do not see the difference. -/
theorem run_congr (a : Agree keys keys' P Q) (hs : ∀ e ∈ live s.slots, P e.1) {ops : List (Op K V)} (ho : ∀ op ∈ ops, op.Sets Q) :
    run keys s ops = run keys' s ops ∧ after keys s ops = after keys' s ops := by
  induction ops generalizing s with
  | nil => exact ⟨rfl, rfl⟩
  | cons op ops ih =>
    obtain ⟨hset, hrest⟩ := forall_mem_cons.mp ho
    have hnext := ih (mem_live_step a hs hset) hrest
    have hop := step_congr a hs hset
    rw [after, after, foldl_cons, foldl_cons, ← after, ← after, run, run, ← hop, hnext.1]
    exact ⟨rfl, hnext.2⟩

theorem mem_live_after (a : Agree keys keys' P Q) (hs : ∀ e ∈ live s.slots, P e.1) {ops : List (Op K V)}
    (ho : ∀ op ∈ ops, op.Sets Q) : ∀ e ∈ live (after keys s ops).slots, P e.1 := by
  induction ops generalizing s with
  | nil => exact hs
  | cons op ops ih =>
    obtain ⟨hset, hrest⟩ := forall_mem_cons.mp ho
    exact ih (mem_live_step a hs hset) hrest

/-! ### Maps that are filled -/

section

theorem live_map_some (l : List (K × V)) : live (l.map some) = l := by
  rw [live, filterMap_map]
  exact filterMap_some

variable [DecidableEq K]

/-- The entries that a list of fields leaves: the keys in the order in which they come first, with their last values. -/
def merged (fields : List (K × V)) : List (K × V) :=
  (fields.reverse.map Prod.fst).dedup.reverse.filterMap fun k => (fields.reverse.lookup k).map fun v => (k, v)

theorem has_some (k : K) (l : List (K × V)) : has (fun k' => decide (k' = k)) (l.map some) = decide (k ∈ l.map Prod.fst) := by
  rw [has, live_map_some, Bool.eq_iff_iff, any_eq_true, decide_eq_true_eq, mem_map]
  simp only [decide_eq_true_eq]

/-- A new value for one key of many. -/
theorem put_filterMap {ks : List K} (hks : ks.Nodup) {f g : K → Option V} {k : K} {v : V} (hk : g k = some v)
    (hg : ∀ k', k' ≠ k → g k' = f k') (hf : ∀ k' ∈ ks, (f k').isSome) :
    put (fun k' => decide (k' = k)) v ((ks.filterMap fun k' => (f k').map fun v => (k', v)).map some) =
      (ks.filterMap fun k' => (g k').map fun v => (k', v)).map some := by
  induction ks with
  | nil => rfl
  | cons k' ks ih =>
    obtain ⟨hnew, hks⟩ := nodup_cons.mp hks
    obtain ⟨hk', htail⟩ := forall_mem_cons.mp hf
    obtain ⟨w, hw⟩ := Option.isSome_iff_exists.mp hk'
    rw [filterMap_cons, hw, Option.map_some]
    by_cases heq : k' = k
    · obtain rfl := heq
      have hsame : (ks.filterMap fun k' => (f k').map fun v => (k', v)) = ks.filterMap fun k' => (g k').map fun v => (k', v) :=
        filterMap_congr fun j hj => by rw [hg j (ne_of_mem_of_not_mem hj hnew)]
      rw [filterMap_cons, hk, Option.map_some, ← hsame]
      simp [put, alter]
    · have := ih hks htail
      rw [put] at this
      rw [filterMap_cons, hg k' heq, hw, Option.map_some, map_cons, map_cons, ← this, put, alter,
        if_neg (by rwa [decide_eq_true_eq])]

/-- The map that fields are written into, one by one. -/
theorem foldl_set (fields : List (K × V)) : fields.foldl (fun l e => set (fun k => decide (k = e.1)) e.1 e.2 l) [] = (merged fields).map some := by
  rw [← foldr_reverse, merged]
  induction fields.reverse with
  | nil => rfl
  | cons e fields ih =>
    obtain ⟨k, v⟩ := e
    have hfound : ∀ k' ∈ (fields.map Prod.fst).dedup.reverse, (fields.lookup k').isSome := by
      intro k' hk'
      rw [mem_reverse, mem_dedup] at hk'
      obtain ⟨e, he, rfl⟩ := mem_map.mp hk'
      exact lookup_isSome_iff.mpr ⟨e, he, beq_self_eq_true _⟩
    have hkeys : ((fields.map Prod.fst).dedup.reverse.filterMap fun k' => (fields.lookup k').map fun v => (k', v)).map Prod.fst =
        (fields.map Prod.fst).dedup.reverse := by
      rw [map_filterMap]
      refine (filterMap_congr fun k' hk' => ?_).trans filterMap_some
      obtain ⟨w, hw⟩ := Option.isSome_iff_exists.mp (hfound k' hk')
      rw [hw]
      rfl
    have hlookup (k' : K) : ((k, v) :: fields).lookup k' = if k' = k then some v else fields.lookup k' := by
      rw [lookup_cons]
      by_cases heq : k' = k
      · rw [if_pos heq, beq_iff_eq.mpr heq]
      · rw [if_neg heq, beq_eq_false_iff_ne.mpr heq]
    rw [foldr_cons, ih, set, has_some, hkeys, map_cons]
    by_cases hk : k ∈ fields.map Prod.fst
    · rw [if_pos (by simpa using hk), dedup_cons_of_mem hk]
      exact put_filterMap (nodup_reverse.mpr (nodup_dedup _)) ((hlookup k).trans (if_pos rfl))
        (fun k' hne => (hlookup k').trans (if_neg hne)) hfound
    · rw [if_neg (by simpa using hk), dedup_cons_of_notMem hk, reverse_cons, filterMap_append, map_append]
      congr 2
      · refine filterMap_congr fun k' hk' => ?_
        have hne : k' ≠ k := by
          rintro rfl
          exact hk (mem_dedup.mp (mem_reverse.mp hk'))
        rw [hlookup, if_neg hne]
      · simp [hlookup]

end

end LiveMap
