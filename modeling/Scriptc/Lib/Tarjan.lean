import Mathlib.Data.Finset.Card
import Mathlib.Data.List.Pairwise
import Mathlib.Data.Set.Finite.Basic
import Mathlib.Logic.Relation

/-!
# Strongly connected components

Tarjan's search, with its state kept from one root to the next: indices in the order of first
visits, low links, and the stack of the vertices whose component is not finished. What is done
with a finished component is a parameter (`finish`).

The invariant (`Inv`) is about the vertices whose calls are still running, the gray ones: all of
the stack reaches down to one of them, and each of them reaches all of the stack above it.
-/

namespace Tarjan

open List Function

/-- `stack` has its top first. -/
structure State (V T : Type*) where
  index : V → Option ℕ
  low : V → ℕ
  stack : List V
  onStack : V → Bool
  next : ℕ
  table : T

variable {V T : Type*} [DecidableEq V]

namespace State

/-- Nothing has been visited. -/
def start (table : T) : State V T := ⟨fun _ => none, fun _ => 0, [], fun _ => false, 0, table⟩

/-- The vertex gets its index and its place on the stack. -/
def enter (st : State V T) (v : V) : State V T where
  index := update st.index v (some st.next)
  low := update st.low v st.next
  stack := v :: st.stack
  onStack := update st.onStack v true
  next := st.next + 1
  table := st.table

def lower (st : State V T) (v : V) (l : ℕ) : State V T :=
  { st with low := update st.low v (min (st.low v) l) }

/-- What is popped, up to `v`, and what stays. -/
def popUntil (v : V) : List V → List V × List V
  | [] => ([], [])
  | w :: stack => if w = v then ([w], stack) else ((w :: (popUntil v stack).1), (popUntil v stack).2)

/-- At the end of the visit of `v`. -/
def leave (finish : List V → T → T) (st : State V T) (v : V) : State V T :=
  if st.index v = some (st.low v) then
    { st with
      stack := (popUntil v st.stack).2
      onStack := fun w => st.onStack w && decide (w ∉ (popUntil v st.stack).1)
      table := finish (popUntil v st.stack).1 st.table }
  else st

end State

/-- The loop over the successors of `v`. -/
def scan (visit : V → State V T → Option (State V T)) (v : V) : List V → State V T → Option (State V T)
  | [], st => some st
  | w :: ws, st =>
    match st.index w with
    | none => (visit w st).bind fun st => scan visit v ws (st.lower v (st.low w))
    | some i => scan visit v ws (if st.onStack w then st.lower v i else st)

variable (succ : V → List V) (finish : List V → T → T)

/-- `none` where the fuel, the depth of the recursion, runs out. -/
def strongconnect : ℕ → V → State V T → Option (State V T)
  | 0, _, _ => none
  | fuel + 1, v, st => (scan (strongconnect fuel) v (succ v) (st.enter v)).map (·.leave finish v)

/-- Roots one after the other; those visited before are skipped. -/
def search (fuel : ℕ) : List V → State V T → Option (State V T)
  | [], st => some st
  | v :: vs, st =>
    if st.index v = none then (strongconnect succ finish fuel v st).bind (search fuel vs)
    else search fuel vs st

/-- One vertex leads to the other. -/
def Reach (v w : V) : Prop := Relation.ReflTransGen (fun a b => b ∈ succ a) v w

/-- Each of the two leads to the other. -/
def Mutual (v w : V) : Prop := Reach succ v w ∧ Reach succ w v

/-- The place of a visited vertex in the order of first visits. -/
def State.num (st : State V T) (v : V) : ℕ := (st.index v).getD 0

/-- Visited, and its component is finished. -/
def Done (st : State V T) (v : V) : Prop := st.index v ≠ none ∧ v ∉ st.stack

section

variable (table₀ : T) (gray : Set V) (comps : List (List V)) (st : State V T)

/-- While the calls for the vertices of `gray` are running. `comps` are the components finished
so far, the last one first. -/
structure Inv : Prop where
  num_lt : ∀ v, st.index v ≠ none → st.num v < st.next
  visited : ∀ v ∈ st.stack, st.index v ≠ none
  onStack : ∀ v, st.onStack v = true ↔ v ∈ st.stack
  sorted : st.stack.Pairwise fun a b => st.num b < st.num a
  done : ∀ v, Done st v → ∀ w ∈ succ v, Done st w
  black : ∀ v, st.index v ≠ none → v ∉ gray → ∀ w ∈ succ v, st.index w ≠ none
  grayStack : ∀ g ∈ gray, g ∈ st.stack
  toGray : ∀ v ∈ st.stack, ∃ g ∈ gray, st.num g ≤ st.num v ∧ Reach succ v g
  fromGray : ∀ g ∈ gray, ∀ v ∈ st.stack, st.num g ≤ st.num v → Reach succ g v
  table : st.table = comps.foldr finish table₀
  classes : ∀ comp ∈ comps, ∀ v ∈ comp, ∀ w, w ∈ comp ↔ Mutual succ v w
  nodup : ∀ comp ∈ comps, comp.Nodup
  apart : comps.Pairwise fun c c' => ∀ v ∈ c, v ∉ c'
  covered : ∀ v, Done st v ↔ ∃ comp ∈ comps, v ∈ comp

/-- What a call for `v` leaves, with `new` the components it finished. -/
structure Connected (v : V) (new : List (List V)) (st' : State V T) : Prop where
  inv : Inv succ finish table₀ gray (new ++ comps) st'
  index : ∀ w, st.index w ≠ none → st'.index w = st.index w
  low : ∀ w, st.index w ≠ none → st'.low w = st.low w
  visited : st'.index v ≠ none
  stack : ∃ s, st'.stack = s ++ st.stack ∧ ∀ x ∈ s, ∀ y ∈ succ x, y ∈ st.stack → st'.low v ≤ st.num y
  link : st'.low v < st.next → ∃ y ∈ st.stack, st.num y = st'.low v ∧ Reach succ v y

/-- In the loop of `v`, entered in `st`, when the successors `seen` have been looked at. -/
structure Scanning (v : V) (seen : List V) (new : List (List V)) (cur : State V T) : Prop where
  inv : Inv succ finish table₀ (insert v gray) (new ++ comps) cur
  index : ∀ w, st.index w ≠ none → cur.index w = st.index w
  low : ∀ w, st.index w ≠ none → cur.low w = st.low w
  own : cur.index v = some st.next
  stack : ∃ s, cur.stack = s ++ v :: st.stack ∧ ∀ x ∈ s, ∀ y ∈ succ x, y ∈ st.stack → cur.low v ≤ st.num y
  link : ∃ y ∈ cur.stack, cur.num y = cur.low v ∧ Reach succ v y
  le : cur.low v ≤ st.next
  seen : ∀ y ∈ seen, cur.index y ≠ none ∧ (y ∈ st.stack → cur.low v ≤ st.num y)

end

variable {succ finish} {table₀ : T} {gray : Set V} {comps comps' new : List (List V)} {st st' cur : State V T} {v w : V}
  {seen : List V}

/-! ### Entering -/

omit [DecidableEq V] in
theorem num_of_index {i : ℕ} (h : st.index v = some i) : st.num v = i := by simp [State.num, h]

omit [DecidableEq V] in
theorem num_congr (h : st'.index v = st.index v) : st'.num v = st.num v := by simp [State.num, h]

omit [DecidableEq V] in
theorem ne_of_visited (hv : st.index v = none) (hw : st.index w ≠ none) : w ≠ v := by
  rintro rfl
  exact hw hv

theorem enter_index (h : w ≠ v) : (st.enter v).index w = st.index w := update_of_ne h _ _

theorem enter_num (h : w ≠ v) : (st.enter v).num w = st.num w := num_congr (enter_index h)

@[simp] theorem enter_index_self : (st.enter v).index v = some st.next := update_self ..

@[simp] theorem enter_num_self : (st.enter v).num v = st.next := num_of_index enter_index_self

theorem Inv.enter (h : Inv succ finish table₀ gray comps st) (hv : st.index v = none) (hgray : ∀ g ∈ gray, Reach succ g v) :
    Inv succ finish table₀ (insert v gray) comps (st.enter v) := by
  have ne {w : V} (hw : st.index w ≠ none) : w ≠ v := ne_of_visited hv hw
  have visited {w : V} (hw : (st.enter v).index w ≠ none) : w = v ∨ st.index w ≠ none := by
    by_cases hwv : w = v
    · exact .inl hwv
    · exact .inr (by rwa [enter_index hwv] at hw)
  have keep {w : V} (hw : st.index w ≠ none) : (st.enter v).index w ≠ none := by rwa [enter_index (ne hw)]
  have done (w : V) : Done (st.enter v) w ↔ Done st w := by
    constructor
    · rintro ⟨hw, hs⟩
      have hwv : w ≠ v := fun he => hs (he ▸ mem_cons_self)
      exact ⟨by rwa [enter_index hwv] at hw, fun hm => hs (mem_cons_of_mem _ hm)⟩
    · rintro ⟨hw, hs⟩
      exact ⟨keep hw, not_mem_cons_of_ne_of_not_mem (ne hw) hs⟩
  have stack {w : V} (hw : w ∈ (st.enter v).stack) : w = v ∨ (w ∈ st.stack ∧ w ≠ v) := by
    rcases mem_cons.mp hw with rfl | hw
    · exact .inl rfl
    · exact .inr ⟨hw, ne (h.visited w hw)⟩
  refine ⟨?_, ?_, ?_, ?_, ?_, ?_, ?_, ?_, ?_, h.table, h.classes, h.nodup, h.apart, fun w => (done w).trans (h.covered w)⟩
  · intro w hw
    rcases visited hw with rfl | hw
    · rw [enter_num_self]
      exact Nat.lt_succ_self _
    · rw [enter_num (ne hw)]
      exact Nat.lt_succ_of_lt (h.num_lt w hw)
  · intro w hw
    rcases stack hw with rfl | ⟨hw, -⟩
    · simp
    · exact keep (h.visited w hw)
  · intro w
    by_cases hwv : w = v
    · subst hwv
      simp [State.enter]
    · have : (st.enter v).onStack w = st.onStack w := update_of_ne hwv _ _
      rw [this, h.onStack w]
      simp [State.enter, hwv]
  · refine pairwise_cons.mpr ⟨fun w hw => ?_, h.sorted.imp_of_mem fun {a b} ha hb hab => ?_⟩
    · rw [enter_num_self, enter_num (ne (h.visited w hw))]
      exact h.num_lt w (h.visited w hw)
    · rwa [enter_num (ne (h.visited a ha)), enter_num (ne (h.visited b hb))]
  · intro w hw x hx
    exact (done x).mpr (h.done w ((done w).mp hw) x hx)
  · intro w hw hg x hx
    have hwv : w ≠ v := fun he => hg (he ▸ Set.mem_insert v gray)
    exact keep (h.black w ((visited hw).resolve_left hwv) (fun hm => hg (Set.mem_insert_of_mem v hm)) x hx)
  · intro g hg
    rcases hg with rfl | hg
    · exact mem_cons_self
    · exact mem_cons_of_mem _ (h.grayStack g hg)
  · intro w hw
    rcases stack hw with rfl | ⟨hw, hwv⟩
    · exact ⟨w, Set.mem_insert w gray, le_rfl, .refl⟩
    · obtain ⟨g, hg, hle, hr⟩ := h.toGray w hw
      refine ⟨g, Set.mem_insert_of_mem v hg, ?_, hr⟩
      rwa [enter_num hwv, enter_num (ne (h.visited g (h.grayStack g hg)))]
  · intro g hg w hw hle
    rcases hg with rfl | hg
    · rcases stack hw with rfl | ⟨hw, hwv⟩
      · exact .refl
      · rw [enter_num_self, enter_num hwv] at hle
        have := h.num_lt w (h.visited w hw)
        omega
    · rcases stack hw with rfl | ⟨hw, hwv⟩
      · exact hgray g hg
      · rw [enter_num hwv, enter_num (ne (h.visited g (h.grayStack g hg)))] at hle
        exact h.fromGray g hg w hw hle

theorem Scanning.enter (h : Inv succ finish table₀ gray comps st) (hv : st.index v = none) (hgray : ∀ g ∈ gray, Reach succ g v) :
    Scanning succ finish table₀ gray comps st v [] [] (st.enter v) where
  inv := h.enter hv hgray
  index w hw := enter_index (ne_of_visited hv hw)
  low w hw := update_of_ne (ne_of_visited hv hw) _ _
  own := enter_index_self
  stack := ⟨[], rfl, by simp⟩
  link := ⟨v, mem_cons_self, by simp [State.enter, State.num], .refl⟩
  le := by simp [State.enter]
  seen := by simp

/-! ### One successor -/

omit [DecidableEq V] in
theorem Reach.edge (h : w ∈ succ v) : Reach succ v w := .single h

theorem Inv.lower {l : ℕ} (h : Inv succ finish table₀ gray comps st) : Inv succ finish table₀ gray comps (st.lower v l) :=
  ⟨h.num_lt, h.visited, h.onStack, h.sorted, h.done, h.black, h.grayStack, h.toGray, h.fromGray, h.table, h.classes, h.nodup, h.apart, h.covered⟩

@[simp] theorem lower_low_self {l : ℕ} : (st.lower v l).low v = min (st.low v) l := update_self ..

theorem lower_low {l : ℕ} (h : w ≠ v) : (st.lower v l).low w = st.low w := update_of_ne h _ _

omit [DecidableEq V] in
theorem Scanning.num (h : Scanning succ finish table₀ gray comps st v seen new cur) (hw : st.index w ≠ none) : cur.num w = st.num w :=
  num_congr (h.index w hw)

omit [DecidableEq V] in
theorem Scanning.mem_stack (h : Scanning succ finish table₀ gray comps st v seen new cur) (hw : w ∈ st.stack) : w ∈ cur.stack := by
  obtain ⟨s, hs, -⟩ := h.stack
  rw [hs]
  exact mem_append_right _ (mem_cons_of_mem _ hw)

/-- The successor has been visited before. -/
theorem Scanning.see (h : Scanning succ finish table₀ gray comps st v seen new cur) (h₀ : Inv succ finish table₀ gray comps st)
    (hv : st.index v = none) {i : ℕ} (hw : w ∈ succ v) (hi : cur.index w = some i) :
    Scanning succ finish table₀ gray comps st v (w :: seen) new (if cur.onStack w then cur.lower v i else cur) := by
  have visited : cur.index w ≠ none := by simp [hi]
  split
  case isTrue hs =>
    have hws : w ∈ cur.stack := (h.inv.onStack w).mp hs
    obtain ⟨s, hstack, hexits⟩ := h.stack
    refine ⟨h.inv.lower, h.index, fun x hx => ?_, h.own, ⟨s, hstack, fun x hx y hy hys => ?_⟩, ?_, ?_, ?_⟩
    · exact (lower_low (ne_of_visited hv hx)).trans (h.low x hx)
    · exact lower_low_self.trans_le ((min_le_left _ _).trans (hexits x hx y hy hys))
    · rcases min_choice (cur.low v) i with hmin | hmin
      · obtain ⟨y, hy, hnum, hr⟩ := h.link
        exact ⟨y, hy, by rw [lower_low_self, hmin]; exact hnum, hr⟩
      · exact ⟨w, hws, by rw [lower_low_self, hmin]; exact num_of_index hi, .edge hw⟩
    · exact lower_low_self.trans_le ((min_le_left _ _).trans h.le)
    · refine forall_mem_cons.mpr ⟨⟨visited, fun hw' => ?_⟩, fun y hy => ⟨(h.seen y hy).1, fun hys => ?_⟩⟩
      · rw [← h.num (h₀.visited w hw'), num_of_index hi]
        exact lower_low_self.trans_le (min_le_right _ _)
      · exact lower_low_self.trans_le ((min_le_left _ _).trans ((h.seen y hy).2 hys))
  case isFalse hs =>
    refine { h with seen := forall_mem_cons.mpr ⟨⟨visited, fun hw' => ?_⟩, h.seen⟩ }
    exact absurd ((h.inv.onStack w).mpr (h.mem_stack hw')) hs

/-- The successor has been visited by a call. -/
theorem Scanning.call (h : Scanning succ finish table₀ gray comps st v seen new cur) (h₀ : Inv succ finish table₀ gray comps st)
    (hv : st.index v = none) (hw : w ∈ succ v) (hnone : cur.index w = none) {new' : List (List V)}
    (hc : Connected succ finish table₀ (insert v gray) (new ++ comps) cur w new' st') :
    Scanning succ finish table₀ gray comps st v (w :: seen) (new' ++ new) (st'.lower v (st'.low w)) := by
  have visited {x : V} (hx : st.index x ≠ none) : cur.index x ≠ none := by rwa [h.index x hx]
  have own : cur.index v ≠ none := by simp [h.own]
  have hlow : st'.low v = cur.low v := hc.low v own
  obtain ⟨s, hstack, hexits⟩ := h.stack
  obtain ⟨s', hstack', hexits'⟩ := hc.stack
  refine ⟨by rw [append_assoc]; exact hc.inv.lower, fun x hx => (hc.index x (visited hx)).trans (h.index x hx), fun x hx => ?_,
    (hc.index v own).trans h.own, ⟨s' ++ s, ?_, fun x hx y hy hys => ?_⟩, ?_, ?_, ?_⟩
  · rw [lower_low (ne_of_visited hv hx), hc.low x (visited hx), h.low x hx]
  · change st'.stack = _
    rw [hstack', hstack, append_assoc]
  · refine lower_low_self.trans_le ?_
    rcases mem_append.mp hx with hx | hx
    · refine (min_le_right _ _).trans ?_
      rw [← h.num (h₀.visited y hys)]
      exact hexits' x hx y hy (h.mem_stack hys)
    · exact (min_le_left _ _).trans (hlow.trans_le (hexits x hx y hy hys))
  · have in_stack {y : V} (hy : y ∈ cur.stack) : y ∈ st'.stack := hstack' ▸ mem_append_right _ hy
    have same {y : V} (hy : y ∈ cur.stack) : st'.num y = cur.num y := num_congr (hc.index y (h.inv.visited y hy))
    rcases le_or_gt (st'.low v) (st'.low w) with hle | hlt
    · obtain ⟨y, hy, hnum, hr⟩ := h.link
      refine ⟨y, in_stack hy, ?_, hr⟩
      rw [lower_low_self, min_eq_left hle, hlow, ← hnum]
      exact same hy
    · have hnext : st'.low w < cur.next := by
        have := h.inv.num_lt v own
        rw [num_of_index h.own] at this
        have := h.le
        omega
      obtain ⟨y, hy, hnum, hr⟩ := hc.link hnext
      refine ⟨y, in_stack hy, ?_, .head hw hr⟩
      rw [lower_low_self, min_eq_right hlt.le, ← hnum]
      exact same hy
  · exact lower_low_self.trans_le ((min_le_left _ _).trans (hlow.trans_le h.le))
  · refine forall_mem_cons.mpr ⟨⟨hc.visited, fun hw' => ?_⟩, fun y hy => ⟨?_, fun hys => ?_⟩⟩
    · exact absurd hnone (visited (h₀.visited w hw'))
    · change st'.index y ≠ none
      rw [hc.index y (h.seen y hy).1]
      exact (h.seen y hy).1
    · exact lower_low_self.trans_le ((min_le_left _ _).trans (hlow.trans_le ((h.seen y hy).2 hys)))

/-! ### Leaving -/

theorem popUntil_append {s base : List V} (h : v ∉ s) : State.popUntil v (s ++ v :: base) = (s ++ [v], base) := by
  induction s with
  | nil => simp [State.popUntil]
  | cons x s ih =>
    rw [mem_cons, not_or] at h
    simp [State.popUntil, Ne.symm h.1, ih h.2]

/-- What a finished loop knows about the stack it leaves: `s` and `v` on the old one. -/
structure Region (succ : V → List V) (st : State V T) (v : V) (s : List V) (cur : State V T) : Prop where
  stack : cur.stack = s ++ v :: st.stack
  above : ∀ x ∈ s, cur.num v < cur.num x
  below : ∀ y ∈ st.stack, cur.num y < cur.num v
  apart : ∀ x ∈ s ++ [v], x ∉ st.stack
  exits : ∀ x ∈ s ++ [v], ∀ y ∈ succ x, cur.index y ≠ none ∧ (y ∈ st.stack → cur.low v ≤ st.num y)

omit [DecidableEq V] in
theorem Scanning.region (h : Scanning succ finish table₀ gray comps st v seen new cur) (h₀ : Inv succ finish table₀ gray comps st)
    (hseen : ∀ y ∈ succ v, y ∈ seen) : ∃ s, Region succ st v s cur := by
  obtain ⟨s, hstack, hexits⟩ := h.stack
  have sorted := h.inv.sorted
  rw [hstack, pairwise_append, pairwise_cons] at sorted
  obtain ⟨-, ⟨hbelow, -⟩, hcross⟩ := sorted
  have above (x : V) (hx : x ∈ s) : cur.num v < cur.num x := hcross x hx v mem_cons_self
  have apart (x : V) (hx : x ∈ s) (hxs : x ∈ st.stack) : False := lt_irrefl _ (hcross x hx x (mem_cons_of_mem _ hxs))
  have own (hvs : v ∈ st.stack) : False := lt_irrefl _ (hbelow v hvs)
  refine ⟨s, hstack, above, hbelow, ?_, ?_⟩
  · exact forall_mem_append.mpr ⟨apart, forall_mem_singleton.mpr own⟩
  · refine forall_mem_append.mpr ⟨fun x hx y hy => ⟨?_, hexits x hx y hy⟩, forall_mem_singleton.mpr fun y hy => h.seen y (hseen y hy)⟩
    have hxs : x ∈ cur.stack := hstack ▸ mem_append_left _ hx
    refine h.inv.black x (h.inv.visited x hxs) ?_ y hy
    rintro (rfl | hg)
    · exact lt_irrefl _ (above x hx)
    · exact apart x hx (h₀.grayStack x hg)

variable {s : List V}

/-- Both facts hold of what is still gray. -/
theorem Scanning.leave_below (h : Scanning succ finish table₀ gray comps st v seen new cur)
    (h₀ : Inv succ finish table₀ gray comps st) (hr : Region succ st v s cur) (hlow : cur.low v ≠ st.next) :
    Connected succ finish table₀ gray comps st v new cur := by
  have same {x : V} (hx : x ∈ st.stack) : cur.num x = st.num x := h.num (h₀.visited x hx)
  have hv : v ∈ cur.stack := by simp [hr.stack]
  have own : cur.num v = st.next := num_of_index h.own
  obtain ⟨y, hy, hnum, hreach⟩ := h.link
  have hys : y ∈ st.stack := by
    have := h.le
    rw [hr.stack, mem_append, mem_cons] at hy
    rcases hy with hy | rfl | hy
    · have := hr.above y hy
      omega
    · omega
    · exact hy
  have toGray (x : V) (hx : x ∈ cur.stack) : ∃ g ∈ gray, cur.num g ≤ cur.num x ∧ Reach succ x g := by
    obtain ⟨g, hg, hle, hxg⟩ := h.inv.toGray x hx
    rcases hg with rfl | hg
    · obtain ⟨g', hg', hle', hyg⟩ := h₀.toGray y hys
      refine ⟨g', hg', ?_, hxg.trans (hreach.trans hyg)⟩
      have := hr.below y hys
      rw [← same hys, ← same (h₀.grayStack g' hg')] at hle'
      omega
    · exact ⟨g, hg, hle, hxg⟩
  have black (x : V) (hx : cur.index x ≠ none) (hg : x ∉ gray) (z : V) (hz : z ∈ succ x) : cur.index z ≠ none := by
    by_cases hxv : x = v
    · subst hxv
      exact (hr.exits x (by simp) z hz).1
    · exact h.inv.black x hx (fun hm => hm.elim hxv hg) z hz
  refine ⟨⟨h.inv.num_lt, h.inv.visited, h.inv.onStack, h.inv.sorted, h.inv.done, black, fun g hg => ?_, toGray, fun g hg => ?_,
    h.inv.table, h.inv.classes, h.inv.nodup, h.inv.apart, h.inv.covered⟩, h.index, h.low, by simp [h.own], ⟨s ++ [v], ?_, fun x hx z hz hzs => ?_⟩, fun _ => ?_⟩
  · exact h.inv.grayStack g (Set.mem_insert_of_mem v hg)
  · exact h.inv.fromGray g (Set.mem_insert_of_mem v hg)
  · rw [hr.stack, append_assoc, singleton_append]
  · exact (hr.exits x hx z hz).2 hzs
  · exact ⟨y, hys, (same hys).symm.trans hnum, hreach⟩

/-- Where the low link is the vertex's own, what leads on from it ends among it and what was
visited after it, or where everything is finished. -/
theorem Region.closed (hr : Region succ st v s cur) (h : Inv succ finish table₀ (insert v gray) comps cur)
    (h₀ : Inv succ finish table₀ gray comps' st) (hlow : cur.low v = st.next) {x y : V} (hx : x ∈ s ++ [v])
    (hxy : Reach succ x y) : Done cur y ∨ y ∈ s ++ [v] := by
  induction hxy with
  | refl => exact .inr hx
  | @tail y z _ hz ih =>
    rcases ih with hy | hy
    · exact .inl (h.done y hy z hz)
    · obtain ⟨hvisited, hexit⟩ := hr.exits y hy z hz
      by_cases hzs : z ∈ cur.stack
      · rw [hr.stack, append_cons, mem_append] at hzs
        refine .inr (hzs.resolve_right fun hz => ?_)
        have := h₀.num_lt z (h₀.visited z hz)
        have := hexit hz
        omega
      · exact .inl ⟨hvisited, hzs⟩

/-- Then it is a component. -/
theorem Region.mutual (hr : Region succ st v s cur) (h : Inv succ finish table₀ (insert v gray) comps cur)
    (h₀ : Inv succ finish table₀ gray comps' st) (hlow : cur.low v = st.next) (y : V) : y ∈ s ++ [v] ↔ Mutual succ v y := by
  have in_stack {x : V} (hx : x ∈ s ++ [v]) : x ∈ cur.stack := by
    rw [hr.stack, append_cons]
    exact mem_append_left _ hx
  have hv : v ∈ s ++ [v] := by simp
  constructor
  · intro hy
    have hle : cur.num v ≤ cur.num y := by
      rcases mem_append.mp hy with hy | hy
      · exact (hr.above y hy).le
      · rw [mem_singleton.mp hy]
    refine ⟨h.fromGray v (Set.mem_insert v gray) y (in_stack hy) hle, ?_⟩
    obtain ⟨g, hg, -, hreach⟩ := h.toGray y (in_stack hy)
    rcases hg with rfl | hg
    · exact hreach
    · have hgs := h₀.grayStack g hg
      rcases hr.closed h h₀ hlow hy hreach with hdone | hreg
      · refine absurd ?_ hdone.2
        rw [hr.stack]
        exact mem_append_right _ (mem_cons_of_mem _ hgs)
      · exact absurd hgs (hr.apart g hreg)
  · rintro ⟨hvy, hyv⟩
    refine (hr.closed h h₀ hlow hv hvy).resolve_left fun hdone => ?_
    have hall : ∀ z, Reach succ y z → Done cur z := fun z hz => by
      induction hz with
      | refl => exact hdone
      | tail _ hz ih => exact h.done _ ih _ hz
    exact (hall v hyv).2 (in_stack hv)

omit [DecidableEq V] in
theorem Mutual.symm (h : Mutual succ v w) : Mutual succ w v := ⟨h.2, h.1⟩

omit [DecidableEq V] in
theorem Mutual.trans {x : V} (h : Mutual succ v w) (h' : Mutual succ w x) : Mutual succ v x :=
  ⟨h.1.trans h'.1, h'.2.trans h.2⟩

theorem Scanning.leave_root (h : Scanning succ finish table₀ gray comps st v seen new cur)
    (h₀ : Inv succ finish table₀ gray comps st) (hr : Region succ st v s cur) (hlow : cur.low v = st.next) :
    Connected succ finish table₀ gray comps st v ((s ++ [v]) :: new) (cur.leave finish v) := by
  have hvs : v ∉ s := fun hv => lt_irrefl _ (hr.above v hv)
  have hpop : State.popUntil v cur.stack = (s ++ [v], st.stack) := hr.stack ▸ popUntil_append hvs
  have hleave : cur.leave finish v = { cur with
      stack := st.stack
      onStack := fun w => cur.onStack w && decide (w ∉ s ++ [v])
      table := finish (s ++ [v]) cur.table } := by
    rw [State.leave, if_pos (h.own.trans (congrArg some hlow.symm)), hpop]
  have split (w : V) : w ∈ cur.stack ↔ w ∈ s ++ [v] ∨ w ∈ st.stack := by
    rw [hr.stack, append_cons, mem_append]
  have same {x : V} (hx : x ∈ st.stack) : cur.num x = st.num x := h.num (h₀.visited x hx)
  have done (w : V) : Done (cur.leave finish v) w ↔ Done cur w ∨ w ∈ s ++ [v] := by
    rw [hleave]
    constructor
    · rintro ⟨hw, hws⟩
      by_cases hreg : w ∈ s ++ [v]
      · exact .inr hreg
      · exact .inl ⟨hw, fun hm => ((split w).mp hm).elim hreg hws⟩
    · rintro (⟨hw, hws⟩ | hreg)
      · exact ⟨hw, fun hm => hws ((split w).mpr (.inr hm))⟩
      · exact ⟨h.inv.visited w ((split w).mpr (.inl hreg)), hr.apart w hreg⟩
  have isComp := hr.mutual h.inv h₀ hlow
  have inv : Inv succ finish table₀ gray ((s ++ [v]) :: (new ++ comps)) (cur.leave finish v) := by
    refine ⟨?_, ?_, ?_, ?_, fun w hw x hx => ?_, ?_, ?_, ?_, ?_, ?_, ?_, ?_, ?_, fun w => ?_⟩
    · rw [hleave]
      exact h.inv.num_lt
    · rw [hleave]
      exact fun w hw => h.inv.visited w ((split w).mpr (.inr hw))
    · intro w
      rw [hleave]
      simp only [Bool.and_eq_true, decide_eq_true_eq]
      rw [h.inv.onStack w, split w]
      constructor
      · rintro ⟨hw, hn⟩
        exact hw.resolve_left hn
      · exact fun hw => ⟨.inr hw, fun hreg => hr.apart w hreg hw⟩
    · rw [hleave]
      have := h.inv.sorted
      rw [hr.stack, pairwise_append, pairwise_cons] at this
      exact this.2.1.2
    · refine (done x).mpr ?_
      rcases (done w).mp hw with hw | hw
      · exact .inl (h.inv.done w hw x hx)
      · exact hr.closed h.inv h₀ hlow hw (.edge hx)
    · rw [hleave]
      intro w hw hg x hx
      by_cases hwv : w = v
      · subst hwv
        exact (hr.exits w (by simp) x hx).1
      · exact h.inv.black w hw (fun hm => hm.elim hwv hg) x hx
    · rw [hleave]
      exact h₀.grayStack
    · rw [hleave]
      intro w hw
      obtain ⟨g, hg, hle, hreach⟩ := h₀.toGray w hw
      exact ⟨g, hg, ((same (h₀.grayStack g hg)).trans_le hle).trans (same hw).ge, hreach⟩
    · rw [hleave]
      intro g hg w hw hle
      exact h₀.fromGray g hg w hw (((same (h₀.grayStack g hg)).ge.trans hle).trans (same hw).le)
    · rw [hleave]
      exact congrArg (finish (s ++ [v])) h.inv.table
    · refine forall_mem_cons.mpr ⟨fun x hx w => ?_, h.inv.classes⟩
      have hxv := ((isComp x).mp hx).symm
      exact (isComp w).trans ⟨hxv.trans, hxv.symm.trans⟩
    · have nodup : cur.stack.Nodup := h.inv.sorted.imp (by
        rintro a b hlt rfl
        exact lt_irrefl _ hlt)
      rw [hr.stack, append_cons] at nodup
      exact forall_mem_cons.mpr ⟨(nodup_append.mp nodup).1, h.inv.nodup⟩
    · refine pairwise_cons.mpr ⟨fun c hc x hx hxc => ?_, h.inv.apart⟩
      exact ((h.inv.covered x).mpr ⟨c, hc, hxc⟩).2 ((split x).mpr (.inl hx))
    · rw [done w, h.inv.covered w, exists_mem_cons_iff, or_comm]
  refine ⟨inv, fun w hw => ?_, fun w hw => ?_, ?_, ⟨[], ?_, by simp⟩, fun hlt => ?_⟩
  · rw [hleave]
    exact h.index w hw
  · rw [hleave]
    exact h.low w hw
  · rw [hleave]
    simp [h.own]
  · rw [hleave]
    rfl
  · rw [hleave] at hlt
    exact absurd hlow hlt.ne

theorem Scanning.leave (h : Scanning succ finish table₀ gray comps st v seen new cur) (h₀ : Inv succ finish table₀ gray comps st)
    (hseen : ∀ y ∈ succ v, y ∈ seen) :
    ∃ new', Connected succ finish table₀ gray comps st v new' (cur.leave finish v) := by
  obtain ⟨s, hr⟩ := h.region h₀ hseen
  by_cases hlow : cur.low v = st.next
  · exact ⟨_, h.leave_root h₀ hr hlow⟩
  · have hleave : cur.leave finish v = cur := by
      rw [State.leave, if_neg]
      rw [h.own]
      exact fun he => hlow (Option.some.inj he).symm
    exact ⟨new, by rw [hleave]; exact h.leave_below h₀ hr hlow⟩

/-! ### Calls -/

/-- The vertices that have not been visited, of a set that holds what they lead to. -/
def free (U : Finset V) (st : State V T) : Finset V := U.filter fun v => st.index v = none

variable {U : Finset V}

omit [DecidableEq V] in
theorem free_subset (h : ∀ v, st.index v ≠ none → st'.index v = st.index v) : free U st' ⊆ free U st := by
  intro v hv
  obtain ⟨hU, hn⟩ := Finset.mem_filter.mp hv
  refine Finset.mem_filter.mpr ⟨hU, ?_⟩
  by_contra hne
  exact hne ((h v hne).symm.trans hn)

theorem strongconnect_connected (hU : ∀ x ∈ U, ∀ y ∈ succ x, y ∈ U) :
    ∀ (fuel : ℕ) (v : V) (gray : Set V) (comps : List (List V)) (st : State V T),
      Inv succ finish table₀ gray comps st → st.index v = none → (∀ g ∈ gray, Reach succ g v) → v ∈ U →
      (free U st).card ≤ fuel →
      ∃ new st', strongconnect succ finish fuel v st = some st' ∧ Connected succ finish table₀ gray comps st v new st' := by
  intro fuel
  induction fuel with
  | zero =>
    intro v gray comps st _ hv _ hvU hfuel
    have : v ∈ free U st := Finset.mem_filter.mpr ⟨hvU, hv⟩
    rw [Finset.card_eq_zero.mp (Nat.le_zero.mp hfuel)] at this
    cases this
  | succ fuel ih =>
    intro v gray comps st h₀ hv hgray hvU hfuel
    -- the induction is on the successors still to come
    have loop : ∀ (ws seen : List V) (new : List (List V)) (cur : State V T), (∀ w ∈ ws, w ∈ succ v) →
        (∀ w ∈ succ v, w ∈ seen ∨ w ∈ ws) → Scanning succ finish table₀ gray comps st v seen new cur →
        ∃ seen' new' cur', scan (strongconnect succ finish fuel) v ws cur = some cur' ∧
          Scanning succ finish table₀ gray comps st v seen' new' cur' ∧ ∀ w ∈ succ v, w ∈ seen' := by
      intro ws
      induction ws with
      | nil => exact fun seen new cur _ hall h => ⟨seen, new, cur, rfl, h, fun w hw => (hall w hw).resolve_right (by simp)⟩
      | cons w ws ihws =>
        intro seen new cur hws hall h
        obtain ⟨hw, hws⟩ := forall_mem_cons.mp hws
        have hall' : ∀ x ∈ succ v, x ∈ w :: seen ∨ x ∈ ws := by
          intro x hx
          rcases hall x hx with hx | hx
          · exact .inl (mem_cons_of_mem w hx)
          · rcases mem_cons.mp hx with rfl | hx
            · exact .inl mem_cons_self
            · exact .inr hx
        cases hi : cur.index w with
        | some i =>
          obtain ⟨seen', new', cur', hscan, h'⟩ := ihws (w :: seen) new _ hws hall' (h.see h₀ hv hw hi)
          exact ⟨seen', new', cur', by rw [scan, hi]; exact hscan, h'⟩
        | none =>
          have reaches : ∀ g ∈ insert v gray, Reach succ g w := by
            rintro g (rfl | hg)
            · exact .edge hw
            · exact (hgray g hg).tail hw
          have hless : (free U cur).card ≤ fuel := by
            have hsub : free U cur ⊆ (free U st).erase v := by
              refine fun x hx => Finset.mem_erase.mpr ⟨?_, free_subset h.index hx⟩
              rintro rfl
              have := (Finset.mem_filter.mp hx).2
              rw [h.own] at this
              cases this
            have hmem : v ∈ free U st := Finset.mem_filter.mpr ⟨hvU, hv⟩
            have hcard := Finset.card_le_card hsub
            rw [Finset.card_erase_of_mem hmem] at hcard
            omega
          obtain ⟨new₁, st₁, hst₁, hc⟩ := ih w (insert v gray) (new ++ comps) cur h.inv hi reaches (hU v hvU w hw) hless
          obtain ⟨seen', new', cur', hscan, h'⟩ := ihws (w :: seen) _ _ hws hall' (h.call h₀ hv hw hi hc)
          exact ⟨seen', new', cur', by rw [scan, hi]; simp only [hst₁, Option.bind_some]; exact hscan, h'⟩
    obtain ⟨seen, new, cur, hscan, hcur, hseen⟩ :=
      loop (succ v) [] [] (st.enter v) (fun _ => id) (fun _ => .inr) (.enter h₀ hv hgray)
    obtain ⟨new', hc⟩ := hcur.leave h₀ hseen
    exact ⟨new', _, by rw [strongconnect, hscan]; rfl, hc⟩

/-! ### The whole search -/

omit [DecidableEq V] in
theorem Inv.start : Inv succ finish table₀ ∅ [] (State.start table₀) where
  num_lt v hv := absurd rfl hv
  visited v hv := by simp [State.start] at hv
  onStack v := by simp [State.start]
  sorted := List.Pairwise.nil
  done v hv := absurd rfl hv.1
  black v hv := absurd rfl hv
  grayStack g hg := hg.elim
  toGray v hv := by simp [State.start] at hv
  fromGray g hg := hg.elim
  table := rfl
  classes comp hc := by simp at hc
  nodup comp hc := by simp at hc
  apart := List.Pairwise.nil
  covered v := by simp [Done, State.start]

omit [DecidableEq V] in
/-- Between two calls the stack is empty. -/
theorem Inv.stack_eq_nil (h : Inv succ finish table₀ ∅ comps st) : st.stack = [] := by
  refine eq_nil_iff_forall_not_mem.mpr fun v hv => ?_
  obtain ⟨g, hg, -⟩ := h.toGray v hv
  exact hg

omit [DecidableEq V] in
theorem Inv.visited_iff (h : Inv succ finish table₀ ∅ comps st) (v : V) : st.index v ≠ none ↔ ∃ comp ∈ comps, v ∈ comp := by
  rw [← h.covered v]
  simp [Done, h.stack_eq_nil]

omit [DecidableEq V] in
/-- What is visited leads only to what is. -/
theorem Inv.reach (h : Inv succ finish table₀ ∅ comps st) (hv : st.index v ≠ none) (hr : Reach succ v w) : st.index w ≠ none := by
  induction hr with
  | refl => exact hv
  | tail _ hw ih => exact h.black _ ih (Set.notMem_empty _) _ hw

omit [DecidableEq V] in
theorem Inv.unique (h : Inv succ finish table₀ gray comps st) {c c' : List V} (hc : c ∈ comps) (hc' : c' ∈ comps) (hv : v ∈ c)
    (hv' : v ∈ c') : c = c' := by
  by_contra hne
  have : Std.Symm fun c c' : List V => ∀ v ∈ c, v ∉ c' := ⟨fun _ _ h v hv hv' => h v hv' hv⟩
  exact h.apart.forall hc hc' hne v hv hv'

omit [DecidableEq V] in
/-- The components of two vertices are the same one exactly when each leads to the other. -/
theorem Inv.eq_iff (h : Inv succ finish table₀ gray comps st) {c c' : List V} (hc : c ∈ comps) (hc' : c' ∈ comps) (hv : v ∈ c)
    (hw : w ∈ c') : c = c' ↔ Mutual succ v w := by
  rw [← h.classes c hc v hv w]
  constructor
  · rintro rfl
    exact hw
  · exact fun hwc => h.unique hc hc' hwc hw

theorem search_run (hU : ∀ x ∈ U, ∀ y ∈ succ x, y ∈ U) {fuel : ℕ} :
    ∀ (roots : List V) (comps : List (List V)) (st : State V T), Inv succ finish table₀ ∅ comps st → (∀ r ∈ roots, r ∈ U) →
      (free U st).card ≤ fuel →
      ∃ new st', search succ finish fuel roots st = some st' ∧ Inv succ finish table₀ ∅ (new ++ comps) st' ∧
        (∀ v, st.index v ≠ none → st'.index v = st.index v) ∧ ∀ r ∈ roots, st'.index r ≠ none := by
  intro roots
  induction roots with
  | nil => exact fun comps st h _ _ => ⟨[], st, rfl, h, fun _ _ => rfl, by simp⟩
  | cons r roots ih =>
    intro comps st h hroots hfuel
    obtain ⟨hr, hroots⟩ := forall_mem_cons.mp hroots
    by_cases hnone : st.index r = none
    · obtain ⟨new, st₁, hst₁, hc⟩ := strongconnect_connected hU fuel r ∅ comps st h hnone (fun g hg => hg.elim) hr hfuel
      obtain ⟨new', st₂, hst₂, hinv, hkeep, hall⟩ := ih (new ++ comps) st₁ hc.inv hroots
        ((Finset.card_le_card (free_subset hc.index)).trans hfuel)
      have keep (v : V) (hv : st.index v ≠ none) : st₂.index v = st.index v := by
        have hv₁ := hc.index v hv
        exact (hkeep v (hv₁ ▸ hv)).trans hv₁
      refine ⟨new' ++ new, st₂, by rw [search, if_pos hnone, hst₁]; exact hst₂, by rwa [append_assoc], keep, ?_⟩
      refine forall_mem_cons.mpr ⟨?_, hall⟩
      rw [hkeep r hc.visited]
      exact hc.visited
    · obtain ⟨new, st₁, hst₁, hinv, hkeep, hall⟩ := ih comps st h hroots hfuel
      refine ⟨new, st₁, by rw [search, if_neg hnone]; exact hst₁, hinv, hkeep, forall_mem_cons.mpr ⟨?_, hall⟩⟩
      rw [hkeep r hnone]
      exact hnone

end Tarjan
