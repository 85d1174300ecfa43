import Scriptc.Lib.Forest
import Scriptc.Lib.Loop

/-!
# The class graph of the Rust backend

The classes of a program are linked into their forest, numbered in preorder, so that `instanceof` is
a comparison of numbers, and every root collects the slots of its virtual methods: one for each
topmost declaration of a method that some class below declares again.

The passes recurse over the children and climb the bases without a bound; here they take fuel, and
where that runs out the code would not end (`Failure.endless`).
-/

namespace Scriptc.Backend.RustClassGraph

open Forest List Function

/-- `IrClassDef`: the names of the methods that a class declares are the keys of a map. -/
structure ClassDef where
  name : String
  base : Option String
  methods : List String
  abstractMethods : List String
  nodup : methods.Nodup

/-- `classMeta`: the classes under their names, in the order of the map. -/
structure Classes where
  defs : List ClassDef
  nodup : (defs.map ClassDef.name).Nodup

/-- Why the graph is not built. -/
inductive Failure where
  | unsupported (kind : String)
  | endless
  deriving DecidableEq

namespace Classes

variable (g : Classes)

def names : List String := g.defs.map ClassDef.name

def get (c : String) : Option ClassDef := g.defs.find? fun d => d.name = c

/-! ### Bases and children -/

/-- `meta.base`: a base that is no class of the program counts as none. -/
def base (c : String) : Option String := do
  let d ← g.get c
  let b ← d.base
  let b' ← g.get b
  some b'.name

/-- `meta.children`, as the first loop pushes them. -/
def children : String → List String :=
  g.defs.foldl (fun lists d =>
    match g.base d.name with
    | none => lists
    | some b => update lists b (lists b ++ [d.name])) fun _ => []

/-! ### The numbers -/

/-- What the numbering has written. -/
structure Numbers where
  next : ℕ
  root : String → String
  pre : String → ℕ
  post : String → ℕ

/-- `number`. -/
def number : ℕ → String → String → Numbers → Except Failure Numbers
  | 0, _, _, _ => .error .endless
  | n + 1, c, root, s => do
    let s : Numbers :=
      { s with root := update s.root c root, pre := update s.pre c s.next, next := s.next + 1 }
    let s ← (g.children c).foldlM (fun s d => number n d root s) s
    .ok { s with post := update s.post c (s.next - 1) }

/-- The classes without a base, in order. -/
def roots : List String := g.names.filter fun c => g.base c = none

def numbers : Except Failure Numbers :=
  g.roots.foldlM (fun s c => g.number g.names.length c c s) ⟨0, id, fun _ => 0, fun _ => 0⟩

def hierarchy (c : String) : Bool := (g.base c).isSome || !(g.children c).isEmpty

/-! ### The slots -/

def declares (c m : String) : Bool := (g.get c).any fun d => d.methods.contains m

def isAbstract (c m : String) : Bool := (g.get c).any fun d => d.abstractMethods.contains m

/-- `declaredBelow`. -/
def declaredBelow : ℕ → String → String → Bool
  | 0, _, _ => false
  | n + 1, c, m => (g.children c).any fun d => g.declares d m || declaredBelow n d m

/-- The climb over the ancestors. -/
def inherited : ℕ → String → String → Bool
  | 0, _, _ => false
  | n + 1, c, m =>
    match g.base c with
    | none => false
    | some a => g.declares a m || inherited n a m

variable {Fn : Type} (functions : String → Option Fn)

/-- The name of the function of a method. -/
def key (c m : String) : String := "%" ++ c ++ "." ++ m

/-- `findImplementation`. -/
def findImplementation : ℕ → String → String → Option Fn
  | 0, _, _ => none
  | n + 1, c, m => (g.children c).findSome? fun d =>
    (if g.declares d m && !g.isAbstract d m then functions (key d m) else none) <|> findImplementation n d m

/-- `RustVtSlot`. -/
structure Slot (Fn : Type) where
  method : String
  declarer : String
  fn : Fn

/-- The slot that a declaration makes, if any. -/
def slotOf (c m : String) : Except Failure (Option (Slot Fn)) :=
  if !g.inherited g.names.length c m && g.declaredBelow g.names.length c m then
    match functions (key c m) with
    | some fn => .ok (some ⟨m, c, fn⟩)
    | none =>
      if g.isAbstract c m then
        match g.findImplementation functions g.names.length c m with
        | some fn => .ok (some ⟨m, c, fn⟩)
        | none => .ok none
      else .error (.unsupported ("missing virtual method '" ++ c ++ "." ++ m ++ "'"))
  else .ok none

/-- `meta.def.methods`. -/
def methods (c : String) : List String := ((g.get c).map ClassDef.methods).getD []

/-- `collectSlots`: what it pushes to the root. -/
def collectSlots : ℕ → String → Except Failure (List (Slot Fn))
  | 0, _ => .error .endless
  | n + 1, c => do
    let own ← (g.methods c).mapM (g.slotOf functions c)
    let below ← (g.children c).mapM (collectSlots n)
    .ok (own.filterMap id ++ below.flatten)

end Classes

/-- The graph: what the passes write into the metadata. -/
structure Graph (Fn : Type) extends Classes.Numbers where
  hierarchy : String → Bool
  slots : String → List (Classes.Slot Fn)

/-- `buildRustClassGraph`. -/
def buildRustClassGraph {Fn : Type} (g : Classes) (functions : String → Option Fn) : Except Failure (Graph Fn) := do
  let numbers ← g.numbers
  let slots ← g.roots.foldlM (fun slots c => do
    if g.hierarchy c then
      let own ← g.collectSlots functions g.names.length c
      .ok (update slots c own)
    else .ok slots) fun _ => []
  .ok { numbers with hierarchy := g.hierarchy, slots }

/-! ### The forest -/

namespace Classes

variable {g : Classes} {a b c d e m : String}

theorem get_eq_some {x : ClassDef} : g.get c = some x ↔ x ∈ g.defs ∧ x.name = c := by
  constructor
  · intro h
    exact ⟨mem_of_find?_eq_some h, by simpa using find?_some h⟩
  · rintro ⟨hx, rfl⟩
    have hsome : (g.get x.name).isSome := List.find?_isSome.mpr ⟨x, hx, decide_eq_true rfl⟩
    cases hy : g.get x.name with
    | none =>
      rw [hy] at hsome
      cases hsome
    | some y =>
      have hname : y.name = x.name := by simpa using find?_some hy
      have heq := inj_on_of_nodup_map g.nodup (mem_of_find?_eq_some hy) hx hname
      rw [heq]

theorem mem_names : c ∈ g.names ↔ ∃ x, g.get c = some x := by
  simp only [names, mem_map, get_eq_some]

theorem base_mem (h : g.base d = some c) : c ∈ g.names ∧ d ∈ g.names := by
  simp only [base, Option.bind_eq_bind, Option.bind_eq_some_iff, Option.some_inj] at h
  obtain ⟨x, hx, b, -, y, hy, rfl⟩ := h
  exact ⟨mem_map.mpr ⟨y, (get_eq_some.mp hy).1, rfl⟩, mem_names.mpr ⟨x, hx⟩⟩

theorem children_eq (c : String) : g.children c = g.names.filter fun d => g.base d = some c := by
  have hfold : ∀ (defs : List ClassDef) (lists : String → List String),
      defs.foldl (fun lists d =>
        match g.base d.name with
        | none => lists
        | some b => update lists b (lists b ++ [d.name])) lists c =
      lists c ++ (defs.map ClassDef.name).filter fun d => g.base d = some c := by
    intro defs
    induction defs with
    | nil => exact fun lists => (append_nil _).symm
    | cons d defs ih =>
      intro lists
      rw [foldl_cons, ih, map_cons]
      cases hb : g.base d.name with
      | none => rw [filter_cons_of_neg (by simp [hb])]
      | some b =>
        by_cases hbc : b = c
        · subst hbc
          rw [filter_cons_of_pos (by simp [hb])]
          simp
        · rw [filter_cons_of_neg (by simp [hb, hbc])]
          simp [update_of_ne (Ne.symm hbc)]
  exact hfold g.defs _

theorem mem_children : d ∈ g.children c ↔ g.base d = some c := by
  rw [children_eq, mem_filter, decide_eq_true_iff]
  exact and_iff_right_of_imp fun h => (base_mem h).2

theorem nodup_children (c : String) : (g.children c).Nodup := by
  rw [children_eq]
  exact g.nodup.filter _

theorem mem_roots : c ∈ g.roots ↔ c ∈ g.names ∧ g.base c = none := by
  rw [roots, mem_filter, decide_eq_true_iff]

/-! ### Preorder -/

/-- What a part of the numbering does: the classes it covers get an interval each, from what comes
next, nested as the classes are; and their roots are in order. -/
structure Covers (g : Classes) (P : String → Prop) (R : String → String → Prop) (s s' : Numbers) : Prop where
  le : s.next ≤ s'.next
  other : ∀ d, ¬ P d → s'.pre d = s.pre d ∧ s'.post d = s.post d ∧ s'.root d = s.root d
  range : ∀ d, P d → s.next ≤ s'.pre d ∧ s'.pre d ≤ s'.post d ∧ s'.post d < s'.next
  root : ∀ d, P d → R d (s'.root d)
  nested : ∀ d e, P d → P e → (Below g.base d e ↔ s'.pre d ≤ s'.pre e ∧ s'.pre e ≤ s'.post d)

variable {P Q : String → Prop} {R : String → String → Prop} {s s' s'' : Numbers}

theorem Covers.none (hP : ∀ d, ¬ P d) : Covers g P R s s :=
  ⟨le_rfl, fun _ _ => ⟨rfl, rfl, rfl⟩, fun d h => absurd h (hP d), fun d h => absurd h (hP d), fun d _ h => absurd h (hP d)⟩

/-- One part after another, where no class is below one of each. -/
theorem Covers.trans (h : Covers g P R s s') (h' : Covers g Q R s' s'') (hdisjoint : ∀ d, P d → ¬ Q d)
    (hP : ∀ d e, P d → Below g.base d e → P e) (hQ : ∀ d e, Q d → Below g.base d e → Q e) :
    Covers g (fun d => P d ∨ Q d) R s s'' := by
  have hkeep : ∀ {d}, P d → s''.pre d = s'.pre d ∧ s''.post d = s'.post d ∧ s''.root d = s'.root d :=
    fun hd => h'.other _ (hdisjoint _ hd)
  refine ⟨h.le.trans h'.le, fun d hd => ?_, fun d hd => ?_, fun d hd => ?_, fun d e hd he => ?_⟩
  · rw [not_or] at hd
    obtain ⟨h1, h2, h3⟩ := h.other d hd.1
    obtain ⟨h1', h2', h3'⟩ := h'.other d hd.2
    exact ⟨h1'.trans h1, h2'.trans h2, h3'.trans h3⟩
  · have hle := h.le
    have hle' := h'.le
    rcases hd with hd | hd
    · obtain ⟨h1, h2, -⟩ := hkeep hd
      have hr := h.range d hd
      omega
    · have hr := h'.range d hd
      omega
  · rcases hd with hd | hd
    · rw [(hkeep hd).2.2]
      exact h.root d hd
    · exact h'.root d hd
  · rcases hd with hd | hd <;> rcases he with he | he
    · obtain ⟨h1, h2, -⟩ := hkeep hd
      rw [h1, h2, (hkeep he).1]
      exact h.nested d e hd he
    · -- the second part is numbered later
      obtain ⟨h1, h2, -⟩ := hkeep hd
      have hr := h.range d hd
      have hr' := h'.range e he
      exact iff_of_false (fun hb => hdisjoint e (hP d e hd hb) he) (by omega)
    · obtain ⟨h1, -, -⟩ := hkeep he
      have hr := h.range e he
      have hr' := h'.range d hd
      exact iff_of_false (fun hb => hdisjoint e he (hQ d e hd hb)) (by omega)
    · exact h'.nested d e hd he

theorem Covers.congr (h : Covers g P R s s') (hPQ : ∀ d, P d ↔ Q d) : Covers g Q R s s' := by
  have heq : P = Q := funext fun d => propext (hPQ d)
  rwa [← heq]

/-- A loop over classes that have nothing below them in common. -/
theorem covers_foldlM (R : String → String → Prop) (step : String → Numbers → Except Failure Numbers) {l : List String}
    (hstep : ∀ c ∈ l, ∀ s, ∃ s', step c s = .ok s' ∧ Covers g (Below g.base c) R s s') (hl : l.Pairwise (Apart g.base))
    (s : Numbers) : ∃ s', l.foldlM (fun s c => step c s) s = .ok s' ∧
      Covers g (fun d => ∃ c ∈ l, Below g.base c d) R s s' := by
  induction l generalizing s with
  | nil => exact ⟨s, rfl, .none (by simp)⟩
  | cons c l ih =>
    obtain ⟨hfirst, hl⟩ := pairwise_cons.mp hl
    obtain ⟨s1, hs1, h1⟩ := hstep c mem_cons_self s
    obtain ⟨s2, hs2, h2⟩ := ih (fun d hd => hstep d (mem_cons_of_mem _ hd)) hl s1
    refine ⟨s2, ?_, ?_⟩
    · rw [foldlM_cons, hs1]
      exact hs2
    · refine (h1.trans h2 ?_ ?_ ?_).congr fun d => by simp
      · rintro d hd ⟨c', hc', hd'⟩
        exact hfirst c' hc' d hd hd'
      · exact fun d e hd he => hd.trans he
      · rintro d e ⟨c', hc', hd⟩ he
        exact ⟨c', hc', hd.trans he⟩

section Acyclic

variable (hc : Acyclic g.base)
include hc

theorem children_apart (c : String) : (g.children c).Pairwise (Apart g.base) :=
  (nodup_children c).imp_of_mem fun ha hb hne => hc.brothers (mem_children.mp ha) (mem_children.mp hb) hne

omit hc in
theorem roots_pairwise : g.roots.Pairwise (Apart g.base) :=
  (g.nodup.filter _).imp_of_mem fun ha hb hne => roots_apart (mem_roots.mp ha).2 (mem_roots.mp hb).2 hne

variable {n : ℕ}

theorem count_child (h : g.base d = some c) (hn : count g.base g.names.toFinset c ≤ n + 1) :
    count g.base g.names.toFinset d ≤ n := by
  have hlt := hc.count_lt h (mem_toFinset.mpr (base_mem h).1)
  omega

omit hc in
theorem count_le_length (c : String) : count g.base g.names.toFinset c ≤ g.names.length :=
  (count_le c).trans (toFinset_card_le _)

/-- **The numbering of a class** covers what is below it. -/
theorem number_covers (hn : c ∈ g.names) (hcount : count g.base g.names.toFinset c ≤ n) (root : String) (s : Numbers) :
    ∃ s', g.number n c root s = .ok s' ∧ Covers g (Below g.base c) (fun _ r => r = root) s s' := by
  induction n generalizing c s with
  | zero =>
    have : 0 < count g.base g.names.toFinset c := count_pos (mem_toFinset.mpr hn)
    omega
  | succ n ih =>
    obtain ⟨s1, hs1⟩ : ∃ s1 : Numbers, s1 =
      { s with root := update s.root c root, pre := update s.pre c s.next, next := s.next + 1 } := ⟨_, rfl⟩
    obtain ⟨s2, hs2, h2⟩ := covers_foldlM (fun _ r => r = root) (fun d s => g.number n d root s)
      (fun d hd s => ih (base_mem (mem_children.mp hd)).2 (count_child hc (mem_children.mp hd) hcount) s)
      (children_apart hc c) s1
    have hchild : ∀ d, (∃ x ∈ g.children c, Below g.base x d) ↔ StrictlyBelow g.base c d := by
      intro d
      simp only [strictlyBelow_iff_child, mem_children]
    have h2 := h2.congr hchild
    obtain ⟨hpre, -, hroot⟩ := h2.other c (hc c)
    have hle := h2.le
    have hs1n : s1.next = s.next + 1 := by rw [hs1]
    have hpre : s2.pre c = s.next := by rw [hpre, hs1]; exact update_self ..
    have hne : ∀ {d}, StrictlyBelow g.base c d → d ≠ c := by
      rintro d hd rfl
      exact hc d hd
    have hpost : ∀ {d}, d ≠ c → update s2.post c (s2.next - 1) d = s2.post d := fun h => update_of_ne h ..
    refine ⟨{ s2 with post := update s2.post c (s2.next - 1) }, ?_, ?_⟩
    · rw [number, ← hs1, hs2]
      rfl
    refine ⟨?_, fun d hd => ?_, fun d hd => ?_, fun d hd => ?_, fun d e hd he => ?_⟩
    · show s.next ≤ s2.next
      omega
    · have hdc : d ≠ c := fun h => hd (by rw [h]; exact Below.refl c)
      obtain ⟨h1, h2', h3⟩ := h2.other d fun h => hd (below_iff.mpr (.inr h))
      refine ⟨h1.trans ?_, (hpost hdc).trans (h2'.trans ?_), h3.trans ?_⟩
      · rw [hs1]
        exact update_of_ne hdc ..
      · rw [hs1]
      · rw [hs1]
        exact update_of_ne hdc ..
    · show s.next ≤ s2.pre d ∧ s2.pre d ≤ update s2.post c (s2.next - 1) d ∧
        update s2.post c (s2.next - 1) d < s2.next
      rcases below_iff.mp hd with rfl | hd
      · rw [update_self]
        omega
      · have hr := h2.range d hd
        rw [hpost (hne hd)]
        omega
    · show s2.root d = root
      rcases below_iff.mp hd with rfl | hd
      · rw [hroot, hs1]
        exact update_self ..
      · exact h2.root d hd
    · show _ ↔ s2.pre d ≤ s2.pre e ∧ s2.pre e ≤ update s2.post c (s2.next - 1) d
      rcases below_iff.mp hd with rfl | hd'
      · -- the class itself is before all that is below it
        refine iff_of_true he ?_
        rw [update_self]
        rcases below_iff.mp he with rfl | he
        · omega
        · have hr := h2.range e he
          omega
      · rw [hpost (hne hd')]
        rcases below_iff.mp he with rfl | he
        · have hr := h2.range d hd'
          refine iff_of_false (fun hb => hne hd' (hc.antisymm hb hd)) (by omega)
        · exact h2.nested d e hd' he

theorem numbers_covers : ∃ s, g.numbers = .ok s ∧
    Covers g (fun d => ∃ r ∈ g.roots, Below g.base r d) (fun d r => r ∈ g.roots ∧ Below g.base r d) ⟨0, id, fun _ => 0, fun _ => 0⟩ s := by
  refine covers_foldlM _ (fun c s => g.number g.names.length c c s) (fun c hr s => ?_) roots_pairwise _
  obtain ⟨s', hs', h⟩ := number_covers hc (mem_roots.mp hr).1 (count_le_length c) c s
  refine ⟨s', hs', { h with root := fun d hd => ?_ }⟩
  rw [h.root d hd]
  exact ⟨hr, hd⟩

theorem exists_root (h : c ∈ g.names) : ∃ r ∈ g.roots, Below g.base r c := by
  have hmem : ∀ x y, g.base x = some y → y ∈ g.names.toFinset := fun x y hxy => mem_toFinset.mpr (base_mem hxy).1
  obtain ⟨r, hr, hroot, hb⟩ := hc.exists_root hmem (mem_toFinset.mpr h)
  exact ⟨r, mem_roots.mpr ⟨mem_toFinset.mp hr, hroot⟩, hb⟩

/-! ### Searches -/

/-- **A search over the children** finds what is strictly below. -/
theorem search_below {p : String → Prop} (search : ℕ → String → Prop)
    (hstep : ∀ n c, search (n + 1) c ↔ ∃ d ∈ g.children c, p d ∨ search n d) (hn : c ∈ g.names)
    (hcount : count g.base g.names.toFinset c ≤ n) : search n c ↔ ∃ d, StrictlyBelow g.base c d ∧ p d := by
  induction n generalizing c with
  | zero =>
    have hpos : 0 < count g.base g.names.toFinset c := count_pos (mem_toFinset.mpr hn)
    omega
  | succ n ih =>
    have hchild : ∀ x, x ∈ g.children c → (search n x ↔ ∃ d, StrictlyBelow g.base x d ∧ p d) := fun x hx =>
      ih (base_mem (mem_children.mp hx)).2 (count_child hc (mem_children.mp hx) hcount)
    rw [hstep]
    constructor
    · rintro ⟨x, hx, hp | hs⟩
      · exact ⟨x, strictlyBelow_iff_child.mpr ⟨x, mem_children.mp hx, Below.refl x⟩, hp⟩
      · obtain ⟨d, hd, hp⟩ := (hchild x hx).mp hs
        exact ⟨d, strictlyBelow_iff_child.mpr ⟨x, mem_children.mp hx, below_iff.mpr (.inr hd)⟩, hp⟩
    · rintro ⟨d, hd, hp⟩
      obtain ⟨x, hx, hxd⟩ := strictlyBelow_iff_child.mp hd
      refine ⟨x, mem_children.mpr hx, ?_⟩
      rcases below_iff.mp hxd with rfl | hxd
      · exact .inl hp
      · exact .inr ((hchild x (mem_children.mpr hx)).mpr ⟨d, hxd, hp⟩)

theorem declaredBelow_iff (hn : c ∈ g.names) :
    g.declaredBelow g.names.length c m = true ↔ ∃ d, StrictlyBelow g.base c d ∧ g.declares d m = true := by
  apply search_below hc (fun n c => g.declaredBelow n c m = true) _ hn (count_le_length c)
  intro n c
  simp only [declaredBelow, any_eq_true, Bool.or_eq_true]

/-- A method with a body, whose function is there. -/
def Implements (g : Classes) {Fn : Type} (functions : String → Option Fn) (m d : String) : Prop :=
  g.declares d m = true ∧ g.isAbstract d m = false ∧ (functions (key d m)).isSome = true

variable {Fn : Type} {functions : String → Option Fn}

theorem findImplementation_iff (hn : c ∈ g.names) : (g.findImplementation functions g.names.length c m).isSome = true ↔
    ∃ d, StrictlyBelow g.base c d ∧ g.Implements functions m d := by
  apply search_below hc (fun n c => (g.findImplementation functions n c m).isSome = true) _ hn (count_le_length c)
  intro n c
  have hor : ∀ x y : Option Fn, (x <|> y).isSome = true ↔ x.isSome = true ∨ y.isSome = true := by
    intro x y
    cases x <;> simp
  have hif : ∀ d, (if (g.declares d m && !g.isAbstract d m) = true then functions (key d m) else none).isSome = true ↔
      g.Implements functions m d := by
    intro d
    rw [Implements]
    cases g.declares d m <;> cases g.isAbstract d m <;> simp
  simp only [findImplementation, List.findSome?_isSome_iff, hor, hif]

/-- The climb finds what is strictly above. -/
theorem inherited_iff_aux (hn : c ∈ g.names) (hcount : g.names.length < n + count g.base g.names.toFinset c) :
    g.inherited n c m = true ↔ ∃ a, StrictlyBelow g.base a c ∧ g.declares a m = true := by
  induction n generalizing c with
  | zero =>
    have hle : count g.base g.names.toFinset c ≤ g.names.length := count_le_length c
    omega
  | succ n ih =>
    rw [inherited]
    cases ha : g.base c with
    | none =>
      refine iff_of_false Bool.false_ne_true ?_
      rintro ⟨a, hac, -⟩
      obtain ⟨x, -, hx⟩ := strictlyBelow_iff_parent.mp hac
      rw [ha] at hx
      cases hx
    | some a =>
      have hlt := hc.count_lt ha (mem_toFinset.mpr (base_mem ha).1)
      rw [Bool.or_eq_true, ih (base_mem ha).1 (by omega)]
      constructor
      · rintro (h | ⟨b, hb, h⟩)
        · exact ⟨a, strictlyBelow_iff_parent.mpr ⟨a, Below.refl a, ha⟩, h⟩
        · exact ⟨b, strictlyBelow_iff_parent.mpr ⟨a, below_iff.mpr (.inr hb), ha⟩, h⟩
      · rintro ⟨b, hb, h⟩
        obtain ⟨x, hbx, hx⟩ := strictlyBelow_iff_parent.mp hb
        obtain rfl := Option.some.inj (ha.symm.trans hx)
        rcases below_iff.mp hbx with rfl | hbx
        · exact .inl h
        · exact .inr ⟨b, hbx, h⟩

theorem inherited_iff (hn : c ∈ g.names) :
    g.inherited g.names.length c m = true ↔ ∃ a, StrictlyBelow g.base a c ∧ g.declares a m = true := by
  have hpos : 0 < count g.base g.names.toFinset c := count_pos (mem_toFinset.mpr hn)
  exact inherited_iff_aux hc hn (by omega)

/-! ### The slots -/

/-- A declaration above which there is none. -/
def Topmost (g : Classes) (m a : String) : Prop := g.declares a m = true ∧ ∀ b, StrictlyBelow g.base b a → g.declares b m = false

omit hc in
theorem declares_iff : g.declares c m = true ↔ m ∈ g.methods c := by
  rw [declares, methods]
  cases g.get c with
  | none => simp
  | some d => simp

omit hc in
theorem declares_mem (h : g.declares c m = true) : c ∈ g.names := by
  rw [mem_names]
  rw [declares] at h
  cases hg : g.get c with
  | none =>
    rw [hg] at h
    cases h
  | some x => exact ⟨x, rfl⟩

/-- What a declaration that makes a slot is. -/
theorem slotOf_eq_some {s : Slot Fn} (hn : c ∈ g.names) (hm : m ∈ g.methods c) (h : g.slotOf functions c m = .ok (some s)) :
    s.method = m ∧ s.declarer = c ∧ g.Topmost m c := by
  rw [slotOf] at h
  split at h
  · rename_i hif
    rw [Bool.and_eq_true, Bool.not_eq_true'] at hif
    have htop : g.Topmost m c := by
      refine ⟨declares_iff.mpr hm, fun b hb => ?_⟩
      rw [← Bool.not_eq_true]
      intro hd
      rw [(inherited_iff hc hn).mpr ⟨b, hb, hd⟩] at hif
      cases hif.1
    split at h
    · cases h
      exact ⟨rfl, rfl, htop⟩
    · split at h
      · split at h
        · cases h
          exact ⟨rfl, rfl, htop⟩
        · cases h
      · cases h
  · cases h

/-- A topmost declaration with another below it makes one, where it is not refused. -/
theorem slotOf_topmost {o : Option (Slot Fn)} (htop : g.Topmost m c)
    (hbelow : ∃ d, StrictlyBelow g.base c d ∧ g.declares d m = true)
    (himpl : g.isAbstract c m = true → ∃ d, StrictlyBelow g.base c d ∧ g.Implements functions m d)
    (h : g.slotOf functions c m = .ok o) : ∃ s, o = some s := by
  have hn := declares_mem htop.1
  have hinherited : g.inherited g.names.length c m = false := by
    rw [← Bool.not_eq_true, inherited_iff hc hn]
    rintro ⟨a, ha, hd⟩
    rw [htop.2 a ha] at hd
    cases hd
  rw [slotOf, hinherited, (declaredBelow_iff hc hn).mpr hbelow, if_pos (by rfl)] at h
  split at h
  · cases h
    exact ⟨_, rfl⟩
  · split at h
    · rename_i habstract
      have hfound := (findImplementation_iff hc hn).mpr (himpl habstract)
      split at h
      · cases h
        exact ⟨_, rfl⟩
      · rename_i hnone
        rw [hnone] at hfound
        cases hfound
    · cases h

/-- What is collected for a class: the slots of the declarations at and below it, each once. -/
structure Collected (g : Classes) (functions : String → Option Fn) (c : String) (slots : List (Slot Fn)) : Prop where
  turns : ∀ d, Below g.base c d → ∀ m ∈ g.methods d, ∃ o, g.slotOf functions d m = .ok o ∧ ∀ s ∈ o, s ∈ slots
  sound : ∀ s ∈ slots, Below g.base c s.declarer ∧ s.method ∈ g.methods s.declarer ∧
    g.slotOf functions s.declarer s.method = .ok (some s)
  distinct : slots.Pairwise fun s t => s.declarer = t.declarer → s.method ≠ t.method

omit hc in
theorem methods_nodup (c : String) : (g.methods c).Nodup := by
  rw [methods]
  cases g.get c with
  | none => exact .nil
  | some d => exact d.nodup

omit hc in
theorem slotOf_post (c m : String) : Except.Post (· ≠ Failure.endless) (fun o => g.slotOf functions c m = .ok o) (g.slotOf functions c m) := by
  cases h : g.slotOf functions c m with
  | ok o => exact rfl
  | error e =>
    rintro rfl
    rw [slotOf] at h
    split at h
    · split at h
      · cases h
      · split at h
        · split at h <;> cases h
        · cases h
    · cases h

/-- What the slots of a class itself and those of its children make. -/
theorem collected_node {own : List (Option (Slot Fn))} {below : List (List (Slot Fn))} (hn : c ∈ g.names)
    (hown : List.Forall₂ (fun m o => g.slotOf functions c m = .ok o) (g.methods c) own)
    (hbelow : List.Forall₂ (fun d slots => g.Collected functions d slots) (g.children c) below) :
    g.Collected functions c (own.filterMap id ++ below.flatten) := by
  have hslot : ∀ s ∈ own.filterMap id, s.declarer = c ∧ s.method ∈ g.methods c ∧ g.slotOf functions c s.method = .ok (some s) := by
    intro s hs
    obtain ⟨o, ho, rfl⟩ := mem_filterMap.mp hs
    obtain ⟨m, hm, h⟩ := hown.exists_left _ ho
    obtain ⟨rfl, hdeclarer, -⟩ := slotOf_eq_some hc hn hm h
    exact ⟨hdeclarer, hm, h⟩
  have hchild : ∀ s ∈ below.flatten, ∃ d, g.base d = some c ∧ Below g.base d s.declarer ∧ s.method ∈ g.methods s.declarer ∧
      g.slotOf functions s.declarer s.method = .ok (some s) := by
    intro s hs
    obtain ⟨slots, hslots, hs⟩ := mem_flatten.mp hs
    obtain ⟨d, hd, h⟩ := hbelow.exists_left _ hslots
    exact ⟨d, mem_children.mp hd, h.sound s hs⟩
  refine ⟨fun d hd m hm => ?_, fun s hs => ?_, ?_⟩
  · rcases below_iff_child.mp hd with rfl | ⟨x, hx, hxd⟩
    · obtain ⟨o, ho, h⟩ := hown.exists_right m hm
      refine ⟨o, h, fun s hs => mem_append_left _ (mem_filterMap.mpr ⟨o, ho, hs⟩)⟩
    · obtain ⟨slots, hslots, h⟩ := hbelow.exists_right x (mem_children.mpr hx)
      obtain ⟨o, ho, hin⟩ := h.turns d hxd m hm
      exact ⟨o, ho, fun s hs => mem_append_right _ (mem_flatten.mpr ⟨slots, hslots, hin s hs⟩)⟩
  · rcases mem_append.mp hs with hs | hs
    · obtain ⟨rfl, hm, h⟩ := hslot s hs
      exact ⟨Below.refl _, hm, h⟩
    · obtain ⟨d, hd, hbelow, h⟩ := hchild s hs
      exact ⟨(Below.child hd).trans hbelow, h⟩
  · refine pairwise_append.mpr ⟨?_, pairwise_flatten.mpr ⟨fun slots hslots => ?_, ?_⟩, fun s hs t ht heq => ?_⟩
    · refine pairwise_filterMap.mpr (hown.pairwise (methods_nodup c) ?_)
      rintro m hm m' hm' o o' hne ho ho' s rfl t rfl -
      rw [(slotOf_eq_some hc hn hm ho).1, (slotOf_eq_some hc hn hm' ho').1]
      exact hne
    · obtain ⟨d, -, h⟩ := hbelow.exists_left _ hslots
      exact h.distinct
    · -- nothing is below two of the children
      refine hbelow.pairwise (children_apart hc c) ?_
      intro d _ e _ slots slots' hapart h h' s hs t ht heq
      refine absurd (h'.sound t ht).1 (hapart _ ?_)
      rw [← heq]
      exact (h.sound s hs).1
    · -- nor is the class below its child
      obtain ⟨d, hd, hbelow, -⟩ := hchild t ht
      rw [← heq, (hslot s hs).1] at hbelow
      exact absurd hbelow (hc.not_below hd)

theorem collectSlots_post (hn : c ∈ g.names) (hcount : count g.base g.names.toFinset c ≤ n) :
    Except.Post (· ≠ Failure.endless) (fun slots => g.Collected functions c slots) (g.collectSlots functions n c) := by
  induction n generalizing c with
  | zero =>
    have hpos : 0 < count g.base g.names.toFinset c := count_pos (mem_toFinset.mpr hn)
    omega
  | succ n ih =>
    rw [collectSlots]
    refine Except.Post.bind (Except.Post.mapM fun m _ => slotOf_post c m) fun own hown => ?_
    have hchild : ∀ d ∈ g.children c, Except.Post (· ≠ Failure.endless) (fun slots => g.Collected functions d slots)
        (g.collectSlots functions n d) := fun d hd =>
      ih (base_mem (mem_children.mp hd)).2 (count_child hc (mem_children.mp hd) hcount)
    exact Except.Post.bind (Except.Post.mapM hchild) fun below hbelow => collected_node hc hn hown hbelow

/-- The last pass: every root that is in a hierarchy has the slots of what is below it. -/
theorem slots_post {l : List String} (hl : ∀ r ∈ l, r ∈ g.names) (hnodup : l.Nodup) (slots : String → List (Slot Fn)) :
    Except.Post (· ≠ Failure.endless)
      (fun slots' => (∀ r ∈ l, g.hierarchy r = true → g.Collected functions r (slots' r)) ∧
        ∀ r, (r ∈ l → g.hierarchy r = false) → slots' r = slots r)
      (l.foldlM (fun slots c => do
        if g.hierarchy c then
          let own ← g.collectSlots functions g.names.length c
          .ok (update slots c own)
        else .ok slots) slots) := by
  induction l generalizing slots with
  | nil => exact ⟨by simp, fun r _ => rfl⟩
  | cons c l ih =>
    obtain ⟨hfresh, hnodup⟩ := nodup_cons.mp hnodup
    have hturn : Except.Post (· ≠ Failure.endless)
        (fun slots' : String → List (Slot Fn) => (g.hierarchy c = true → g.Collected functions c (slots' c)) ∧
          ∀ r, (r = c → g.hierarchy r = false) → slots' r = slots r)
        (do if g.hierarchy c then
              let own ← g.collectSlots functions g.names.length c
              .ok (update slots c own)
            else .ok slots) := by
      by_cases hh : g.hierarchy c = true
      · rw [if_pos hh]
        refine Except.Post.bind (collectSlots_post hc (hl c mem_cons_self) (count_le_length c)) fun own hown => ?_
        refine ⟨fun _ => ?_, fun r hr => update_of_ne ?_ ..⟩
        · rwa [update_self]
        · rintro rfl
          rw [hr rfl] at hh
          cases hh
      · rw [if_neg hh]
        exact ⟨fun h => absurd h hh, fun r _ => rfl⟩
    rw [foldlM_cons]
    refine Except.Post.bind hturn ?_
    rintro slots' ⟨hc', hother⟩
    refine Except.Post.mono (ih (fun r hr => hl r (mem_cons_of_mem _ hr)) hnodup slots') ?_
    rintro slots'' ⟨hin, hout⟩
    refine ⟨fun r hr hh => ?_, fun r hr => ?_⟩
    · rcases mem_cons.mp hr with rfl | hr
      · rw [hout r fun h => absurd h hfresh]
        exact hc' hh
      · exact hin r hr hh
    · rw [hout r fun h => hr (mem_cons_of_mem _ h)]
      apply hother r
      rintro rfl
      exact hr mem_cons_self

omit hc in
theorem hierarchy_of_child (h : StrictlyBelow g.base c d) : g.hierarchy c = true := by
  obtain ⟨x, hx, -⟩ := strictlyBelow_iff_child.mp h
  have hin := mem_children.mpr hx
  rw [hierarchy]
  cases hl : g.children c with
  | nil =>
    rw [hl] at hin
    cases hin
  | cons y l => exact Bool.or_true _

omit hc in
/-- Two topmost declarations above one class are the same. -/
theorem Topmost.unique (ha : g.Topmost m a) (hb : g.Topmost m b) (hac : Below g.base a c) (hbc : Below g.base b c) : a = b := by
  have hnot : ∀ {a b}, g.Topmost m a → g.Topmost m b → Below g.base a b → a = b := by
    intro a b ha hb hab
    rcases below_iff.mp hab with heq | hs
    · exact heq.symm
    · have hd := hb.2 a hs
      rw [ha.1] at hd
      cases hd
  rcases hac.chain hbc with h | h
  · exact hnot ha hb h
  · exact (hnot hb ha h).symm

/-- Slots for one method serve classes that have nothing below them in common. -/
theorem Collected.apart {r : String} {slots : List (Slot Fn)} (h : g.Collected functions r slots) :
    slots.Pairwise fun s t => s.method = t.method → Apart g.base s.declarer t.declarer := by
  have htop : ∀ s ∈ slots, g.Topmost s.method s.declarer := by
    intro s hs
    obtain ⟨-, hm, hslot⟩ := h.sound s hs
    exact (slotOf_eq_some hc (declares_mem (declares_iff.mpr hm)) hm hslot).2.2
  refine h.distinct.imp_of_mem fun {s t} hs ht hne hm d hsd htd => ?_
  have htop' := htop t ht
  rw [← hm] at htop'
  exact hne ((htop s hs).unique htop' hsd htd) hm

/-- **One slot** for a method among the slots collected for a root, as seen from a class below the
topmost declaration. -/
theorem Collected.exists_one {r : String} {slots : List (Slot Fn)} (h : g.Collected functions r slots)
    (htop : g.Topmost m a) (hac : Below g.base a c) (hra : Below g.base r a)
    (hbelow : ∃ d, StrictlyBelow g.base a d ∧ g.declares d m = true)
    (himpl : g.isAbstract a m = true → ∃ d, StrictlyBelow g.base a d ∧ g.Implements functions m d) :
    ∃ before s after, slots = before ++ s :: after ∧ s.method = m ∧ s.declarer = a ∧
      ∀ t ∈ before ++ after, t.method = m → ¬ Below g.base t.declarer c := by
  obtain ⟨o, ho, hin⟩ := h.turns a hra m (declares_iff.mp htop.1)
  obtain ⟨s, rfl⟩ := slotOf_topmost hc htop hbelow himpl ho
  obtain ⟨hm, ha, -⟩ := slotOf_eq_some hc (declares_mem htop.1) (declares_iff.mp htop.1) ho
  obtain ⟨before, after, rfl⟩ := append_of_mem (hin s rfl)
  refine ⟨before, s, after, rfl, hm, ha, fun t ht htm htc => ?_⟩
  rw [← ha] at hac
  obtain ⟨-, hcons, hbetween⟩ := pairwise_append.mp (h.apart hc)
  rcases mem_append.mp ht with ht | ht
  · exact hbetween t ht s mem_cons_self (htm.trans hm.symm) c htc hac
  · exact (pairwise_cons.mp hcons).1 t ht (hm.trans htm.symm) c hac htc

theorem build_post : Except.Post (· ≠ Failure.endless)
    (fun graph : Graph Fn =>
      Covers g (fun d => ∃ r ∈ g.roots, Below g.base r d) (fun d r => r ∈ g.roots ∧ Below g.base r d)
        ⟨0, id, fun _ => 0, fun _ => 0⟩ graph.toNumbers ∧
      (∀ r ∈ g.roots, g.hierarchy r = true → g.Collected functions r (graph.slots r)) ∧
      ∀ r, (r ∈ g.roots → g.hierarchy r = false) → graph.slots r = [])
    (buildRustClassGraph g functions) := by
  obtain ⟨numbers, hnumbers, hcovers⟩ := numbers_covers hc
  rw [buildRustClassGraph, hnumbers]
  refine Except.Post.bind (P := fun s => s = numbers) rfl ?_
  rintro _ rfl
  refine Except.Post.bind (slots_post hc (fun r hr => (mem_roots.mp hr).1) (g.nodup.filter _) fun _ => []) ?_
  rintro slots ⟨hin, hout⟩
  exact ⟨hcovers, hin, hout⟩

end Acyclic

end Classes

/-- **The class graph is right.** The passes end. Where no function is missing, a class is below
another exactly when its number is in the other's interval; a method whose topmost declaration is
declared again below, and implemented if it is abstract, has one slot for the classes below that
declaration; and no class is served by two slots for one method. -/
theorem buildRustClassGraph_correct {Fn : Type} (g : Classes) (functions : String → Option Fn) (hc : Acyclic g.base) :
    buildRustClassGraph g functions ≠ .error .endless ∧
    ∀ graph, buildRustClassGraph g functions = .ok graph →
      (∀ c ∈ g.names, ∀ d ∈ g.names, Below g.base c d ↔ graph.pre c ≤ graph.pre d ∧ graph.pre d ≤ graph.post c) ∧
      (∀ c a m, Below g.base a c → g.Topmost m a → (∃ d, StrictlyBelow g.base a d ∧ g.declares d m = true) →
        (g.isAbstract a m = true → ∃ d, StrictlyBelow g.base a d ∧ g.Implements functions m d) →
        ∃ before s after, graph.slots (graph.root c) = before ++ s :: after ∧ s.method = m ∧ s.declarer = a ∧
          ∀ t ∈ before ++ after, t.method = m → ¬ Below g.base t.declarer c) ∧
      ∀ c, (graph.slots (graph.root c)).Pairwise fun s t => s.method = t.method → Apart g.base s.declarer t.declarer := by
  have hpost := @Classes.build_post _ hc _ functions
  constructor
  · intro h
    rw [h] at hpost
    exact hpost rfl
  intro graph h
  rw [h] at hpost
  obtain ⟨hcovers, hin, hout⟩ := hpost
  refine ⟨fun c hcn d hdn => ?_, fun c a m hac htop hbelow himpl => ?_, fun c => ?_⟩
  · exact hcovers.nested c d (Classes.exists_root hc hcn) (Classes.exists_root hc hdn)
  · obtain ⟨r, hr, hra⟩ := Classes.exists_root hc (Classes.declares_mem htop.1)
    obtain ⟨hroot, hrc⟩ := hcovers.root c ⟨r, hr, hra.trans hac⟩
    -- the root of the class is above the declaration too
    have hra : Below g.base (graph.root c) a := by
      rcases hrc.chain hac with h | h
      · exact h
      · rcases below_iff.mp h with heq | hs
        · rw [heq]
          exact Below.refl a
        · obtain ⟨x, -, hx⟩ := strictlyBelow_iff_parent.mp hs
          rw [(Classes.mem_roots.mp hroot).2] at hx
          cases hx
    have hh : g.hierarchy (graph.root c) = true := by
      obtain ⟨d, hd, -⟩ := hbelow
      exact Classes.hierarchy_of_child (Relation.TransGen.trans_right hra hd)
    exact (hin _ hroot hh).exists_one hc htop hac hra hbelow himpl
  · by_cases h : graph.root c ∈ g.roots ∧ g.hierarchy (graph.root c) = true
    · exact (hin _ h.1 h.2).apart hc
    · rw [hout _ fun hr => Bool.eq_false_iff.mpr fun hh => h ⟨hr, hh⟩]
      exact .nil

/-- A class with an abstract method, after the one that implements it. -/
def pair : Classes := ⟨[⟨"Dog", some "Animal", ["speak"], [], by decide⟩, ⟨"Animal", none, ["speak"], ["speak"], by decide⟩], by decide⟩

theorem base_pair {c d : String} (h : pair.base d = some c) : c = "Animal" ∧ d = "Dog" := by
  obtain ⟨hc, hd⟩ := Classes.base_mem h
  have hnames : ∀ x ∈ pair.names, ∀ y ∈ pair.names, pair.base y = some x → x = "Animal" ∧ y = "Dog" := by decide
  exact hnames c hc d hd h

theorem acyclic_pair : Acyclic pair.base := by
  intro c h
  obtain ⟨x, hx, hxc⟩ := strictlyBelow_iff_child.mp h
  obtain ⟨y, -, hy⟩ := strictlyBelow_iff_parent.mp h
  exact absurd ((base_pair hx).1.symm.trans (base_pair hy).2) (by decide)

theorem buildRustClassGraph_correct_pair :
    ∃ graph, buildRustClassGraph pair (fun k => if k = "%Dog.speak" then some () else none) = .ok graph ∧
      graph.pre "Animal" ≤ graph.pre "Dog" ∧ ∃ s ∈ graph.slots (graph.root "Dog"), s.method = "speak" ∧ s.declarer = "Animal" := by
  obtain ⟨-, h⟩ := buildRustClassGraph_correct pair (fun k => if k = "%Dog.speak" then some () else none) acyclic_pair
  have hdog : pair.base "Dog" = some "Animal" := by decide
  have hbelow : StrictlyBelow pair.base "Animal" "Dog" := .single hdog
  have htop : pair.Topmost "speak" "Animal" := by
    refine ⟨by decide, fun b hb => ?_⟩
    obtain ⟨y, -, hy⟩ := strictlyBelow_iff_parent.mp hb
    exact absurd (base_pair hy).2 (by decide)
  cases hbuild : buildRustClassGraph pair (fun k => if k = "%Dog.speak" then some () else none) with
  | error e =>
    have hok : (buildRustClassGraph pair (fun k => if k = "%Dog.speak" then some () else none)).isOk = true := by decide
    rw [hbuild] at hok
    cases hok
  | ok graph =>
    obtain ⟨hpre, hslots, -⟩ := h graph hbuild
    obtain ⟨before, s, after, heq, hm, hd, -⟩ := hslots "Dog" "Animal" "speak" (Below.child hdog) htop ⟨"Dog", hbelow, by decide⟩
      fun _ => ⟨"Dog", hbelow, by decide, by decide, by decide⟩
    refine ⟨graph, rfl, ((hpre "Animal" (by decide) "Dog" (by decide)).mp (Below.child hdog)).1, s, ?_, hm, hd⟩
    rw [heq]
    exact mem_append_right _ mem_cons_self

end Scriptc.Backend.RustClassGraph
