import Mathlib.Data.List.Dedup
import Mathlib.Data.List.Perm.Subperm
import Mathlib.Logic.Relation
import Scriptc.Backend.MayThrow

/-!
# The may-throw analysis finds the least fixpoint

A function is in the result when a path of call edges leads from it to a function that throws by
itself, and the flag is set when a closure target is. The rounds only add what such a path puts
there; the round that changes nothing leaves sets closed along the edges. Every other round adds
a function or sets the flag, so there is such a round.
-/

namespace Scriptc.MayThrow

open List

/-! ### What the analysis is for -/

/-- The kind occurs in the node. -/
inductive Node.Has (k : Kind) : Node → Prop
  | here {children : List Node} : Node.Has k (.mk k children)
  | under {kind : Kind} {children : List Node} {n : Node} : n ∈ children → Node.Has k n → Node.Has k (.mk kind children)

/-- The kind occurs in the body of the function. -/
def Fun.Has (fn : Fun) (k : Kind) : Prop := ∃ n ∈ fn.body, n.Has k

/-- The class is the other, or descends from it. -/
def Descends (classes : List ClassDef) (name cls : String) : Prop :=
  Relation.ReflTransGen (fun c b => BaseOf classes b c) name cls ∧ (findClass classes cls).isSome

namespace Module

variable (m : Module)

/-- A closure is made over the function, and calling it runs its body. -/
def ClosureTarget (name : String) : Prop :=
  (∃ fn ∈ m.functions, fn.Has (.closure name)) ∧ ∀ fn ∈ m.functions, fn.name = name → ¬ fn.async ∧ ¬ fn.generator

/-- Some cast of the module makes an adapter closure. -/
def HasAdapter : Prop := ∃ fn ∈ m.functions, fn.Has (.dynCheck .func)

/-- **The call edges.** -/
inductive Calls : String → String → Prop
  | call {fn : Fun} {callee : String} : fn ∈ m.functions → fn.Has (.call callee) →
      (∀ g ∈ m.functions, g.name = callee → ¬ g.async ∧ ¬ g.generator) → Calls fn.name callee
  | new {fn : Fun} {className : String} : fn ∈ m.functions → fn.Has (.new className) →
      Calls fn.name (constructorOf className)
  | newValue {fn : Fun} {cls : String} {k : ClassDef} : fn ∈ m.functions → fn.Has (.newValue (some cls)) →
      k ∈ m.classes → Descends m.classes k.name cls → Calls fn.name (constructorOf k.name)
  | virtualCall {fn : Fun} {method : String} {k : ClassDef} : fn ∈ m.functions → fn.Has (.virtualCall method) →
      k ∈ m.classes → method ∈ k.methods → Calls fn.name s!"%{k.name}.{method}"
  | errorToString {fn : Fun} : fn ∈ m.functions → fn.Has (.toString .dyn) →
      (∃ g ∈ m.functions, g.name = errorToStringDispatchFn) → Calls fn.name errorToStringDispatchFn
  | callValue {fn : Fun} {target : String} : fn ∈ m.functions → fn.Has .callValue → m.ClosureTarget target →
      Calls fn.name target

/-- The function has a node that throws, or calls a closure where adapters are made. -/
def Seed (fn : Fun) : Prop :=
  (∃ k, fn.Has k ∧ m.throwsAt ((fn.locals.filter (·.tdz)).map Local.id) k) ∨ fn.Has .callValue ∧ m.HasAdapter

/-- **Can throw**: a path of call edges leads to a function that throws by itself. -/
def CanThrow (name : String) : Prop := ∃ fn ∈ m.functions, m.Seed fn ∧ Relation.ReflTransGen m.Calls name fn.name

/-- **A call of a closure may throw.** -/
def Indirect : Prop := m.HasAdapter ∨ ∃ t, m.ClosureTarget t ∧ m.CanThrow t

end Module

/-! ### The walk -/

mutual

/-- The kinds of a tree, in the order of the walk. -/
def Node.kinds : Node → List Kind
  | .mk kind children => kind :: Node.kindsAll children

def Node.kindsAll : List Node → List Kind
  | [] => []
  | n :: ns => n.kinds ++ Node.kindsAll ns

end

variable {k : Kind}

theorem Node.mem_kindsAll {ns : List Node} : k ∈ Node.kindsAll ns ↔ ∃ n ∈ ns, k ∈ n.kinds := by
  induction ns with
  | nil => simp [Node.kindsAll]
  | cons n ns ih => simp [Node.kindsAll, ih]

theorem Node.Has.mem_kinds {n : Node} (h : n.Has k) : k ∈ n.kinds := by
  induction h with
  | here => exact mem_cons_self
  | under hn _ ih => exact mem_cons_of_mem _ (Node.mem_kindsAll.mpr ⟨_, hn, ih⟩)

mutual

theorem Node.has_of_mem_kinds : ∀ {n : Node}, k ∈ n.kinds → n.Has k
  | .mk kind children, h => by
    rcases mem_cons.mp h with rfl | h
    · exact .here
    · obtain ⟨n, hn, hk⟩ := Node.has_of_mem_kindsAll h
      exact .under hn hk

theorem Node.has_of_mem_kindsAll : ∀ {ns : List Node}, k ∈ Node.kindsAll ns → ∃ n ∈ ns, n.Has k
  | [], h => absurd h not_mem_nil
  | n :: ns, h => by
    rcases mem_append.mp h with h | h
    · exact ⟨n, mem_cons_self, Node.has_of_mem_kinds h⟩
    · obtain ⟨n', hn, hk⟩ := Node.has_of_mem_kindsAll h
      exact ⟨n', mem_cons_of_mem _ hn, hk⟩

end

/-- The kinds of a function's body. -/
def Fun.kinds (fn : Fun) : List Kind := Node.kindsAll fn.body

variable {fn : Fun}

theorem Fun.mem_kinds : k ∈ fn.kinds ↔ fn.Has k := by
  constructor
  · exact Node.has_of_mem_kindsAll
  · rintro ⟨n, hn, hk⟩
    exact Node.mem_kindsAll.mpr ⟨n, hn, hk.mem_kinds⟩

/-- The closures a list of kinds makes. -/
def closuresOf (ks : List Kind) : List String :=
  ks.filterMap fun
    | .closure fnName => some fnName
    | _ => none

theorem mem_closuresOf {ks : List Kind} {t : String} : t ∈ closuresOf ks ↔ .closure t ∈ ks := by
  simp only [closuresOf, mem_filterMap]
  constructor
  · rintro ⟨k, hk, hs⟩
    cases k <;> simp_all
  · exact fun h => ⟨_, h, rfl⟩

namespace Module

variable {m : Module} {tdzIds : List String}

/-- What a run of the `switch` over some nodes adds. -/
def noteAll (m : Module) (tdzIds : List String) (ks : List Kind) (w : Walk) : Walk where
  facts :=
    { throws := w.facts.throws || ks.any (m.throwsAt tdzIds)
      callees := w.facts.callees ++ ks.flatMap m.calleesAt
      callsValue := w.facts.callsValue || ks.contains .callValue }
  closureTargets := w.closureTargets ++ closuresOf ks
  sawDynFuncAdapter := w.sawDynFuncAdapter || ks.contains (.dynCheck .func)

theorem noteAll_nil (w : Walk) : m.noteAll tdzIds [] w = w := by simp [noteAll, closuresOf]

theorem noteAll_cons (k : Kind) (ks : List Kind) (w : Walk) :
    m.noteAll tdzIds (k :: ks) w = m.noteAll tdzIds ks (m.note tdzIds k w) := by
  simp only [noteAll, note, any_cons, flatMap_cons, contains_cons, Bool.or_assoc, append_assoc]
  cases k <;> simp [closuresOf, Bool.beq_comm]

theorem noteAll_append (ks ks' : List Kind) (w : Walk) :
    m.noteAll tdzIds (ks ++ ks') w = m.noteAll tdzIds ks' (m.noteAll tdzIds ks w) := by
  induction ks generalizing w with
  | nil => rw [nil_append, noteAll_nil]
  | cons k ks ih => rw [cons_append, noteAll_cons, ih, noteAll_cons]

mutual

theorem visit_eq : ∀ (n : Node) (w : Walk), m.visit tdzIds n w = m.noteAll tdzIds n.kinds w
  | .mk kind children, w => by rw [visit, visitAll_eq children, Node.kinds, noteAll_cons]

/-- **The walk**: the `switch` over the kinds of the tree, in order. -/
theorem visitAll_eq : ∀ (ns : List Node) (w : Walk), m.visitAll tdzIds ns w = m.noteAll tdzIds (Node.kindsAll ns) w
  | [], w => by rw [visitAll, Node.kindsAll, noteAll_nil]
  | n :: ns, w => by rw [visitAll, visit_eq n, visitAll_eq ns, Node.kindsAll, noteAll_append]

end

/-! ### The facts -/

/-- The facts of one function. -/
def factsOf (m : Module) (fn : Fun) : Facts where
  throws := fn.kinds.any (m.throwsAt ((fn.locals.filter (·.tdz)).map Local.id))
  callees := fn.kinds.flatMap m.calleesAt
  callsValue := fn.kinds.contains .callValue

theorem gather_eq (acc : List (String × Facts) × List String × Bool) (fn : Fun) :
    m.gather acc fn = (acc.1 ++ [(fn.name, m.factsOf fn)], acc.2.1 ++ closuresOf fn.kinds,
      acc.2.2 || fn.kinds.contains (.dynCheck .func)) := by
  simp [gather, visitAll_eq, noteAll, factsOf, Fun.kinds]

theorem gathered_eq : m.gathered = (m.functions.map fun fn => (fn.name, m.factsOf fn),
    m.functions.flatMap fun fn => closuresOf fn.kinds, m.functions.any fun fn => fn.kinds.contains (.dynCheck .func)) := by
  have h : ∀ (fns : List Fun) acc, fns.foldl m.gather acc =
      (acc.1 ++ fns.map fun fn => (fn.name, m.factsOf fn), acc.2.1 ++ fns.flatMap fun fn => closuresOf fn.kinds,
        acc.2.2 || fns.any fun fn => fn.kinds.contains (.dynCheck .func)) := by
    intro fns
    induction fns with
    | nil => simp
    | cons fn fns ih =>
      intro acc
      rw [foldl_cons, ih, gather_eq]
      simp [append_assoc, Bool.or_assoc]
  rw [gathered, h]
  simp

theorem suspended_eq_false {name : String} :
    m.suspended name = false ↔ ∀ g ∈ m.functions, g.name = name → ¬ g.async ∧ ¬ g.generator := by
  simp [suspended, any_eq_false]

theorem mem_targets {t : String} : t ∈ m.gathered.2.1 ↔ ∃ fn ∈ m.functions, fn.Has (.closure t) := by
  simp only [gathered_eq, mem_flatMap, mem_closuresOf, Fun.mem_kinds]

theorem adapter_iff : m.gathered.2.2 = true ↔ m.HasAdapter := by
  simp [gathered_eq, HasAdapter, Fun.mem_kinds]

theorem closureTarget_iff {t : String} : m.ClosureTarget t ↔ t ∈ m.gathered.2.1 ∧ m.suspended t = false := by
  rw [ClosureTarget, mem_targets, suspended_eq_false]

/-- The loop over the bases ends at the class sought when that class is an ancestor. -/
theorem descends_iff (cls name : String) : m.descends cls name = true ↔ Descends m.classes name cls := by
  induction name using m.base_wf.induction with
  | _ name ih =>
    rw [descends]
    constructor
    · intro h
      split at h
      · cases h
      next c hf =>
        split_ifs at h with hc
        · have hcn : c.name = name := by simpa using find?_some hf
          obtain rfl : name = cls := by rw [← hcn]; simpa using hc
          exact ⟨.refl, by rw [hf]; rfl⟩
        · split at h
          · cases h
          next b hb =>
            obtain ⟨hp, hs⟩ := (ih b ⟨c, hf, hb⟩).mp h
            exact ⟨.head ⟨c, hf, hb⟩ hp, hs⟩
    · rintro ⟨hp, hs⟩
      rcases Relation.ReflTransGen.cases_head hp with rfl | ⟨b, ⟨c, hf, hb⟩, hp⟩
      · obtain ⟨c, hf⟩ := Option.isSome_iff_exists.mp hs
        have hcn : c.name = name := by simpa using find?_some hf
        split
        next hn => rw [hf] at hn; cases hn
        next c' hf' =>
          obtain rfl : c = c' := Option.some.inj (hf.symm.trans hf')
          rw [if_pos (by simpa using hcn)]
      · have hd := (ih b ⟨c, hf, hb⟩).mpr ⟨hp, hs⟩
        split
        next hn => rw [hf] at hn; cases hn
        next c' hf' =>
          obtain rfl : c = c' := Option.some.inj (hf.symm.trans hf')
          split_ifs with hc
          · rfl
          split
          next hn => rw [hb] at hn; cases hn
          next b' hb' =>
            obtain rfl : b = b' := Option.some.inj (hb.symm.trans hb')
            exact hd

theorem errorDispatch_iff : m.errorDispatch = true ↔ ∃ g ∈ m.functions, g.name = errorToStringDispatchFn := by
  simp [errorDispatch]

theorem mem_methodImpls {method name : String} :
    name ∈ m.methodImpls method ↔ ∃ k ∈ m.classes, method ∈ k.methods ∧ name = s!"%{k.name}.{method}" := by
  simp only [methodImpls, mem_flatMap, mem_map, mem_filter, beq_iff_eq]
  constructor
  · rintro ⟨k, hk, meth, ⟨hm, rfl⟩, rfl⟩
    exact ⟨k, hk, hm, rfl⟩
  · rintro ⟨k, hk, hm, rfl⟩
    exact ⟨k, hk, method, ⟨hm, rfl⟩, rfl⟩

/-- **The edges** are the callees of the facts, and the closure targets where a closure is called. -/
theorem calls_iff {a c : String} : m.Calls a c ↔ ∃ fn ∈ m.functions, fn.name = a ∧
    (c ∈ (m.factsOf fn).callees ∨ (m.factsOf fn).callsValue = true ∧ m.ClosureTarget c) := by
  constructor
  · intro h
    cases h with
    | call hfn hk hs =>
      refine ⟨_, hfn, rfl, .inl (mem_flatMap.mpr ⟨_, Fun.mem_kinds.mpr hk, ?_⟩)⟩
      simp [calleesAt, suspended_eq_false.mpr hs]
    | new hfn hk => exact ⟨_, hfn, rfl, .inl (mem_flatMap.mpr ⟨_, Fun.mem_kinds.mpr hk, by simp [calleesAt]⟩)⟩
    | newValue hfn hk hc hd =>
      refine ⟨_, hfn, rfl, .inl (mem_flatMap.mpr ⟨_, Fun.mem_kinds.mpr hk, ?_⟩)⟩
      exact mem_map.mpr ⟨_, mem_filter.mpr ⟨hc, (descends_iff _ _).mpr hd⟩, rfl⟩
    | virtualCall hfn hk hc hm =>
      refine ⟨_, hfn, rfl, .inl (mem_flatMap.mpr ⟨_, Fun.mem_kinds.mpr hk, ?_⟩)⟩
      exact mem_methodImpls.mpr ⟨_, hc, hm, rfl⟩
    | errorToString hfn hk he =>
      refine ⟨_, hfn, rfl, .inl (mem_flatMap.mpr ⟨_, Fun.mem_kinds.mpr hk, ?_⟩)⟩
      simp [calleesAt, errorDispatch_iff.mpr he]
    | callValue hfn hk ht => exact ⟨_, hfn, rfl, .inr ⟨by simpa [factsOf] using Fun.mem_kinds.mpr hk, ht⟩⟩
  · rintro ⟨fn, hfn, rfl, h | ⟨hv, ht⟩⟩
    · obtain ⟨k, hk, hc⟩ := mem_flatMap.mp h
      have hk := Fun.mem_kinds.mp hk
      unfold calleesAt at hc
      split at hc
      · split_ifs at hc with he
        · simp only [Bool.and_eq_true, beq_iff_eq] at he
          obtain ⟨he, rfl⟩ := he
          obtain rfl := mem_singleton.mp hc
          exact .errorToString hfn hk (errorDispatch_iff.mp he)
        · cases hc
      · split_ifs at hc with hs
        · cases hc
        · obtain rfl := mem_singleton.mp hc
          exact .call hfn hk (suspended_eq_false.mp (by simpa using hs))
      · obtain rfl := mem_singleton.mp hc
        exact .new hfn hk
      · obtain ⟨k', hk', rfl⟩ := mem_map.mp hc
        obtain ⟨hm, hd⟩ := mem_filter.mp hk'
        exact .newValue hfn hk hm ((descends_iff _ _).mp hd)
      · obtain ⟨k', hk', hm, rfl⟩ := mem_methodImpls.mp hc
        exact .virtualCall hfn hk hk' hm
      · cases hc
    · exact .callValue hfn (Fun.mem_kinds.mp (by simpa [factsOf] using hv)) ht

theorem seed_iff : m.Seed fn ↔ (m.factsOf fn).throws = true ∨ (m.factsOf fn).callsValue = true ∧ m.HasAdapter := by
  simp [Seed, factsOf, Fun.mem_kinds]

/-! ### A round -/

/-- What puts a function in. -/
def Fires (indirect : Bool) (may : List String) (f : Facts) : Prop :=
  f.callsValue = true ∧ indirect = true ∨ ∃ c ∈ f.callees, c ∈ may

theorem sweep1_cases (indirect : Bool) (acc : List String × Bool) (f : String × Facts) :
    (f.1 ∉ acc.1 ∧ Fires indirect acc.1 f.2 ∧ sweep1 indirect acc f = (acc.1 ++ [f.1], true)) ∨
      ((f.1 ∈ acc.1 ∨ ¬ Fires indirect acc.1 f.2) ∧ sweep1 indirect acc f = acc) := by
  by_cases hin : f.1 ∈ acc.1
  · exact .inr ⟨.inl hin, by simp [sweep1, hin]⟩
  · have hb : ((f.2.callsValue && indirect) || f.2.callees.any acc.1.contains) = true ↔ Fires indirect acc.1 f.2 := by
      simp [Fires]
    by_cases hf : Fires indirect acc.1 f.2
    · exact .inl ⟨hin, hf, by rw [sweep1, if_neg (by simpa using hin), if_pos (hb.mpr hf)]⟩
    · exact .inr ⟨.inr hf, by rw [sweep1, if_neg (by simpa using hin), if_neg (mt hb.mp hf)]⟩

/-- A sweep appends functions, and says so. -/
theorem exists_sweep (indirect : Bool) (fs : List (String × Facts)) (may : List String) (changed : Bool) :
    ∃ l, fs.foldl (sweep1 indirect) (may, changed) = (may ++ l, changed || !l.isEmpty) := by
  induction fs generalizing may changed with
  | nil => exact ⟨[], by simp⟩
  | cons f fs ih =>
    rw [foldl_cons]
    rcases sweep1_cases indirect (may, changed) f with ⟨-, -, he⟩ | ⟨-, he⟩
    · obtain ⟨l, hl⟩ := ih (may ++ [f.1]) true
      exact ⟨f.1 :: l, by rw [he, hl]; simp⟩
    · rw [he]
      exact ih may changed

variable {indirect : Bool}

/-- What the additions keep, a sweep keeps. -/
theorem sweep_inv {I : List String → Prop} {fs : List (String × Facts)}
    (hstep : ∀ may, ∀ f ∈ fs, I may → f.1 ∉ may → Fires indirect may f.2 → I (may ++ [f.1])) {acc : List String × Bool}
    (h0 : I acc.1) : I (fs.foldl (sweep1 indirect) acc).1 := by
  induction fs generalizing acc with
  | nil => exact h0
  | cons f fs ih =>
    rw [foldl_cons]
    refine ih (fun may f' hf => hstep may f' (mem_cons_of_mem _ hf)) ?_
    rcases sweep1_cases indirect acc f with ⟨hn, hf, he⟩ | ⟨-, he⟩
    · rw [he]
      exact hstep acc.1 f mem_cons_self h0 hn hf
    · rwa [he]

/-- A sweep that adds nothing has nothing to add. -/
theorem sweep_closed {fs : List (String × Facts)} {acc : List String × Bool}
    (h : (fs.foldl (sweep1 indirect) acc).2 = false) :
    (fs.foldl (sweep1 indirect) acc).1 = acc.1 ∧ ∀ f ∈ fs, Fires indirect acc.1 f.2 → f.1 ∈ acc.1 := by
  induction fs generalizing acc with
  | nil => exact ⟨rfl, fun _ hf => absurd hf not_mem_nil⟩
  | cons f fs ih =>
    rw [foldl_cons] at h ⊢
    rcases sweep1_cases indirect acc f with ⟨-, -, he⟩ | ⟨ho, he⟩
    · obtain ⟨l, hl⟩ := exists_sweep indirect fs (acc.1 ++ [f.1]) true
      rw [he, hl] at h
      cases h
    · rw [he] at h ⊢
      obtain ⟨h1, h2⟩ := ih h
      refine ⟨h1, fun f' hf' hfire => ?_⟩
      rcases mem_cons.mp hf' with rfl | hf'
      · exact ho.resolve_right fun hn => hn hfire
      · exact h2 f' hf' hfire

theorem throwingTarget_iff {may : List String} :
    m.throwingTarget m.gathered.2.1 may = true ↔ ∃ t, m.ClosureTarget t ∧ t ∈ may := by
  simp only [throwingTarget, any_eq_true, Bool.and_eq_true, Bool.not_eq_true', contains_iff_mem,
    closureTarget_iff]
  constructor
  · rintro ⟨t, ht, hm, hs⟩
    exact ⟨t, ⟨ht, hs⟩, hm⟩
  · rintro ⟨t, ⟨ht, hs⟩, hm⟩
    exact ⟨t, ht, hm, hs⟩

/-! ### The invariant of the rounds -/

/-- What the state holds after any number of rounds: all that throws by itself, and nothing that no
path accounts for. -/
structure Grown (m : Module) (s : State) : Prop where
  nodup : s.may.Nodup
  names : ∀ a ∈ s.may, ∃ fn ∈ m.functions, fn.name = a
  seeds : ∀ fn ∈ m.functions, (m.factsOf fn).throws = true → fn.name ∈ s.may
  adapter : m.HasAdapter → s.indirect = true
  sound : ∀ a ∈ s.may, m.CanThrow a
  sound_indirect : s.indirect = true → m.Indirect

theorem CanThrow.of_calls {a b : String} (h : m.Calls a b) (hb : m.CanThrow b) : m.CanThrow a := by
  obtain ⟨fn, hfn, hs, hp⟩ := hb
  exact ⟨fn, hfn, hs, .head h hp⟩

theorem CanThrow.of_seed (hfn : fn ∈ m.functions) (hs : m.Seed fn) : m.CanThrow fn.name :=
  ⟨fn, hfn, hs, .refl⟩

/-- A function that a sweep adds can throw. -/
theorem canThrow_of_fires {may : List String} (hfn : fn ∈ m.functions)
    (hmay : ∀ a ∈ may, m.CanThrow a) (hind : indirect = true → m.Indirect) (h : Fires indirect may (m.factsOf fn)) :
    m.CanThrow fn.name := by
  rcases h with ⟨hv, hi⟩ | ⟨c, hc, hm⟩
  · rcases hind hi with ha | ⟨t, ht, hthrow⟩
    · exact .of_seed hfn (seed_iff.mpr (.inr ⟨hv, ha⟩))
    · exact .of_calls (calls_iff.mpr ⟨fn, hfn, rfl, .inr ⟨hv, ht⟩⟩) hthrow
  · exact .of_calls (calls_iff.mpr ⟨fn, hfn, rfl, .inl hc⟩) (hmay c hm)

theorem mem_start_may {a : String} : a ∈ m.start.may ↔ ∃ fn ∈ m.functions, (m.factsOf fn).throws = true ∧ fn.name = a := by
  simp only [start, gathered_eq, mem_map, mem_filter]
  constructor
  · rintro ⟨_, ⟨⟨fn, hfn, rfl⟩, ht⟩, rfl⟩
    exact ⟨fn, hfn, ht, rfl⟩
  · rintro ⟨fn, hfn, ht, rfl⟩
    exact ⟨_, ⟨⟨fn, hfn, rfl⟩, ht⟩, rfl⟩

theorem start_grown : m.Grown m.start := by
  have hsound : ∀ a ∈ m.start.may, m.CanThrow a := by
    intro a ha
    obtain ⟨fn, hfn, ht, rfl⟩ := mem_start_may.mp ha
    exact .of_seed hfn (seed_iff.mpr (.inl ht))
  refine ⟨?_, ?_, ?_, ?_, hsound, ?_⟩
  · have hsub : m.start.may.Sublist (m.functions.map Fun.name) := by
      have : m.functions.map Fun.name = m.gathered.1.map Prod.fst := by simp [gathered_eq]
      rw [this]
      exact filter_sublist.map Prod.fst
    exact m.functions_nodup.sublist hsub
  · intro a ha
    obtain ⟨fn, hfn, -, rfl⟩ := mem_start_may.mp ha
    exact ⟨fn, hfn, rfl⟩
  · exact fun fn hfn ht => mem_start_may.mpr ⟨fn, hfn, ht, rfl⟩
  · intro ha
    simp [start, adapter_iff.mpr ha]
  · intro hi
    rcases Bool.or_eq_true_iff.mp hi with ha | ht
    · exact .inl (adapter_iff.mp ha)
    · obtain ⟨t, ht, hm⟩ := throwingTarget_iff.mp ht
      exact .inr ⟨t, ht, hsound t hm⟩

variable {s : State}

/-- A function that fires goes in. -/
theorem Grown.add (h : m.Grown s) (hfn : fn ∈ m.functions) (hnot : fn.name ∉ s.may)
    (hfire : Fires s.indirect s.may (m.factsOf fn)) : m.Grown ⟨s.may ++ [fn.name], s.indirect⟩ := by
  have hmem : ∀ a ∈ s.may ++ [fn.name], a ∈ s.may ∨ a = fn.name := by simp
  refine ⟨?_, ?_, ?_, h.adapter, ?_, h.sound_indirect⟩
  · refine nodup_append.mpr ⟨h.nodup, nodup_singleton _, ?_⟩
    rintro a ha b hb rfl
    obtain rfl := mem_singleton.mp hb
    exact hnot ha
  · intro a ha
    rcases hmem a ha with ha | rfl
    · exact h.names a ha
    · exact ⟨fn, hfn, rfl⟩
  · exact fun g hg ht => mem_append_left _ (h.seeds g hg ht)
  · intro a ha
    rcases hmem a ha with ha | rfl
    · exact h.sound a ha
    · exact canThrow_of_fires hfn h.sound h.sound_indirect hfire

/-- **A round** keeps the invariant. -/
theorem Grown.round (h : m.Grown s) : m.Grown (m.round s).1 := by
  have hs : m.Grown ⟨(m.gathered.1.foldl (sweep1 s.indirect) (s.may, false)).1, s.indirect⟩ := by
    refine sweep_inv (I := fun may => m.Grown ⟨may, s.indirect⟩) (fun may f hf hg hnot hfire => ?_) h
    rw [gathered_eq] at hf
    obtain ⟨fn, hfn, rfl⟩ := mem_map.mp hf
    exact hg.add hfn hnot hfire
  -- the flag, after the sweep
  simp only [Module.round]
  split_ifs with ht
  · obtain ⟨t, htt, hm⟩ := throwingTarget_iff.mp (Bool.and_eq_true_iff.mp ht).2
    exact ⟨hs.nodup, hs.names, hs.seeds, fun _ => rfl, hs.sound, fun _ => .inr ⟨t, htt, hs.sound t hm⟩⟩
  · exact hs

/-- A round that changes nothing: the sets are closed along the edges. -/
theorem round_closed (h : (m.round s).2 = false) :
    (m.round s).1 = s ∧ (∀ fn ∈ m.functions, Fires s.indirect s.may (m.factsOf fn) → fn.name ∈ s.may) ∧
      ((∃ t, m.ClosureTarget t ∧ t ∈ s.may) → s.indirect = true) := by
  simp only [Module.round] at h ⊢
  split_ifs at h ⊢ with ht
  obtain ⟨h1, h2⟩ := sweep_closed h
  rw [h1] at ht ⊢
  refine ⟨rfl, fun fn hfn hf => ?_, fun htt => ?_⟩
  · exact h2 (fn.name, m.factsOf fn) (by rw [gathered_eq]; exact mem_map_of_mem hfn) hf
  · by_contra hi
    exact ht (by simp [throwingTarget_iff.mpr htt, hi])

/-- What is left to add. -/
def left (m : Module) (s : State) : ℕ := m.functions.length - s.may.length + (if s.indirect then 0 else 1)

theorem Grown.length_le (h : m.Grown s) : s.may.length ≤ m.functions.length := by
  have hsub : s.may ⊆ m.functions.map Fun.name := by
    intro a ha
    obtain ⟨fn, hfn, rfl⟩ := h.names a ha
    exact mem_map_of_mem hfn
  simpa using (h.nodup.subperm hsub).length_le

/-- A round that changes something leaves less to add. -/
theorem Grown.round_lt (h : m.Grown s) (hc : (m.round s).2 = true) : m.left (m.round s).1 < m.left s := by
  have hle := h.round.length_le
  obtain ⟨l, hl⟩ := exists_sweep s.indirect m.gathered.1 s.may false
  simp only [Module.round, hl] at hc hle ⊢
  split_ifs at hc hle ⊢ with ht
  · -- the flag is set
    have hi : s.indirect = false := by simpa using (Bool.and_eq_true_iff.mp ht).1
    simp only [left, hi, length_append] at hle ⊢
    simp only [if_true, Bool.false_eq_true, if_false]
    omega
  · -- a function is added
    have hl0 : 0 < l.length := length_pos_of_ne_nil (by simpa using hc)
    simp only [left, length_append] at hle ⊢
    omega

/-- The loop ends, in a state that a round does not change. -/
theorem Grown.exists_loop (h : m.Grown s) :
    ∃ r, m.Grown r ∧ (m.round r).2 = false ∧ ∀ n, m.left s < n → m.loop n s = some r := by
  induction hk : m.left s using Nat.strong_induction_on generalizing s with
  | _ k ih =>
    cases hc : (m.round s).2 with
    | false =>
      refine ⟨s, h, hc, fun n hn => ?_⟩
      obtain ⟨n, rfl⟩ := Nat.exists_eq_add_of_lt hn
      simp [loop, hc, (round_closed hc).1]
    | true =>
      have hlt := h.round_lt hc
      obtain ⟨r, hr, hrc, hn⟩ := ih _ (by omega) h.round rfl
      refine ⟨r, hr, hrc, fun n hkn => ?_⟩
      obtain ⟨n, rfl⟩ : ∃ n', n = n' + 1 := ⟨n - 1, by omega⟩
      simp only [loop, hc, if_true]
      exact hn n (by omega)

/-! ### The least fixpoint -/

/-- A state that a round does not change holds all that can throw. -/
theorem Grown.complete (h : m.Grown s) (hc : (m.round s).2 = false) {a : String} (ha : m.CanThrow a) :
    a ∈ s.may := by
  obtain ⟨-, hf, hi⟩ := round_closed hc
  obtain ⟨fn, hfn, hs, hp⟩ := ha
  -- back along the path, from the function that throws by itself
  induction hp using Relation.ReflTransGen.head_induction_on with
  | refl =>
    rcases seed_iff.mp hs with ht | ⟨hv, had⟩
    · exact h.seeds fn hfn ht
    · exact hf fn hfn (.inl ⟨hv, h.adapter had⟩)
  | head hab _ ih =>
    obtain ⟨fn', hfn', rfl, hcal | ⟨hv, ht⟩⟩ := calls_iff.mp hab
    · exact hf fn' hfn' (.inr ⟨_, hcal, ih⟩)
    · exact hf fn' hfn' (.inl ⟨hv, hi ⟨_, ht, ih⟩⟩)

theorem Grown.indirect_iff (h : m.Grown s) (hc : (m.round s).2 = false) :
    s.indirect = true ↔ m.Indirect := by
  constructor
  · exact h.sound_indirect
  · rintro (ha | ⟨t, ht, hthrow⟩)
    · exact h.adapter ha
    · exact (round_closed hc).2.2 ⟨t, ht, h.complete hc hthrow⟩

/-- **The analysis ends with the least fixpoint**: the functions from which a path of call edges leads
to one that throws by itself, and whether a closure target is among them. -/
theorem computeMayThrow_least (m : Module) : ∃ r, (∃ n₀, ∀ n, n₀ ≤ n → m.computeMayThrow n = some r) ∧
    (∀ a, a ∈ r.may ↔ m.CanThrow a) ∧ (r.indirect = true ↔ m.Indirect) := by
  obtain ⟨r, hr, hc, hn⟩ := (start_grown (m := m)).exists_loop
  refine ⟨r, ⟨m.left m.start + 1, fun n h => hn n h⟩, fun a => ?_, hr.indirect_iff hc⟩
  exact ⟨hr.sound a, hr.complete hc⟩

end Module

end Scriptc.MayThrow
