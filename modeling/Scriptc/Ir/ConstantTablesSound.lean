import Scriptc.Ir.ConstantTablesConfined
import Scriptc.Ir.ConstantTables

/-!
# Constant tables are constant

The invariant of a run (`Inv`) names the arrays that the one store of a table has made.
Each of them still has the numbers of the literal, nothing but the global and the operands
of its primitive reads refers to it, and the global refers to one of them as soon as it is
assigned. So no open operation ever gets hold of one, whatever runs in between.
-/

namespace IrTree

open Ir List Function Option

/-- A dense array of these numbers. -/
def tableObj (vs : List F64) : Obj := .array (vs.map fun x => .val (.num x))

/-- The node is a primitive read of the global. -/
def Reads (g : String) : IrNode → Prop
  | .arrIntrinsic m r args => (∃ ty, r = .varRef (.glob g) ty) ∧ readMethod m args = true
  | .arrayRead _ a _ => ∃ ty, a = .varRef (.glob g) ty
  | _ => False

/-- The node assigns the global. -/
def Stores (g : String) : IrNode → Prop
  | .assign x _ => x = .glob g
  | _ => False

variable {n : IrNode}

theorem Reads.first {g : String} (h : Reads g n) : ∃ ty, n.children[0]? = some (.varRef (.glob g) ty) := by
  cases n with
  | arrIntrinsic m r args =>
    obtain ⟨⟨ty, rfl⟩, -⟩ := h
    exact ⟨ty, rfl⟩
  | arrayRead k a i =>
    obtain ⟨ty, rfl⟩ := h
    exact ⟨ty, rfl⟩
  | _ => cases h

theorem Reads.not_stores {g : String} (h : Reads g n) : ¬ Stores g n := by
  cases n with
  | arrIntrinsic m r args => exact id
  | arrayRead k a i => exact id
  | _ => cases h

theorem Stores.eq {g : String} (h : Stores g n) : ∃ e, n = .assign (.glob g) e := by
  cases n with
  | assign x e => exact ⟨e, by rw [show x = .glob g from h]⟩
  | _ => cases h

section

variable {g : String} {vs : List F64}

/-- The children of a confined node are confined, but for the reference of a read. -/
theorem Confined.child {n m : IrNode} {k : ℕ} (h : Confined (.glob g) vs n) (hk : n.children[k]? = some m) :
    Confined (.glob g) vs m ∨ Reads g n ∧ k = 0 := by
  have hm : m ∈ n.children := mem_of_getElem? hk
  cases n with
  | numLit x => simp [IrNode.children] at hm
  | varRef x ty => simp [IrNode.children] at hm
  | unary op e =>
    obtain rfl : m = e := by simpa [IrNode.children] using hm
    exact .inl h
  | assign x e =>
    obtain rfl : m = e := by simpa [IrNode.children] using hm
    exact .inl h.2
  | arrayLit es spreads => exact .inl (allConfined_iff.mp h m hm)
  | arrIntrinsic method r args =>
    cases k with
    | zero =>
      obtain rfl : r = m := by simpa [IrNode.children] using hk
      rcases h.1 with hr | hr
      · exact .inr ⟨hr, rfl⟩
      · exact .inl hr
    | succ k =>
      have : m ∈ args := mem_of_getElem? (by simpa [IrNode.children] using hk)
      exact .inl (allConfined_iff.mp h.2 m this)
  | arrayRead kind a i =>
    cases k with
    | zero =>
      obtain rfl : a = m := by simpa [IrNode.children] using hk
      rcases h.1 with hr | hr
      · exact .inr ⟨hr, rfl⟩
      · exact .inl hr
    | succ k =>
      have : m ∈ [i] := mem_of_getElem? (by simpa [IrNode.children] using hk)
      obtain rfl : m = i := by simpa using this
      exact .inl h.2
  | node kind x captures ns => exact .inl (allConfined_iff.mp h.2 m hm)

/-! ### The invariant -/

variable (g vs) in
/-- The arrays of `T` are intact, and only the global refers to them. -/
structure StateOk (T : Set ℕ) (s : State) : Prop where
  table : ∀ a ∈ T, s.heap a = some (tableObj vs)
  unheld : ∀ a ∈ T, ¬ s.Held a
  self : ∀ v, s.globals g = some v → ∃ a ∈ T, v = .ref a
  others : ∀ g' v, g' ≠ g → s.globals g' = some v → ∀ a ∈ T, a ∉ v.refs

variable (g) in
/-- What the child at a position can have given to its parent. -/
structure Given (T : Set ℕ) (n : IrNode) (k : ℕ) (v : Val) : Prop where
  literal : ∀ m x, n.children[k]? = some m → literalNumber m = some x → v = .num x
  read : Reads g n → k = 0 → v = .undef ∨ ∃ a ∈ T, v = .ref a
  stored : Stores g n → k = 0 → ∃ a ∈ T, v = .ref a
  other : ¬ ((Reads g n ∨ Stores g n) ∧ k = 0) → ∀ a ∈ T, a ∉ v.refs

variable (g) in
structure FrameOk (T : Set ℕ) (f : Frame) : Prop where
  env : ∀ x b, f.env x = some b → b ∉ T
  vals : ∀ p ∈ f.vals, Given g T f.node p.1 p.2

variable (g vs) in
/-- Each activation is that of a child of the one below it; at the bottom, of a statement
of a function. -/
inductive StackOk (T : Set ℕ) : List Frame → Prop where
  | nil : StackOk T []
  | base {f : Frame} : Confined (.glob g) vs f.node → FrameOk g T f → StackOk T [f]
  | child {f p : Frame} {fs : List Frame} : StackOk T (p :: fs) → p.node.children[f.pos]? = some f.node →
      (Confined (.glob g) vs f.node ∨ Reads g p.node ∧ f.pos = 0) → FrameOk g T f → StackOk T (f :: p :: fs)

variable (g vs) in
/-- The state and every activation are so. -/
structure Inv (T : Set ℕ) (c : Config) : Prop where
  state : StateOk g vs T c.state
  frames : ∀ i, StackOk g vs T (c.frames i)

variable {T : Set ℕ} {s s' : State} {free : Set ℕ}

theorem Inv.not_free {c : Config} (h : Inv g vs T c) : ∀ a ∈ T, a ∉ c.free := by
  intro a ha hf
  rw [Config.free, Set.mem_ofPred_eq, h.state.table a ha] at hf
  cases hf.1

variable {fs : List Frame} {f : Frame}

theorem StackOk.frame (h : StackOk g vs T (f :: fs)) : FrameOk g T f := by
  cases h with
  | base _ hf => exact hf
  | child _ _ _ hf => exact hf

theorem StackOk.tail (h : StackOk g vs T (f :: fs)) : StackOk g vs T fs := by
  cases h with
  | base _ _ => exact .nil
  | child hs _ _ _ => exact hs

/-- The node at work is confined, or it is the reference of a read. -/
theorem StackOk.confined (h : StackOk g vs T (f :: fs)) :
    Confined (.glob g) vs f.node ∨ ∃ ty, f.node = .varRef (.glob g) ty := by
  cases h with
  | base hc _ => exact .inl hc
  | child _ hk hc _ =>
    rcases hc with hc | ⟨hr, h0⟩
    · exact .inl hc
    · obtain ⟨ty, hty⟩ := hr.first
      rw [h0, hty] at hk
      exact .inr ⟨ty, (some.inj hk).symm⟩

theorem StackOk.update {c : ℕ → List Frame} {i : ℕ} (h : ∀ j, StackOk g vs T (c j))
    (hfs : StackOk g vs T fs) : ∀ j, StackOk g vs T (Function.update c i fs j) := by
  intro j
  by_cases hj : j = i
  · subst hj
    rwa [update_self]
  · rw [update_of_ne hj]
    exact h j

variable {v : Val}

theorem StackOk.deliver {f p : Frame} (h : StackOk g vs T (p :: fs))
    (hv : Given g T p.node f.pos v) : StackOk g vs T (deliver f.pos v (p :: fs)) := by
  have hp : FrameOk g T { p with vals := p.vals ++ [(f.pos, v)] } := by
    refine ⟨h.frame.env, fun q hq => ?_⟩
    rcases mem_append.mp hq with hq | hq
    · exact h.frame.vals q hq
    · obtain rfl := mem_singleton.mp hq
      exact hv
  cases h with
  | base hc _ => exact .base hc hp
  | child hs hk hc _ => exact .child hs hk hc hp

variable {vals : List (ℕ × Val)} {a : ℕ}

theorem mem_valRefs : a ∈ valRefs vals ↔ ∃ p ∈ vals, a ∈ p.2.refs := by
  simp [valRefs]

/-- A node that neither reads nor stores the global has nothing of `T` among its operands. -/
theorem FrameOk.clean (h : FrameOk g T f) (hn : ¬ Reads g f.node) (hs : ¬ Stores g f.node) :
    ∀ a ∈ T, a ∉ valRefs f.vals := by
  intro a ha hv
  obtain ⟨p, hp, hap⟩ := mem_valRefs.mp hv
  exact (h.vals p hp).other (fun hc => hc.1.elim hn hs) a ha hap

/-! ### What one action preserves -/

theorem Open.stateOk {ins outs : List ℕ} (h : Open free ins s s' outs) (hs : StateOk g vs T s)
    (hf : ∀ a ∈ T, a ∉ free) (hi : ∀ a ∈ T, a ∉ ins) : StateOk g vs T s' ∧ ∀ a ∈ T, a ∉ outs := by
  have known : ∀ a ∈ T, ¬ (s'.Held a ∨ a ∈ outs) := by
    intro a ha hk
    rcases h.known a hk with hk | hk | hk
    · exact hf a ha hk
    · exact hs.unheld a ha hk
    · exact hi a ha hk
  refine ⟨⟨fun a ha => ?_, fun a ha hk => known a ha (.inl hk), ?_, ?_⟩, fun a ha hk => known a ha (.inr hk)⟩
  · rcases h.touched a with ht | ht | ht | ht
    · rw [ht, hs.table a ha]
    · exact absurd ht (hf a ha)
    · exact absurd ht (hs.unheld a ha)
    · exact absurd ht (hi a ha)
  · rw [h.globals]
    exact hs.self
  · rw [h.globals]
    exact hs.others

theorem State.held_setObj {a b : ℕ} {o : Obj} (h : (s.setObj b o).Held a) : s.Held a ∨ a ∈ o.refs := by
  rcases h with h | ⟨d, o', hd, ha⟩
  · exact .inl (.inl h)
  · by_cases hb : d = b
    · subst hb
      rw [State.setObj_self] at hd
      cases hd
      exact .inr ha
    · rw [State.setObj_of_ne s hb] at hd
      exact .inl (.inr ⟨d, o', hd, ha⟩)

theorem StateOk.setObj {b : ℕ} {o : Obj} (hs : StateOk g vs T s) (hb : b ∉ T) (ho : ∀ a ∈ T, a ∉ o.refs) :
    StateOk g vs T (s.setObj b o) where
  table a ha := by
    have : a ≠ b := fun h => hb (h ▸ ha)
    rw [State.setObj_of_ne s this, hs.table a ha]
  unheld a ha h := (State.held_setObj h).elim (hs.unheld a ha) (ho a ha)
  self := hs.self
  others := hs.others

theorem StateOk.setGlobal {g' : String} (hs : StateOk g vs T s) (hne : g' ≠ g) (hv : ∀ a ∈ T, a ∉ v.refs) :
    StateOk g vs T (s.setGlobal g' v) where
  table := hs.table
  unheld := hs.unheld
  self w hw := by
    rw [State.setGlobal_of_ne s hne.symm] at hw
    exact hs.self w hw
  others h w hh hw := by
    by_cases hg : h = g'
    · subst hg
      rw [State.setGlobal_self] at hw
      cases hw
      exact hv
    · rw [State.setGlobal_of_ne s hg] at hw
      exact hs.others h w hh hw

theorem StateOk.setSelf (hs : StateOk g vs T s) (ha : a ∈ T) : StateOk g vs T (s.setGlobal g (.ref a)) where
  table := hs.table
  unheld := hs.unheld
  self w hw := by
    rw [State.setGlobal_self] at hw
    cases hw
    exact ⟨a, ha, rfl⟩
  others h w hh hw := by
    rw [State.setGlobal_of_ne s hh] at hw
    exact hs.others h w hh hw

/-- A new array of the table's numbers joins `T`. -/
theorem StateOk.insert (hs : StateOk g vs T s) (hh : ¬ s.Held a)
    (hg : ∀ g v, s.globals g = some v → a ∉ v.refs) (hn : a ∉ T) : StateOk g vs (insert a T) (s.setObj a (tableObj vs)) where
  table b hb := by
    rcases hb with rfl | hb
    · exact State.setObj_self ..
    · have : b ≠ a := fun h => hn (h ▸ hb)
      rw [State.setObj_of_ne s this, hs.table b hb]
  unheld b hb h := by
    rcases State.held_setObj h with held | h
    · rcases hb with rfl | hb
      · exact hh held
      · exact hs.unheld b hb held
    · simp [tableObj, Obj.refs, Slot.refs, Val.refs] at h
  self v hv := by
    obtain ⟨b, hb, rfl⟩ := hs.self v hv
    exact ⟨b, .inr hb, rfl⟩
  others g' v hne hv b hb := by
    rcases hb with rfl | hb
    · exact hg g' v hv
    · exact hs.others g' v hne hv b hb

theorem StackOk.grow (h : StackOk g vs T fs)
    (ha : ∀ f ∈ fs, a ∉ valRefs f.vals ∧ ∀ x, f.env x ≠ some a) : StackOk g vs (insert a T) fs := by
  have frame {f : Frame} (hf : FrameOk g T f) (hfree : a ∉ valRefs f.vals ∧ ∀ x, f.env x ≠ some a) :
      FrameOk g (insert a T) f := by
    constructor
    · rintro x b hb (rfl | hT)
      · exact hfree.2 x hb
      · exact hf.env x b hb hT
    · intro p hp
      have given := hf.vals p hp
      refine ⟨given.literal, fun hr h0 => ?_, fun hs h0 => ?_, fun hn b hb => ?_⟩
      · rcases given.read hr h0 with hu | ⟨b, hb, hv⟩
        · exact .inl hu
        · exact .inr ⟨b, .inr hb, hv⟩
      · obtain ⟨b, hb, hv⟩ := given.stored hs h0
        exact ⟨b, .inr hb, hv⟩
      · rcases hb with rfl | hb
        · exact fun hm => hfree.1 (mem_valRefs.mpr ⟨p, hp, hm⟩)
        · exact given.other hn b hb
  induction h with
  | nil => exact .nil
  | base hc hf => exact .base hc (frame hf (ha _ (by simp)))
  | child _ hk hc hf ih =>
    exact .child (ih fun f hm => ha f (mem_cons_of_mem _ hm)) hk hc (frame hf (ha _ (by simp)))

theorem slotAt_cases (slots : List Slot) (x : F64) : slotAt slots x = .hole ∨ slotAt slots x ∈ slots := by
  unfold slotAt
  cases h : slots.zipIdx.find? fun p => F64.eq x (F64.ofInt p.2) with
  | none => exact .inl rfl
  | some p =>
    have hp : p ∈ slots.zipIdx := mem_of_find?_eq_some h
    exact .inr (fst_mem_of_mem_zipIdx hp)

/-- What a read hands out, the array refers to. -/
theorem ArrayRead.result_refs {k : ArrayRead} {slots : List Slot} {x : F64}
    (h : k.result (slotAt slots x) = some v) (ha : a ∈ v.refs) : a ∈ (Obj.array slots).refs := by
  cases k with
  | get =>
    rcases slotAt_cases slots x with hs | hs
    · rw [hs] at h
      cases h
    · cases hv : slotAt slots x with
      | val w =>
        rw [hv] at h hs
        cases h
        exact mem_flatMap.mpr ⟨_, hs, ha⟩
      | hole | undef =>
        rw [hv] at h
        cases h
  | has | state =>
    cases h
    cases ha

theorem StateOk.named {x : Option Id} (hs : StateOk g vs T s) (hx : x ≠ some (.glob g)) : ∀ a ∈ T, a ∉ s.named x := by
  intro a ha hm
  cases x with
  | none => cases hm
  | some id =>
    cases id with
    | loc y => cases hm
    | glob g' =>
      have hne : g' ≠ g := fun h => hx (by rw [h])
      cases hv : s.globals g' with
      | none => simp [State.named, hv] at hm
      | some v => exact hs.others g' v hne hv a ha (by simpa [State.named, hv] using hm)

/-- The action of a confined node: nothing of `T` changes or comes out, and a literal gives
its number. -/
theorem Act.stateOk (h : Act free f.env s f.node f.vals s' v) (hs : StateOk g vs T s)
    (hfree : ∀ a ∈ T, a ∉ free) (hf : FrameOk g T f) (hc : Confined (.glob g) vs f.node) :
    StateOk g vs T s' ∧ (∀ a ∈ T, a ∉ v.refs) ∧ ∀ x, literalNumber f.node = some x → v = .num x := by
  obtain ⟨n, env, pos, vals⟩ := f
  have opened {ins outs : List ℕ} {s' : State} (ho : Open free ins s s' outs) (hi : ∀ a ∈ T, a ∉ ins) :=
    Open.stateOk ho hs hfree hi
  cases h with
  | numLit => exact ⟨hs, by simp [Val.refs], fun y hy => by cases hy; rfl⟩
  | @neg e x =>
    refine ⟨hs, by simp [Val.refs], fun y hy => ?_⟩
    simp only [literalNumber, if_true, map_eq_some_iff] at hy
    obtain ⟨z, hz, rfl⟩ := hy
    have := (hf.vals (0, .num x) (by simp)).literal e z rfl hz
    cases this
    rfl
  | unary hop ho =>
    obtain ⟨hs', hout⟩ := opened ho (hf.clean id id)
    exact ⟨hs', hout, fun y hy => by simp [literalNumber, hop] at hy⟩
  | globalVar hv => exact ⟨hs, hs.others _ _ (fun h => hc (by rw [h])) hv, nofun⟩
  | unset _ => exact ⟨hs, by simp [Val.refs], nofun⟩
  | @localVar x ty b v hb hv => exact ⟨hs, fun a ha hm => hs.unheld a ha (.inr ⟨b, _, hv, hm⟩), nofun⟩
  | @assignGlobal g' e w =>
    refine ⟨?_, by simp [Val.refs], nofun⟩
    have given := hf.vals (0, w) (by simp)
    by_cases hg : g' = g
    · subst hg
      obtain ⟨a, ha, rfl⟩ := given.stored rfl rfl
      exact hs.setSelf ha
    · refine hs.setGlobal hg (given.other ?_)
      rintro ⟨hr | hst, -⟩
      · exact hr
      · exact hg (Id.glob.inj hst)
  | @assignLocal x e b w hb =>
    refine ⟨hs.setObj (hf.env x b hb) ((hf.vals (0, w) (by simp)).other ?_), by simp [Val.refs], nofun⟩
    rintro ⟨hr | hst, -⟩
    · exact hr
    · cases hst
  | @arrayLit es vals a hpos ha =>
    have hnew : a ∉ T := fun hm => hfree a hm ha
    refine ⟨hs.setObj hnew fun b hb hm => ?_, fun b hb hm => ?_, nofun⟩
    · refine hf.clean id id b hb ?_
      simpa [Obj.refs, Slot.refs, valRefs, flatMap_map] using hm
    · rw [Val.refs, mem_singleton] at hm
      exact hnew (hm ▸ hb)
  | arraySpread _ ho =>
    obtain ⟨hs', hout⟩ := opened ho (hf.clean id id)
    exact ⟨hs', hout, nofun⟩
  | getNumber _ => exact ⟨hs, by simp [Val.refs], nofun⟩
  | length _ => exact ⟨hs, by simp [Val.refs], nofun⟩
  | @arrIntrinsic m r args _ _ _ hm ho =>
    have hn : ¬ Reads g (.arrIntrinsic m r args) := fun hr => by simp [hr.2] at hm
    obtain ⟨hs', hout⟩ := opened ho (hf.clean hn id)
    exact ⟨hs', hout, nofun⟩
  | arrayRead hslots hv =>
    exact ⟨hs, fun a ha hm => hs.unheld a ha (.inr ⟨_, _, hslots, ArrayRead.result_refs hv hm⟩), nofun⟩
  | node ho =>
    have ins : ∀ a ∈ T, a ∉ valRefs vals ++ s.named _ := fun a ha hm =>
      (mem_append.mp hm).elim (hf.clean id id a ha) (hs.named hc.1 a ha)
    obtain ⟨hs', hout⟩ := opened ho ins
    exact ⟨hs', hout, nofun⟩
  | @nodeWrite kind g' captures ns vals s' v w ho =>
    have hne : g' ≠ g := fun h => hc.1 (by rw [h])
    have ins : ∀ a ∈ T, a ∉ valRefs vals ++ s.named (some (.glob g')) := fun a ha hm =>
      (mem_append.mp hm).elim (hf.clean id id a ha) (hs.named hc.1 a ha)
    obtain ⟨hs', hout⟩ := opened ho ins
    exact ⟨hs'.setGlobal hne fun a ha hm => hout a ha (mem_append_right _ hm),
      fun a ha hm => hout a ha (mem_append_left _ hm), nofun⟩

variable {env : String → Option ℕ}

/-- The reference of the global gives nothing before it is assigned, and then an array of `T`. -/
theorem Act.ofRef {ty : Ty}
    (h : Act free env s (.varRef (.glob g) ty) vals s' v) (hs : StateOk g vs T s) :
    s' = s ∧ (v = .undef ∨ ∃ a ∈ T, v = .ref a) := by
  cases h with
  | globalVar hv => exact ⟨rfl, .inr (hs.self _ hv)⟩
  | unset _ => exact ⟨rfl, .inl rfl⟩

theorem literals_of_mapM {es : List IrNode} (h : es.mapM literalNumber = some vs) :
    List.Forall₂ (fun e x => literalNumber e = some x) es vs := by
  induction es generalizing vs with
  | nil =>
    cases h
    exact .nil
  | cons e es ih =>
    simp only [mapM_cons, bind_eq_bind, bind_eq_some_iff, Option.pure_def, some.injEq] at h
    obtain ⟨x, hx, xs, hxs, rfl⟩ := h
    exact .cons hx (ih hxs)

theorem eq_of_tableValues (h : tableValues n = some vs) :
    ∃ es, n = .arrayLit es [] ∧ List.Forall₂ (fun e x => literalNumber e = some x) es vs := by
  cases n with
  | arrayLit es spreads =>
    rw [tableValues] at h
    split at h
    · next hc => exact ⟨es, by rw [hc.1], literals_of_mapM h⟩
    · cases h
  | _ => cases h

/-- The literal of the table makes a new array of its numbers. -/
theorem Act.tableLit (h : Act free f.env s f.node f.vals s' v) (hf : FrameOk g T f)
    (ht : tableValues f.node = some vs) : ∃ a ∈ free, v = .ref a ∧ s' = s.setObj a (tableObj vs) := by
  obtain ⟨n, env, pos, vals⟩ := f
  obtain ⟨es, rfl, hes⟩ := eq_of_tableValues ht
  cases h with
  | arraySpread hne _ => exact absurd rfl hne
  | @arrayLit _ _ a hpos ha =>
    refine ⟨a, ha, rfl, ?_⟩
    have hlen : vals.length = es.length := by simpa using congrArg List.length hpos
    have same : vals.map (fun p => Slot.val p.2) = vs.map fun x => .val (.num x) := by
      refine ext_getElem (by simp [hlen, hes.length_eq]) fun k hk hk' => ?_
      rw [length_map] at hk hk'
      have fst : vals[k].1 = k := by
        have := getElem_of_eq hpos (i := k) (by simpa using hk)
        simpa using this
      have he : k < es.length := hlen ▸ hk
      have lit : literalNumber es[k] = some vs[k] := hes.get he hk'
      have hv : vals[k].2 = .num vs[k] := by
        refine (hf.vals vals[k] (getElem_mem hk)).literal _ _ ?_ lit
        rw [fst]
        exact getElem?_eq_getElem _
      simp [hv]
    rw [same, tableObj]
/-! ### Runs -/

variable {M : IrModule}

/-- An action of the innermost activation keeps the invariant, with one more array when it
is the literal that is stored. -/
theorem Inv.act {c : Config} {i : ℕ} (hi : Inv g vs T c)
    (hfs : c.frames i = f :: fs) (ha : Act c.free f.env c.state f.node f.vals s' v) :
    ∃ T', Inv g vs T' ⟨s', Function.update c.frames i (deliver f.pos v fs)⟩ := by
  have hst : StackOk g vs T (f :: fs) := hfs ▸ hi.frames i
  cases hst with
  | base hc hf => exact ⟨T, (ha.stateOk hi.state hi.not_free hf hc).1, StackOk.update hi.frames .nil⟩
  | @child _ p fs hs hk hc hf =>
    rcases hc with hc | ⟨hr, h0⟩
    · by_cases hstore : Stores g p.node ∧ f.pos = 0
      · obtain ⟨e, he⟩ := hstore.1.eq
        rw [hstore.2, he] at hk
        obtain rfl : e = f.node := by simpa [IrNode.children] using hk
        have ht : tableValues f.node = some vs := by
          rcases hs.confined with hp | ⟨ty, hp⟩
          · rw [he] at hp
            exact hp.1 rfl
          · rw [hp] at he
            cases he
        obtain ⟨a, hfree, rfl, rfl⟩ := ha.tableLit hf ht
        have hn : a ∉ T := fun h => hi.not_free a h hfree
        have grow : ∀ j, StackOk g vs (insert a T) (c.frames j) := fun j => (hi.frames j).grow (hfree.2.2.2 j)
        have hs' : StackOk g vs (insert a T) (p :: fs) := (hfs ▸ grow i : StackOk g vs _ (f :: p :: fs)).tail
        refine ⟨insert a T, hi.state.insert hfree.2.1 hfree.2.2.1 hn, StackOk.update grow (hs'.deliver ?_)⟩
        obtain ⟨es, hes, -⟩ := eq_of_tableValues ht
        rw [he, hstore.2]
        constructor
        · intro m x hm hx
          obtain rfl : f.node = m := by simpa [IrNode.children] using hm
          rw [hes] at hx
          cases hx
        · exact fun hr _ => False.elim hr
        · exact fun _ _ => ⟨a, .inl rfl, rfl⟩
        · exact fun hn => absurd ⟨.inr rfl, rfl⟩ hn
      · obtain ⟨hstate, hclean, hlit⟩ := ha.stateOk hi.state hi.not_free hf hc
        have hread : ¬ (Reads g p.node ∧ f.pos = 0) := by
          rintro ⟨hr, h0⟩
          obtain ⟨ty, hty⟩ := hr.first
          rw [h0, hty] at hk
          rw [← some.inj hk] at hc
          exact hc rfl
        refine ⟨T, hstate, StackOk.update hi.frames (hs.deliver ?_)⟩
        constructor
        · intro m x hm hx
          rw [hk] at hm
          cases hm
          exact hlit x hx
        · exact fun hr h0 => absurd ⟨hr, h0⟩ hread
        · exact fun hst h0 => absurd ⟨hst, h0⟩ hstore
        · exact fun _ => hclean
    · obtain ⟨ty, hty⟩ := hr.first
      rw [h0, hty] at hk
      rw [← some.inj hk] at ha
      obtain ⟨rfl, hv⟩ := ha.ofRef hi.state
      refine ⟨T, hi.state, StackOk.update hi.frames (hs.deliver ?_)⟩
      rw [h0]
      constructor
      · intro m x hm hx
        rw [hty] at hm
        cases hm
        cases hx
      · exact fun _ _ => hv
      · exact fun hst => absurd hst hr.not_stores
      · exact fun hn => absurd ⟨.inl hr, rfl⟩ hn

variable {c c' : Config}

theorem Inv.step (hM : ∀ fn ∈ M.functions, ∀ n ∈ fn.body, Confined (.glob g) vs n)
    (hi : Inv g vs T c) (h : Step M c c') : ∃ T', Inv g vs T' c' := by
  cases h with
  | enter hfn hn _ ho henv =>
    obtain ⟨hs, -⟩ := ho.stateOk hi.state hi.not_free (by simp)
    refine ⟨T, hs, StackOk.update hi.frames (.base (hM _ hfn _ hn) ⟨fun x b hb hT => ?_, by simp⟩)⟩
    exact hs.unheld b hT (.inl (henv x b hb))
  | @child i k f fs n hfs hk =>
    have hst : StackOk g vs T (f :: fs) := hfs ▸ hi.frames i
    refine ⟨T, hi.state, StackOk.update hi.frames (.child hst hk ?_ ⟨hst.frame.env, by simp⟩)⟩
    rcases hst.confined with hc | ⟨ty, hty⟩
    · exact hc.child hk
    · rw [hty] at hk
      cases hk
  | act hfs ha => exact hi.act hfs ha
  | @leave i f fs hfs =>
    have hst : StackOk g vs T (f :: fs) := hfs ▸ hi.frames i
    exact ⟨T, hi.state, StackOk.update hi.frames hst.tail⟩

theorem inv_start : Inv g vs ∅ .start where
  state := ⟨nofun, nofun, nofun, nofun⟩
  frames _ := .nil

theorem inv_of_steps (hM : ∀ fn ∈ M.functions, ∀ n ∈ fn.body, Confined (.glob g) vs n)
    (hi : Inv g vs T c) (h : Steps M c c') : ∃ T', Inv g vs T' c' := by
  induction h with
  | refl => exact ⟨T, hi⟩
  | tail _ hstep ih =>
    obtain ⟨T', hi'⟩ := ih
    exact hi'.step hM hstep

/-- No action unassigns a global. -/
theorem Act.assigned {h : String}
    (ha : Act free env s n vals s' v) (hs : s.globals h ≠ none) : s'.globals h ≠ none := by
  have set {s : State} (hs : s.globals h ≠ none) (g' : String) (w : Val) : (s.setGlobal g' w).globals h ≠ none := by
    by_cases hg : h = g'
    · rw [hg, State.setGlobal_self]
      nofun
    · rwa [State.setGlobal_of_ne s hg]
  cases ha with
  | unary _ ho | arraySpread _ ho | arrIntrinsic _ ho | node ho => rwa [ho.globals]
  | nodeWrite ho => exact set (by rwa [ho.globals]) _ _
  | assignGlobal => exact set hs _ _
  | _ => exact hs

theorem assigned_of_steps {h : String} (hs : c.state.globals h ≠ none) (hc : Steps M c c') :
    c'.state.globals h ≠ none := by
  induction hc with
  | refl => exact hs
  | tail _ hstep ih =>
    cases hstep with
    | enter _ _ _ ho _ => rwa [ho.globals]
    | child _ _ => exact ih
    | act _ ha => exact ha.assigned ih
    | leave _ => exact ih

/-- A primitive read that acts has an array, the value of its first child. -/
theorem Act.receiver (hr : Reads g n)
    (ha : Act free env s n vals s' v) : ∃ a, (0, .ref a) ∈ vals := by
  cases ha with
  | getNumber _ | length _ | arrayRead _ _ => exact ⟨_, mem_cons_self⟩
  | arrIntrinsic hm _ => simp [hr.2] at hm
  | _ => cases hr

end

/-- In every run of a module, a global that is given a table refers from its assignment on
to an array of exactly the listed values, and so does the receiver of every primitive read
of it that is carried out, whatever has run in between. -/
theorem findConstantNumericTables_sound {M : IrModule} {g : String} {t : ConstantNumericTable}
    (ht : (.glob g, t) ∈ findConstantNumericTables M) {c c' : Config} (hc : Steps M .start c)
    (hg : c.state.globals g ≠ none) (h : Steps M c c') :
    (∃ a, c'.state.globals g = some (.ref a) ∧ c'.state.heap a = some (tableObj t.values)) ∧
      ∀ i f fs, c'.frames i = f :: fs → Reads g f.node → ∀ s' v, Act c'.free f.env c'.state f.node f.vals s' v →
        ∃ a, (0, .ref a) ∈ f.vals ∧ c'.state.heap a = some (tableObj t.values) := by
  obtain ⟨T, hi⟩ := inv_of_steps (confined_of_table ht) inv_start (hc.trans h)
  constructor
  · obtain ⟨v, hv⟩ := ne_none_iff_exists'.mp (assigned_of_steps hg h)
    obtain ⟨a, ha, rfl⟩ := hi.state.self v hv
    exact ⟨a, hv, hi.state.table a ha⟩
  · intro i f fs hfs hr s' v hact
    obtain ⟨a, ha⟩ := hact.receiver hr
    have hst : StackOk g t.values T (f :: fs) := hfs ▸ hi.frames i
    rcases (hst.frame.vals _ ha).read hr rfl with hu | ⟨b, hb, hv⟩
    · cases hu
    · cases hv
      exact ⟨a, ha, hi.state.table a hb⟩

/-- `const table = [0, -0]; table[0];`. -/
private def zeros : IrModule where
  functions :=
    [⟨"%init", [], [],
      [.assign (.glob "table") (.arrayLit [.numLit .zero, .unary "-" (.numLit .zero)] []),
        .node "exprStmt" none []
          [.arrIntrinsic "getNumber" (.varRef (.glob "table") (.array .f64)) [.numLit .zero]]]⟩]
  globals := [⟨"table", .array .f64, false⟩]

/-- A configuration with one activation. -/
private def solo (s : State) (fs : List Frame) : Config := ⟨s, Function.update (fun _ => []) 0 fs⟩

private theorem frames_solo (s : State) (fs : List Frame) : (solo s fs).frames 0 = fs := by simp [solo]

private theorem solo_child {M : IrModule} {s : State} {f : Frame} {fs : List Frame} (k : ℕ)
    (h : f.node.children[k]? = some n) : Step M (solo s (f :: fs)) (solo s (⟨n, f.env, k, []⟩ :: f :: fs)) := by
  have step := Step.child (M := M) (frames_solo s (f :: fs)) h
  simpa [solo] using step

private theorem solo_act {M : IrModule} {s s' : State} {f : Frame} {fs : List Frame} {v : Val}
    (h : Act (solo s (f :: fs)).free f.env s f.node f.vals s' v) :
    Step M (solo s (f :: fs)) (solo s' (deliver f.pos v fs)) := by
  have step := Step.act (M := M) (frames_solo s (f :: fs)) h
  simpa [solo] using step

private theorem zeros_enter : Step zeros .start (solo Config.start.state
    [⟨.assign (.glob "table") (.arrayLit [.numLit .zero, .unary "-" (.numLit .zero)] []), fun _ => none, 0, []⟩]) :=
  .enter (mem_singleton_self _) mem_cons_self rfl
    ⟨rfl, fun _ => .inl rfl, fun _ h => .inr (.inl (h.resolve_right nofun))⟩ nofun

theorem findConstantNumericTables_sound_zeros : ∃ c, Steps zeros .start c ∧
    ∃ a, c.state.globals "table" = some (.ref a) ∧
      c.state.heap a = some (.array [.val (.num .zero), .val (.num .negZero)]) := by
  have made : (0 : ℕ) ∈ (solo Config.start.state
      [⟨.arrayLit [.numLit .zero, .unary "-" (.numLit .zero)] [], fun _ => none, 0,
          [(0, .num .zero), (1, .num .negZero)]⟩,
        ⟨.assign (.glob "table") (.arrayLit [.numLit .zero, .unary "-" (.numLit .zero)] []), fun _ => none, 0, []⟩]).free := by
    refine ⟨rfl, ?_, nofun, fun i f hf => ?_⟩
    · rintro (h | ⟨b, o, hb, -⟩)
      · exact h
      · cases hb
    · by_cases hi : i = 0
      · subst hi
        simp only [solo, update_self, mem_cons, not_mem_nil, or_false] at hf
        rcases hf with rfl | rfl <;> simp [valRefs, Val.refs]
      · simp [solo, update_of_ne hi] at hf
  have run : Steps zeros .start (solo _ []) :=
    (((((((((Relation.ReflTransGen.single zeros_enter).tail (solo_child 0 rfl)).tail (solo_child 0 rfl)).tail
      (solo_act .numLit)).tail (solo_child 1 rfl)).tail (solo_child 0 rfl)).tail (solo_act .numLit)).tail
        (solo_act .neg)).tail (solo_act (.arrayLit rfl made))).tail (solo_act .assignGlobal)
  have table : (Id.glob "table", ⟨"sc_const_numbers_0", [F64.zero, F64.negZero]⟩) ∈ findConstantNumericTables zeros := by
    decide +kernel
  exact ⟨_, run, (findConstantNumericTables_sound table run (by simp [solo]) .refl).1⟩

end IrTree
