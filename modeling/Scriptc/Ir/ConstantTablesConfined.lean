import Mathlib.Data.List.Induction
import Scriptc.Ir.ConstantTables

/-!
# What the constant table pass sees

The walk treats every candidate on its own (`visit_eq`), so what it lets pass is a
property of one binding: in a module where `g` gets a table of the numbers `vs`, every
node is `Confined g vs` (`confined_of_table`). Every mention of `g` is then a primitive
read, or a store of a literal of these numbers.
-/

namespace IrTree

open Ir List

/-! ### What the pass sees of one global -/

/-- The reference of a primitive read of the candidate. -/
def isRead (g : Id) : IrNode → Bool
  | .varRef x ty => x == g && ty == .array .f64
  | _ => false

mutual
/-- What visiting a node does to the candidate `g`. -/
def seen (g : Id) : IrNode → Candidate → Candidate
  | .numLit _, c => c
  | .unary _ e, c => seen g e c
  | .varRef x _, c => if x = g then c.reject else c
  | .assign x v, c => seen g v (if x = g then c.write v else c)
  | .arrayLit es _, c => seenAll g es c
  | .arrIntrinsic m r args, c =>
    if isRead g r && readMethod m args then seenAll g args (if m = "getNumber" then c.read else c)
    else seenAll g args (seen g r c)
  | .arrayRead _ a i, c => if isRead g a then seen g i c else seen g i (seen g a c)
  | .node kind x captures ns, c =>
    let c := if kind = "closure" then captures.foldl (fun c id => if id = g then c.reject else c) c else c
    seenAll g ns (if x = some g then c.reject else c)

def seenAll (g : Id) : List IrNode → Candidate → Candidate
  | [], c => c
  | n :: ns, c => seenAll g ns (seen g n c)
end

/-- What visiting a function does to the candidate `g`. -/
def seenFunction (g : Id) (fn : IrFunction) (c : Candidate) : Candidate :=
  seenAll g fn.body ((fn.params ++ fn.captures).foldl (fun c id => if id = g then c.reject else c) c)

/-- Every candidate of the map changes by a function of its own. -/
def Candidates.each (f : Id → Candidate → Candidate) (cs : Candidates) : Candidates :=
  cs.map fun p => (p.1, f p.1 p.2)

namespace Candidates

variable (cs : Candidates)

theorem each_each (f h : Id → Candidate → Candidate) : (cs.each f).each h = cs.each fun g c => h g (f g c) := by
  simp [each, Function.comp_def]

theorem each_congr {f h : Id → Candidate → Candidate} (hp : ∀ g c, cs.has g = true → f g c = h g c) :
    cs.each f = cs.each h := by
  refine map_congr_left fun p hm => ?_
  have : cs.has p.1 = true := any_eq_true.mpr ⟨p, hm, by simp⟩
  simp only [hp p.1 p.2 this]

theorem each_id : (cs.each fun _ c => c) = cs := by simp [each]

theorem update_eq_each (x : Id) (f : Candidate → Candidate) :
    cs.update x f = cs.each fun g c => if x = g then f c else c := by
  refine map_congr_left fun p _ => ?_
  by_cases h : p.1 = x
  · simp [h]
  · simp [h, Ne.symm h]

theorem foldl_reject (ids : List Id) :
    ids.foldl (fun cs id => cs.update id .reject) cs =
      cs.each fun g c => ids.foldl (fun c id => if id = g then c.reject else c) c := by
  induction ids generalizing cs with
  | nil => exact (each_id cs).symm
  | cons x ids ih =>
    rw [foldl_cons, ih, update_eq_each, each_each]
    rfl

/-- A node that reads some candidate reads no other. -/
theorem isRead_of_candidateFor {n : IrNode} {x : Id} (h : cs.candidateFor n = some x) :
    n = .varRef x (.array .f64) ∧ cs.has x = true := by
  cases n with
  | varRef y ty =>
    simp only [candidateFor] at h
    split at h
    · next hc =>
      cases h
      exact ⟨by rw [hc.1], hc.2⟩
    · cases h
  | _ => cases h

theorem isRead_eq_false {n : IrNode} (h : cs.candidateFor n = none) {g : Id} (hg : cs.has g = true) :
    isRead g n = false := by
  cases n with
  | varRef y ty =>
    by_contra hr
    simp only [isRead, Bool.not_eq_false, Bool.and_eq_true, beq_iff_eq] at hr
    simp [candidateFor, hr.1, hr.2, hg] at h
  | _ => rfl

end Candidates

open Candidates

mutual
theorem visit_eq : ∀ (n : IrNode) (cs : Candidates), visit n cs = cs.each fun g => seen g n
  | .numLit _, cs => (each_id cs).symm
  | .unary _ e, cs => visit_eq e cs
  | .varRef x _, cs => update_eq_each cs x _
  | .assign x v, cs => by
    rw [visit, visit_eq v, update_eq_each, each_each]
    rfl
  | .arrayLit es _, cs => visitAll_eq es cs
  | .arrIntrinsic m r args, cs => by
    have plain : visitAll args (visit r cs) = cs.each fun g c => seenAll g args (seen g r c) := by
      rw [visit_eq r, visitAll_eq args, each_each]
    rw [visit]
    cases hc : cs.candidateFor r with
    | none =>
      simp only [plain]
      refine each_congr cs fun g c hg => ?_
      simp only [seen, isRead_eq_false cs hc hg, Bool.false_and, Bool.false_eq_true, if_false]
    | some x =>
      obtain ⟨rfl, -⟩ := isRead_of_candidateFor cs hc
      cases hm : readMethod m args with
      | false =>
        simp only [Bool.false_eq_true, if_false, plain]
        refine each_congr cs fun g c _ => ?_
        simp only [seen, hm, Bool.and_false, Bool.false_eq_true, if_false]
      | true =>
        simp only [if_true]
        have upd : (if m = "getNumber" then cs.update x .read else cs) =
            cs.each fun g c => if m = "getNumber" then (if x = g then c.read else c) else c := by
          split
          · exact update_eq_each cs x _
          · exact (each_id cs).symm
        rw [upd, visitAll_eq args, each_each]
        refine each_congr cs fun g c _ => ?_
        by_cases hx : x = g
        · simp [seen, isRead, hm, hx]
        · simp [seen, isRead, hx]
  | .arrayRead k a i, cs => by
    rw [visit]
    cases hc : cs.candidateFor a with
    | none =>
      simp only [Option.isSome_none, Bool.false_eq_true, if_false]
      rw [visit_eq a, visit_eq i, each_each]
      refine each_congr cs fun g c hg => ?_
      simp only [seen, isRead_eq_false cs hc hg, Bool.false_eq_true, if_false]
    | some x =>
      obtain ⟨rfl, -⟩ := isRead_of_candidateFor cs hc
      simp only [Option.isSome_some, if_true]
      rw [visit_eq i]
      refine each_congr cs fun g c _ => ?_
      by_cases hx : x = g
      · simp [seen, isRead, hx]
      · simp [seen, isRead, hx]
  | .node kind x captures ns, cs => by
    have caps : (if kind = "closure" then captures.foldl (fun cs id => cs.update id .reject) cs else cs) =
        cs.each fun g c =>
          if kind = "closure" then captures.foldl (fun c id => if id = g then c.reject else c) c else c := by
      split
      · exact foldl_reject cs captures
      · exact (each_id cs).symm
    simp only [visit, caps]
    cases x with
    | none =>
      rw [visitAll_eq ns, each_each]
      exact each_congr cs fun g c _ => by simp only [seen, reduceCtorEq, if_false]
    | some x =>
      simp only [update_eq_each]
      rw [visitAll_eq ns, each_each, each_each]
      exact each_congr cs fun g c _ => by simp only [seen, Option.some.injEq]

theorem visitAll_eq : ∀ (ns : List IrNode) (cs : Candidates), visitAll ns cs = cs.each fun g => seenAll g ns
  | [], cs => (each_id cs).symm
  | n :: ns, cs => by
    rw [visitAll, visit_eq n, visitAll_eq ns, each_each]
    rfl
end

theorem visitFunction_eq (fn : IrFunction) (cs : Candidates) :
    visitFunction fn cs = cs.each fun g => seenFunction g fn := by
  rw [visitFunction, foldl_reject, visitAll_eq, each_each]
  rfl

theorem visitFunctions_eq (fns : List IrFunction) (cs : Candidates) :
    fns.foldl (fun cs fn => visitFunction fn cs) cs =
      cs.each fun g c => fns.foldl (fun c fn => seenFunction g fn c) c := by
  induction fns generalizing cs with
  | nil => exact (each_id cs).symm
  | cons fn fns ih =>
    rw [foldl_cons, ih, visitFunction_eq, each_each]
    rfl

theorem mem_initialCandidates {M : IrModule} {p : Id × Candidate} (h : p ∈ initialCandidates M) : p.2 = .new := by
  suffices ∀ (gls : List IrGlobal) (cs : Candidates), (∀ p ∈ cs, p.2 = .new) →
      ∀ p ∈ gls.foldl (fun cs gl => if !gl.mutable && gl.ty == .array .f64 then cs.set (.glob gl.id) .new else cs) cs,
        p.2 = .new from this _ [] (by simp) p h
  intro gls
  induction gls with
  | nil => exact fun cs hcs p hp => hcs p hp
  | cons gl gls ih =>
    intro cs hcs
    refine ih _ ?_
    dsimp only
    split
    · intro p hp
      unfold Candidates.set at hp
      split at hp
      · obtain ⟨q, hq, rfl⟩ := mem_map.mp hp
        split
        · rfl
        · exact hcs q hq
      · rcases mem_append.mp hp with hp | hp
        · exact hcs p hp
        · simp_all
    · exact hcs

/-! ### Confinement -/

mutual
/-- Every mention of `g` in the node is the receiver of a primitive read, or the target of
an `assign` that stores a literal of the numbers `vs`. -/
def Confined (g : Id) (vs : List F64) : IrNode → Prop
  | .numLit _ => True
  | .unary _ e => Confined g vs e
  | .varRef x _ => x ≠ g
  | .assign x v => (x = g → tableValues v = some vs) ∧ Confined g vs v
  | .arrayLit es _ => AllConfined g vs es
  | .arrIntrinsic m r args =>
    ((∃ ty, r = .varRef g ty) ∧ readMethod m args = true ∨ Confined g vs r) ∧ AllConfined g vs args
  | .arrayRead _ a i => ((∃ ty, a = .varRef g ty) ∨ Confined g vs a) ∧ Confined g vs i
  | .node _ x _ ns => x ≠ some g ∧ AllConfined g vs ns

def AllConfined (g : Id) (vs : List F64) : List IrNode → Prop
  | [] => True
  | n :: ns => Confined g vs n ∧ AllConfined g vs ns
end

variable {g : Id} {vs : List F64}

theorem allConfined_iff {ns : List IrNode} :
    AllConfined g vs ns ↔ ∀ n ∈ ns, Confined g vs n := by
  induction ns with
  | nil => simp [AllConfined]
  | cons n ns ih => simp [AllConfined, ih]

namespace Candidate

/-- How visiting more of a module can change a candidate. -/
structure Kept (c c' : Candidate) : Prop where
  rejected : c'.rejected = false → c.rejected = false
  unset : (c.writes = 0 → c.values = none) → c'.writes = 0 → c'.values = none
  written : c'.rejected = false → 0 < c.writes → 0 < c'.writes ∧ c'.values = c.values

/-- Neither rejected nor given other numbers than `vs`. -/
def Good (vs : List F64) (c : Candidate) : Prop := c.rejected = false ∧ (0 < c.writes → c.values = some vs)

variable {c c' c'' : Candidate} {vs : List F64}

theorem Kept.refl (c : Candidate) : Kept c c := ⟨id, id, fun _ h => ⟨h, rfl⟩⟩

theorem Kept.trans (h : Kept c c') (h' : Kept c' c'') : Kept c c'' where
  rejected hr := h.rejected (h'.rejected hr)
  unset hu := h'.unset (h.unset hu)
  written hr hw := by
    obtain ⟨hw₁, hv₁⟩ := h.written (h'.rejected hr) hw
    obtain ⟨hw₂, hv₂⟩ := h'.written hr hw₁
    exact ⟨hw₂, hv₂.trans hv₁⟩

theorem Kept.good (h : Kept c c') (hg : Good vs c') : Good vs c := by
  refine ⟨h.rejected hg.1, fun hw => ?_⟩
  obtain ⟨hw', hv⟩ := h.written hg.1 hw
  rw [← hv]
  exact hg.2 hw'

theorem not_good_reject : ¬ Good vs c.reject := fun h => by cases h.1

theorem kept_reject (c : Candidate) : Kept c c.reject := ⟨nofun, id, nofun⟩

theorem kept_read (c : Candidate) : Kept c c.read := ⟨id, id, fun _ h => ⟨h, rfl⟩⟩

theorem kept_write (v : IrNode) (c : Candidate) : Kept c (c.write v) := by
  unfold write
  by_cases h : c.writes = 0
  · cases tableValues v with
    | some ws =>
      simp only [h, Nat.zero_add, if_true]
      exact ⟨id, fun _ => nofun, fun _ hw => absurd h hw.ne'⟩
    | none =>
      simp only [h, Nat.zero_add, if_true]
      split
      · exact ⟨nofun, fun _ => nofun, nofun⟩
      · exact ⟨id, fun _ => nofun, fun _ hw => absurd h hw.ne'⟩
  · simp only [Nat.add_eq_right, h, if_false]
    exact ⟨nofun, fun _ => nofun, nofun⟩

/-- A good candidate was written for the first time, with a literal of its numbers. -/
theorem tableValues_of_good_write {v : IrNode} (hu : c.writes = 0 → c.values = none) (h : Good vs (c.write v)) :
    tableValues v = some vs := by
  unfold write at h
  by_cases h0 : c.writes = 0
  · cases ht : tableValues v with
    | some ws =>
      simp only [h0, ht, Nat.zero_add, if_true] at h
      exact h.2 Nat.one_pos
    | none =>
      simp only [h0, ht, Nat.zero_add, if_true, hu h0] at h
      exact absurd h not_good_reject
  · simp only [Nat.add_eq_right, h0, if_false] at h
    exact absurd h not_good_reject

theorem kept_if {p : Prop} [Decidable p] {d : Candidate} (h : Kept c d) : Kept c (if p then d else c) := by
  split
  · exact h
  · exact Kept.refl c

theorem kept_foldl_reject (g : Id) (ids : List Id) (c : Candidate) :
    Kept c (ids.foldl (fun c id => if id = g then c.reject else c) c) := by
  induction ids generalizing c with
  | nil => exact Kept.refl c
  | cons x ids ih => exact (kept_if (kept_reject c)).trans (ih _)

end Candidate

open Candidate

mutual
theorem kept_seen (g : Id) : ∀ (n : IrNode) (c : Candidate), Kept c (seen g n c)
  | .numLit _, c => Kept.refl c
  | .unary _ e, c => kept_seen g e c
  | .varRef _ _, c => kept_if (kept_reject c)
  | .assign _ v, c => (kept_if (kept_write v c)).trans (kept_seen g v _)
  | .arrayLit es _, c => kept_seenAll g es c
  | .arrIntrinsic m r args, c => by
    rw [seen]
    split
    · exact (kept_if (kept_read c)).trans (kept_seenAll g args _)
    · exact (kept_seen g r c).trans (kept_seenAll g args _)
  | .arrayRead _ a i, c => by
    rw [seen]
    split
    · exact kept_seen g i c
    · exact (kept_seen g a c).trans (kept_seen g i _)
  | .node _ _ captures ns, c => by
    rw [seen]
    exact (kept_if (kept_foldl_reject g captures c)).trans ((kept_if (kept_reject _)).trans (kept_seenAll g ns _))

theorem kept_seenAll (g : Id) : ∀ (ns : List IrNode) (c : Candidate), Kept c (seenAll g ns c)
  | [], c => Kept.refl c
  | n :: ns, c => (kept_seen g n c).trans (kept_seenAll g ns _)
end

theorem of_isRead {n : IrNode} (h : isRead g n = true) : ∃ ty, n = .varRef g ty := by
  cases n with
  | varRef x ty =>
    simp only [isRead, Bool.and_eq_true, beq_iff_eq] at h
    exact ⟨ty, by rw [h.1]⟩
  | _ => cases h

mutual
/-- A candidate that comes out good is confined to what it was shown. -/
theorem confined_of_seen : ∀ (n : IrNode) {c : Candidate},
    (c.writes = 0 → c.values = none) → Good vs (seen g n c) → Confined g vs n
  | .numLit _, _, _, _ => trivial
  | .unary _ e, _, hu, h => confined_of_seen e hu h
  | .varRef x _, c, _, h => by
    rintro rfl
    rw [seen, if_pos rfl] at h
    exact not_good_reject h
  | .assign x v, c, hu, h => by
    rw [seen] at h
    have kept : Kept c (if x = g then c.write v else c) := kept_if (kept_write v c)
    refine ⟨?_, confined_of_seen v (kept.unset hu) h⟩
    rintro rfl
    rw [if_pos rfl] at h
    exact tableValues_of_good_write hu ((kept_seen x v _).good h)
  | .arrayLit es _, _, hu, h => allConfined_of_seen es hu h
  | .arrIntrinsic m r args, c, hu, h => by
    rw [seen] at h
    split at h
    · next hr =>
      rw [Bool.and_eq_true] at hr
      have kept : Kept c (if m = "getNumber" then c.read else c) := kept_if (kept_read c)
      exact ⟨.inl ⟨of_isRead hr.1, hr.2⟩, allConfined_of_seen args (kept.unset hu) h⟩
    · exact ⟨.inr (confined_of_seen r hu ((kept_seenAll g args _).good h)),
        allConfined_of_seen args ((kept_seen g r c).unset hu) h⟩
  | .arrayRead _ a i, c, hu, h => by
    rw [seen] at h
    split at h
    · next hr => exact ⟨.inl (of_isRead hr), confined_of_seen i hu h⟩
    · exact ⟨.inr (confined_of_seen a hu ((kept_seen g i _).good h)), confined_of_seen i ((kept_seen g a c).unset hu) h⟩
  | .node kind x captures ns, c, hu, h => by
    rw [seen] at h
    have kept := kept_if (p := kind = "closure") (kept_foldl_reject g captures c)
    refine ⟨?_, allConfined_of_seen ns ((kept_if (kept_reject _)).unset (kept.unset hu)) h⟩
    rintro rfl
    rw [if_pos rfl] at h
    exact not_good_reject ((kept_seenAll g ns _).good h)

theorem allConfined_of_seen : ∀ (ns : List IrNode) {c : Candidate},
    (c.writes = 0 → c.values = none) → Good vs (seenAll g ns c) → AllConfined g vs ns
  | [], _, _, _ => trivial
  | n :: ns, c, hu, h =>
    ⟨confined_of_seen n hu ((kept_seenAll g ns _).good h), allConfined_of_seen ns ((kept_seen g n c).unset hu) h⟩
end

theorem kept_seenFunction (g : Id) (fn : IrFunction) (c : Candidate) : Kept c (seenFunction g fn c) :=
  (kept_foldl_reject g _ c).trans (kept_seenAll g fn.body _)

theorem kept_seenFunctions (g : Id) (fns : List IrFunction) (c : Candidate) :
    Kept c (fns.foldl (fun c fn => seenFunction g fn c) c) := by
  induction fns generalizing c with
  | nil => exact Kept.refl c
  | cons fn fns ih => exact (kept_seenFunction g fn c).trans (ih _)

theorem confined_of_seenFunctions (fns : List IrFunction) {c : Candidate}
    (hu : c.writes = 0 → c.values = none) (h : Good vs (fns.foldl (fun c fn => seenFunction g fn c) c)) :
    ∀ fn ∈ fns, ∀ n ∈ fn.body, Confined g vs n := by
  induction fns generalizing c with
  | nil => nofun
  | cons fn fns ih =>
    intro fn' hfn
    rcases mem_cons.mp hfn with rfl | hfn
    · have good := (kept_seenFunctions g fns _).good h
      exact allConfined_iff.mp (allConfined_of_seen _ ((kept_foldl_reject g _ c).unset hu) good)
    · exact ih ((kept_seenFunction g fn c).unset hu) h fn' hfn

/-- Where a table comes from. -/
theorem mem_tables {cs : Candidates} {t : ConstantNumericTable}
    (h : (g, t) ∈ cs.foldl
      (fun tables p =>
        match p.2.table with
        | some vs => tables ++ [(p.1, ⟨s!"sc_const_numbers_{tables.length}", vs⟩)]
        | none => tables) []) : ∃ c, (g, c) ∈ cs ∧ c.table = some t.values := by
  induction cs using reverseRecOn with
  | nil => cases h
  | append_singleton cs p ih =>
    rw [foldl_append] at h
    simp only [foldl_cons, foldl_nil] at h
    have old : (∃ c, (g, c) ∈ cs ∧ c.table = some t.values) → ∃ c, (g, c) ∈ cs ++ [p] ∧ c.table = some t.values := by
      rintro ⟨c, hc, ht⟩
      exact ⟨c, mem_append_left _ hc, ht⟩
    split at h
    · next vs hv =>
      rcases mem_append.mp h with h | h
      · exact old (ih h)
      · simp only [mem_singleton, Prod.mk.injEq] at h
        obtain ⟨rfl, rfl⟩ := h
        exact ⟨p.2, by simp, hv⟩
    · exact old (ih h)

theorem confined_of_table {M : IrModule} {t : ConstantNumericTable}
    (h : (g, t) ∈ findConstantNumericTables M) : ∀ fn ∈ M.functions, ∀ n ∈ fn.body, Confined g t.values n := by
  obtain ⟨c, hc, ht⟩ := mem_tables h
  rw [visitFunctions_eq] at hc
  obtain ⟨p, hp, heq⟩ := mem_map.mp hc
  obtain ⟨rfl, rfl⟩ := Prod.mk.inj heq
  have hp0 : p.2 = .new := mem_initialCandidates hp
  unfold Candidate.table at ht
  split at ht
  · next hk =>
    simp only [Bool.and_eq_true, Bool.not_eq_true', beq_iff_eq, decide_eq_true_eq] at hk
    exact confined_of_seenFunctions M.functions (by rw [hp0]; exact fun _ => rfl) ⟨hk.1.1, fun _ => ht⟩
  · cases ht

end IrTree
