import Scriptc.Frontend.NpmStaticPrune

/-!
# The pruned program is closed

A round of the loop leaves the edges of its file answered until the file's own demand grows;
the loop ends because demands only grow; and the last pass drops the statements that the
loop did not follow.
-/

namespace NpmStaticPrune

open PackagePurity List

variable {File Path : Type*}

/-! ### A round of the loop -/

section

variable {P : Program File Path} [DecidableEq File] [DecidableEq Path] {files : List File} {entry : File}
  {extraRoots : List String} {names : Finset String} {st st' : State File Path} {sf : File} {fuel : ℕ}

omit [DecidableEq File] [DecidableEq Path] in
theorem Inv.exists_covers {busy : Option File} (h : Inv P files entry extraRoots names busy st) (hd : st.demanded sf ≠ none) :
    ∃ q, Covers (st.demanded sf) q := by
  obtain ⟨d, hd⟩ := Option.ne_none_iff_exists'.mp hd
  match d, hd with
  | none, hd => exact ⟨none, .inl hd⟩
  | some [], hd => exact absurd rfl (h.known sf [] hd).2.1
  | some (n :: ns), hd => exact ⟨some n, .inr ⟨n :: ns, n, hd, mem_cons_self, rfl⟩⟩

theorem processStatement_step {stmt : Statement} (hfuel : Enough P files fuel) (hnames : Names P files names)
    (hstmt : stmt ∈ P.statements sf) (h : Inv P files entry extraRoots names (some sf) st) (hd : st.demanded sf ≠ none) :
    ∃ st', P.processStatement files fuel sf st stmt = some st' ∧ Stepped P files entry extraRoots names (some sf) st st' ∧
      (sf ∈ st'.queue ∨ StatementSettled P files st'.demanded sf stmt) := by
  obtain ⟨d, hd'⟩ := Option.ne_none_iff_exists'.mp hd
  have hsf := h.inFiles sf d hd'
  obtain ⟨q, hq⟩ := h.exists_covers hd
  match stmt, hstmt with
  | .importDeclaration (some spec) clause, hstmt =>
    unfold Program.processStatement
    by_cases he : P.erasedTypeOnlyImport clause = true
    · refine ⟨st, if_pos he, .refl h, .inr ⟨fun spec' clause' hs hn => ?_, fun _ _ _ h => by cases h⟩⟩
      cases hs
      rw [he] at hn
      cases hn
    · obtain ⟨hstep, hcov⟩ := requestAll_step (Program.importRequests clause) st h fun name hname =>
        ⟨fun dep hr hdep R hR => hR.request sf q (h.justified R hR sf q hq) dep hdep name
          (.inl ⟨spec, clause, hstmt, by simpa using he, hr, hname⟩),
          fun n hn => hnames sf hsf _ _ hstmt n (hn ▸ hname)⟩
      refine ⟨_, if_neg he, hstep, .inr ⟨fun spec' clause' hs _ dep hdep hr name hname => ?_, fun _ _ _ h => by cases h⟩⟩
      cases hs
      exact hcov dep hr hdep name hname
  | .exportDeclaration (some spec) isTypeOnly clause, hstmt =>
    unfold Program.processStatement
    by_cases he : P.erasedTypeOnlyReexport isTypeOnly clause = true
    · refine ⟨st, if_pos he, .refl h, .inr ⟨fun _ _ h => (by cases h), fun spec' isTypeOnly' clause' hs hn => ?_⟩⟩
      cases hs
      rw [he] at hn
      cases hn
    · obtain ⟨b, memo, hcan, hmemo, hb⟩ := canPrune_spec clause (P.resolveEdge sf spec) hfuel hsf
        h.memo hd
      simp only [if_neg he, hcan, Option.map_some]
      have hm : Inv P files entry extraRoots names (some sf) { st with pureMemo := memo } :=
        ⟨h.inFiles, h.queued, h.known, h.justified, hmemo, h.settled⟩
      have first : Stepped P files entry extraRoots names (some sf) st { st with pureMemo := memo } :=
        ⟨hm, ⟨fun _ _ => id, fun _ => .inl rfl, fun _ => id⟩, le_rfl⟩
      cases b with
      | true =>
        obtain ⟨dep, name, hdep, hp, hn⟩ := hb.mp rfl
        refine ⟨_, rfl, first, .inr ⟨fun _ _ h => (by cases h), fun spec' isTypeOnly' clause' hs _ dep' hdep' hr hall => ?_⟩⟩
        cases hs
        rw [hdep] at hr
        cases hr
        exact absurd (hall name hp) hn
      | false =>
        obtain ⟨hstep, hcov⟩ := request_step (P.resolveEdge sf spec) none hm (fun dep hr hdep R hR => by
          rw [asked_none]
          refine hR.reexport sf q (h.justified R hR sf q hq) dep hdep _ clause
            ⟨hstmt, spec, isTypeOnly, rfl, by simpa using he, hr⟩ fun name hp => h.justified R hR sf _ ?_
          by_contra hn
          have := hb.mpr ⟨dep, name, hr, hp, hn⟩
          cases this) (fun _ h => by cases h)
        refine ⟨_, rfl, first.trans hstep, ?_⟩
        rcases hstep.later.changed sf with hsame | hq
        · refine .inr ⟨fun _ _ h => (by cases h), fun spec' isTypeOnly' clause' hs _ dep hdep hr _ => ?_⟩
          cases hs
          have := hcov dep hr hdep
          rwa [asked_none] at this
        · exact .inl hq
  | .importDeclaration none clause, _ =>
    exact ⟨st, rfl, .refl h, .inr ⟨fun _ _ h => (by cases h), fun _ _ _ h => by cases h⟩⟩
  | .exportDeclaration none isTypeOnly clause, _ =>
    exact ⟨st, rfl, .refl h, .inr ⟨fun _ _ h => (by cases h), fun _ _ _ h => by cases h⟩⟩
  | .other, _ => exact ⟨st, rfl, .refl h, .inr ⟨fun _ _ h => (by cases h), fun _ _ _ h => by cases h⟩⟩

theorem processStatements_step (hfuel : Enough P files fuel) (hnames : Names P files names) :
    ∀ (stmts : List Statement) (st : State File Path), (∀ stmt ∈ stmts, stmt ∈ P.statements sf) →
      Inv P files entry extraRoots names (some sf) st → st.demanded sf ≠ none →
      ∃ st', P.processStatements files fuel sf stmts st = some st' ∧
        Stepped P files entry extraRoots names (some sf) st st' ∧
        (sf ∈ st'.queue ∨ ∀ stmt ∈ stmts, StatementSettled P files st'.demanded sf stmt) := by
  intro stmts
  induction stmts with
  | nil => exact fun st _ h _ => ⟨st, rfl, .refl h, .inr (by simp)⟩
  | cons stmt stmts ih =>
    intro st hmem h hd
    obtain ⟨hstmt, hmem⟩ := forall_mem_cons.mp hmem
    obtain ⟨st₁, hst₁, hstep, hset⟩ := processStatement_step hfuel hnames hstmt h hd
    obtain ⟨st₂, hst₂, hstep', hset'⟩ := ih st₁ hmem hstep.inv (demanded_later hstep.later hstep.inv.queued hd)
    refine ⟨st₂, by simp [Program.processStatements, hst₁, hst₂], hstep.trans hstep', ?_⟩
    rcases hset with hq | hset
    · exact .inl (hstep'.later.queue sf hq)
    rcases hset' with hq | hset'
    · exact .inl hq
    rcases hstep'.later.changed sf with hsame | hq
    · exact .inr (forall_mem_cons.mpr ⟨hset.later hstep'.later hsame, hset'⟩)
    · exact .inl hq

omit [DecidableEq Path] in
theorem processCall_step {call : CallExpression} {q : Option String} (hcall : call ∈ P.calls sf)
    (h : Inv P files entry extraRoots names (some sf) st) (hq : Covers (st.demanded sf) q) :
    Stepped P files entry extraRoots names (some sf) st (P.processCall files sf st call) ∧
      CallSettled P files (P.processCall files sf st call).demanded sf call := by
  unfold Program.processCall
  split
  · next spec hs =>
    obtain ⟨hstep, hcov⟩ := request_step (P.resolveEdge sf spec) none h (fun dep hr hdep R hR =>
      hR.request sf q (h.justified R hR sf q hq) dep hdep none (.inr ⟨rfl, call, hcall, spec, hs, hr⟩)) (fun _ h => by cases h)
    refine ⟨hstep, fun spec' hs' dep hdep hr => ?_⟩
    rw [hs] at hs'
    cases hs'
    have := hcov dep hr hdep
    rwa [asked_none] at this
  · next hs =>
    refine ⟨.refl h, fun spec hs' => ?_⟩
    rw [hs] at hs'
    cases hs'

omit [DecidableEq Path] in
theorem processCalls_step {q : Option String} :
    ∀ (calls : List CallExpression) (st : State File Path), (∀ call ∈ calls, call ∈ P.calls sf) →
      Inv P files entry extraRoots names (some sf) st → Covers (st.demanded sf) q →
      Stepped P files entry extraRoots names (some sf) st (calls.foldl (P.processCall files sf) st) ∧
        ∀ call ∈ calls, CallSettled P files (calls.foldl (P.processCall files sf) st).demanded sf call := by
  intro calls
  induction calls with
  | nil => exact fun st _ h _ => ⟨.refl h, by simp⟩
  | cons call calls ih =>
    intro st hmem h hq
    obtain ⟨hcall, hmem⟩ := forall_mem_cons.mp hmem
    obtain ⟨hstep, hset⟩ := processCall_step hcall h hq
    obtain ⟨hstep', hset'⟩ := ih _ hmem hstep.inv (hstep.later.covers sf q hq)
    exact ⟨hstep.trans hstep', forall_mem_cons.mpr ⟨hset.later hstep'.later, hset'⟩⟩

theorem processFile_step (hfuel : Enough P files fuel) (hnames : Names P files names)
    (h : Inv P files entry extraRoots names (some sf) st) (hd : st.demanded sf ≠ none) :
    ∃ st', P.processFile files fuel sf st = some st' ∧ Stepped P files entry extraRoots names none st st' := by
  obtain ⟨st₁, hst₁, hstep, hset⟩ := processStatements_step hfuel hnames (P.statements sf) st (fun _ => id) h hd
  have hd₁ := demanded_later hstep.later hstep.inv.queued hd
  obtain ⟨q, hq⟩ := hstep.inv.exists_covers hd₁
  obtain ⟨hstep', hset'⟩ := processCalls_step (P.calls sf) st₁ (fun _ => id) hstep.inv hq
  refine ⟨_, by simp only [Program.processFile, hst₁, Option.map_some], ⟨hstep'.inv.idle ?_, ?_, ?_⟩⟩
  · rcases hset with hq | hset
    · exact .inl (hstep'.later.queue sf hq)
    rcases hstep'.later.changed sf with hsame | hq
    · exact .inr ⟨fun stmt hs => (hset stmt hs).later hstep'.later hsame, hset'⟩
    · exact .inl hq
  · exact hstep.later.trans hstep'.later
  · exact hstep'.weight.trans hstep.weight

/-! ### The loop -/

theorem processQueue_run (hfuel : Enough P files fuel) (hnames : Names P files names) :
    ∀ (rounds : ℕ) (st : State File Path), Inv P files entry extraRoots names none st →
      weight files names.card st ≤ rounds →
      ∃ st', P.processQueue files fuel rounds st = some st' ∧ Inv P files entry extraRoots names none st' ∧
        st'.queue = [] ∧ ∀ sf q, Covers (st.demanded sf) q → Covers (st'.demanded sf) q := by
  intro rounds
  induction rounds with
  | zero =>
    intro st h hw
    have hq : st.queue = [] := by
      unfold weight at hw
      exact eq_nil_of_length_eq_zero (by omega)
    exact ⟨st, by rw [Program.processQueue, hq], h, hq, fun _ _ => id⟩
  | succ rounds ih =>
    intro st h hw
    cases hq : st.queue with
    | nil => exact ⟨st, by rw [Program.processQueue, hq], h, hq, fun _ _ => id⟩
    | cons sf queue =>
      have hd : st.demanded sf ≠ none := h.queued sf (by simp [hq])
      have popped : Inv P files entry extraRoots names (some sf) { st with queue := queue } := by
        refine ⟨h.inFiles, fun f hf => h.queued f (by simp [hq, hf]), h.known, h.justified, h.memo, fun f hf hn hb => ?_⟩
        refine h.settled f hf ?_ (by simp)
        rw [hq]
        exact not_mem_cons_of_ne_of_not_mem (fun he => hb (congrArg some he)) hn
      have hless : weight files names.card { st with queue := queue } + 1 = weight files names.card st := by
        simp only [weight, hq, length_cons]
        omega
      obtain ⟨st₁, hst₁, hstep⟩ := processFile_step hfuel hnames popped hd
      obtain ⟨st₂, hst₂, hinv, hempty, hcov⟩ := ih st₁ hstep.inv (by have := hstep.weight; omega)
      have run : P.processQueue files fuel (rounds + 1) st = some st₂ := by
        rw [Program.processQueue, hq]
        simp only [hst₁, Option.bind_some, hst₂]
      exact ⟨st₂, run, hinv, hempty,
        fun f q hc => hcov f q (hstep.later.covers f q hc)⟩

omit [DecidableEq Path] in
/-- What is asked for before the loop. -/
theorem roots_step :
    ∀ (targets : List (Option File)) (st : State File Path), Inv P files entry extraRoots names none st →
      (∀ target ∈ targets, ∀ dep, target = some dep → Root P entry extraRoots dep) →
      Stepped P files entry extraRoots names none st (targets.foldl (fun st sf => P.request files st sf none) st) ∧
        ∀ target ∈ targets, ∀ dep ∈ files, target = some dep →
          Covers ((targets.foldl (fun st sf => P.request files st sf none) st).demanded dep) none := by
  intro targets
  induction targets with
  | nil => exact fun st h _ => ⟨.refl h, by simp⟩
  | cons target targets ih =>
    intro st h hroots
    obtain ⟨hroot, hroots⟩ := forall_mem_cons.mp hroots
    obtain ⟨hstep, hcov⟩ := request_step target none h (fun dep ht hdep R hR => by
      rw [asked_none]
      exact hR.root dep hdep (hroot dep ht)) (fun _ h => by cases h)
    obtain ⟨hstep', hcov'⟩ := ih _ hstep.inv hroots
    refine ⟨hstep.trans hstep', forall_mem_cons.mpr ⟨fun dep hdep ht => ?_, hcov'⟩⟩
    have := hcov dep ht hdep
    rw [asked_none] at this
    exact hstep'.later.covers dep none this

omit [DecidableEq File] [DecidableEq Path] in
theorem Root.mem_roots {dep : File} (hdep : dep ∈ files) (h : Root P entry extraRoots dep) :
    some dep ∈ P.roots files entry extraRoots := by
  unfold Program.roots
  rcases h with h | rfl | ⟨path, hpath, h⟩
  · exact mem_append_left _ (mem_map_of_mem (mem_filter.mpr ⟨hdep, by simpa using h⟩))
  · simp
  · exact mem_append_right _ (mem_cons_of_mem _ (mem_map.mpr ⟨path, hpath, h⟩))

omit [DecidableEq File] [DecidableEq Path] in
theorem root_of_mem_roots {dep : File} (h : some dep ∈ P.roots files entry extraRoots) : Root P entry extraRoots dep := by
  unfold Program.roots at h
  simp only [mem_append, mem_map, mem_filter, decide_eq_true_eq, mem_cons, Option.some.injEq] at h
  rcases h with ⟨sf, ⟨-, hsf⟩, rfl⟩ | rfl | ⟨path, hpath, h⟩
  · exact .inl hsf
  · exact .inr (.inl rfl)
  · exact .inr (.inr ⟨path, hpath, h⟩)

omit [DecidableEq File] [DecidableEq Path] in
theorem empty_inv : Inv P files entry extraRoots names none ⟨fun _ => none, [], fun _ => none⟩ where
  inFiles _ _ h := by cases h
  queued := by simp
  known _ _ h := by cases h
  justified _ _ _ _ hc := absurd hc not_covers_none
  memo _ _ h := by cases h
  settled _ hd := absurd rfl hd

omit [DecidableEq File] [DecidableEq Path] in
/-- When the queue is empty, the demand is closed. -/
theorem Inv.closed (h : Inv P files entry extraRoots names none st) (hq : st.queue = [])
    (hroot : ∀ sf ∈ files, Root P entry extraRoots sf → Covers (st.demanded sf) none) :
    Closed P files entry extraRoots fun sf q => Covers (st.demanded sf) q := by
  have settled (sf : File) (q : Option String) (hc : Covers (st.demanded sf) q) : Settled P files st.demanded sf :=
    h.settled sf (fun hn => not_covers_none (hn ▸ hc)) (by simp [hq]) (by simp)
  refine ⟨fun sf name hc => covers_of_whole hc, hroot, fun sf q hc dep hdep name hreq => ?_, ?_⟩
  · rcases hreq with ⟨spec, clause, hstmt, he, hr, hname⟩ | ⟨rfl, call, hcall, spec, hs, hr⟩
    · exact ((settled sf q hc).1 _ hstmt).imports spec clause rfl he dep hdep hr name hname
    · rw [asked_none]
      exact (settled sf q hc).2 call hcall spec hs dep hdep hr
  · rintro sf q hc dep hdep stmt clause ⟨hstmt, spec, isTypeOnly, hs, he, hr⟩ hall
    exact ((settled sf q hc).1 stmt hstmt).reexports spec isTypeOnly clause hs he dep hdep hr hall

/-- What the last pass drops. -/
def Dropped (P : Program File Path) (demanded : File → Option Demand) (sf : File) (stmt : Statement) : Prop :=
  ∃ spec isTypeOnly clause dep name, stmt = .exportDeclaration (some spec) isTypeOnly clause ∧
    P.resolveEdge sf spec = some dep ∧ Prunable P sf clause dep name ∧ ¬ Covers (demanded sf) (some name)

omit [DecidableEq File] in
theorem prune_spec (st : State File Path) (hfuel : Enough P files fuel) :
    ∀ (parts : List (File × Statement)) (memo : Memo Path), Exact P.packages memo →
      (∀ part ∈ parts, part.1 ∈ files ∧ st.demanded part.1 ≠ none) →
      ∃ pruned, P.prune fuel st parts memo = some pruned ∧
        ∀ part, part ∈ pruned ↔ part ∈ parts ∧ Dropped P st.demanded part.1 part.2 := by
  intro parts
  induction parts with
  | nil => exact fun memo _ _ => ⟨[], rfl, by simp⟩
  | cons part parts ih =>
    intro memo hm hparts
    obtain ⟨⟨hsf, hd⟩, hparts⟩ := forall_mem_cons.mp hparts
    have rest (memo' : Memo Path) (hm' : Exact P.packages memo') := ih memo' hm' hparts
    have skip (hno : ¬ Dropped P st.demanded part.1 part.2) {memo' : Memo Path} (hm' : Exact P.packages memo') :
        ∃ pruned, P.prune fuel st parts memo' = some pruned ∧
          ∀ p, p ∈ pruned ↔ p ∈ part :: parts ∧ Dropped P st.demanded p.1 p.2 := by
      obtain ⟨pruned, hp, hmem⟩ := rest memo' hm'
      refine ⟨pruned, hp, fun p => (hmem p).trans ⟨fun h => ⟨mem_cons_of_mem _ h.1, h.2⟩, fun h => ⟨?_, h.2⟩⟩⟩
      rcases mem_cons.mp h.1 with rfl | h'
      · exact absurd h.2 hno
      · exact h'
    obtain ⟨sf, stmt⟩ := part
    match stmt with
    | .exportDeclaration (some spec) isTypeOnly clause =>
      have now : Exact P.packages ({ st with pureMemo := memo } : State File Path).pureMemo := hm
      obtain ⟨b, memo', hcan, hm', hb⟩ := canPrune_spec clause (P.resolveEdge sf spec) hfuel hsf now hd
      have dropped : b = true ↔ Dropped P st.demanded sf (.exportDeclaration (some spec) isTypeOnly clause) := by
        rw [hb]
        constructor
        · rintro ⟨dep, name, hr, hp, hn⟩
          exact ⟨spec, isTypeOnly, clause, dep, name, rfl, hr, hp, hn⟩
        · rintro ⟨spec', isTypeOnly', clause', dep, name, hs, hr, hp, hn⟩
          cases hs
          exact ⟨dep, name, hr, hp, hn⟩
      cases b with
      | false =>
        obtain ⟨pruned, hp, hmem⟩ := skip (fun h => by cases dropped.mpr h) hm'
        exact ⟨pruned, by simp [Program.prune, hcan, hp], hmem⟩
      | true =>
        obtain ⟨pruned, hp, hmem⟩ := rest memo' hm'
        refine ⟨(sf, .exportDeclaration (some spec) isTypeOnly clause) :: pruned, by simp [Program.prune, hcan, hp], fun p => ?_⟩
        simp only [mem_cons, hmem]
        constructor
        · rintro (rfl | ⟨hp, hdrop⟩)
          · exact ⟨.inl rfl, dropped.mp rfl⟩
          · exact ⟨.inr hp, hdrop⟩
        · rintro ⟨rfl | hp, hdrop⟩
          · exact .inl rfl
          · exact .inr ⟨hp, hdrop⟩
    | .exportDeclaration none isTypeOnly clause =>
      obtain ⟨pruned, hp, hmem⟩ := skip (by rintro ⟨spec, _, _, _, _, hs, -⟩; cases hs) hm
      exact ⟨pruned, by simp [Program.prune, hp], hmem⟩
    | .importDeclaration spec clause =>
      obtain ⟨pruned, hp, hmem⟩ := skip (by rintro ⟨spec, _, _, _, _, hs, -⟩; cases hs) hm
      exact ⟨pruned, by simp [Program.prune, hp], hmem⟩
    | .other =>
      obtain ⟨pruned, hp, hmem⟩ := skip (by rintro ⟨spec, _, _, _, _, hs, -⟩; cases hs) hm
      exact ⟨pruned, by simp [Program.prune, hp], hmem⟩

end

/-! ### The plan -/

section

variable [DecidableEq File] [DecidableEq Path]

omit [DecidableEq File] in
theorem exists_enough (P : Program File Path) (files : List File)
    (hfin : ∀ sf ∈ files, ∀ pkg path, P.npmStaticPackageOfPath sf = some pkg → P.packageRootJsonPath sf pkg = some path →
      {p | Relation.ReflTransGen (DependsOn P.packages) path p}.Finite) :
    ∃ least, ∀ fuel ≥ least, Enough P files fuel := by
  have hall : {p | ∃ sf ∈ files, ∃ pkg path, P.npmStaticPackageOfPath sf = some pkg ∧
      P.packageRootJsonPath sf pkg = some path ∧ Relation.ReflTransGen (DependsOn P.packages) path p}.Finite := by
    have one (sf : File) (hsf : sf ∈ files) : {p | ∃ pkg path, P.npmStaticPackageOfPath sf = some pkg ∧
        P.packageRootJsonPath sf pkg = some path ∧ Relation.ReflTransGen (DependsOn P.packages) path p}.Finite := by
      cases hpkg : P.npmStaticPackageOfPath sf with
      | none => simp
      | some pkg =>
        cases hpath : P.packageRootJsonPath sf pkg with
        | none => simp [hpath]
        | some path =>
          refine (hfin sf hsf pkg path hpkg hpath).subset ?_
          rintro p ⟨pkg', path', hpkg', hpath', hp⟩
          cases hpkg'
          rw [hpath] at hpath'
          cases hpath'
          exact hp
    refine (Set.Finite.biUnion (finite_toSet files) one).subset ?_
    rintro p ⟨sf, hsf, hp⟩
    exact Set.mem_biUnion (x := sf) hsf hp
  have hS : PackagePurity.Covers P.packages hall.toFinset := by
    intro path hpath dep hdep
    rw [Set.Finite.mem_toFinset] at hpath ⊢
    obtain ⟨sf, hsf, pkg, root, hpkg, hroot, hp⟩ := hpath
    exact ⟨sf, hsf, pkg, root, hpkg, hroot, hp.tail hdep⟩
  refine ⟨hall.toFinset.card, fun fuel hfuel sf hsf pkg path hpkg hpath memo => ?_⟩
  refine purePackageTree_ne_none hS fuel [] path memo ?_ (by simpa using hfuel)
  rw [Set.Finite.mem_toFinset]
  exact ⟨sf, hsf, pkg, path, hpkg, hpath, .refl⟩

omit [DecidableEq File] [DecidableEq Path] in
theorem exists_names (P : Program File Path) (files : List File) : ∃ names, Names P files names := by
  refine ⟨(files.flatMap fun sf => (P.statements sf).flatMap fun stmt =>
    match stmt with
    | .importDeclaration _ clause => (Program.importRequests clause).filterMap id
    | _ => []).toFinset, fun sf hsf spec clause hstmt n hn => ?_⟩
  rw [mem_toFinset, mem_flatMap]
  exact ⟨sf, hsf, mem_flatMap.mpr ⟨_, hstmt, mem_filterMap.mpr ⟨some n, hn, rfl⟩⟩⟩

omit [DecidableEq File] [DecidableEq Path] in
/-- The edges that stay lead from demanded files to demanded files. -/
theorem edge_demanded {P : Program File Path} {files : List File} {entry : File} {extraRoots : List String}
    {demanded : File → Option Demand} {pruned : List (File × Statement)}
    (closed : Closed P files entry extraRoots fun sf q => Covers (demanded sf) q)
    (mem_pruned : ∀ sf stmt, (sf, stmt) ∈ pruned ↔ demanded sf ≠ none ∧ stmt ∈ P.statements sf ∧ Dropped P demanded sf stmt)
    {sf dep : File} {q : Option String} (hq : Covers (demanded sf) q) (hedge : Edge P files pruned sf dep) :
    demanded dep ≠ none := by
  have hd : demanded sf ≠ none := fun hn => not_covers_none (hn ▸ hq)
  obtain ⟨hdep, ⟨name, hreq⟩ | ⟨stmt, clause, hre, hkept⟩⟩ := hedge
  · exact fun hn => not_covers_none (hn ▸ closed.request sf q hq dep hdep name hreq)
  · obtain ⟨hstmt, spec, isTypeOnly, rfl, he, hr⟩ := hre
    have hcov := closed.reexport sf q hq dep hdep _ clause ⟨hstmt, spec, isTypeOnly, rfl, he, hr⟩ fun name hp => by
      by_contra hn
      exact hkept ((mem_pruned sf _).mpr ⟨hd, hstmt, spec, isTypeOnly, clause, dep, name, rfl, hr, hp, hn⟩)
    exact fun hn => not_covers_none (hn ▸ hcov)

/-- The demand is the least closed one; a re-export is pruned exactly when its package lets it
and its name is not asked for; and the files dropped are out of reach of those kept. -/
theorem planNpmStaticReexports_closed (P : Program File Path) (files : List File) (entry : File)
    (extraRoots : List String)
    (hfin : ∀ sf ∈ files, ∀ pkg path, P.npmStaticPackageOfPath sf = some pkg → P.packageRootJsonPath sf pkg = some path →
      {p | Relation.ReflTransGen (DependsOn P.packages) path p}.Finite) :
    ∃ least, ∀ fuel ≥ least, ∀ rounds ≥ least, ∃ st plan,
      P.planNpmStaticReexports files fuel rounds entry extraRoots = some (st, plan) ∧
      Closed P files entry extraRoots (fun sf q => Covers (st.demanded sf) q) ∧
      (∀ R, Closed P files entry extraRoots R → ∀ sf q, Covers (st.demanded sf) q → R sf q) ∧
      (∀ sf stmt, (sf, stmt) ∈ plan.pruned ↔
        st.demanded sf ≠ none ∧ stmt ∈ P.statements sf ∧ Dropped P st.demanded sf stmt) ∧
      (∀ sf, sf ∈ plan.files ↔ sf ∈ files ∧ st.demanded sf ≠ none) ∧
      ∀ kept ∈ plan.files, ∀ sf ∈ files, sf ∉ plan.files → ¬ Relation.ReflTransGen (Edge P files plan.pruned) kept sf := by
  obtain ⟨enough, henough⟩ := exists_enough P files hfin
  obtain ⟨names, hnames⟩ := exists_names P files
  obtain ⟨hfirst, hroots⟩ := roots_step (P.roots files entry extraRoots) _
    (empty_inv : Inv P files entry extraRoots names none _) fun target ht dep heq => root_of_mem_roots (heq ▸ ht)
  refine ⟨max enough (weight files names.card (P.initial files entry extraRoots)), fun fuel hfuel rounds hrounds => ?_⟩
  have hfuel := henough fuel (le_of_max_le_left hfuel)
  obtain ⟨st, hst, hinv, hempty, hcov⟩ := processQueue_run hfuel hnames rounds _ hfirst.inv (le_of_max_le_right hrounds)
  have hroot : ∀ sf ∈ files, Root P entry extraRoots sf → Covers (st.demanded sf) none :=
    fun sf hsf h => hcov sf none (hroots _ (h.mem_roots hsf) sf hsf rfl)
  have closed := hinv.closed hempty hroot
  obtain ⟨pruned, hpruned, hmem⟩ := prune_spec st hfuel
    ((files.filter fun sf => st.demanded sf ≠ none).flatMap fun sf => (P.statements sf).map (sf, ·)) st.pureMemo hinv.memo
    (by
      intro part hpart
      obtain ⟨sf, hsf, hpart⟩ := mem_flatMap.mp hpart
      obtain ⟨stmt, -, rfl⟩ := mem_map.mp hpart
      simpa using hsf)
  have mem_pruned (sf : File) (stmt : Statement) : (sf, stmt) ∈ pruned ↔
      st.demanded sf ≠ none ∧ stmt ∈ P.statements sf ∧ Dropped P st.demanded sf stmt := by
    rw [hmem, mem_flatMap]
    constructor
    · rintro ⟨⟨f, hf, hpart⟩, hdrop⟩
      obtain ⟨stmt', hstmt, heq⟩ := mem_map.mp hpart
      cases heq
      exact ⟨by simpa using (mem_filter.mp hf).2, hstmt, hdrop⟩
    · rintro ⟨hd, hstmt, hdrop⟩
      obtain ⟨d, hd'⟩ := Option.ne_none_iff_exists'.mp hd
      exact ⟨⟨sf, mem_filter.mpr ⟨hinv.inFiles sf d hd', by simpa using hd⟩, mem_map_of_mem hstmt⟩, hdrop⟩
  have covered (sf : File) (q : Option String) (h : Covers (st.demanded sf) q) : st.demanded sf ≠ none :=
    fun hn => not_covers_none (hn ▸ h)
  have mem_files (sf : File) : sf ∈ files.filter (fun sf =>
      decide (P.npmStaticPackageOfPath sf = none) || decide (st.demanded sf ≠ none)) ↔ sf ∈ files ∧ st.demanded sf ≠ none := by
    simp only [mem_filter, Bool.or_eq_true, decide_eq_true_eq]
    constructor
    · rintro ⟨hsf, hown | hd⟩
      · exact ⟨hsf, covered sf none (hroot sf hsf (.inl hown))⟩
      · exact ⟨hsf, hd⟩
    · rintro ⟨hsf, hd⟩
      exact ⟨hsf, .inr hd⟩
  have hst : P.processQueue files fuel rounds (P.initial files entry extraRoots) = some st := hst
  have run : P.planNpmStaticReexports files fuel rounds entry extraRoots = some (st, ⟨pruned, files.filter fun sf =>
      decide (P.npmStaticPackageOfPath sf = none) || decide (st.demanded sf ≠ none)⟩) := by
    simp only [Program.planNpmStaticReexports, hst, Option.bind_some]
    rw [hpruned]
    rfl
  refine ⟨st, _, run, closed, hinv.justified, mem_pruned, mem_files, fun kept hkept sf hsf hdropped hreach => ?_⟩
  refine hdropped ((mem_files sf).mpr ⟨hsf, ?_⟩)
  clear hsf hdropped
  induction hreach with
  | refl => exact ((mem_files kept).mp hkept).2
  | tail _ hedge ih =>
    obtain ⟨q, hq⟩ := hinv.exists_covers ih
    exact edge_demanded closed mem_pruned hq hedge

/-- The project's file imports `x` of a package's index, which re-exports a namespace that
nothing asks for; it imports one file of the package with attributes. -/
private def sample : Program ℕ Unit where
  bun := false
  statements
    | 0 => [.importDeclaration (some "p") (some ⟨false, false, some (.namedImports [⟨"x", false⟩])⟩)]
    | 1 => [.exportDeclaration (some "./more.js") false (some (.namespaceExport "more"))]
    | _ => []
  calls
    | 0 => [⟨.importKeyword, [some "p/data.js", none]⟩]
    | _ => []
  getSourceFile _ := none
  resolveEdge
    | 0, "p" => some 1
    | 0, "p/data.js" => some 3
    | 1, "./more.js" => some 2
    | _, _ => none
  npmStaticPackageOfPath sf := if sf = 0 then none else some "p"
  packageRootJsonPath _ _ := some ()
  nearestPackageType _ := some "module"
  packages := ⟨fun _ => some (.object [("sideEffects", .bool false)]), fun _ _ => none⟩

theorem planNpmStaticReexports_closed_sample :
    ∃ least, ∀ fuel ≥ least, ∀ rounds ≥ least, ∃ st plan,
      sample.planNpmStaticReexports [0, 1, 2, 3] fuel rounds 0 [] = some (st, plan) ∧
      Closed sample [0, 1, 2, 3] 0 [] (fun sf q => Covers (st.demanded sf) q) ∧
      (∀ R, Closed sample [0, 1, 2, 3] 0 [] R → ∀ sf q, Covers (st.demanded sf) q → R sf q) ∧
      (∀ sf stmt, (sf, stmt) ∈ plan.pruned ↔
        st.demanded sf ≠ none ∧ stmt ∈ sample.statements sf ∧ Dropped sample st.demanded sf stmt) ∧
      (∀ sf, sf ∈ plan.files ↔ sf ∈ [0, 1, 2, 3] ∧ st.demanded sf ≠ none) ∧
      ∀ kept ∈ plan.files, ∀ sf ∈ [0, 1, 2, 3], sf ∉ plan.files →
        ¬ Relation.ReflTransGen (Edge sample [0, 1, 2, 3] plan.pruned) kept sf :=
  planNpmStaticReexports_closed sample [0, 1, 2, 3] 0 [] fun _ _ _ _ _ _ => Set.toFinite _

/-- A dynamic import with attributes is not followed: its file is dropped. -/
theorem not_every_dynamic_import :
    ∃ call ∈ sample.calls 0, call.expression = .importKeyword ∧ call.arguments.head? = some (some "p/data.js") ∧
      sample.resolveEdge 0 "p/data.js" = some 3 ∧
      ∃ st plan, sample.planNpmStaticReexports [0, 1, 2, 3] 2 4 0 [] = some (st, plan) ∧
        st.demanded 0 = some none ∧ st.demanded 3 = none ∧ plan.files = [0, 1] :=
  ⟨_, mem_cons_self, rfl, rfl, rfl, _, _, rfl, rfl, rfl, rfl⟩

end

end NpmStaticPrune
