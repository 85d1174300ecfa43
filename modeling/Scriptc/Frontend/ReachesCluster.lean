import Mathlib.Data.Fintype.Card
import Mathlib.Logic.Relation

/-!
# Reaching a cluster of modules

`makeReachesCluster` of `frontend/cycle-inert.ts`. The search cuts off at the files of its own path, and remembers the
answer of every file that it leaves. A file whose ways to the cluster all lead over the path is remembered as one that
has none (`answers_right_iff`).
-/

namespace ReachesCluster

open List Function

variable {File : Type*} [DecidableEq File]

abbrev Memo (File : Type*) := File → Option Bool

section

variable (edgesOf : File → List File) (cycleMembers : Finset File)

mutual

def walk [Fintype File] (sf : File) (stack : Finset File) (memo : Memo File) : Bool × Memo File :=
  if sf ∈ cycleMembers then (true, memo)
  else
    match memo sf with
    | some known => (known, memo)
    | none =>
      if _ : sf ∈ stack then (false, memo)
      else
        let (reaches, memo) := walkEdges (edgesOf sf) (insert sf stack) memo
        (reaches, Function.update memo sf (some reaches))
termination_by ((Finset.univ \ stack).card, 0)
decreasing_by
  refine .left _ _ (Finset.card_lt_card ⟨Finset.sdiff_subset_sdiff subset_rfl (Finset.subset_insert _ _), fun hsub => ?_⟩)
  have hmem := hsub (Finset.mem_sdiff.mpr ⟨Finset.mem_univ sf, ‹sf ∉ stack›⟩)
  exact (Finset.mem_sdiff.mp hmem).2 (Finset.mem_insert_self _ _)

/-- `some` over the imports of a file. -/
def walkEdges [Fintype File] (deps : List File) (stack : Finset File) (memo : Memo File) : Bool × Memo File :=
  match deps with
  | [] => (false, memo)
  | dep :: deps =>
    let (reaches, memo) := walk dep stack memo
    if reaches then (true, memo) else walkEdges deps stack memo
termination_by ((Finset.univ \ stack).card, deps.length + 1)

end

/-- The answers to queries that share a memo. -/
def answers [Fintype File] : List File → Memo File → List Bool
  | [], _ => []
  | sf :: files, memo =>
    let (reaches, memo) := walk edgesOf cycleMembers sf ∅ memo
    reaches :: answers files memo

/-- A path of imports leads to the cluster. -/
def Reaches (sf : File) : Prop := ∃ member ∈ cycleMembers, Relation.ReflTransGen (fun a b => b ∈ edgesOf a) sf member

/-- A path leads to the cluster that goes over no file of the stack. -/
inductive Leads (stack : Finset File) : File → Prop
  | member {sf : File} : sf ∈ cycleMembers → Leads stack sf
  | edge {sf dep : File} : sf ∉ stack → dep ∈ edgesOf sf → Leads stack dep → Leads stack sf

/-- The search of some query comes to a file. What it has passed over leads nowhere, or back to its own path. -/
inductive Comes : Finset File → File → Prop
  | query (sf : File) : Comes ∅ sf
  | edge {stack : Finset File} {sf dep : File} {before after : List File} : Comes stack sf → sf ∉ cycleMembers → sf ∉ stack →
      edgesOf sf = before ++ dep :: after → (∀ d ∈ before, d ∈ insert sf stack ∨ ¬ Reaches edgesOf cycleMembers d) →
      Comes (insert sf stack) dep

end

variable {edgesOf : File → List File} {cycleMembers stack barred : Finset File} {memo : Memo File} {sf dep : File} {deps : List File}

/-! ### Ways to the cluster -/

omit [DecidableEq File] in
theorem leads_iff : Leads edgesOf cycleMembers ∅ sf ↔ Reaches edgesOf cycleMembers sf := by
  constructor
  · intro h
    induction h with
    | member h => exact ⟨_, h, .refl⟩
    | edge _ hdep _ ih =>
      obtain ⟨member, hmember, hpath⟩ := ih
      exact ⟨member, hmember, .head hdep hpath⟩
  · rintro ⟨member, hmember, hpath⟩
    induction hpath using Relation.ReflTransGen.head_induction_on with
    | refl => exact .member hmember
    | head hdep _ ih => exact .edge (Finset.notMem_empty _) hdep ih

omit [DecidableEq File] in
theorem Leads.mono (h : Leads edgesOf cycleMembers stack sf) (hsub : barred ⊆ stack) : Leads edgesOf cycleMembers barred sf := by
  induction h with
  | member h => exact .member h
  | edge hsf hdep _ ih => exact .edge (fun hmem => hsf (hsub hmem)) hdep ih

/-- A file from which a way leads need not be passed again. -/
theorem Leads.fresh (h : Leads edgesOf cycleMembers stack sf) (hsf : sf ∉ cycleMembers) :
    ∃ dep ∈ edgesOf sf, Leads edgesOf cycleMembers (insert sf stack) dep := by
  suffices hor : ∀ file, Leads edgesOf cycleMembers stack file → Leads edgesOf cycleMembers (insert sf stack) file ∨
      ∃ dep ∈ edgesOf sf, Leads edgesOf cycleMembers (insert sf stack) dep by
    cases h with
    | member h => exact absurd h hsf
    | edge _ hdep h =>
      rcases hor _ h with hdep' | hfound
      · exact ⟨_, hdep, hdep'⟩
      · exact hfound
  intro file hfile
  induction hfile with
  | member h => exact .inl (.member h)
  | @edge file dep hfile hdep _ ih =>
    rcases ih with ih | ih
    · by_cases heq : file = sf
      · exact .inr ⟨dep, heq ▸ hdep, ih⟩
      · exact .inl (.edge (by simp [heq, hfile]) hdep ih)
    · exact .inr ih

omit [DecidableEq File] in
theorem Leads.of_mem (h : Leads edgesOf cycleMembers stack sf) (hsf : sf ∈ stack) : sf ∈ cycleMembers := by
  cases h with
  | member h => exact h
  | edge hnot => exact absurd hsf hnot

variable [Fintype File]

/-! ### The search -/

theorem walk_member (h : sf ∈ cycleMembers) : walk edgesOf cycleMembers sf stack memo = (true, memo) := by
  rw [walk, if_pos h]

theorem walk_known {known : Bool} (h : sf ∉ cycleMembers) (hmemo : memo sf = some known) :
    walk edgesOf cycleMembers sf stack memo = (known, memo) := by
  rw [walk, if_neg h, hmemo]

theorem walk_cut (h : sf ∉ cycleMembers) (hmemo : memo sf = none) (hsf : sf ∈ stack) :
    walk edgesOf cycleMembers sf stack memo = (false, memo) := by
  rw [walk, if_neg h, hmemo]
  exact dif_pos hsf

theorem walk_new (h : sf ∉ cycleMembers) (hmemo : memo sf = none) (hsf : sf ∉ stack) :
    walk edgesOf cycleMembers sf stack memo =
      ((walkEdges edgesOf cycleMembers (edgesOf sf) (insert sf stack) memo).1,
        Function.update (walkEdges edgesOf cycleMembers (edgesOf sf) (insert sf stack) memo).2 sf
          (some (walkEdges edgesOf cycleMembers (edgesOf sf) (insert sf stack) memo).1)) := by
  rw [walk, if_neg h, hmemo]
  exact dif_neg hsf

theorem walkEdges_cons : walkEdges edgesOf cycleMembers (dep :: deps) stack memo =
    if (walk edgesOf cycleMembers dep stack memo).1 then (true, (walk edgesOf cycleMembers dep stack memo).2)
    else walkEdges edgesOf cycleMembers deps stack (walk edgesOf cycleMembers dep stack memo).2 := by
  rw [walkEdges]

/-- A property of memos and answers holds of the search when it holds of what a file's own turn does. -/
theorem walk_induct {P : File → Finset File → Memo File → Bool × Memo File → Prop} {Q : List File → Finset File → Memo File → Bool × Memo File → Prop}
    (member : ∀ sf stack memo, sf ∈ cycleMembers → P sf stack memo (true, memo))
    (known : ∀ sf stack memo known, sf ∉ cycleMembers → memo sf = some known → P sf stack memo (known, memo))
    (cut : ∀ sf stack memo, sf ∉ cycleMembers → memo sf = none → sf ∈ stack → P sf stack memo (false, memo))
    (new : ∀ sf stack memo reaches memo', sf ∉ cycleMembers → memo sf = none → sf ∉ stack →
      Q (edgesOf sf) (insert sf stack) memo (reaches, memo') → P sf stack memo (reaches, Function.update memo' sf (some reaches)))
    (nil : ∀ stack memo, Q [] stack memo (false, memo))
    (found : ∀ dep deps stack memo memo', P dep stack memo (true, memo') → Q (dep :: deps) stack memo (true, memo'))
    (next : ∀ dep deps stack memo memo' result, P dep stack memo (false, memo') → Q deps stack memo' result → Q (dep :: deps) stack memo result) :
    (∀ sf stack memo, P sf stack memo (walk edgesOf cycleMembers sf stack memo)) ∧
      ∀ deps stack memo, Q deps stack memo (walkEdges edgesOf cycleMembers deps stack memo) := by
  refine walk.mutual_induct edgesOf cycleMembers _ _ ?_ ?_ ?_ ?_ ?_ ?_ ?_
  · intro sf stack memo h
    rw [walk_member h]
    exact member sf stack memo h
  · intro sf stack memo h b hmemo
    rw [walk_known h hmemo]
    exact known sf stack memo b h hmemo
  · intro sf stack memo h hmemo hsf
    rw [walk_cut h hmemo hsf]
    exact cut sf stack memo h hmemo hsf
  · intro sf stack memo h hmemo hsf reaches memo' hrun ih
    rw [hrun] at ih
    rw [walk_new h hmemo hsf, hrun]
    exact new sf stack memo reaches memo' h hmemo hsf ih
  · intro stack memo
    rw [walkEdges]
    exact nil stack memo
  · intro stack memo dep deps memo' hrun ih
    rw [hrun] at ih
    rw [walkEdges_cons, hrun, if_pos rfl]
    exact found dep deps stack memo memo' ih
  · intro stack memo dep deps reaches memo' hrun hfalse ih ihs
    rw [Bool.not_eq_true] at hfalse
    rw [hrun, hfalse] at ih
    rw [walkEdges_cons, hrun, hfalse, if_neg Bool.false_ne_true]
    exact next dep deps stack memo memo' _ ih ihs

/-- What is remembered stays. -/
theorem walk_keeps : (∀ sf stack memo file b, memo file = some b → (walk edgesOf cycleMembers sf stack memo).2 file = some b) ∧
    ∀ deps stack memo file b, memo file = some b → (walkEdges edgesOf cycleMembers deps stack memo).2 file = some b := by
  refine walk_induct (P := fun _ _ memo result => ∀ file b, memo file = some b → result.2 file = some b)
    (Q := fun _ _ memo result => ∀ file b, memo file = some b → result.2 file = some b) ?_ ?_ ?_ ?_ ?_ ?_ ?_
  · exact fun _ _ _ _ _ _ h => h
  · exact fun _ _ _ _ _ _ _ _ h => h
  · exact fun _ _ _ _ _ _ _ _ h => h
  · intro sf stack memo reaches memo' _ hmemo _ ih file b hfile
    have hne : file ≠ sf := by
      rintro rfl
      rw [hmemo] at hfile
      cases hfile
    exact (update_of_ne hne _ _).trans (ih file b hfile)
  · exact fun _ _ _ _ h => h
  · exact fun _ _ _ _ _ ih => ih
  · exact fun _ _ _ _ _ _ ih ihs file b h => ihs file b (ih file b h)

/-! ### Right answers -/

variable (edgesOf cycleMembers) in
/-- The condition: the search comes to no new file that reaches the cluster only by way of the search's own path. -/
def Clear : Prop := ∀ stack sf, Comes edgesOf cycleMembers stack sf → sf ∉ stack → Reaches edgesOf cycleMembers sf →
  Leads edgesOf cycleMembers stack sf

variable (edgesOf cycleMembers) in
/-- The answers remembered are right. -/
def Right (memo : Memo File) : Prop := ∀ sf b, memo sf = some b → (b = true ↔ Reaches edgesOf cycleMembers sf)

omit [Fintype File] in
theorem Right.update (h : Right edgesOf cycleMembers memo) {b : Bool} (hb : b = true ↔ Reaches edgesOf cycleMembers sf) :
    Right edgesOf cycleMembers (Function.update memo sf (some b)) := by
  intro file c hfile
  by_cases heq : file = sf
  · obtain rfl := heq
    rw [update_self] at hfile
    cases hfile
    exact hb
  · rw [update_of_ne heq] at hfile
    exact h file c hfile

variable (edgesOf cycleMembers) in
/-- The search has passed over nothing that matters when it comes to these imports, of the last file of its path. -/
def Passed (deps : List File) (stack : Finset File) : Prop := ∃ sf rest before, stack = insert sf rest ∧ Comes edgesOf cycleMembers rest sf ∧
  sf ∉ cycleMembers ∧ sf ∉ rest ∧ edgesOf sf = before ++ deps ∧ ∀ d ∈ before, d ∈ stack ∨ ¬ Reaches edgesOf cycleMembers d

omit [Fintype File] in
theorem Passed.comes (h : Passed edgesOf cycleMembers (dep :: deps) stack) : Comes edgesOf cycleMembers stack dep := by
  obtain ⟨sf, rest, before, rfl, hcomes, hsf, hrest, hedges, hbefore⟩ := h
  exact .edge hcomes hsf hrest hedges hbefore

omit [Fintype File] in
theorem Passed.next (h : Passed edgesOf cycleMembers (dep :: deps) stack) (hdep : dep ∈ stack ∨ ¬ Reaches edgesOf cycleMembers dep) :
    Passed edgesOf cycleMembers deps stack := by
  obtain ⟨sf, rest, before, rfl, hcomes, hsf, hrest, hedges, hbefore⟩ := h
  refine ⟨sf, rest, before ++ [dep], rfl, hcomes, hsf, hrest, by rw [hedges, append_assoc]; rfl, ?_⟩
  exact forall_mem_append.mpr ⟨hbefore, forall_mem_singleton.mpr hdep⟩

omit [Fintype File] in
/-- The answer of a file whose imports have been searched. -/
theorem reaches_iff (hclear : Clear edgesOf cycleMembers) (hcomes : Comes edgesOf cycleMembers stack sf) (hsf : sf ∉ cycleMembers)
    (hstack : sf ∉ stack) {reaches : Bool} (htrue : reaches = true → ∃ d ∈ edgesOf sf, Reaches edgesOf cycleMembers d)
    (hfalse : reaches = false → ∀ d ∈ edgesOf sf, d ∉ cycleMembers ∧ (d ∈ insert sf stack ∨ ¬ Reaches edgesOf cycleMembers d)) :
    reaches = true ↔ Reaches edgesOf cycleMembers sf := by
  constructor
  · intro h
    obtain ⟨dep, hdep, member, hmember, hpath⟩ := htrue h
    exact ⟨member, hmember, .head hdep hpath⟩
  · intro h
    by_contra hno
    obtain ⟨dep, hdep, hleads⟩ := (hclear stack sf hcomes hstack h).fresh hsf
    obtain ⟨hmember, hmem | hreach⟩ := hfalse (Bool.eq_false_iff.mpr hno) dep hdep
    · exact hmember (hleads.of_mem hmem)
    · exact hreach (leads_iff.mp (hleads.mono (Finset.empty_subset _)))

/-- Where the condition holds, the search answers right and leaves the memo so. -/
theorem walk_right (hclear : Clear edgesOf cycleMembers) :
    (∀ sf stack memo, Comes edgesOf cycleMembers stack sf → Right edgesOf cycleMembers memo →
      Right edgesOf cycleMembers (walk edgesOf cycleMembers sf stack memo).2 ∧
        ((walk edgesOf cycleMembers sf stack memo).1 = true → Reaches edgesOf cycleMembers sf) ∧
        ((walk edgesOf cycleMembers sf stack memo).1 = false → sf ∉ cycleMembers ∧ (sf ∈ stack ∨ ¬ Reaches edgesOf cycleMembers sf))) ∧
    ∀ deps stack memo, Passed edgesOf cycleMembers deps stack → Right edgesOf cycleMembers memo →
      Right edgesOf cycleMembers (walkEdges edgesOf cycleMembers deps stack memo).2 ∧
        ((walkEdges edgesOf cycleMembers deps stack memo).1 = true → ∃ d ∈ deps, Reaches edgesOf cycleMembers d) ∧
        ((walkEdges edgesOf cycleMembers deps stack memo).1 = false →
          ∀ d ∈ deps, d ∉ cycleMembers ∧ (d ∈ stack ∨ ¬ Reaches edgesOf cycleMembers d)) := by
  refine walk_induct
    (P := fun sf stack memo result => Comes edgesOf cycleMembers stack sf → Right edgesOf cycleMembers memo →
      Right edgesOf cycleMembers result.2 ∧ (result.1 = true → Reaches edgesOf cycleMembers sf) ∧
        (result.1 = false → sf ∉ cycleMembers ∧ (sf ∈ stack ∨ ¬ Reaches edgesOf cycleMembers sf)))
    (Q := fun deps stack memo result => Passed edgesOf cycleMembers deps stack → Right edgesOf cycleMembers memo →
      Right edgesOf cycleMembers result.2 ∧ (result.1 = true → ∃ d ∈ deps, Reaches edgesOf cycleMembers d) ∧
        (result.1 = false → ∀ d ∈ deps, d ∉ cycleMembers ∧ (d ∈ stack ∨ ¬ Reaches edgesOf cycleMembers d))) ?_ ?_ ?_ ?_ ?_ ?_ ?_
  · exact fun sf _ _ h _ hright => ⟨hright, fun _ => ⟨sf, h, .refl⟩, nofun⟩
  · intro sf stack memo known h hmemo _ hright
    have hknown := hright sf known hmemo
    exact ⟨hright, hknown.mp, fun hfalse => ⟨h, .inr fun hreach => by rw [hknown.mpr hreach] at hfalse; cases hfalse⟩⟩
  · exact fun sf _ _ h _ hsf _ hright => ⟨hright, nofun, fun _ => ⟨h, .inl hsf⟩⟩
  · intro sf stack memo reaches memo' h _ hsf ih hcomes hright
    obtain ⟨hright', htrue, hfalse⟩ := ih ⟨sf, stack, [], rfl, hcomes, h, hsf, rfl, forall_mem_nil _⟩ hright
    have hiff := reaches_iff hclear hcomes h hsf htrue hfalse
    exact ⟨hright'.update hiff, hiff.mp, fun hno => ⟨h, .inr fun hreach => by rw [hiff.mpr hreach] at hno; cases hno⟩⟩
  · exact fun _ _ _ hright => ⟨hright, nofun, fun _ => forall_mem_nil _⟩
  · intro dep deps stack memo memo' ih hpassed hright
    obtain ⟨hright', htrue, -⟩ := ih hpassed.comes hright
    exact ⟨hright', fun _ => ⟨dep, mem_cons_self, htrue rfl⟩, nofun⟩
  · intro dep deps stack memo memo' result ih ihs hpassed hright
    obtain ⟨hright', -, hfalse⟩ := ih hpassed.comes hright
    obtain ⟨hright'', htrue, hrest⟩ := ihs (hpassed.next (hfalse rfl).2) hright'
    refine ⟨hright'', fun h => ?_, fun h => forall_mem_cons.mpr ⟨hfalse rfl, hrest h⟩⟩
    obtain ⟨d, hd, hreach⟩ := htrue h
    exact ⟨d, mem_cons_of_mem _ hd, hreach⟩

theorem answers_right (hclear : Clear edgesOf cycleMembers) (files : List File) (hright : Right edgesOf cycleMembers memo) :
    List.Forall₂ (fun sf answer => answer = true ↔ Reaches edgesOf cycleMembers sf) files (answers edgesOf cycleMembers files memo) := by
  induction files generalizing memo with
  | nil => exact .nil
  | cons sf files ih =>
    obtain ⟨hright', htrue, hfalse⟩ := (walk_right hclear).1 sf ∅ memo (.query sf) hright
    refine .cons ⟨htrue, fun hreach => ?_⟩ (ih hright')
    by_contra hno
    obtain ⟨-, hmem | hnot⟩ := hfalse (Bool.eq_false_iff.mpr hno)
    · exact absurd hmem (Finset.notMem_empty sf)
    · exact hnot hreach

/-! ### Wrong answers -/

variable (edgesOf cycleMembers) in
/-- All that is remembered are files from which every way leads over these. -/
def Quiet (barred : Finset File) (memo : Memo File) : Prop := ∀ sf b, memo sf = some b → b = false ∧ ¬ Leads edgesOf cycleMembers barred sf

theorem walk_quiet :
    (∀ sf stack memo, barred ⊆ stack → ¬ Leads edgesOf cycleMembers barred sf → Quiet edgesOf cycleMembers barred memo →
      (walk edgesOf cycleMembers sf stack memo).1 = false ∧ Quiet edgesOf cycleMembers barred (walk edgesOf cycleMembers sf stack memo).2) ∧
    ∀ deps stack memo, barred ⊆ stack → (∀ d ∈ deps, ¬ Leads edgesOf cycleMembers barred d) → Quiet edgesOf cycleMembers barred memo →
      (walkEdges edgesOf cycleMembers deps stack memo).1 = false ∧
        Quiet edgesOf cycleMembers barred (walkEdges edgesOf cycleMembers deps stack memo).2 := by
  refine walk_induct
    (P := fun sf stack memo result => barred ⊆ stack → ¬ Leads edgesOf cycleMembers barred sf → Quiet edgesOf cycleMembers barred memo →
      result.1 = false ∧ Quiet edgesOf cycleMembers barred result.2)
    (Q := fun deps stack memo result => barred ⊆ stack → (∀ d ∈ deps, ¬ Leads edgesOf cycleMembers barred d) →
      Quiet edgesOf cycleMembers barred memo → result.1 = false ∧ Quiet edgesOf cycleMembers barred result.2) ?_ ?_ ?_ ?_ ?_ ?_ ?_
  · exact fun sf _ _ h _ hleads _ => absurd (.member h) hleads
  · exact fun sf _ _ known _ hmemo _ _ hquiet => ⟨(hquiet sf known hmemo).1, hquiet⟩
  · exact fun _ _ _ _ _ _ _ _ hquiet => ⟨rfl, hquiet⟩
  · intro sf stack memo reaches memo' _ _ hsf ih hover hleads hquiet
    obtain ⟨hfalse, hquiet'⟩ := ih (hover.trans (Finset.subset_insert _ _))
      (fun d hd hlead => hleads (.edge (fun hmem => hsf (hover hmem)) hd hlead)) hquiet
    refine ⟨hfalse, fun file b hfile => ?_⟩
    dsimp only at hfile hfalse
    by_cases heq : file = sf
    · obtain rfl := heq
      rw [update_self] at hfile
      cases hfile
      exact ⟨hfalse, hleads⟩
    · rw [update_of_ne heq] at hfile
      exact hquiet' file b hfile
  · exact fun _ _ _ _ hquiet => ⟨rfl, hquiet⟩
  · intro dep deps stack memo memo' ih hover hdeps hquiet
    cases (ih hover (hdeps dep mem_cons_self) hquiet).1
  · intro dep deps stack memo memo' result ih ihs hover hdeps hquiet
    obtain ⟨hdep, hrest⟩ := forall_mem_cons.mp hdeps
    exact ihs hover hrest (ih hover hdep hquiet).2

omit [Fintype File] in
theorem Comes.not_member (h : Comes edgesOf cycleMembers stack sf) : ∀ d ∈ stack, d ∉ cycleMembers := by
  induction h with
  | query => exact fun d hd => absurd hd (Finset.notMem_empty d)
  | edge _ hsf _ _ _ ih => exact fun d hd => (Finset.mem_insert.mp hd).elim (fun heq => heq ▸ hsf) (ih d)

/-- The search passes over imports that lead nowhere or back to its own path. -/
theorem walkEdges_passes (hstack : ∀ d ∈ stack, d ∉ cycleMembers) {before : List File}
    (hbefore : ∀ d ∈ before, d ∈ stack ∨ ¬ Reaches edgesOf cycleMembers d) (hquiet : Quiet edgesOf cycleMembers ∅ memo) :
    ∃ memo', Quiet edgesOf cycleMembers ∅ memo' ∧
      ∀ deps, walkEdges edgesOf cycleMembers (before ++ deps) stack memo = walkEdges edgesOf cycleMembers deps stack memo' := by
  induction before generalizing memo with
  | nil => exact ⟨memo, hquiet, fun _ => rfl⟩
  | cons d before ih =>
    obtain ⟨hd, hrest⟩ := forall_mem_cons.mp hbefore
    have hfirst : (walk edgesOf cycleMembers d stack memo).1 = false ∧ Quiet edgesOf cycleMembers ∅ (walk edgesOf cycleMembers d stack memo).2 := by
      rcases hd with hd | hd
      · cases hmemo : memo d with
        | none =>
          rw [walk_cut (hstack d hd) hmemo hd]
          exact ⟨rfl, hquiet⟩
        | some known =>
          rw [walk_known (hstack d hd) hmemo]
          exact ⟨(hquiet d known hmemo).1, hquiet⟩
      · exact walk_quiet.1 d stack memo (Finset.empty_subset _) (fun hleads => hd (leads_iff.mp hleads)) hquiet
    obtain ⟨memo', hquiet', hnext⟩ := ih hrest hfirst.2
    refine ⟨memo', hquiet', fun deps => ?_⟩
    rw [cons_append, walkEdges_cons, hfirst.1, if_neg Bool.false_ne_true, hnext]

/-- Some query's search does come to the file, and what it remembers there is remembered when it is over. -/
theorem Comes.called (h : Comes edgesOf cycleMembers stack sf) (hreach : Reaches edgesOf cycleMembers sf) :
    ∃ root memo, Quiet edgesOf cycleMembers ∅ memo ∧ ∀ file b, file ∉ stack → (walk edgesOf cycleMembers sf stack memo).2 file = some b →
      (walk edgesOf cycleMembers root ∅ fun _ => none).2 file = some b := by
  induction h with
  | query sf => exact ⟨sf, fun _ => none, nofun, fun _ _ _ h => h⟩
  | @edge stack sf dep before after hcomes hsf hstack hedges hbefore ih =>
    obtain ⟨member, hmember, hpath⟩ := hreach
    have hreach' : Reaches edgesOf cycleMembers sf := ⟨member, hmember, .head (by simp [hedges]) hpath⟩
    obtain ⟨root, memo, hquiet, hkeeps⟩ := ih hreach'
    have hmemo : memo sf = none := by
      cases hmemo : memo sf with
      | none => rfl
      | some known => exact absurd (leads_iff.mpr hreach') (hquiet sf known hmemo).2
    obtain ⟨memo', hquiet', hnext⟩ := walkEdges_passes (Comes.edge hcomes hsf hstack hedges hbefore).not_member hbefore hquiet
    refine ⟨root, memo', hquiet', fun file b hfile hb => hkeeps file b (fun hmem => hfile (Finset.mem_insert_of_mem hmem)) ?_⟩
    have hne : file ≠ sf := fun heq => hfile (heq ▸ Finset.mem_insert_self _ _)
    rw [walk_new hsf hmemo hstack]
    dsimp only
    rw [update_of_ne hne, hedges, hnext, walkEdges_cons]
    split_ifs
    · exact hb
    · exact walk_keeps.2 _ _ _ _ _ hb

theorem clear_of_answers (h : ∀ files, List.Forall₂ (fun sf answer => answer = true ↔ Reaches edgesOf cycleMembers sf) files
    (answers edgesOf cycleMembers files fun _ => none)) : Clear edgesOf cycleMembers := by
  intro stack sf hcomes hstack hreach
  by_contra hleads
  obtain ⟨root, memo, hquiet, hkeeps⟩ := hcomes.called hreach
  have hsf : sf ∉ cycleMembers := fun hmember => hleads (.member hmember)
  have hmemo : memo sf = none := by
    cases hmemo : memo sf with
    | none => rfl
    | some known => exact absurd (leads_iff.mpr hreach) (hquiet sf known hmemo).2
  have hover : Quiet edgesOf cycleMembers stack memo :=
    fun file b hb => ⟨(hquiet file b hb).1, fun hlead => (hquiet file b hb).2 (hlead.mono (Finset.empty_subset _))⟩
  obtain ⟨hfalse, -⟩ := walk_quiet.1 sf stack memo subset_rfl hleads hover
  have hwrong : (walk edgesOf cycleMembers sf stack memo).2 sf = some false := by
    rw [walk_new hsf hmemo hstack] at hfalse ⊢
    dsimp only at hfalse ⊢
    rw [update_self, hfalse]
  have hknown := hkeeps sf false hstack hwrong
  have htwo : answers edgesOf cycleMembers [root, sf] (fun _ => none) =
      [(walk edgesOf cycleMembers root ∅ fun _ => none).1, false] := by
    simp only [answers, walk_known hsf hknown]
  have hanswers := h [root, sf]
  rw [htwo, forall₂_cons, forall₂_cons] at hanswers
  exact absurd (hanswers.2.1.mpr hreach) Bool.false_ne_true

/-- **Reachability.** The answers are right in every sequence of queries when no search comes to a new file that reaches the
cluster only by way of the search's own path, and in some sequence one is wrong otherwise. -/
theorem answers_right_iff : (∀ files, List.Forall₂ (fun sf answer => answer = true ↔ Reaches edgesOf cycleMembers sf) files
    (answers edgesOf cycleMembers files fun _ => none)) ↔ Clear edgesOf cycleMembers :=
  ⟨clear_of_answers, fun hclear files => answers_right hclear files nofun⟩

/-- `0` imports `1` and then the member `2`, and `1` imports `0`. -/
def backEdge : Fin 3 → List (Fin 3)
  | 0 => [1, 2]
  | 1 => [0]
  | 2 => []

theorem answers_wrong : ¬ List.Forall₂ (fun sf answer => answer = true ↔ Reaches backEdge {2} sf) [0, 1]
    (answers backEdge {2} [0, 1] fun _ => none) := by
  have hanswers : answers backEdge {2} [0, 1] (fun _ => none) = [true, false] := by
    simp [answers, walk, walkEdges, backEdge]
  have hreach : Reaches backEdge {2} 1 := ⟨2, by decide, @Relation.ReflTransGen.head _ _ 1 0 2 (by decide) (.single (by decide))⟩
  rw [hanswers, forall₂_cons, forall₂_cons]
  exact fun h => absurd (h.2.1.mpr hreach) Bool.false_ne_true

end ReachesCluster
