import Scriptc.Runtime.ScrPathAgree

/-!
# Laws of the posix paths

What normalizing leaves behind, that it leaves nothing to a second time, and that a relative path leads
from its source to its target.
-/

namespace Scriptc.PosixPath

open Segments List

abbrev parent : Text := [dot, dot]

/-! ### Canonical parts -/

/-- The parts of a normalized path: each `..` comes before all other parts, and an absolute path has
none. -/
structure Canonical (absolute : Bool) (parts : List Text) : Prop where
  proper : Proper slash parts
  not_dot : [dot] ∉ parts
  leading : ∃ n rest, parts = replicate n parent ++ rest ∧ parent ∉ rest ∧ (absolute = true → n = 0)

variable {absolute : Bool} {parts : List Text} {part : Text}

theorem pushPart_name (hne : part ≠ []) (hdot : part ≠ [dot]) (hparent : part ≠ parent) :
    pushPart absolute parts part = parts ++ [part] := by
  rw [pushPart, if_neg (not_or_intro hne hdot), if_neg hparent]

theorem pushPart_parent :
    pushPart absolute parts parent =
      if parts.getLast?.any (· ≠ parent) then parts.dropLast else if !absolute then parts ++ [parent] else parts := by
  rw [pushPart, if_neg (by decide), if_pos rfl]

/-- A `..` goes with the last part, if that is a name. -/
theorem pushPart_pop (hlast : part ≠ parent) : pushPart absolute (parts ++ [part]) parent = parts := by
  rw [pushPart_parent, if_pos (by simpa using hlast), dropLast_concat]

theorem pushPart_above (n : ℕ) : pushPart false (replicate n parent) parent = replicate n parent ++ [parent] := by
  rw [pushPart_parent, if_neg, if_pos Bool.not_false]
  cases n with
  | zero => simp
  | succ n => simp [replicate_succ']

theorem leading_pushPart {n : ℕ} {rest : List Text} (hrest : parent ∉ rest) (hn : absolute = true → n = 0) (part : Text) :
    ∃ n' rest', pushPart absolute (replicate n parent ++ rest) part = replicate n' parent ++ rest' ∧
      parent ∉ rest' ∧ (absolute = true → n' = 0) := by
  by_cases hskip : part = [] ∨ part = [dot]
  · exact ⟨n, rest, if_pos hskip, hrest, hn⟩
  obtain ⟨hne, hdot⟩ := not_or.mp hskip
  by_cases hparent : part = parent
  · subst hparent
    rcases eq_nil_or_concat' rest with rfl | ⟨init, last, rfl⟩
    · rw [append_nil]
      cases absolute with
      | false => exact ⟨n + 1, [], by rw [pushPart_above, replicate_succ', append_nil], not_mem_nil, nofun⟩
      | true =>
        obtain rfl := hn rfl
        exact ⟨0, [], rfl, not_mem_nil, fun _ => rfl⟩
    · rw [mem_append, not_or] at hrest
      rw [← append_assoc, pushPart_pop fun h => hrest.2 (by rw [h]; exact mem_singleton.mpr rfl)]
      exact ⟨n, init, rfl, hrest.1, hn⟩
  · rw [pushPart_name hne hdot hparent, append_assoc]
    refine ⟨n, rest ++ [part], rfl, ?_, hn⟩
    rw [mem_append, mem_singleton, not_or]
    exact ⟨hrest, Ne.symm hparent⟩

theorem not_dot_pushPart (h : [dot] ∉ parts) (part : Text) : [dot] ∉ pushPart absolute parts part := by
  rw [pushPart]
  split_ifs with hskip
  · exact h
  · exact fun hm => h (dropLast_subset parts hm)
  · rename_i hparent _ _
    rw [hparent, mem_append, not_or]
    exact ⟨h, by decide⟩
  · exact h
  · simp only [mem_append, mem_singleton, not_or]
    exact ⟨h, fun heq => hskip (.inr heq.symm)⟩

theorem canonical_partsOf (absolute : Bool) (path : Text) : Canonical absolute (partsOf false absolute path) := by
  have hfold : ∀ (segments parts : List Text), [dot] ∉ parts →
      (∃ n rest, parts = replicate n parent ++ rest ∧ parent ∉ rest ∧ (absolute = true → n = 0)) →
      [dot] ∉ segments.foldl (pushPart absolute) parts ∧
      ∃ n rest, segments.foldl (pushPart absolute) parts = replicate n parent ++ rest ∧ parent ∉ rest ∧
        (absolute = true → n = 0) := by
    intro segments
    induction segments with
    | nil => exact fun parts hdot hl => ⟨hdot, hl⟩
    | cons part segments ih =>
      rintro parts hdot ⟨n, rest, rfl, hrest, hn⟩
      exact ih _ (not_dot_pushPart hdot part) (leading_pushPart hrest hn part)
  obtain ⟨hdot, hleading⟩ := hfold (path.splitOn slash) [] not_mem_nil ⟨0, [], rfl, not_mem_nil, fun _ => rfl⟩
  rw [← partsOf_posix] at hdot hleading
  exact ⟨proper_posix absolute path, hdot, hleading⟩

/-- Names are pushed as they are. -/
theorem foldl_names {names : List Text} (h : ∀ part ∈ names, part ≠ [] ∧ part ≠ [dot] ∧ part ≠ parent) (parts : List Text) :
    names.foldl (pushPart absolute) parts = parts ++ names := by
  induction names generalizing parts with
  | nil => exact (append_nil parts).symm
  | cons part names ih =>
    obtain ⟨⟨hne, hdot, hparent⟩, h⟩ := forall_mem_cons.mp h
    rw [foldl_cons, pushPart_name hne hdot hparent, ih h, append_assoc, singleton_append]

theorem Canonical.names (h : Canonical absolute parts) {init names : List Text} (hparts : parts = init ++ names) (hparent : parent ∉ names) :
    ∀ part ∈ names, part ≠ [] ∧ part ≠ [dot] ∧ part ≠ parent := by
  intro part hpart
  have hmem : part ∈ parts := hparts ▸ mem_append_right init hpart
  exact ⟨(h.proper part hmem).1, fun heq => h.not_dot (heq ▸ hmem), fun heq => hparent (heq ▸ hpart)⟩

/-- Canonical parts are pushed as they are. -/
theorem Canonical.foldl_pushPart (h : Canonical absolute parts) : parts.foldl (pushPart absolute) [] = parts := by
  obtain ⟨n, rest, hparts, hrest, hn⟩ := h.leading
  have hparents : (replicate n parent).foldl (pushPart absolute) [] = replicate n parent := by
    cases absolute with
    | true => rw [hn rfl]; rfl
    | false =>
      clear hparts hn h
      induction n with
      | zero => rfl
      | succ n ih => rw [replicate_succ', foldl_append, ih, foldl_cons, foldl_nil, pushPart_above]
  rw [hparts, foldl_append, hparents, foldl_names (h.names hparts hrest)]

theorem Canonical.not_parent (h : Canonical true parts) : parent ∉ parts := by
  obtain ⟨n, rest, rfl, hrest, hn⟩ := h.leading
  rwa [hn rfl]

/-! ### Normalized paths -/

/-- A path as it is written from its parts. -/
def spell (absolute trailing : Bool) (parts : List Text) : Text :=
  let result := if parts = [] ∧ !absolute then [dot] else text slash parts
  let result := if trailing ∧ result ≠ [] then result ++ [slash] else result
  if absolute then slash :: result else result

theorem normalizePosix_spell {path : Text} (h : path ≠ []) :
    normalizePosix path = spell (path.head? = some slash) (path.getLast? = some slash)
      (partsOf false (path.head? = some slash) path) := by
  have hnil := (proper_posix (path.head? = some slash) path).text_eq_nil
  have hslash := text_ne_slash (path.head? = some slash) path
  rw [normalizePosix_eq h, spell]
  generalize decide (path.head? = some slash) = absolute at hnil hslash ⊢
  generalize decide (path.getLast? = some slash) = trailing
  by_cases hparts : partsOf false absolute path = []
  · have hdot : dot ≠ slash := by decide
    cases absolute <;> cases trailing <;> simp [hparts, hdot]
  · have htext : text slash (partsOf false absolute path) ≠ [] := mt hnil.mp hparts
    simp only [hparts, htext, false_and, if_false, hslash, ne_eq, not_false_eq_true, and_true]

/-- With some parts, a path is the parts between a slash before and one after. -/
theorem spell_parts (absolute trailing : Bool) (h : Proper slash parts) (hne : parts ≠ []) :
    spell absolute trailing parts = (if absolute then [slash] else []) ++ text slash parts ++ if trailing then [slash] else [] := by
  have htext : text slash parts ≠ [] := mt h.text_eq_nil.mp hne
  cases absolute <;> cases trailing <;> simp [spell, hne, htext]

theorem splitOn_spell (absolute trailing : Bool) (h : Proper slash parts) (hne : parts ≠ []) :
    (spell absolute trailing parts).splitOn slash = (if absolute then [[]] else []) ++ parts ++ if trailing then [[]] else [] := by
  have hsplit : (text slash parts).splitOn slash = parts := splitOn_intercalate slash (fun s hs => (h s hs).2) hne
  have hlast : (text slash parts ++ if trailing then [slash] else []).splitOn slash = parts ++ if trailing then [[]] else [] := by
    cases trailing with
    | false => simpa using hsplit
    | true => rw [if_pos rfl, if_pos rfl, splitOn_append_cons_self, hsplit, splitOn_nil]
  rw [spell_parts absolute trailing h hne, append_assoc, append_assoc]
  cases absolute with
  | false => exact hlast
  | true =>
    have hcons := splitOn_append_cons_self (a := slash) [] (text slash parts ++ if trailing then [slash] else [])
    rw [hlast, splitOn_nil] at hcons
    exact hcons

/-- Normalizing a canonical path changes nothing. -/
theorem normalizePosix_canonical {trailing : Bool} (h : Canonical absolute parts) :
    normalizePosix (spell absolute trailing parts) = spell absolute trailing parts := by
  by_cases hparts : parts = []
  · subst hparts
    cases absolute <;> cases trailing <;> decide
  have hspell := spell_parts absolute trailing h.proper hparts
  have htext : text slash parts ≠ [] := mt h.proper.text_eq_nil.mp hparts
  have hne : spell absolute trailing parts ≠ [] := by
    rw [hspell]
    simp [htext]
  have hhead : decide ((spell absolute trailing parts).head? = some slash) = absolute := by
    rw [hspell]
    cases absolute with
    | true => rfl
    | false =>
      have := h.proper.head_ne
      rw [decide_eq_false_iff_not]
      rwa [if_neg Bool.false_ne_true, nil_append, List.head?_append_of_ne_nil _ htext]
  have hlast : decide ((spell absolute trailing parts).getLast? = some slash) = trailing := by
    rw [hspell]
    cases trailing with
    | true => simp
    | false =>
      have := h.proper.getLast_ne
      rw [decide_eq_false_iff_not]
      rwa [if_neg Bool.false_ne_true, append_nil, getLast?_append_of_ne_nil _ htext]
  have hpartsOf : partsOf false absolute (spell absolute trailing parts) = parts := by
    rw [partsOf_posix, splitOn_spell absolute trailing h.proper hparts, foldl_append, foldl_append]
    have hfirst : (if absolute then [[]] else []).foldl (pushPart absolute) [] = [] := by cases absolute <;> rfl
    rw [hfirst, h.foldl_pushPart]
    cases trailing with
    | true => exact pushPart_nil absolute parts
    | false => rfl
  rw [normalizePosix_spell hne, hhead, hlast, hpartsOf]

/-- What a normalized path looks like, but for the two that stand for the working directory: no segment
is `.`, no inner segment is empty, and each `..` is among the first segments of a relative path. -/
structure Normal (path : Text) : Prop where
  dots : [dot] ∈ path.splitOn slash → path = [dot] ∨ path = [dot, slash]
  inner : [] ∉ (path.splitOn slash).tail.dropLast
  parents : ∃ n rest, path.splitOn slash = replicate n parent ++ rest ∧ parent ∉ rest ∧ (path.head? = some slash → n = 0)

theorem normal_spell {trailing : Bool} (h : Canonical absolute parts) : Normal (spell absolute trailing parts) := by
  by_cases hparts : parts = []
  · subst hparts
    cases absolute <;> cases trailing <;> exact ⟨by decide, by decide, 0, _, rfl, by decide, fun _ => rfl⟩
  have hsplit := splitOn_spell absolute trailing h.proper hparts
  obtain ⟨n, rest, hrest, hparent, hn⟩ := h.leading
  have htrail : ∀ part : Text, part ≠ [] → part ∉ (if trailing then [[]] else []) := by
    intro part hne
    cases trailing <;> simp [hne]
  refine ⟨fun hmem => ?_, ?_, ?_⟩
  · rw [hsplit, mem_append, mem_append] at hmem
    rcases hmem with (hmem | hmem) | hmem
    · cases absolute <;> simp at hmem
    · exact absurd hmem h.not_dot
    · exact absurd hmem (htrail _ (by decide))
  · have hproper : [] ∉ parts := fun hmem => (h.proper [] hmem).1 rfl
    have hlast : ∀ ss : List Text, [] ∉ ss → [] ∉ (ss ++ if trailing then [[]] else []).dropLast := by
      intro ss hss
      cases trailing with
      | true => rwa [if_pos rfl, dropLast_concat]
      | false =>
        rw [if_neg Bool.false_ne_true, append_nil]
        exact fun hmem => hss (dropLast_subset ss hmem)
    rw [hsplit]
    cases absolute with
    | true => exact hlast parts hproper
    | false =>
      rw [if_neg Bool.false_ne_true, nil_append, tail_append_of_ne_nil hparts]
      exact hlast _ fun hmem => hproper (mem_of_mem_tail hmem)
  · rw [hsplit]
    cases absolute with
    | true =>
      refine ⟨0, _, (nil_append _).symm, ?_, fun _ => rfl⟩
      simp only [mem_append, not_or]
      exact ⟨⟨by decide, h.not_parent⟩, htrail _ (by decide)⟩
    | false =>
      refine ⟨n, rest ++ if trailing then [[]] else [], by simp [hrest], ?_, fun hhead => ?_⟩
      · rw [mem_append, not_or]
        exact ⟨hparent, htrail _ (by decide)⟩
      · have htext : text slash parts ≠ [] := mt h.proper.text_eq_nil.mp hparts
        rw [spell_parts _ _ h.proper hparts, if_neg Bool.false_ne_true, nil_append, List.head?_append_of_ne_nil _ htext] at hhead
        exact absurd hhead h.proper.head_ne

theorem normal_normalizePosix (path : Text) : Normal (normalizePosix path) := by
  by_cases hpath : path = []
  · subst hpath
    exact ⟨by decide, by decide, 0, _, rfl, by decide, fun _ => rfl⟩
  · rw [normalizePosix_spell hpath]
    exact normal_spell (canonical_partsOf _ path)

theorem normalizePosix_idem (path : Text) : normalizePosix (normalizePosix path) = normalizePosix path := by
  by_cases hpath : path = []
  · subst hpath
    decide
  · rw [normalizePosix_spell hpath, normalizePosix_canonical (canonical_partsOf _ path)]

/-! ### From one path to another -/

/-- The way from some parts to others climbs over what the first do not share and goes down the rest. -/
theorem exists_climb (fs ts : List Text) : ∃ cs us vs, fs = cs ++ us ∧ ts = cs ++ vs ∧
    climbText fs ts = text slash (replicate us.length parent ++ vs) := by
  obtain ⟨cs, us, vs, rfl, rfl, hparts⟩ := exists_parting fs ts
  refine ⟨cs, us, vs, rfl, rfl, climbText_append cs ?_⟩
  rcases hparts with rfl | rfl | ⟨x, y, us, vs, rfl, rfl, hxy⟩
  · rfl
  · cases us <;> rfl
  · exact if_neg hxy

theorem foldl_climb (cs : List Text) {us : List Text} (h : parent ∉ us) :
    (replicate us.length parent).foldl (pushPart true) (cs ++ us) = cs := by
  induction us using reverseRecOn with
  | nil => simp
  | append_singleton us u ih =>
    rw [mem_append, mem_singleton, not_or] at h
    rw [length_append, length_singleton, replicate_succ, foldl_cons, ← append_assoc,
      pushPart_pop (Ne.symm h.2), ih h.1]

/-- What stands before an argument that is joined on. -/
theorem combine_append (inputs : List Text) {combined : Text} (h : combined ≠ []) :
    combine inputs combined = if combine inputs [] = [] then combined else combine inputs [] ++ slash :: combined := by
  induction inputs generalizing combined with
  | nil => rfl
  | cons input inputs ih =>
    by_cases hinput : input = []
    · rw [combine, if_pos hinput, combine, if_pos hinput, ih h]
    · rw [combine_cons hinput, combine_cons hinput, if_neg h, if_pos rfl]
      by_cases hslash : input.head? = some slash
      · rw [if_pos hslash, if_pos hslash, if_neg hinput]
      · rw [if_neg hslash, if_neg hslash, ih hinput, ih (by simp)]
        by_cases hnil : combine inputs [] = []
        · rw [if_pos hnil, if_pos hnil, if_neg hinput]
        · rw [if_neg hnil, if_neg hnil, if_neg (by simp), append_assoc, cons_append]

theorem resolvedOf_climb {cwd : Text} (hcwd : cwd.head? = some slash) (source target : Text) :
    resolvedOf cwd [source, climbText (resolvedOf cwd [source]) (resolvedOf cwd [target])] = resolvedOf cwd [target] := by
  have hsource : Canonical true (resolvedOf cwd [source]) := canonical_partsOf true _
  have htarget : Canonical true (resolvedOf cwd [target]) := canonical_partsOf true _
  obtain ⟨cs, us, vs, hfs, hts, hclimb⟩ := exists_climb (resolvedOf cwd [source]) (resolvedOf cwd [target])
  have hus : parent ∉ us := fun hm => hsource.not_parent (hfs ▸ mem_append_right cs hm)
  have hvs : parent ∉ vs := fun hm => htarget.not_parent (hts ▸ mem_append_right cs hm)
  have hway : Proper slash (replicate us.length parent ++ vs) := by
    refine Proper.append (fun s hs => ?_) (hts ▸ htarget.proper).of_append.2
    rw [(mem_replicate.mp hs).2]
    exact ⟨by decide, by decide⟩
  rw [hclimb]
  generalize hr : text slash (replicate us.length parent ++ vs) = rel
  have hargs : (cwd :: [source, rel]).reverse = rel :: [source, cwd] := rfl
  by_cases hway' : replicate us.length parent ++ vs = []
  · obtain ⟨hrep, rfl⟩ := append_eq_nil_iff.mp hway'
    obtain rfl : us = [] := length_eq_zero_iff.mp (by simpa using hrep)
    have hnil : rel = [] := hr.symm
    have hskip : combine (rel :: [source, cwd]) [] = combine [source, cwd] [] := if_pos hnil
    have heq : resolvedOf cwd [source] = resolvedOf cwd [target] := hfs.trans hts.symm
    rw [resolvedOf, hargs, hskip, ← heq]
    rfl
  · have hne : rel ≠ [] := hr ▸ mt hway.text_eq_nil.mp hway'
    have hhead : rel.head? ≠ some slash := hr ▸ hway.head_ne
    have hbase : combine [source, cwd] [] ≠ [] := by
      have := head_combine hcwd [source] []
      rintro hnil
      rw [singleton_append, hnil] at this
      simp at this
    have hsplit : rel.splitOn slash = replicate us.length parent ++ vs := by
      rw [← hr]
      exact splitOn_intercalate slash (fun s hs => (hway s hs).2) hway'
    have hparts : ((combine [source, cwd] []).splitOn slash).foldl (pushPart true) [] = cs ++ us := by
      rw [← partsOf_posix, ← hfs]
      rfl
    rw [resolvedOf, hargs, combine_cons hne, if_neg hhead, if_pos rfl, combine_append _ hne, if_neg hbase, partsOf_posix,
      splitOn_append_cons_self, foldl_append, hparts, hsplit, foldl_append, foldl_climb cs hus,
      foldl_names (htarget.names hts hvs), hts]

/-! ### Results as strings -/

/-- `JsString::from` of a `String`. -/
def JsString.ofText (text : Text) : JsString := .utf8 ((fromUtf8 text).getD [])

/-- Bytes that characters are written with. -/
def Spelled (t : Text) : Prop := ∃ cs, utf8.text cs = t

theorem toUtf8Lossy_ofText {t : Text} (h : Spelled t) : (JsString.ofText t).toUtf8Lossy = t := by
  obtain ⟨cs, rfl⟩ := h
  rw [JsString.ofText, JsString.toUtf8Lossy, fromUtf8_text, Option.getD_some]

theorem spelled_toUtf8Lossy (s : JsString) : Spelled s.toUtf8Lossy := by
  cases s with
  | utf8 text => exact ⟨text, rfl⟩
  | utf16 units => exact ⟨_, rfl⟩

theorem Spelled.append {t u : Text} (ht : Spelled t) (hu : Spelled u) : Spelled (t ++ u) := by
  obtain ⟨cs, rfl⟩ := ht
  obtain ⟨ds, rfl⟩ := hu
  exact ⟨cs ++ ds, Coding.text_append utf8 cs ds⟩

theorem spelled_slash : Spelled [slash] := ⟨['/'], rfl⟩

theorem spelled_dot : Spelled [dot] := ⟨['.'], rfl⟩

theorem Spelled.slash_append {t u : Text} (ht : Spelled t) (hu : Spelled u) : Spelled (t ++ slash :: u) :=
  ht.append (spelled_slash.append hu)

theorem Spelled.text {ss : List Text} (h : ∀ s ∈ ss, Spelled s) : Spelled (text slash ss) := by
  induction ss with
  | nil => exact ⟨[], rfl⟩
  | cons s ss ih =>
    obtain ⟨hs, hss⟩ := forall_mem_cons.mp h
    by_cases hnil : ss = []
    · rwa [hnil, text_singleton]
    · rw [text_cons hnil]
      exact hs.slash_append (ih hss)

/-- Only the slash has the byte of a slash. -/
theorem slash_mem_code {c : Char} (h : slash ∈ utf8.code c) : c = '/' := by
  have hbytes := bytes8_code c
  have hslash : (slash : UInt8).toNat = 47 := rfl
  apply char_eq
  show c.toNat = 47
  generalize c.toNat = n at hbytes
  generalize utf8.code c = bytes at hbytes h
  cases hbytes with
  | one ha _ =>
    rw [mem_singleton.mp h] at hslash
    omega
  | two ha hb _ _ =>
    simp only [mem_cons, not_mem_nil, or_false] at h
    rcases h with h | h <;> rw [h] at hslash <;> omega
  | three ha hb hc _ _ =>
    simp only [mem_cons, not_mem_nil, or_false] at h
    rcases h with h | h | h <;> rw [h] at hslash <;> omega
  | four ha hb hc hd _ _ =>
    simp only [mem_cons, not_mem_nil, or_false] at h
    rcases h with h | h | h | h <;> rw [h] at hslash <;> omega

theorem Spelled.splitOn {t : Text} (h : Spelled t) : ∀ s ∈ t.splitOn slash, Spelled s := by
  obtain ⟨cs, rfl⟩ := h
  induction cs with
  | nil =>
    intro s hs
    exact ⟨[], (mem_singleton.mp hs).symm⟩
  | cons c cs ih =>
    rw [Coding.text_cons]
    by_cases hc : c = '/'
    · subst hc
      have hcons := splitOn_append_cons_self (a := slash) [] (utf8.text cs)
      intro s hs
      rw [show utf8.code '/' ++ utf8.text cs = [] ++ slash :: utf8.text cs from rfl, hcons, splitOn_nil] at hs
      rcases mem_append.mp hs with hs | hs
      · exact ⟨[], (mem_singleton.mp hs).symm⟩
      · exact ih s hs
    · have hcode : slash ∉ utf8.code c := mt slash_mem_code hc
      have hsplit : (utf8.code c ++ utf8.text cs).splitOn slash = ((utf8.text cs).splitOn slash).modifyHead (utf8.code c ++ ·) := by
        generalize utf8.code c = code at hcode
        induction code with
        | nil => exact (modifyHead_nil _).symm
        | cons b code ihc =>
          rw [mem_cons, not_or] at hcode
          rw [cons_append, splitOn_cons_eq_if_modifyHead, if_neg (by simpa using Ne.symm hcode.1), ihc hcode.2,
            modifyHead_modifyHead]
          rfl
      obtain ⟨s, ss, hss⟩ := exists_cons_of_ne_nil (splitOn_ne_nil slash (utf8.text cs))
      rw [hss] at ih hsplit
      rw [hsplit, modifyHead_cons]
      obtain ⟨hs, hrest⟩ := forall_mem_cons.mp ih
      exact forall_mem_cons.mpr ⟨.append ⟨[c], by simp [Coding.text]⟩ hs, hrest⟩

theorem spelled_pushPart (h : ∀ s ∈ parts, Spelled s) (hpart : Spelled part) : ∀ s ∈ pushPart absolute parts part, Spelled s := by
  have hpush : ∀ s ∈ parts ++ [part], Spelled s := by
    intro s hs
    rcases mem_append.mp hs with hs | hs
    · exact h s hs
    · rwa [mem_singleton.mp hs]
  rw [pushPart]
  split_ifs
  · exact h
  · exact fun s hs => h s (dropLast_subset parts hs)
  · exact hpush
  · exact h
  · exact hpush

theorem spelled_partsOf {path : Text} (h : Spelled path) : ∀ s ∈ partsOf false absolute path, Spelled s := by
  rw [partsOf_posix]
  have hfold : ∀ (segments parts : List Text), (∀ s ∈ segments, Spelled s) → (∀ s ∈ parts, Spelled s) →
      ∀ s ∈ segments.foldl (pushPart absolute) parts, Spelled s := by
    intro segments
    induction segments with
    | nil => exact fun parts _ hparts => hparts
    | cons part segments ih =>
      intro parts hsegments hparts
      obtain ⟨hpart, hsegments⟩ := forall_mem_cons.mp hsegments
      exact ih _ hsegments (spelled_pushPart hparts hpart)
  exact hfold _ [] h.splitOn (fun s hs => absurd hs not_mem_nil)

theorem spelled_normalizePosix {path : Text} (h : Spelled path) : Spelled (normalizePosix path) := by
  by_cases hpath : path = []
  · subst hpath
    exact spelled_dot
  · have htext : ∀ absolute, Spelled (text slash (partsOf false absolute path)) := fun absolute => .text (spelled_partsOf h)
    rw [normalizePosix_spell hpath, spell]
    split_ifs
    · exact spelled_slash.append (spelled_dot.append spelled_slash)
    · exact spelled_slash.append spelled_dot
    · exact spelled_slash.append ((htext _).append spelled_slash)
    · exact spelled_slash.append (htext _)
    · exact spelled_dot.append spelled_slash
    · exact spelled_dot
    · exact (htext _).append spelled_slash
    · exact htext _

theorem spelled_combine {inputs : List Text} (h : ∀ s ∈ inputs, Spelled s) {combined : Text} (hc : Spelled combined) :
    Spelled (combine inputs combined) := by
  induction inputs generalizing combined with
  | nil => exact hc
  | cons input inputs ih =>
    obtain ⟨hinput, h⟩ := forall_mem_cons.mp h
    rw [combine]
    split_ifs
    · exact ih h hc
    · exact hinput
    · exact ih h hinput
    · exact hinput.slash_append hc
    · exact ih h (hinput.slash_append hc)

theorem spelled_pathRelative {cwd : Text} (hcwd : cwd.head? = some slash) (hs : Spelled cwd) (source target : JsString) :
    Spelled (pathRelative cwd source target) := by
  rw [pathRelative_eq hcwd]
  apply Spelled.text
  intro s hmem
  rcases mem_append.mp hmem with hmem | hmem
  · rw [(mem_replicate.mp hmem).2]
    exact spelled_dot.append spelled_dot
  · refine spelled_partsOf (spelled_combine (fun s hs' => ?_) ⟨[], rfl⟩) s (mem_of_mem_drop hmem)
    simp only [reverse_cons, reverse_nil, nil_append, cons_append, mem_cons, not_mem_nil,
      or_false] at hs'
    rcases hs' with rfl | rfl
    · exact spelled_toUtf8Lossy target
    · exact hs

/-- A path that was normalized is normal and stays as it is, and the way from one path to another leads
there. -/
theorem posix_path_laws {cwd : JsString} (hcwd : cwd.toUtf8Lossy.head? = some slash) (path source target : JsString) :
    pathNormalize (.ofText (pathNormalize path)) = pathNormalize path ∧ Normal (pathNormalize path) ∧
      pathResolve cwd.toUtf8Lossy [source, .ofText (pathRelative cwd.toUtf8Lossy source target)] =
        pathResolve cwd.toUtf8Lossy [target] := by
  refine ⟨?_, normal_normalizePosix _, ?_⟩
  · rw [pathNormalize, pathNormalize, toUtf8Lossy_ofText (spelled_normalizePosix (spelled_toUtf8Lossy path)), normalizePosix_idem]
  · rw [pathResolve_eq hcwd, pathResolve_eq hcwd, map_cons, map_singleton, map_singleton,
      toUtf8Lossy_ofText (spelled_pathRelative hcwd (spelled_toUtf8Lossy cwd) source target), pathRelative_eq hcwd,
      resolvedOf_climb hcwd]

def work : JsString := .utf8 "/work/a".toList

theorem posix_path_laws_work :
    pathResolve work.toUtf8Lossy
        [.utf8 "../b//x".toList, .ofText (pathRelative work.toUtf8Lossy (.utf8 "../b//x".toList) (.utf8 "/work/bc".toList))] =
      pathResolve work.toUtf8Lossy [.utf8 "/work/bc".toList] :=
  have hwork : work.toUtf8Lossy.head? = some slash := by decide +kernel
  (posix_path_laws hwork (.utf8 []) (.utf8 "../b//x".toList) (.utf8 "/work/bc".toList)).2.2

/-- The empty path stands for the working directory, and is normalized to a dot. -/
theorem not_normalize_undotted : ¬∀ path : JsString, [dot] ∉ (pathNormalize path).splitOn slash := fun h =>
  h (.utf8 []) (by decide)

end Scriptc.PosixPath
