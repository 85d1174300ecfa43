import Scriptc.Runtime.ScrPath

/-!
# The scanner of normalize keeps the segments

The C scanner holds the normalized path as one text and the length of its last segment. Between two
separators it stands for the parts that the Rust runtime has pushed so far.
-/

namespace Scriptc.PosixPath

open Segments List Option

/-! ### Counting dots -/

/-- What the scanner has counted behind the bytes of a segment. -/
def dotCount (segment : Text) : ℤ := if segment.all (· = dot) then segment.length else -1

variable {segment : Text}

theorem dotCount_dots (h : ∀ c ∈ segment, c = dot) : dotCount segment = segment.length :=
  if_pos (by simpa using h)

theorem dotCount_other (h : ¬∀ c ∈ segment, c = dot) : dotCount segment = -1 :=
  if_neg (by simpa using h)

theorem dotCount_eq {n : ℕ} : dotCount segment = n ↔ segment = replicate n dot := by
  rw [eq_replicate_iff]
  by_cases h : ∀ c ∈ segment, c = dot
  · rw [dotCount_dots h]
    exact ⟨fun heq => ⟨Int.natCast_inj.mp heq, h⟩, fun hand => Int.natCast_inj.mpr hand.1⟩
  · have hneg : (-1 : ℤ) ≠ n := by omega
    rw [dotCount_other h]
    exact ⟨fun heq => absurd heq hneg, fun hand => absurd hand.2 h⟩

theorem dotCount_snoc (segment : Text) (c : UInt8) :
    dotCount (segment ++ [c]) = if c = dot ∧ dotCount segment ≠ -1 then dotCount segment + 1 else -1 := by
  by_cases hc : c = dot
  · by_cases h : ∀ b ∈ segment, b = dot
    · have hsnoc : ∀ b ∈ segment ++ [c], b = dot := by
        intro b hb
        rcases mem_append.mp hb with hb | hb
        · exact h b hb
        · rw [mem_singleton.mp hb, hc]
      rw [dotCount_dots hsnoc, dotCount_dots h, if_pos ⟨hc, by omega⟩, length_append]
      rfl
    · have hsnoc : ¬∀ b ∈ segment ++ [c], b = dot := fun hall => h fun b hb => hall b (mem_append_left _ hb)
      rw [dotCount_other hsnoc, dotCount_other h, if_neg (by simp)]
  · have hsnoc : ¬∀ b ∈ segment ++ [c], b = dot := fun hall => hc (hall c (by simp))
    rw [dotCount_other hsnoc, if_neg fun hand => hc hand.1]

/-! ### Searching back for a separator -/

variable {sep : UInt8}

theorem lastSepIndex_congr {a b : Text} {n : ℕ} (h : ∀ j < n, a[j]? = b[j]?) :
    lastSepIndex sep a n = lastSepIndex sep b n := by
  induction n with
  | zero => rfl
  | succ j ih => rw [lastSepIndex, lastSepIndex, h j (by omega), ih fun k hk => h k (by omega)]

theorem lastSepIndex_snoc (u : Text) : lastSepIndex sep (u ++ [sep]) (u ++ [sep]).length = u.length := by
  rw [length_append, length_singleton, lastSepIndex, if_pos (by simp)]

theorem lastSepIndex_append (u : Text) {v : Text} (h : sep ∉ v) :
    lastSepIndex sep (u ++ v) (u ++ v).length = lastSepIndex sep u u.length := by
  induction v using reverseRecOn with
  | nil => rw [append_nil]
  | append_singleton v c ih =>
    have hc : c ≠ sep := fun heq => h (by simp [heq])
    have hlast : ((u ++ v) ++ [c])[(u ++ v).length]? = some c := by simp
    rw [← append_assoc, length_append, length_singleton, lastSepIndex, hlast,
      if_neg fun heq => hc (some.inj heq), ← ih fun hv => h (mem_append_left _ hv)]
    exact lastSepIndex_congr fun j hj => getElem?_append_left hj

/-- Before the last segment stands nothing, or a separator. -/
theorem lastSepIndex_text (parts : List Text) {part : Text} (h : sep ∉ part) :
    lastSepIndex sep (text sep (parts ++ [part])) (text sep (parts ++ [part])).length =
      (text sep (parts ++ [part])).length - part.length - 1 := by
  by_cases hparts : parts = []
  · have := lastSepIndex_append [] h
    rw [hparts, nil_append, text_singleton]
    rw [nil_append] at this
    rw [this, length_nil, lastSepIndex]
    omega
  · have hsnoc : text sep (parts ++ [part]) = (text sep parts ++ [sep]) ++ part := by
      rw [text_append hparts (by simp), text_singleton, append_assoc, singleton_append]
    rw [hsnoc, lastSepIndex_append _ h, lastSepIndex_snoc]
    simp only [length_append, length_singleton]
    omega

/-! ### What a state stands for -/

/-- A state of the scanner right behind a separator. -/
structure Rep (sep : UInt8) (parts : List Text) (s : NormState) : Prop where
  proper : Proper sep parts
  res : s.res = text sep parts
  last : s.lastSegmentLength = (parts.getLast?.map List.length).getD 0

theorem Rep.init : Rep sep [] .init := ⟨proper_nil, rfl, rfl⟩

variable {parts : List Text} {s : NormState}

theorem Rep.push (h : Rep sep parts s) (hne : segment ≠ [])
    (hsep : sep ∉ segment) : Rep sep (parts ++ [segment]) (appendSegment sep segment s) := by
  refine ⟨h.proper.append (.singleton hne hsep), ?_, by simp [appendSegment]⟩
  rw [appendSegment, h.res]
  by_cases hparts : parts = []
  · rw [hparts]
    simp
  · have hpos : 0 < (text sep parts).length :=
      length_pos_iff.mpr fun hnil => hparts (h.proper.text_eq_nil.mp hnil)
    rw [if_pos hpos, text_append hparts (by simp), text_singleton]

theorem Rep.of_fields {s t : NormState} (h : Rep sep parts s) (hres : t.res = s.res)
    (hlast : t.lastSegmentLength = s.lastSegmentLength) : Rep sep parts t :=
  ⟨h.proper, hres.trans h.res, hlast.trans h.last⟩

section Last

variable {parts : List Text} {part : Text} {s : NormState}

theorem Rep.exists_before (h : Rep sep (parts ++ [part]) s) : ∃ u, s.res = u ++ part := by
  by_cases hparts : parts = []
  · exact ⟨[], by rw [h.res, hparts, nil_append, text_singleton, nil_append]⟩
  · exact ⟨text sep parts ++ [sep], by
      rw [h.res, text_append hparts (by simp), text_singleton, append_assoc, singleton_append]⟩

/-- The test for a last segment "..". -/
theorem Rep.last_iff (h : Rep sep (parts ++ [part]) s) :
    (s.res.length < 2 ∨ s.lastSegmentLength ≠ 2 ∨ s.res[s.res.length - 1]? ≠ some dot ∨
      s.res[s.res.length - 2]? ≠ some dot) ↔ part ≠ [dot, dot] := by
  have hlength : s.lastSegmentLength = part.length := by rw [h.last]; simp
  obtain ⟨u, hu⟩ := h.exists_before
  by_cases htwo : part.length = 2
  · obtain ⟨a, b, rfl⟩ := length_eq_two.mp htwo
    have hres : s.res.length = u.length + 2 := by rw [hu]; simp
    have hlast : s.res[s.res.length - 1]? = some b := by rw [hres, hu]; simp
    have hbefore : s.res[s.res.length - 2]? = some a := by rw [hres, hu]; simp
    have hlong : ¬u.length + 2 < 2 := by omega
    rw [hlast, hbefore, hlength, hres]
    simp only [htwo, hlong, ne_eq, some.injEq, List.cons.injEq, and_true, not_and_or, not_true_eq_false,
      false_or]
    exact or_comm
  · have hne : part ≠ [dot, dot] := fun heq => htwo (by rw [heq]; rfl)
    exact ⟨fun _ => hne, fun _ => .inr (.inl (hlength ▸ htwo))⟩

theorem Rep.pop (h : Rep sep (parts ++ [part]) s) : Rep sep parts (popSegment sep s) := by
  obtain ⟨hne, hsep⟩ := h.proper part (by simp)
  have hproper := h.proper.of_append.1
  have hindex := lastSepIndex_text parts hsep
  by_cases hparts : parts = []
  · rw [hparts, nil_append, text_singleton] at hindex
    have hminus : lastSepIndex sep s.res s.res.length = -1 := by
      rw [h.res, hparts, nil_append, text_singleton, hindex]
      omega
    rw [popSegment]
    simp only [hminus, if_true]
    rw [hparts]
    exact ⟨proper_nil, rfl, rfl⟩
  · have hsplit : s.res = text sep parts ++ sep :: part := by
      rw [h.res, text_append hparts (by simp), text_singleton]
    have hback : lastSepIndex sep s.res s.res.length = (text sep parts).length := by
      rw [h.res, hindex, ← h.res, hsplit, length_append, length_cons]
      omega
    have htake : s.res.take (text sep parts).length = text sep parts := by rw [hsplit, take_left]
    rw [popSegment]
    simp only [hback, Int.toNat_natCast, htake]
    rw [if_neg (by omega)]
    refine ⟨hproper, rfl, ?_⟩
    obtain ⟨init, q, rfl⟩ := (eq_nil_or_concat' parts).resolve_left hparts
    obtain ⟨-, hq⟩ := hproper q (by simp)
    rw [lastSepIndex_text init hq, getLast?_append_of_ne_nil _ (by simp)]
    simp only [List.getLast?_singleton, map_some, getD_some]
    omega

/-- A text of at most two bytes is one segment. -/
theorem Rep.short (h : Rep sep (parts ++ [part]) s) (hshort : ¬2 < s.res.length) : parts = [] := by
  by_contra hparts
  obtain ⟨hne, -⟩ := h.proper part (by simp)
  have hbefore : text sep parts ≠ [] := fun hnil => hparts (h.proper.of_append.1.text_eq_nil.mp hnil)
  have := length_pos_iff.mpr hne
  have := length_pos_iff.mpr hbefore
  rw [h.res, text_append hparts (by simp), text_singleton, length_append, length_cons] at hshort
  omega

end Last

/-! ### A separator -/

/-- The scanner behind some bytes of a segment that began at `done`. -/
structure Pending (win32 : Bool) (path : Text) (parts : List Text) (done segment : Text) (s : NormState) : Prop where
  rep : Rep (sepOf win32) parts s
  not_mem : ∀ c ∈ segment, isSep win32 c = false
  within : ∃ rest, path = done ++ segment ++ rest
  lastSlash : s.lastSlash + 1 = done.length
  dots : s.dots = dotCount segment

theorem isSep_sepOf (win32 : Bool) : isSep win32 (sepOf win32) = true := by cases win32 <;> rfl

theorem isSep_slash (win32 : Bool) : isSep win32 slash = true := by cases win32 <;> rfl

variable {win32 : Bool}

theorem Pending.endSegment {path done segment : Text} {i : ℕ}
    (h : Pending win32 path parts done segment s) (hi : i = done.length + segment.length) (allow : Bool) :
    Rep (sepOf win32) (pushPart (!allow) parts segment) (endSegment (sepOf win32) path allow i s) := by
  have hsep : sepOf win32 ∉ segment := fun hin => by simpa [isSep_sepOf] using h.not_mem _ hin
  have hone : s.dots = 1 ↔ segment = [dot] := by rw [h.dots]; exact dotCount_eq (n := 1)
  have htwo : s.dots = 2 ↔ segment = [dot, dot] := by rw [h.dots]; exact dotCount_eq (n := 2)
  have hempty : s.lastSlash = i - 1 ↔ segment = [] := by
    have := h.lastSlash
    rw [← length_eq_zero_iff]
    omega
  rw [PosixPath.endSegment, pushPart]
  simp only [hone, htwo, hempty]
  by_cases hskip : segment = [] ∨ segment = [dot]
  · rw [if_pos hskip, if_pos hskip]
    exact h.rep
  rw [if_neg hskip, if_neg hskip]
  by_cases hup : segment = [dot, dot]
  · rw [if_pos hup, if_pos hup, hup]
    have hclimb : Rep (sepOf win32) (if !(!allow) then parts ++ [[dot, dot]] else parts)
        (aboveRoot (sepOf win32) allow s) := by
      cases allow with
      | false => exact h.rep
      | true => exact h.rep.push (by simp) (by cases win32 <;> decide)
    rcases eq_nil_or_concat' parts with rfl | ⟨init, last, rfl⟩
    · have hres : s.res = [] := h.rep.res
      simpa [hres] using hclimb
    · rw [getLast?_append_of_ne_nil _ (by simp), List.getLast?_singleton, any_some, dropLast_concat]
      by_cases hlast : last = [dot, dot]
      · rw [if_neg fun hall => h.rep.last_iff.mp hall hlast, if_neg (by simp [hlast])]
        exact hclimb
      · rw [if_pos (h.rep.last_iff.mpr hlast), if_pos (by simpa using hlast)]
        by_cases hlong : 2 < s.res.length
        · rw [if_pos hlong]
          exact h.rep.pop
        · have hnil : s.res.length ≠ 0 := by
            intro hzero
            have := h.rep.proper.text_eq_nil.mp (h.rep.res ▸ length_eq_zero_iff.mp hzero)
            simp at this
          rw [if_neg hlong, if_pos hnil, h.rep.short hlong]
          exact ⟨proper_nil, rfl, rfl⟩
  · rw [if_neg hup, if_neg hup]
    obtain ⟨rest, hpath⟩ := h.within
    have hstart : (s.lastSlash + 1).toNat = done.length := by rw [h.lastSlash, Int.toNat_natCast]
    have hslice : slice path (s.lastSlash + 1).toNat i = segment := by
      rw [slice, hstart, hpath, hi, ← length_append, take_left, drop_left]
    rw [hslice]
    exact h.rep.push (fun hnil => hskip (.inl hnil)) hsep

/-! ### The whole scan -/

theorem foldl_pending (absolute : Bool) (parts : List Text) (segment : Text) (rest : Text) (c : UInt8) :
    ((c :: rest).splitOnP (isSep win32) |>.modifyHead (segment ++ ·)).foldl (pushPart absolute) parts =
      if isSep win32 c then (rest.splitOnP (isSep win32)).foldl (pushPart absolute) (pushPart absolute parts segment)
      else ((rest.splitOnP (isSep win32)).modifyHead ((segment ++ [c]) ++ ·)).foldl (pushPart absolute) parts := by
  rw [splitOnP_cons_eq_if_modifyHead]
  by_cases hc : isSep win32 c
  · simp [hc]
  · have hsplit : (segment ++ ·) ∘ List.cons c = ((segment ++ [c]) ++ ·) := by
      funext t
      simp
    rw [if_neg hc, if_neg hc, modifyHead_modifyHead, hsplit]

theorem modifyHead_nil (l : List Text) : l.modifyHead (([] : Text) ++ ·) = l := by
  cases l <;> simp

/-- Induction on the bytes that are left; at the end of the path the last segment is pushed, which is
empty where the path ends with a separator. -/
theorem Pending.normalizeLoop {path rest done segment : Text}
    (h : Pending win32 path parts done segment s) (hpath : path = done ++ segment ++ rest) (allow : Bool) (code : UInt8)
    (hcode : isSep win32 code = true → segment = []) {i : ℕ} (hi : i = done.length + segment.length) :
    Rep (sepOf win32) (((rest.splitOnP (isSep win32)).modifyHead (segment ++ ·)).foldl (pushPart (!allow)) parts)
      (normalizeLoop win32 path allow rest i code s) := by
  induction rest generalizing done segment parts s code i with
  | nil =>
    rw [PosixPath.normalizeLoop]
    simp only [splitOnP_nil, modifyHead_cons, append_nil, foldl_cons, foldl_nil]
    split_ifs with hlast
    · rw [hcode hlast, pushPart, if_pos (.inl rfl)]
      exact h.rep
    · rw [stepChar, if_pos (isSep_slash win32)]
      exact (h.endSegment hi allow).of_fields rfl rfl
  | cons c rest ih =>
    rw [PosixPath.normalizeLoop, foldl_pending, stepChar]
    by_cases hc : isSep win32 c
    · rw [if_pos hc, if_pos hc]
      have hnext : path = (done ++ segment ++ [c]) ++ [] ++ rest := by rw [hpath]; simp
      have hpending : Pending win32 path (pushPart (!allow) parts segment) (done ++ segment ++ [c]) []
          (stepSep (sepOf win32) path allow i s) := by
        refine ⟨(h.endSegment hi allow).of_fields rfl rfl, by simp, ⟨rest, hnext⟩, ?_, rfl⟩
        simp only [stepSep, length_append, length_singleton]
        omega
      have := ih hpending hnext c (fun _ => rfl) (i := i + 1) (by simp [hi, Nat.add_assoc])
      rwa [modifyHead_nil] at this
    · rw [if_neg hc, if_neg hc]
      have hnext : path = done ++ (segment ++ [c]) ++ rest := by rw [hpath]; simp
      have hmem : ∀ b ∈ segment ++ [c], isSep win32 b = false := by
        intro b hb
        rcases mem_append.mp hb with hb | hb
        · exact h.not_mem b hb
        · rw [mem_singleton.mp hb]
          simpa using hc
      refine ih ⟨h.rep.of_fields ?_ ?_, hmem, ⟨rest, hnext⟩, ?_, ?_⟩ hnext c (fun heq => absurd heq hc) ?_
      · split_ifs <;> rfl
      · split_ifs <;> rfl
      · rw [← h.lastSlash]
        split_ifs <;> rfl
      · rw [dotCount_snoc, ← h.dots]
        split_ifs <;> rfl
      · simp [hi]
        omega

/-- The parts of a path. -/
def partsOf (win32 absolute : Bool) (path : Text) : List Text :=
  (path.splitOnP (isSep win32)).foldl (pushPart absolute) []

theorem rep_normalizeLoop (win32 : Bool) (path : Text) (allow : Bool) :
    Rep (sepOf win32) (partsOf win32 (!allow) path) (normalizeLoop win32 path allow path 0 0 .init) := by
  have hpending : Pending win32 path [] [] [] .init := ⟨.init, by simp, ⟨path, rfl⟩, rfl, rfl⟩
  have hpath : path = ([] : Text) ++ [] ++ path := rfl
  have hcode : isSep win32 0 = false := by cases win32 <;> rfl
  have := hpending.normalizeLoop hpath allow 0 (fun h => absurd h (by simp [hcode])) (i := 0) rfl
  rwa [modifyHead_nil] at this

theorem scrPathNormalizeString_eq (path : Text) (allow win32 : Bool) :
    scrPathNormalizeString path allow win32 = text (sepOf win32) (partsOf win32 (!allow) path) :=
  (rep_normalizeLoop win32 path allow).res

theorem proper_partsOf (win32 absolute : Bool) (path : Text) : Proper (sepOf win32) (partsOf win32 absolute path) := by
  have := (rep_normalizeLoop win32 path (!absolute)).proper
  rwa [Bool.not_not] at this

/-!
## normalize, join and resolve give the same paths

The C runtime resolves behind a buffer of 4096 bytes for the working directory: a longer one, asked for
only where no argument is absolute, traps there and is no obstacle for the Rust runtime.
-/

/-! ### normalize -/

theorem scrPathNormalizeString_posix (path : Text) (allow : Bool) :
    scrPathNormalizeString path allow false = text slash (partsOf false (!allow) path) :=
  scrPathNormalizeString_eq path allow false

theorem proper_posix (absolute : Bool) (path : Text) : Proper slash (partsOf false absolute path) :=
  proper_partsOf false absolute path

/-- The Rust runtime splits at slashes. -/
theorem partsOf_posix (absolute : Bool) (path : Text) :
    partsOf false absolute path = (path.splitOn slash).foldl (pushPart absolute) [] := by
  rw [partsOf, splitOn_eq_splitOnP]
  rfl

theorem normalizePosix_eq {path : Text} (h : path ≠ []) :
    normalizePosix path =
      let absolute : Bool := path.head? = some slash
      let trailing : Bool := path.getLast? = some slash
      let result := text slash (partsOf false absolute path)
      let result := if result = [] ∧ !absolute then result ++ [dot] else result
      let result := if trailing ∧ result ≠ [] ∧ result ≠ [slash] then result ++ [slash] else result
      if absolute then slash :: result else result := by
  simp only [partsOf_posix]
  exact if_neg h

theorem text_ne_slash (absolute : Bool) (path : Text) :
    text slash (partsOf false absolute path) ≠ [slash] := fun h =>
  (proper_posix absolute path).head_ne (by rw [h]; rfl)

theorem scrPathNormalizeRaw_eq (path : Text) : scrPathNormalizeRaw path = normalizePosix path := by
  by_cases hpath : path = []
  · rw [hpath]
    rfl
  · rw [normalizePosix_eq hpath, scrPathNormalizeRaw, if_neg hpath]
    simp only [scrPathNormalizeString_posix, Bool.not_not]
    generalize habsolute : decide (path.head? = some slash) = absolute
    generalize htrailing : decide (path.getLast? = some slash) = trailing
    have hslash := text_ne_slash absolute path
    by_cases hnorm : text slash (partsOf false absolute path) = []
    · have hdot : dot ≠ slash := by decide
      cases absolute <;> cases trailing <;> simp [hnorm, hdot]
    · cases absolute <;> cases trailing <;> simp [hnorm] <;> exact hslash

theorem normalize_agrees (path : JsString) : scrPathNormalize path.toUtf8Lossy = pathNormalize path :=
  scrPathNormalizeRaw_eq _

/-! ### join -/

theorem joinLoop_eq (parts kept : List Text) :
    joinLoop parts (text slash kept) (decide (kept ≠ [])) =
      (text slash (kept ++ parts.filter (· ≠ [])), decide (kept ++ parts.filter (· ≠ []) ≠ [])) := by
  induction parts generalizing kept with
  | nil => simp [joinLoop]
  | cons arg parts ih =>
    rw [joinLoop]
    by_cases harg : arg = []
    · rw [harg, if_neg (by simp), ih, filter_cons_of_neg (by simp)]
    · have := ih (kept ++ [arg])
      rw [decide_eq_true (by simp : kept ++ [arg] ≠ [])] at this
      rw [if_pos (length_pos_iff.mpr harg), text_snoc, this, filter_cons_of_pos (by simpa using harg),
        append_assoc, singleton_append]

theorem join_agrees (parts : List JsString) :
    scrPathJoin (parts.map JsString.toUtf8Lossy) = pathJoin parts := by
  have hloop := joinLoop_eq (parts.map JsString.toUtf8Lossy) []
  have hfilter : (parts.map JsString.toUtf8Lossy).filter (· ≠ []) =
      (parts.filter fun part => part.toUtf8Lossy ≠ []).map JsString.toUtf8Lossy := filter_map
  rw [nil_append, hfilter] at hloop
  rw [scrPathJoin, pathJoin]
  generalize (parts.filter fun part => part.toUtf8Lossy ≠ []).map JsString.toUtf8Lossy = kept at hloop ⊢
  have hjoined : joinLoop (parts.map JsString.toUtf8Lossy) [] false = (text slash kept, decide (kept ≠ [])) := hloop
  rw [hjoined]
  by_cases hkept : kept = []
  · rw [hkept]
    rfl
  · simp only [ne_eq, hkept, not_false_eq_true, decide_true, Bool.not_true, Bool.false_eq_true, if_false]
    exact scrPathNormalizeRaw_eq _

/-! ### resolve -/

theorem combine_cons {part : Text} (h : part ≠ []) (inputs : List Text) (combined : Text) :
    combine (part :: inputs) combined =
      if part.head? = some slash then (if combined = [] then part else part ++ slash :: combined)
      else combine inputs (if combined = [] then part else part ++ slash :: combined) := if_neg h

/-- The text of the C loop for that of the Rust loop. -/
def closed (combined : Text) : Text := if combined = [] then [] else combined ++ [slash]

theorem closed_step {part : Text} (h : part ≠ []) (combined : Text) :
    part ++ slash :: closed combined = closed (if combined = [] then part else part ++ slash :: combined) := by
  by_cases hcombined : combined = []
  · simp [closed, hcombined, h]
  · simp [closed, hcombined]

/-- The working directory is not asked for, or fits into the buffer. -/
def Resolvable (cwd : Text) (args : List Text) : Prop :=
  (∃ arg ∈ args, arg.head? = some slash) ∨ cwd.length < 4096

instance (cwd : Text) (args : List Text) : Decidable (Resolvable cwd args) := inferInstanceAs (Decidable (_ ∨ _))

section Resolve

variable {cwd : Text} (hcwd : cwd.head? = some slash)

include hcwd

theorem head_combine (args : List Text) (combined : Text) :
    (combine (args ++ [cwd]) combined).head? = some slash := by
  have hprepend (part combined : Text) (hslash : part.head? = some slash) :
      (if combined = [] then part else part ++ slash :: combined).head? = some slash := by
    split_ifs
    · exact hslash
    · rw [head?_append, hslash]
      rfl
  induction args generalizing combined with
  | nil =>
    have hne : cwd ≠ [] := by
      rintro rfl
      simp at hcwd
    rw [nil_append, combine_cons hne, if_pos hcwd]
    exact hprepend _ _ hcwd
  | cons part args ih =>
    rw [cons_append]
    by_cases hpart : part = []
    · rw [combine, if_pos hpart]
      exact ih _
    · rw [combine_cons hpart]
      split_ifs with hslash hnil
      · exact hslash
      · rw [head?_append, hslash]
        rfl
      · exact ih _
      · exact ih _

theorem resolveLoop_eq (args : List Text) (combined : Text) :
    resolveLoop cwd args (closed combined) =
      if Resolvable cwd args then some (closed (combine (args ++ [cwd]) combined), true) else none := by
  induction args generalizing combined with
  | nil =>
    have hne : cwd ≠ [] := by
      rintro rfl
      simp at hcwd
    have hhead : (cwd ++ slash :: closed combined).head? = some slash := by rw [head?_append, hcwd]; rfl
    rw [resolveLoop, scrPathCwd, nil_append, combine_cons hne, if_pos hcwd]
    by_cases hfits : cwd.length < 4096
    · rw [if_pos hfits, if_pos (.inr hfits), map_some, if_neg (by simpa using hne), hhead, closed_step hne]
      simp
    · rw [if_neg hfits, if_neg (by simp [Resolvable, hfits]), map_none]
  | cons part args ih =>
    rw [resolveLoop, cons_append]
    by_cases hpart : part = []
    · have hiff : Resolvable cwd (part :: args) ↔ Resolvable cwd args := by simp [Resolvable, hpart]
      rw [if_pos (by simp [hpart]), combine, if_pos hpart, ih]
      simp only [hiff]
    · have hhead : (part ++ slash :: closed combined).head? = part.head? := by
        obtain ⟨c, part, rfl⟩ := exists_cons_of_ne_nil hpart
        rfl
      rw [if_neg (by simpa using hpart), combine_cons hpart, hhead, closed_step hpart]
      by_cases hslash : part.head? = some slash
      · have hresolvable : Resolvable cwd (part :: args) := .inl ⟨part, mem_cons_self .., hslash⟩
        rw [if_pos hslash, if_pos hslash, if_pos hresolvable]
      · have hiff : Resolvable cwd (part :: args) ↔ Resolvable cwd args := by simp [Resolvable, hslash]
        rw [if_neg hslash, ih]
        simp only [hiff, hslash, if_false]

end Resolve

theorem pushPart_nil (absolute : Bool) (parts : List Text) : pushPart absolute parts [] = parts := if_pos (.inl rfl)

/-- A separator at the end adds an empty segment, which is no part. -/
theorem partsOf_closed (absolute : Bool) (path : Text) :
    partsOf false absolute (closed path) = partsOf false absolute path := by
  rw [closed]
  split_ifs with h
  · rw [h]
  · rw [partsOf_posix, partsOf_posix, splitOn_append_cons_self, foldl_append]
    simp [pushPart_nil]

/-- The parts of the path that some arguments resolve to. -/
def resolvedOf (cwd : Text) (args : List Text) : List Text := partsOf false true (combine (cwd :: args).reverse [])

theorem proper_resolvedOf (cwd : Text) (args : List Text) : Proper slash (resolvedOf cwd args) := proper_posix _ _

theorem scrPathResolve_eq {cwd : Text} (hcwd : cwd.head? = some slash) (args : List Text) :
    scrPathResolve cwd args =
      if Resolvable cwd args then some (slash :: text slash (resolvedOf cwd args)) else none := by
  have hiff : Resolvable cwd args.reverse ↔ Resolvable cwd args := by simp [Resolvable]
  have hloop := resolveLoop_eq hcwd args.reverse []
  have hnil : closed [] = [] := rfl
  rw [hnil] at hloop
  simp only [hiff] at hloop
  rw [scrPathResolve, hloop]
  by_cases hresolvable : Resolvable cwd args
  · rw [if_pos hresolvable, if_pos hresolvable, map_some]
    simp only [Bool.not_true, scrPathNormalizeString_posix, Bool.not_false, if_true]
    rw [partsOf_closed, resolvedOf, reverse_cons]
  · rw [if_neg hresolvable, if_neg hresolvable, map_none]

/-- The slashes that `path_resolve` cuts off. -/
theorem rdropWhile_slash {t : Text} (hne : t ≠ []) (hlast : t.getLast? ≠ some slash) :
    (slash :: t).rdropWhile (· = slash) = slash :: t := by
  refine rdropWhile_eq_self_iff.mpr fun h heq => hlast ?_
  rw [getLast_cons hne] at heq
  rw [List.getLast?_eq_some_getLast hne]
  exact congrArg some (by simpa using heq)

theorem pathResolve_eq {cwd : Text} (hcwd : cwd.head? = some slash) (parts : List JsString) :
    pathResolve cwd parts = slash :: text slash (resolvedOf cwd (parts.map JsString.toUtf8Lossy)) := by
  have hhead : (combine (cwd :: parts.map JsString.toUtf8Lossy).reverse []).head? = some slash := by
    rw [reverse_cons]
    exact head_combine hcwd _ _
  rw [pathResolve]
  generalize hcombined : combine (cwd :: parts.map JsString.toUtf8Lossy).reverse [] = combined at hhead
  have hne : combined ≠ [] := by
    rintro rfl
    simp at hhead
  have hproper := proper_posix true combined
  have hparts : resolvedOf cwd (parts.map JsString.toUtf8Lossy) = partsOf false true combined := by
    rw [resolvedOf, hcombined]
  rw [normalizePosix_eq hne, hparts]
  simp only [hhead, decide_true, Bool.not_true, Bool.false_eq_true, and_false, if_false, if_true]
  generalize htext : text slash (partsOf false true combined) = t
  have hlast : t.getLast? ≠ some slash := htext ▸ hproper.getLast_ne
  by_cases hnil : t = []
  · rw [hnil]
    simp
  · have hlong : 1 < (slash :: t).length := by simpa [length_pos_iff] using hnil
    have hlonger : 1 < (slash :: (t ++ [slash])).length := by simp
    have hcut : (slash :: (t ++ [slash])).rdropWhile (· = slash) = slash :: t := by
      rw [← cons_append, rdropWhile_concat_pos _ _ slash (by simp), rdropWhile_slash hnil hlast]
    split_ifs <;> simp_all [rdropWhile_slash hnil hlast]

theorem resolve_agrees {cwd : Text} (hcwd : cwd.head? = some slash) (parts : List JsString) :
    scrPathResolve cwd (parts.map JsString.toUtf8Lossy) =
      if Resolvable cwd (parts.map JsString.toUtf8Lossy) then some (pathResolve cwd parts) else none := by
  rw [scrPathResolve_eq hcwd, pathResolve_eq hcwd]

end Scriptc.PosixPath
