import Scriptc.Runtime.ScrPathNames
import Scriptc.Runtime.ScrPathNormalize

/-!
# The two runtimes give the same posix paths

The C runtime compares two resolved paths character by character and remembers the last common
separator; the Rust runtime compares their parts. What remains behind the last common separator is
what remains behind the common parts. With the other functions this settles where the runtimes agree.
-/

namespace Scriptc.PosixPath

open Segments List

/-! ### Climbing -/

theorem climb_text (n : ℕ) :
    climb (text slash (replicate n [dot, dot])) = text slash (replicate (n + 1) [dot, dot]) := by
  cases n with
  | zero => rfl
  | succ n =>
    have hne : text slash (replicate (n + 1) [dot, dot]) ≠ [] := by
      intro hnil
      have hproper : Proper slash (replicate (n + 1) [dot, dot]) := by
        intro s hs
        rw [eq_of_mem_replicate hs]
        decide
      simpa using hproper.text_eq_nil.mp hnil
    rw [climb, if_neg hne, replicate_succ' (n := n + 1), text_append (by simp) (by simp), text_singleton]

theorem climbLoop_text (w : Text) (n : ℕ) :
    climbLoop w (text slash (replicate n [dot, dot])) =
      text slash (replicate (n + w.count slash + 1) [dot, dot]) := by
  induction w generalizing n with
  | nil => exact climb_text n
  | cons c w ih =>
    rw [climbLoop]
    by_cases hc : c = slash
    · rw [if_pos hc, climb_text, ih, hc, count_cons_self]
      congr 2
      omega
    · rw [if_neg hc, ih, count_cons_of_ne hc]

/-- A step up for every part. -/
theorem climbLoop_parts {parts : List Text} (h : Proper slash parts) (hne : parts ≠ []) :
    climbLoop (text slash parts) [] = text slash (replicate parts.length [dot, dot]) := by
  have hloop := climbLoop_text (text slash parts) 0
  have hcount := h.count hne
  rw [Nat.zero_add, hcount] at hloop
  exact hloop

/-! ### The common characters -/

theorem commonLoop_append {w : Text} (h : slash ∉ w) (f t : Text) (i : ℕ) (sep : ℤ) :
    commonLoop (w ++ f) (w ++ t) i sep = commonLoop f t (i + w.length) sep := by
  induction w generalizing i with
  | nil => rfl
  | cons c w ih =>
    have hc : c ≠ slash := fun heq => h (heq ▸ mem_cons_self ..)
    rw [cons_append, cons_append, commonLoop, if_neg (by simp), if_neg hc,
      ih (fun hw => h (mem_cons_of_mem _ hw)), length_cons, Nat.add_right_comm, Nat.add_assoc]

/-- The last common separator is the one behind the common text. -/
theorem commonLoop_slash (w f t : Text) (i : ℕ) (sep : ℤ) :
    commonLoop (w ++ slash :: f) (w ++ slash :: t) i sep = commonLoop f t (i + w.length + 1) (i + w.length : ℕ) := by
  induction w generalizing i sep with
  | nil =>
    rw [nil_append, nil_append, commonLoop, if_neg (by simp), if_pos rfl]
    rfl
  | cons c w ih =>
    rw [cons_append, cons_append, commonLoop, if_neg (by simp), ih, length_cons]
    congr 1
    · omega
    · congr 1
      omega

theorem commonLoop_left (f t : Text) (i : ℕ) (sep : ℤ) : (commonLoop f (f ++ t) i sep).1 = i + f.length := by
  induction f generalizing i sep with
  | nil => cases t <;> rfl
  | cons c f ih =>
    rw [cons_append, commonLoop, if_neg (by simp), ih, length_cons]
    omega

theorem commonLoop_right (f t : Text) (i : ℕ) (sep : ℤ) : (commonLoop (t ++ f) t i sep).1 = i + t.length := by
  induction t generalizing i sep with
  | nil => cases f <;> rfl
  | cons c t ih =>
    rw [cons_append, commonLoop, if_neg (by simp), ih, length_cons]
    omega

/-- A text that a segment begins. -/
theorem text_head (s : Text) (ss : List Text) : ∃ rest, text slash (s :: ss) = s ++ rest ∧
    (rest = [] ∨ ∃ u, rest = slash :: u) := by
  by_cases hss : ss = []
  · exact ⟨[], by rw [hss, text_singleton, append_nil], .inl rfl⟩
  · exact ⟨slash :: text slash ss, text_cons hss, .inr ⟨_, rfl⟩⟩

/-- Two different segments part before a separator that both paths have. -/
theorem commonLoop_parts {f t : Text} (fs ts : List Text) (hf : f ≠ [] ∧ slash ∉ f) (ht : t ≠ [] ∧ slash ∉ t)
    (hne : f ≠ t) (k : ℕ) (sep : ℤ) :
    ∃ j, commonLoop (text slash (f :: fs)) (text slash (t :: ts)) k sep = (k + j, sep) ∧
      j ≤ (text slash (f :: fs)).length ∧ j ≤ (text slash (t :: ts)).length ∧
      (j = (text slash (f :: fs)).length → 0 < j ∧ (text slash (t :: ts))[j]? ≠ some slash) ∧
      (j = (text slash (t :: ts)).length → 0 < j ∧ (text slash (f :: fs))[j]? ≠ some slash) := by
  obtain ⟨fr, hfr, hfrest⟩ := text_head f fs
  obtain ⟨tr, htr, htrest⟩ := text_head t ts
  obtain ⟨p, u, v, rfl, rfl, hparts⟩ := exists_parting f t
  have hp : slash ∉ p := fun hin => hf.2 (mem_append_left _ hin)
  refine ⟨p.length, ?_⟩
  rw [hfr, htr, append_assoc, append_assoc, commonLoop_append hp]
  have hfget : (p ++ (u ++ fr))[p.length]? = (u ++ fr)[0]? := by
    rw [getElem?_append_right (Nat.le_refl _), Nat.sub_self]
  have htget : (p ++ (v ++ tr))[p.length]? = (v ++ tr)[0]? := by
    rw [getElem?_append_right (Nat.le_refl _), Nat.sub_self]
  rw [hfget, htget]
  simp only [length_append]
  cases u with
  | nil =>
    cases v with
    | nil => exact absurd rfl hne
    | cons y v =>
      have hy : y ≠ slash := fun heq => ht.2 (by simp [heq])
      have hpos : 0 < p.length := length_pos_iff.mpr (by simpa using hf.1)
      rcases hfrest with rfl | ⟨w, rfl⟩
      · refine ⟨by simp [commonLoop], by simp, by omega, fun _ => ⟨hpos, by simpa using hy⟩, fun heq => ?_⟩
        simp at heq
      · refine ⟨by simp [commonLoop, Ne.symm hy], by omega, by omega, fun heq => ?_, fun heq => ?_⟩
        · simp at heq
        · simp at heq
  | cons x u =>
    have hx : x ≠ slash := fun heq => hf.2 (by simp [heq])
    cases v with
    | nil =>
      have hpos : 0 < p.length := length_pos_iff.mpr (by simpa using ht.1)
      rcases htrest with rfl | ⟨w, rfl⟩
      · refine ⟨by simp [commonLoop], by omega, by simp, fun heq => ?_, fun _ => ⟨hpos, by simpa using hx⟩⟩
        simp at heq
      · refine ⟨by simp [commonLoop, hx], by omega, by omega, fun heq => ?_, fun heq => ?_⟩
        · simp at heq
        · simp at heq
    | cons y v =>
      obtain ⟨x', y', u', v', hxu, hyv, hxy⟩ := (hparts.resolve_left (by simp)).resolve_left (by simp)
      obtain ⟨rfl, rfl⟩ := List.cons.inj hxu
      obtain ⟨rfl, rfl⟩ := List.cons.inj hyv
      refine ⟨by simp [commonLoop, hxy], by omega, by omega, fun heq => ?_, fun heq => ?_⟩
      · simp at heq
      · simp at heq

/-! ### relative -/

theorem relativeTail_of_loop {f t : Text} {i n : ℕ} {sep : ℤ} (h : commonLoop f t 0 (-1) = (i, sep))
    (hn : min f.length t.length = n) :
    relativeTail (slash :: f) (slash :: t) =
      if i = n ∧ n < t.length ∧ t[i]? = some slash then t.drop (i + 1)
      else if i = n ∧ n < t.length ∧ i = 0 then t
      else
        let sep : ℤ :=
          if i = n ∧ ¬n < t.length ∧ n < f.length then
            if f[i]? = some slash then i else if i = 0 then 0 else sep
          else sep
        climbLoop ((slash :: f).drop (1 + sep + 1).toNat) [] ++ (slash :: t).drop (1 + sep).toNat := by
  rw [relativeTail]
  simp only [drop_succ_cons, drop_zero, h, hn]

/-- Down from the common directory. -/
theorem relativeTail_down (cs : List Text) {ts : List Text} (ht : Proper slash ts) (hne : ts ≠ []) :
    relativeTail (slash :: text slash cs) (slash :: text slash (cs ++ ts)) = text slash ts := by
  by_cases hcs : cs = []
  · subst hcs
    have hhead : (text slash ts)[0]? ≠ some slash := by
      rw [← List.head?_eq_getElem?]
      exact ht.head_ne
    have hpos : 0 < (text slash ts).length := length_pos_iff.mpr fun hnil => hne (ht.text_eq_nil.mp hnil)
    have hloop : commonLoop [] (text slash ts) 0 (-1) = (0, -1) := by cases text slash ts <;> rfl
    rw [nil_append, text_nil, relativeTail_of_loop hloop (Nat.zero_min _), if_neg fun hand => hhead hand.2.2,
      if_pos ⟨rfl, hpos, rfl⟩]
  · rw [text_append hcs hne]
    have hlength := commonLoop_left (text slash cs) (slash :: text slash ts) 0 (-1)
    rcases hloop : commonLoop (text slash cs) (text slash cs ++ slash :: text slash ts) 0 (-1) with ⟨i, sep⟩
    rw [hloop, Nat.zero_add] at hlength
    simp only at hlength
    subst hlength
    have hmin : min (text slash cs).length (text slash cs ++ slash :: text slash ts).length =
        (text slash cs).length := by simp
    rw [relativeTail_of_loop hloop hmin, if_pos ⟨rfl, by simp, by simp⟩, drop_append]
    simp

/-- Up to a directory above. -/
theorem relativeTail_up {cs fs : List Text} (hf : Proper slash fs) (hne : fs ≠ []) :
    relativeTail (slash :: text slash (cs ++ fs)) (slash :: text slash cs) =
      text slash (replicate fs.length [dot, dot]) := by
  have hclimb := climbLoop_parts hf hne
  by_cases hcs : cs = []
  · subst hcs
    obtain ⟨c, w, hw⟩ := exists_cons_of_ne_nil fun hnil => hne (hf.text_eq_nil.mp hnil)
    have hc : c ≠ slash := by simpa [hw] using hf.head_ne
    rw [hw, climbLoop, if_neg hc] at hclimb
    rw [nil_append, text_nil, hw, relativeTail_of_loop (i := 0) (n := 0) rfl (Nat.min_zero _), if_neg (by simp),
      if_neg (by simp), ← hclimb]
    simp [hc]
  · rw [text_append hcs hne]
    have hlength := commonLoop_right (slash :: text slash fs) (text slash cs) 0 (-1)
    rcases hloop : commonLoop (text slash cs ++ slash :: text slash fs) (text slash cs) 0 (-1) with ⟨i, sep⟩
    rw [hloop, Nat.zero_add] at hlength
    simp only at hlength
    subst hlength
    have hmin : min (text slash cs ++ slash :: text slash fs).length (text slash cs).length =
        (text slash cs).length := by simp
    have hup : (1 + ((text slash cs).length : ℤ) + 1).toNat = (text slash cs).length + 1 + 1 := by omega
    have hover : (1 + ((text slash cs).length : ℤ)).toNat = (text slash cs).length + 1 := by omega
    rw [relativeTail_of_loop hloop hmin, if_neg (by simp), if_neg (by simp), ← hclimb]
    simp [hup, hover]

/-- Up from one part and down to another. -/
theorem relativeTail_apart {cs fs ts : List Text} {f t : Text} (hf : Proper slash (f :: fs))
    (ht : Proper slash (t :: ts)) (hne : f ≠ t) :
    relativeTail (slash :: text slash (cs ++ f :: fs)) (slash :: text slash (cs ++ t :: ts)) =
      text slash (replicate (f :: fs).length [dot, dot]) ++ slash :: text slash (t :: ts) := by
  obtain ⟨common, hcommon, hback⟩ : ∃ common : Text,
      (∀ s ss, text slash (cs ++ s :: ss) = common ++ text slash (s :: ss)) ∧
      (∀ a b, commonLoop (common ++ a) (common ++ b) 0 (-1) = commonLoop a b common.length (common.length - 1)) ∧
      ∀ a, (slash :: (common ++ a)).drop common.length = slash :: a := by
    by_cases hcs : cs = []
    · exact ⟨[], fun s ss => by rw [hcs]; rfl, fun a b => rfl, fun a => rfl⟩
    · refine ⟨text slash cs ++ [slash], fun s ss => ?_, fun a b => ?_, fun a => ?_⟩
      · rw [text_append hcs (by simp), append_assoc, singleton_append]
      · rw [append_assoc, append_assoc, singleton_append, singleton_append, commonLoop_slash]
        simp
      · rw [append_assoc, length_append, length_singleton, drop_succ_cons, drop_left,
          singleton_append]
  obtain ⟨hloop, hdrop⟩ := hback
  obtain ⟨j, hj, hjf, hjt, hfend, htend⟩ := commonLoop_parts fs ts (hf f (mem_cons_self ..))
    (ht t (mem_cons_self ..)) hne common.length (common.length - 1)
  have hclimb := climbLoop_parts hf (by simp)
  rw [hcommon, hcommon, ← hclimb]
  generalize text slash (f :: fs) = a at *
  generalize text slash (t :: ts) = b at *
  have hget (w : Text) : (common ++ w)[common.length + j]? = w[j]? := by
    rw [getElem?_append_right (by omega), Nat.add_sub_cancel_left]
  have hmin : min (common ++ a).length (common ++ b).length = common.length + min a.length b.length := by
    rw [length_append, length_append, Nat.add_min_add_left]
  rw [relativeTail_of_loop ((hloop a b).trans hj) hmin, hget, hget]
  simp only [length_append, Nat.add_lt_add_iff_left, Nat.add_left_cancel_iff]
  have hnext : ¬(j = min a.length b.length ∧ min a.length b.length < b.length ∧ b[j]? = some slash) := by
    rintro ⟨hmin, hlt, hslash⟩
    exact (hfend (by omega)).2 hslash
  have hroot : ¬(j = min a.length b.length ∧ min a.length b.length < b.length ∧ common.length + j = 0) := by
    rintro ⟨hmin, hlt, hzero⟩
    have := (hfend (by omega)).1
    omega
  have hsep : (if j = min a.length b.length ∧ ¬min a.length b.length < b.length ∧
        min a.length b.length < a.length then
      if a[j]? = some slash then ((common.length + j : ℕ) : ℤ)
      else if common.length + j = 0 then 0 else common.length - 1
      else (common.length - 1 : ℤ)) = common.length - 1 := by
    split_ifs with hend hslash hzero
    · exact absurd hslash (htend (by omega)).2
    · have := (htend (by omega)).1
      omega
    · rfl
    · rfl
  rw [if_neg hnext, if_neg hroot, hsep]
  have hup : (1 + ((common.length : ℤ) - 1) + 1).toNat = common.length + 1 := by omega
  have hdown : (1 + ((common.length : ℤ) - 1)).toNat = common.length := by omega
  rw [hup, hdown, hdrop, drop_succ_cons, drop_left]

theorem resolvedParts_eq {parts : List Text} (h : Proper slash parts) :
    resolvedParts (slash :: text slash parts) = parts := by
  have hempty : ([] : Text) ++ slash :: text slash parts = slash :: text slash parts := rfl
  rw [resolvedParts, ← hempty, splitOn_append_cons_self_of_not_mem not_mem_nil,
    filter_cons_of_neg (by simp), h.filter_splitOn]

theorem commonParts_append (cs fs ts : List Text) :
    commonParts (cs ++ fs) (cs ++ ts) = cs.length + commonParts fs ts := by
  induction cs with
  | nil => rw [nil_append, nil_append, length_nil, Nat.zero_add]
  | cons c cs ih =>
    rw [cons_append, cons_append, commonParts, if_pos rfl, ih, length_cons, Nat.add_right_comm]

theorem commonParts_self (ss : List Text) : commonParts ss ss = ss.length := by
  have := commonParts_append ss [] []
  rwa [append_nil] at this

/-- The path from some parts to others, as the Rust runtime spells it. -/
def climbText (fs ts : List Text) : Text :=
  text slash (replicate (fs.length - commonParts fs ts) [dot, dot] ++ ts.drop (commonParts fs ts))

theorem climbText_self (ss : List Text) : climbText ss ss = [] := by
  rw [climbText, commonParts_self, Nat.sub_self, drop_length]
  rfl

theorem climbText_append (cs : List Text) {fs ts : List Text} (h : commonParts fs ts = 0) :
    climbText (cs ++ fs) (cs ++ ts) = text slash (replicate fs.length [dot, dot] ++ ts) := by
  rw [climbText, commonParts_append, h, length_append, Nat.add_zero, Nat.add_sub_cancel_left, drop_left]

theorem relativeTail_eq {fs ts : List Text} (hf : Proper slash fs) (ht : Proper slash ts) (hne : fs ≠ ts) :
    relativeTail (slash :: text slash fs) (slash :: text slash ts) = climbText fs ts := by
  obtain ⟨cs, us, vs, rfl, rfl, hparts⟩ := exists_parting fs ts
  have hus := hf.of_append.2
  have hvs := ht.of_append.2
  by_cases hu : us = []
  · subst hu
    have hv : vs ≠ [] := fun hnil => hne (by rw [hnil])
    have hdown := relativeTail_down cs hvs hv
    have hnone : commonParts [] vs = 0 := rfl
    rw [climbText_append cs hnone, append_nil, hdown]
    rfl
  · by_cases hv : vs = []
    · subst hv
      have hnone : commonParts us [] = 0 := by cases us <;> rfl
      rw [climbText_append cs hnone, append_nil, append_nil]
      exact relativeTail_up hus hu
    · obtain ⟨f, t, us, vs, rfl, rfl, hft⟩ := (hparts.resolve_left hu).resolve_left hv
      have hnone : commonParts (f :: us) (t :: vs) = 0 := if_neg hft
      rw [climbText_append cs hnone, relativeTail_apart hus hvs hft, text_append (by simp) (by simp)]

theorem pathRelative_eq {cwd : Text} (hcwd : cwd.head? = some slash) (source target : JsString) :
    pathRelative cwd source target = climbText (resolvedOf cwd [source.toUtf8Lossy]) (resolvedOf cwd [target.toUtf8Lossy]) := by
  rw [pathRelative, pathResolve_eq hcwd, pathResolve_eq hcwd, resolvedParts_eq (proper_resolvedOf _ _),
    resolvedParts_eq (proper_resolvedOf _ _)]
  rfl

theorem relative_agrees {cwd : Text} (hcwd : cwd.head? = some slash) (source target : JsString) :
    scrPathRelative cwd source.toUtf8Lossy target.toUtf8Lossy =
      if source.toUtf8Lossy = target.toUtf8Lossy ∨
          Resolvable cwd [source.toUtf8Lossy] ∧ Resolvable cwd [target.toUtf8Lossy] then
        some (pathRelative cwd source target)
      else none := by
  rw [scrPathRelative, pathRelative_eq hcwd]
  by_cases hsame : source.toUtf8Lossy = target.toUtf8Lossy
  · rw [if_pos hsame, if_pos (.inl hsame), hsame, climbText_self]
  · rw [if_neg hsame, scrPathResolve_eq hcwd, scrPathResolve_eq hcwd]
    simp only [hsame, false_or]
    by_cases hsource : Resolvable cwd [source.toUtf8Lossy]
    · by_cases htarget : Resolvable cwd [target.toUtf8Lossy]
      · rw [if_pos hsource, if_pos htarget, if_pos ⟨hsource, htarget⟩, Option.bind_some, Option.map_some]
        by_cases heq : resolvedOf cwd [source.toUtf8Lossy] = resolvedOf cwd [target.toUtf8Lossy]
        · rw [heq, if_pos rfl, climbText_self]
        · have htexts : slash :: text slash (resolvedOf cwd [source.toUtf8Lossy]) ≠
              slash :: text slash (resolvedOf cwd [target.toUtf8Lossy]) := by
            intro htext
            have := congrArg resolvedParts htext
            rw [resolvedParts_eq (proper_resolvedOf _ _), resolvedParts_eq (proper_resolvedOf _ _)] at this
            exact heq this
          rw [if_neg htexts, relativeTail_eq (proper_resolvedOf _ _) (proper_resolvedOf _ _) heq]
      · rw [if_pos hsource, if_neg htarget, if_neg fun hand => htarget hand.2, Option.bind_some, Option.map_none]
    · rw [if_neg hsource, Option.bind_none, if_neg fun hand => hsource hand.1]

/-! ### All functions -/

theorem ite_eq_some {p : Prop} [Decidable p] {x : Text} : (if p then some x else none) = some x ↔ p := by
  by_cases h : p
  · simp [h]
  · simp [h]

/-- The C runtime returns what the Rust runtime does, and does not trap. -/
structure PathsAgree (cwd : Text) (path suffix source target : JsString) (parts : List JsString) : Prop where
  normalize : scrPathNormalize path.toUtf8Lossy = pathNormalize path
  join : scrPathJoin (parts.map JsString.toUtf8Lossy) = pathJoin parts
  resolve : scrPathResolve cwd (parts.map JsString.toUtf8Lossy) = some (pathResolve cwd parts)
  dirname : scrPathDirname path.toUtf8Lossy = pathDirname path
  basename : scrPathBasename path.toUtf8Lossy suffix.toUtf8Lossy = pathBasename path suffix
  extname : scrPathExtname path.toUtf8Lossy = pathExtname path
  relative : scrPathRelative cwd source.toUtf8Lossy target.toUtf8Lossy = some (pathRelative cwd source target)

/-- resolve and relative do not ask for a working directory too long for the C buffer. -/
def CwdServes (cwd : Text) (source target : JsString) (parts : List JsString) : Prop :=
  Resolvable cwd (parts.map JsString.toUtf8Lossy) ∧
    (source.toUtf8Lossy = target.toUtf8Lossy ∨
      Resolvable cwd [source.toUtf8Lossy] ∧ Resolvable cwd [target.toUtf8Lossy])

instance (cwd : Text) (source target : JsString) (parts : List JsString) :
    Decidable (CwdServes cwd source target parts) := inferInstanceAs (Decidable (_ ∧ (_ ∨ _ ∧ _)))

end Scriptc.PosixPath
