import Scriptc.Runtime.ScrPath

/-!
# dirname, basename and extname

The C scanners run from the last byte of a path to the first. Each reads the separators at the end,
then the last component, then one separator before it; what it has found behind each of the three says
what it returns. With a suffix, basename differs between the runtimes.
-/

namespace Scriptc.PosixPath

open Segments List Option

/-! ### dirname -/

theorem scrDirnameLoop_eq (p : Text) (i : ℕ) (matchedSlash : Bool) :
    scrDirnameLoop p i matchedSlash = ((dirnameLoop p i matchedSlash).map Nat.cast).getD (-1) := by
  induction i generalizing matchedSlash with
  | zero => rfl
  | succ i ih =>
    rw [scrDirnameLoop, dirnameLoop]
    split_ifs
    · rfl
    · exact ih _
    · exact ih _

theorem dirname_agrees (path : JsString) : scrPathDirname path.toUtf8Lossy = pathDirname path := by
  rw [scrPathDirname, pathDirname]
  generalize path.toUtf8Lossy = bytes
  simp only [length_eq_zero_iff, scrDirnameLoop_eq]
  by_cases hnil : bytes = []
  · rw [if_pos hnil, if_pos hnil]
  · rw [if_neg hnil, if_neg hnil]
    cases dirnameLoop bytes (bytes.length - 1) true with
    | none => simp
    | some stop =>
      have hstop : ¬(stop : ℤ) = -1 := by omega
      have hone : (stop : ℤ) = 1 ↔ stop = 1 := by omega
      simp only [map_some, getD_some, hstop, if_false, Int.toNat_natCast, hone, and_comm]

/-! ### The scan for the last component -/

section Scan

variable {path before last : Text} {n : ℕ}

theorem nameLoop_slashes (n : ℕ) (rest : Text) (stop : ℤ) :
    nameLoop (replicate n slash ++ rest) stop true = nameLoop rest stop true := by
  induction n with
  | zero => rfl
  | succ n ih =>
    rw [replicate_succ, cons_append, nameLoop, if_pos rfl, if_neg (by simp), ih]

theorem nameLoop_named {w : Text} (h : slash ∉ w) (rest : Text) {stop : ℤ} (hstop : stop ≠ -1) (matchedSlash : Bool) :
    nameLoop (w ++ rest) stop matchedSlash = nameLoop rest stop matchedSlash := by
  induction w with
  | nil => rfl
  | cons c w ih =>
    have hc : c ≠ slash := fun heq => h (heq ▸ mem_cons_self ..)
    rw [cons_append, nameLoop, if_neg hc, if_neg hstop, ih fun hw => h (mem_cons_of_mem _ hw)]

/-- One separator before the component, or the beginning of the path. -/
theorem nameLoop_before (h : before = [] ∨ ∃ u, before = u ++ [slash]) (stop : ℤ) :
    nameLoop before.reverse stop false = (before.length, stop) := by
  rcases h with rfl | ⟨u, rfl⟩
  · rfl
  · rw [reverse_append, reverse_singleton, singleton_append, nameLoop, if_pos rfl, if_pos (by simp)]
    simp

theorem slice_ending (h : Ending slash path before last n) (k : ℕ) :
    slice path (before.length + k) (before.length + last.length) = last.drop k := by
  rw [slice, h.text_eq, ← length_append, take_left, drop_append]
  simp

theorem nameLoop_ending (h : Ending slash path before last n) (hlast : last ≠ []) :
    nameLoop path.reverse (-1) true = (before.length, (before.length : ℤ) + last.length) := by
  rw [h.reverse_eq, nameLoop_slashes]
  obtain ⟨c, w, hw⟩ := exists_cons_of_ne_nil (fun hnil => hlast (reverse_eq_nil_iff.mp hnil))
  have hmem : slash ∉ c :: w := hw ▸ fun hin => h.not_mem (mem_reverse.mp hin)
  have hc : c ≠ slash := fun heq => hmem (heq ▸ mem_cons_self ..)
  have hlength : last.length = w.length + 1 := by rw [← length_reverse, hw, length_cons]
  rw [hw, cons_append, nameLoop, if_neg hc, if_pos rfl,
    nameLoop_named (fun hin => hmem (mem_cons_of_mem _ hin)) _ (by omega), nameLoop_before h.before_eq,
    length_append, length_reverse, hlength]
  congr 1
  omega

/-- A path of separators only. -/
theorem nameLoop_nil (h : Ending slash path before [] n) : nameLoop path.reverse (-1) true = (0, -1) := by
  rw [h.reverse_eq, h.of_last rfl, nameLoop_slashes]
  rfl

/-- basename without a suffix, or with one that is longer than the path. -/
theorem scrPathBasename_plain (h : Ending slash path before last n) {suffix : Text}
    (hsuffix : ¬(0 < suffix.length ∧ suffix.length ≤ path.length)) : scrPathBasename path suffix = last := by
  rw [scrPathBasename, if_neg hsuffix]
  by_cases hlast : last = []
  · subst hlast
    rw [nameLoop_nil h]
    rfl
  · have hstop : ¬(before.length : ℤ) + last.length = -1 := by omega
    have hslice := slice_ending h 0
    rw [nameLoop_ending h hlast]
    simp only [hstop, if_false]
    rwa [drop_zero, Nat.add_zero] at hslice

/-! ### The scan for a suffix -/

variable {s : SuffixScan}

theorem suffixLoop_slashes (n : ℕ) (rest : Text) (h : s.matchedSlash = true) :
    suffixLoop (replicate n slash ++ rest) s = suffixLoop rest s := by
  induction n with
  | zero => rfl
  | succ n ih => rw [replicate_succ, cons_append, suffixLoop, if_pos rfl, h, if_neg (by simp), ih]

theorem suffixLoop_cons {c : UInt8} (hc : c ≠ slash) (rest : Text) (h : s.firstNonSlashEnd ≠ -1) :
    suffixLoop (c :: rest) s = suffixLoop rest (s.matchExt c rest.length) := by
  rw [suffixLoop, if_neg hc, SuffixScan.name, if_neg h]

/-- With nothing left to match the scan only looks for a separator. -/
theorem suffixLoop_matched {w : Text} (hw : slash ∉ w) (rest : Text) (h : s.firstNonSlashEnd ≠ -1)
    (hext : s.ext = []) : suffixLoop (w ++ rest) s = suffixLoop rest s := by
  induction w with
  | nil => rfl
  | cons c w ih =>
    have hc : c ≠ slash := fun heq => hw (heq ▸ mem_cons_self ..)
    rw [cons_append, suffixLoop_cons hc _ h, SuffixScan.matchExt, hext]
    exact ih fun hin => hw (mem_cons_of_mem _ hin)

/-- Bytes that the suffix has too. -/
theorem suffixLoop_common {w ext : Text} (hw : slash ∉ w) (rest : Text) (h : s.firstNonSlashEnd ≠ -1)
    (hext : s.ext = w ++ ext) (hne : w ≠ []) :
    suffixLoop (w ++ rest) s = suffixLoop rest { s with ext, stop := if ext = [] then rest.length else s.stop } := by
  induction w generalizing s with
  | nil => exact absurd rfl hne
  | cons c w ih =>
    have hc : c ≠ slash := fun heq => hw (heq ▸ mem_cons_self ..)
    rw [cons_append, suffixLoop_cons hc _ h, SuffixScan.matchExt, hext, cons_append]
    simp only [if_true]
    by_cases hempty : w = []
    · rw [hempty]
      rfl
    · have hmore : ¬w ++ ext = [] := by simp [hempty]
      simp only [hmore, if_false]
      exact ih (fun hin => hw (mem_cons_of_mem _ hin)) h rfl hempty

/-- Bytes that the suffix has too, and more before them. -/
theorem suffixLoop_within {w ext : Text} (hw : slash ∉ w) (rest : Text) (h : s.firstNonSlashEnd ≠ -1)
    (hext : s.ext = w ++ ext) (hne : ext ≠ []) : suffixLoop (w ++ rest) s = suffixLoop rest { s with ext } := by
  by_cases hempty : w = []
  · rw [hempty, nil_append] at hext
    rw [hempty, nil_append, ← hext]
  · rw [suffixLoop_common hw rest h hext hempty, if_neg hne]

/-- A byte that the suffix does not have there. -/
theorem suffixLoop_other {x y : UInt8} {w ext : Text} (hw : slash ∉ x :: w) (rest : Text)
    (h : s.firstNonSlashEnd ≠ -1) (hext : s.ext = y :: ext) (hne : x ≠ y) :
    suffixLoop (x :: w ++ rest) s = suffixLoop rest { s with ext := [], stop := s.firstNonSlashEnd } := by
  have hx : x ≠ slash := fun heq => hw (heq ▸ mem_cons_self ..)
  rw [cons_append, suffixLoop_cons hx _ h, SuffixScan.matchExt, hext]
  simp only [hne, if_false]
  exact suffixLoop_matched (fun hin => hw (mem_cons_of_mem _ hin)) rest h rfl

theorem suffixLoop_before (h : before = [] ∨ ∃ u, before = u ++ [slash]) (hstart : s.start = 0)
    (hmatched : s.matchedSlash = false) : suffixLoop before.reverse s = { s with start := before.length } := by
  rcases h with rfl | ⟨u, rfl⟩
  · rw [length_nil, ← hstart]
    rfl
  · rw [reverse_append, reverse_singleton, singleton_append, suffixLoop, if_pos rfl, hmatched,
      if_pos (by simp)]
    simp

/-- The scan behind the first byte of the component is the one that has seen it from the start. -/
theorem suffixLoop_name {w rest ext : Text} (hw : slash ∉ w) (hne : w ≠ []) :
    suffixLoop (w ++ rest) ⟨0, -1, true, ext, -1⟩ =
      suffixLoop (w ++ rest) ⟨0, -1, false, ext, w.length + rest.length⟩ := by
  obtain ⟨c, w, rfl⟩ := exists_cons_of_ne_nil hne
  have hc : c ≠ slash := fun heq => hw (heq ▸ mem_cons_self ..)
  rw [cons_append, suffixLoop, if_neg hc, suffixLoop_cons hc]
  · congr 2
    simp only [SuffixScan.name, if_true, length_append, length_cons, SuffixScan.mk.injEq, true_and]
    push_cast
    omega
  · simp only
    omega

/-- Where the scan ends a name: at the suffix, nowhere or at the end of the component. -/
def suffixStop (before last suffix : Text) : ℤ :=
  if suffix <:+ last then before.length + (last.length - suffix.length)
  else if last <:+ suffix then -1
  else before.length + last.length

theorem suffixLoop_ending (h : Ending slash path before last n) (hlast : last ≠ []) {suffix : Text}
    (hsuffix : suffix ≠ []) :
    ∃ ext, suffixLoop path.reverse ⟨0, -1, true, suffix.reverse, -1⟩ =
      ⟨before.length, suffixStop before last suffix, false, ext, before.length + last.length⟩ := by
  have hmem : slash ∉ last.reverse := fun hin => h.not_mem (mem_reverse.mp hin)
  have hnil : last.reverse ≠ [] := fun heq => hlast (reverse_eq_nil_iff.mp heq)
  obtain ⟨p, u, v, hl, hs, hparts⟩ := exists_parting last.reverse suffix.reverse
  have hpu : slash ∉ p ∧ slash ∉ u := by simpa [hl] using hmem
  have hlength : last.length = p.length + u.length := by rw [← length_reverse, hl, length_append]
  have hsuffixLength : suffix.length = p.length + v.length := by rw [← length_reverse, hs, length_append]
  have hin : suffix <:+ last ↔ v <+: u := by rw [← reverse_prefix, hl, hs, prefix_append_right_inj]
  have hout : last <:+ suffix ↔ u <+: v := by rw [← reverse_prefix, hl, hs, prefix_append_right_inj]
  have hend : ((last.reverse.length : ℤ) + before.reverse.length) = before.length + last.length := by
    rw [length_reverse, length_reverse]
    omega
  have hfound : (before.length + last.length : ℤ) ≠ -1 := by omega
  rw [h.reverse_eq, suffixLoop_slashes _ _ rfl, suffixLoop_name hmem hnil, hend, hl, append_assoc, hs]
  by_cases hv : v = []
  · subst hv
    have hp : p ≠ [] := by
      rintro rfl
      exact hsuffix (reverse_eq_nil_iff.mp hs)
    have hstop : suffixStop before last suffix = (u ++ before.reverse).length := by
      rw [suffixStop, if_pos (hin.mpr nil_prefix), hlength, hsuffixLength, length_append,
        length_reverse, length_nil]
      omega
    rw [suffixLoop_common hpu.1 _ hfound rfl hp, suffixLoop_matched hpu.2 _ hfound rfl,
      suffixLoop_before h.before_eq rfl rfl, hstop]
    exact ⟨_, rfl⟩
  · rw [suffixLoop_within hpu.1 _ hfound rfl hv]
    by_cases hu : u = []
    · subst hu
      have hnot : ¬v <+: [] := fun hpre => hv (prefix_nil.mp hpre)
      have hstop : suffixStop before last suffix = -1 := by
        rw [suffixStop, if_neg (fun hsub => hnot (hin.mp hsub)), if_pos (hout.mpr nil_prefix)]
      rw [nil_append, suffixLoop_before h.before_eq rfl rfl, hstop]
      exact ⟨_, rfl⟩
    · obtain ⟨x, y, u, v, rfl, rfl, hxy⟩ := (hparts.resolve_left hu).resolve_left hv
      have hnotIn : ¬suffix <:+ last := fun hsub => hxy (cons_prefix_cons.mp (hin.mp hsub)).1.symm
      have hnotOut : ¬last <:+ suffix := fun hsub => hxy (cons_prefix_cons.mp (hout.mp hsub)).1
      have hstop : suffixStop before last suffix = before.length + last.length := by
        rw [suffixStop, if_neg hnotIn, if_neg hnotOut]
      rw [suffixLoop_other hpu.2 _ hfound rfl hxy, suffixLoop_before h.before_eq rfl rfl, hstop]
      exact ⟨_, rfl⟩

theorem scrPathBasename_suffix (h : Ending slash path before last n) (hlast : last ≠ []) {suffix : Text}
    (hsuffix : 0 < suffix.length ∧ suffix.length ≤ path.length) (hne : suffix ≠ path) :
    scrPathBasename path suffix =
      if suffix <:+ last then (if suffix = last then last else last.take (last.length - suffix.length))
      else if last <:+ suffix then last ++ replicate n slash else last := by
  obtain ⟨ext, hloop⟩ := suffixLoop_ending h hlast (length_pos_iff.mp hsuffix.1)
  have hpos := length_pos_iff.mpr hlast
  have hall : slice path before.length (before.length + last.length) = last := by
    have := slice_ending h 0
    rwa [drop_zero, Nat.add_zero] at this
  rw [scrPathBasename, if_pos hsuffix, if_neg fun hand => hne hand.2, hloop]
  simp only [suffixStop]
  by_cases hin : suffix <:+ last
  · have hle := hin.length_le
    simp only [if_pos hin]
    by_cases heq : suffix = last
    · rw [if_pos heq, heq, if_pos (by omega)]
      exact hall
    · have hlt : suffix.length < last.length := by
        refine Nat.lt_of_le_of_ne hle fun hlen => heq ?_
        exact hin.eq_of_length hlen
      have hstop : ((before.length : ℤ) + (last.length - suffix.length)).toNat =
          before.length + (last.length - suffix.length) := by omega
      rw [if_neg heq, if_neg (by omega), if_neg (by omega), hstop, slice, h.text_eq, append_assoc,
        take_length_add_append, drop_left, take_append_of_le_length (Nat.sub_le ..)]
  · simp only [if_neg hin]
    by_cases hout : last <:+ suffix
    · simp only [if_pos hout]
      rw [if_neg (by omega), if_pos trivial, Int.toNat_natCast, slice, take_length, h.text_eq, append_assoc,
        drop_left]
    · simp only [if_neg hout]
      rw [if_neg (by omega), if_neg (by omega)]
      exact hall

/-- The scan finds no end in a path of separators and returns the whole of it. -/
theorem scrPathBasename_slashes (h : Ending slash path before [] n) {suffix : Text}
    (hsuffix : 0 < suffix.length ∧ suffix.length ≤ path.length) (hne : suffix ≠ path) :
    scrPathBasename path suffix = path := by
  have hloop : suffixLoop path.reverse ⟨0, -1, true, suffix.reverse, -1⟩ = ⟨0, -1, true, suffix.reverse, -1⟩ := by
    rw [h.reverse_eq, h.of_last rfl, suffixLoop_slashes _ _ rfl]
    rfl
  rw [scrPathBasename, if_pos hsuffix, if_neg fun hand => hne hand.2, hloop]
  simp [slice]

/-! ### The two basenames -/

/-- A suffix that both runtimes treat alike: there is none to cut, or it is the whole path, or it cannot be
mistaken for the component with what stands before it. -/
def SuffixHarmless (path suffix : JsString) : Prop :=
  let name := path.toUtf8Lossy
  let ending := suffix.toUtf8Lossy
  let trimmed := trimEnd name
  let last := lastPart trimmed
  ¬(0 < ending.length ∧ ending.length ≤ name.length) ∨
    ending = name ∧ (last = [] ∨ suffix.eqStr trimmed) ∨
    ending ≠ name ∧ (trimmed = name ∨ suffix.eqStr trimmed = false ∧ (last <:+ ending → last = ending))

instance (path suffix : JsString) : Decidable (SuffixHarmless path suffix) :=
  inferInstanceAs (Decidable (¬(_ ∧ _) ∨ (_ ∧ (_ ∨ _)) ∨ (_ ≠ _ ∧ (_ ∨ (_ ∧ (_ → _))))))

theorem JsString.eq_of_eqStr {s : JsString} {text : Text} (h : s.eqStr text = true) : s.toUtf8Lossy = text := by
  cases s with
  | utf8 own => simpa [eqStr, toUtf8Lossy] using h
  | utf16 units => simp [eqStr] at h

theorem pathBasename_ending {path : JsString} (suffix : JsString) (h : Ending slash path.toUtf8Lossy before last n) :
    pathBasename path suffix =
      if suffix.toUtf8Lossy ≠ [] ∧ suffix.eqStr (before ++ last) then []
      else if suffix.toUtf8Lossy ≠ [] ∧ suffix.toUtf8Lossy.length < last.length ∧ suffix.toUtf8Lossy <:+ last then
        last.take (last.length - suffix.toUtf8Lossy.length)
      else last := by
  rw [pathBasename, trimEnd, h.trimmed, lastPart, h.component]

/-- Where nothing is cut, as the suffix is no end of the component. -/
theorem basename_agrees_plain {path suffix : JsString} (h : Ending slash path.toUtf8Lossy before last n)
    (hsuffix : ¬(0 < suffix.toUtf8Lossy.length ∧ suffix.toUtf8Lossy.length ≤ path.toUtf8Lossy.length)) :
    scrPathBasename path.toUtf8Lossy suffix.toUtf8Lossy = pathBasename path suffix := by
  have hlength : path.toUtf8Lossy.length = before.length + last.length + n := by
    rw [h.text_eq, length_append, length_append, length_replicate]
  rw [scrPathBasename_plain h hsuffix, pathBasename_ending suffix h, if_neg, if_neg]
  · rintro ⟨hne, hlt, -⟩
    have := length_pos_iff.mpr hne
    omega
  · rintro ⟨hne, heq⟩
    have hlong : suffix.toUtf8Lossy.length = before.length + last.length := by
      rw [JsString.eq_of_eqStr heq, length_append]
    have := length_pos_iff.mpr hne
    omega

theorem basename_agrees_whole {path suffix : JsString} (h : Ending slash path.toUtf8Lossy before last n)
    (hsuffix : 0 < suffix.toUtf8Lossy.length) (heq : suffix.toUtf8Lossy = path.toUtf8Lossy) :
    scrPathBasename path.toUtf8Lossy suffix.toUtf8Lossy = pathBasename path suffix ↔
      last = [] ∨ suffix.eqStr (before ++ last) := by
  have hscr : scrPathBasename path.toUtf8Lossy suffix.toUtf8Lossy = [] := by
    rw [scrPathBasename, heq, if_pos ⟨heq ▸ hsuffix, Nat.le_refl _⟩, if_pos ⟨rfl, rfl⟩]
  have hlong : ¬suffix.toUtf8Lossy.length < last.length := by
    rw [heq, h.text_eq]
    simp
    omega
  rw [hscr, pathBasename_ending suffix h]
  by_cases hsame : suffix.eqStr (before ++ last) = true
  · rw [if_pos ⟨length_pos_iff.mp hsuffix, hsame⟩]
    simp [hsame]
  · rw [if_neg fun hand => hsame hand.2, if_neg fun hand => hlong hand.2.1, or_iff_left hsame]
    exact eq_comm

theorem basename_agrees_part {path suffix : JsString} (h : Ending slash path.toUtf8Lossy before last n)
    (hsuffix : 0 < suffix.toUtf8Lossy.length ∧ suffix.toUtf8Lossy.length ≤ path.toUtf8Lossy.length)
    (hne : suffix.toUtf8Lossy ≠ path.toUtf8Lossy) :
    scrPathBasename path.toUtf8Lossy suffix.toUtf8Lossy = pathBasename path suffix ↔
      n = 0 ∨ suffix.eqStr (before ++ last) = false ∧ (last <:+ suffix.toUtf8Lossy → last = suffix.toUtf8Lossy) := by
  have hsome := length_pos_iff.mp hsuffix.1
  have hpath := h.text_eq
  generalize hending : suffix.toUtf8Lossy = ending at *
  by_cases hlast : last = []
  · subst hlast
    have hn : n ≠ 0 := by
      rintro rfl
      have hle := hsuffix.2
      rw [hpath, h.of_last rfl] at hle
      exact hsome (length_eq_zero_iff.mp (Nat.le_zero.mp hle))
    have hnot : ¬suffix.eqStr (before ++ []) = true := by
      intro heq
      rw [h.of_last rfl] at heq
      exact hsome (hending ▸ JsString.eq_of_eqStr heq)
    rw [scrPathBasename_slashes h hsuffix hne, pathBasename_ending suffix h, if_neg fun hand => hnot hand.2,
      if_neg (by simp)]
    simp [hn, hpath, Ne.symm hsome]
  · have hscr := scrPathBasename_suffix h hlast hsuffix hne
    have hrust := pathBasename_ending suffix h
    rw [hending] at hrust
    have hkept : last ++ replicate n slash = last ↔ n = 0 := by simp
    by_cases hsame : suffix.eqStr (before ++ last) = true
    · -- The Rust runtime takes the suffix for the whole path.
      have heq : ending = before ++ last := hending ▸ JsString.eq_of_eqStr hsame
      have hout : last <:+ ending := heq ▸ suffix_append before last
      have hn : n ≠ 0 := by
        rintro rfl
        exact hne (by rw [heq, hpath]; simp)
      rw [if_pos ⟨hsome, hsame⟩] at hrust
      have hdiffer : scrPathBasename path.toUtf8Lossy ending ≠ [] := by
        rw [hscr]
        split_ifs with hin hwhole
        · exact hlast
        · exact absurd (hin.eq_of_length_le hout.length_le) hwhole
        · simp [hlast]
      rw [hrust]
      refine iff_of_false hdiffer ?_
      simp [hn, hsame]
    · rw [if_neg fun hand => hsame hand.2] at hrust
      by_cases hin : ending <:+ last
      · have hwhole : last <:+ ending → last = ending := fun hout => hout.eq_of_length_le hin.length_le
        refine iff_of_true ?_ (.inr ⟨by simpa using hsame, hwhole⟩)
        rw [hscr, hrust, if_pos hin]
        by_cases heq : ending = last
        · rw [if_pos heq, if_neg (by simp [heq])]
        · have hlt : ending.length < last.length :=
            Nat.lt_of_le_of_ne hin.length_le fun hlen => heq (hin.eq_of_length hlen)
          rw [if_neg heq, if_pos ⟨hsome, hlt, hin⟩]
      · rw [if_neg hin] at hscr
        rw [if_neg fun hand => hin hand.2.2] at hrust
        rw [hscr, hrust]
        by_cases hout : last <:+ ending
        · have hother : last ≠ ending := fun heq => hin (heq ▸ suffix_refl _)
          rw [if_pos hout, hkept]
          simp [hout, hother]
        · rw [if_neg hout]
          simp [hout, hsame]

theorem basename_agrees_iff (path suffix : JsString) :
    scrPathBasename path.toUtf8Lossy suffix.toUtf8Lossy = pathBasename path suffix ↔ SuffixHarmless path suffix := by
  obtain ⟨before, last, n, h⟩ := exists_ending slash path.toUtf8Lossy
  have htrimmed : before ++ last = path.toUtf8Lossy ↔ n = 0 := by
    rw [h.text_eq]
    simp
  simp only [SuffixHarmless, trimEnd, h.trimmed, lastPart, h.component, htrimmed]
  by_cases hsuffix : 0 < suffix.toUtf8Lossy.length ∧ suffix.toUtf8Lossy.length ≤ path.toUtf8Lossy.length
  · by_cases heq : suffix.toUtf8Lossy = path.toUtf8Lossy
    · rw [basename_agrees_whole h hsuffix.1 heq]
      simp only [heq ▸ hsuffix, heq, and_self, not_true_eq_false, false_or, ne_eq, false_and, or_false, true_and]
    · rw [basename_agrees_part h hsuffix heq]
      simp only [hsuffix, heq, and_self, not_true_eq_false, false_or, ne_eq, false_and, not_false_eq_true, true_and]
  · exact iff_of_true (basename_agrees_plain h hsuffix) (.inl hsuffix)

/-! ### extname -/

variable {s : ExtScan}

theorem extLoop_slashes (n : ℕ) (rest : Text) (h : s.matchedSlash = true) :
    extLoop (replicate n slash ++ rest) s = extLoop rest s := by
  induction n with
  | zero => rfl
  | succ n ih => rw [replicate_succ, cons_append, extLoop, if_pos rfl, h, if_neg (by simp), ih]

theorem extLoop_cons {c : UInt8} (hc : c ≠ slash) (rest : Text) (h : s.stop ≠ -1) :
    extLoop (c :: rest) s = extLoop rest (s.char c rest.length) := by
  rw [extLoop, if_neg hc, ExtScan.name, if_neg h]

theorem extLoop_before (h : before = [] ∨ ∃ u, before = u ++ [slash]) (hstart : s.startPart = 0)
    (hmatched : s.matchedSlash = false) : extLoop before.reverse s = { s with startPart := before.length } := by
  rcases h with rfl | ⟨u, rfl⟩
  · rw [length_nil, ← hstart]
    rfl
  · rw [reverse_append, reverse_singleton, singleton_append, extLoop, if_pos rfl, hmatched,
      if_pos (by simp)]
    simp

/-- Behind the last dot the scan changes nothing. -/
theorem extLoop_plain {w : Text} (hw : slash ∉ w) (hdot : dot ∉ w) (rest : Text) (h : s.stop ≠ -1)
    (hnone : s.startDot = -1) : extLoop (w ++ rest) s = extLoop rest s := by
  induction w with
  | nil => rfl
  | cons c w ih =>
    have hc : c ≠ slash := fun heq => hw (heq ▸ mem_cons_self ..)
    have hcdot : c ≠ dot := fun heq => hdot (heq ▸ mem_cons_self ..)
    rw [cons_append, extLoop_cons hc _ h, ExtScan.char, if_neg hcdot, if_neg (by simp [hnone])]
    exact ih (fun hin => hw (mem_cons_of_mem _ hin)) fun hin => hdot (mem_cons_of_mem _ hin)

/-- What `pre_dot_state` says of the bytes before the last dot, read from the last one to the first. -/
def preDot (w : Text) (state : ℤ) : ℤ := (w.getLast?.map fun c => if c = dot then 1 else -1).getD state

theorem preDot_cons (c : UInt8) (w : Text) (state : ℤ) :
    preDot (c :: w) state = preDot w (if c = dot then 1 else -1) := by
  rcases eq_nil_or_concat' w with rfl | ⟨u, d, rfl⟩
  · rfl
  · rw [preDot, preDot, ← cons_append, getLast?_append_of_ne_nil _ (by simp),
      getLast?_append_of_ne_nil _ (by simp)]
    rfl

theorem extLoop_dotted {w : Text} (hw : slash ∉ w) (rest : Text) (h : s.stop ≠ -1)
    (hsome : s.startDot ≠ -1) :
    extLoop (w ++ rest) s = extLoop rest { s with preDotState := preDot w s.preDotState } := by
  induction w generalizing s with
  | nil => rfl
  | cons c w ih =>
    have hc : c ≠ slash := fun heq => hw (heq ▸ mem_cons_self ..)
    have hchar : s.char c (w ++ rest).length = { s with preDotState := if c = dot then 1 else -1 } := by
      rw [ExtScan.char]
      by_cases hdot : c = dot
      · rw [if_pos hdot, if_neg hsome, if_pos hdot]
        split_ifs with hone
        · rfl
        · rw [not_not] at hone
          rw [← hone]
      · rw [if_neg hdot, if_pos hsome, if_neg hdot]
    have hnext : slash ∉ w := fun hin => hw (mem_cons_of_mem _ hin)
    rw [cons_append, extLoop_cons hc _ h, hchar, preDot_cons]
    exact ih hnext h hsome

/-- The first byte read of the component marks its end. -/
theorem extLoop_name {w rest : Text} (hw : slash ∉ w) (hne : w ≠ []) :
    extLoop (w ++ rest) ⟨-1, 0, -1, true, 0⟩ = extLoop (w ++ rest) ⟨-1, 0, w.length + rest.length, false, 0⟩ := by
  obtain ⟨c, w, rfl⟩ := exists_cons_of_ne_nil hne
  have hc : c ≠ slash := fun heq => hw (heq ▸ mem_cons_self ..)
  rw [cons_append, extLoop, if_neg hc, extLoop_cons hc]
  · congr 2
    simp only [ExtScan.name, if_true, length_append, length_cons, ExtScan.mk.injEq, true_and, and_true]
    push_cast
    omega
  · simp only
    omega

theorem extLoop_ending (h : Ending slash path before last n) (hlast : last ≠ []) :
    extLoop path.reverse ⟨-1, 0, -1, true, 0⟩ =
      extLoop (last.reverse ++ before.reverse) ⟨-1, 0, before.length + last.length, false, 0⟩ := by
  have hmem : slash ∉ last.reverse := fun hin => h.not_mem (mem_reverse.mp hin)
  have hnil : last.reverse ≠ [] := fun heq => hlast (reverse_eq_nil_iff.mp heq)
  have hend : ((last.reverse.length : ℤ) + before.reverse.length) = before.length + last.length := by
    rw [length_reverse, length_reverse]
    omega
  rw [h.reverse_eq, extLoop_slashes _ _ rfl, extLoop_name hmem hnil, hend]

/-- A component without a dot has no extension. -/
theorem scrPathExtname_plain (h : Ending slash path before last n) (hdot : dot ∉ last) :
    scrPathExtname path = [] := by
  have hstart : (extLoop path.reverse ⟨-1, 0, -1, true, 0⟩).startDot = -1 := by
    by_cases hlast : last = []
    · subst hlast
      rw [h.reverse_eq, h.of_last rfl, extLoop_slashes _ _ rfl]
      rfl
    · have hmem : slash ∉ last.reverse := fun hin => h.not_mem (mem_reverse.mp hin)
      have hnone : dot ∉ last.reverse := fun hin => hdot (mem_reverse.mp hin)
      have hstop : (before.length + last.length : ℤ) ≠ -1 := by omega
      rw [extLoop_ending h hlast, extLoop_plain hmem hnone _ hstop rfl, extLoop_before h.before_eq rfl rfl]
  rw [scrPathExtname]
  exact if_pos (.inl hstart)

theorem preDot_reverse (u : Text) (state : ℤ) :
    preDot u.reverse state = (u.head?.map fun c => if c = dot then 1 else -1).getD state := by
  rw [preDot, List.getLast?_reverse]

/-- The extension begins with the last dot, unless the component does or is "..". -/
theorem scrPathExtname_dotted {u v : Text} (h : Ending slash path before (u ++ dot :: v) n) (hv : dot ∉ v) :
    scrPathExtname path = if u = [] ∨ u ++ dot :: v = [dot, dot] then [] else dot :: v := by
  have hmem : slash ∉ u ∧ slash ∉ v := by
    have := h.not_mem
    simp only [mem_append, mem_cons, not_or] at this
    exact ⟨this.1, this.2.2⟩
  have hlength : (u ++ dot :: v).length = u.length + v.length + 1 := by
    rw [length_append, length_cons, Nat.add_assoc]
  have hstop : (before.length + (u ++ dot :: v).length : ℤ) ≠ -1 := by omega
  have hdotslash : dot ≠ slash := by decide
  have hloop : extLoop path.reverse ⟨-1, 0, -1, true, 0⟩ =
      ⟨before.length + u.length, before.length, before.length + (u ++ dot :: v).length, false,
        preDot u.reverse 0⟩ := by
    have hrev : (u ++ dot :: v).reverse ++ before.reverse =
        v.reverse ++ (dot :: (u.reverse ++ before.reverse)) := by simp
    have hv' : slash ∉ v.reverse ∧ dot ∉ v.reverse := by simpa using ⟨hmem.2, hv⟩
    have hu' : slash ∉ u.reverse := by simpa using hmem.1
    rw [extLoop_ending h (by simp), hrev, extLoop_plain hv'.1 hv'.2 _ hstop rfl, extLoop_cons hdotslash _ hstop,
      ExtScan.char, if_pos rfl, if_pos rfl, extLoop_dotted hu' _ hstop (by simp only; omega),
      extLoop_before h.before_eq rfl rfl]
    simp [Int.add_comm]
  have hslice := slice_ending h u.length
  rw [drop_left] at hslice
  have hpre : preDot u.reverse 0 = 0 ↔ u = [] := by
    rw [preDot_reverse]
    cases u with
    | nil => simp
    | cons c u =>
      simp only [List.head?_cons, map_some, getD_some]
      split_ifs <;> simp
  have hdots : preDot u.reverse 0 = 1 ∧ (before.length + u.length : ℤ) = before.length + (u ++ dot :: v).length - 1 ∧
      (before.length + u.length : ℤ) = before.length + 1 ↔ u ++ dot :: v = [dot, dot] := by
    rw [preDot_reverse, hlength]
    cases u with
    | nil =>
      have hne : v ≠ [dot] := fun heq => hv (by simp [heq])
      simp [hne]
    | cons c u =>
      simp only [List.head?_cons, map_some, getD_some]
      constructor
      · rintro ⟨hc, hlen, hone⟩
        have hcdot : c = dot := by
          by_contra hne
          rw [if_neg hne] at hc
          omega
        have hu : u = [] := by
          rw [← length_eq_zero_iff]
          simp only [length_cons] at hone
          omega
        have hvnil : v = [] := by
          rw [← length_eq_zero_iff]
          omega
        rw [hcdot, hu, hvnil]
        rfl
      · intro heq
        simp only [cons_append, List.cons.injEq] at heq
        obtain ⟨hc, hrest⟩ := heq
        have hu : u = [] := by
          have := congrArg List.length hrest
          simp only [length_append, length_cons, length_nil] at this
          exact length_eq_zero_iff.mp (by omega)
        subst hu
        simp only [nil_append, List.cons.injEq, true_and] at hrest
        rw [if_pos hc, hrest]
        exact ⟨rfl, by simp only [length_cons, length_nil]; omega, by simp⟩
  rw [scrPathExtname, hloop]
  simp only
  by_cases hnone : u = [] ∨ u ++ dot :: v = [dot, dot]
  · rw [if_pos hnone, if_pos]
    exact hnone.elim (fun hu => .inr (.inr (.inl (hpre.mpr hu)))) fun heq => .inr (.inr (.inr (hdots.mpr heq)))
  · rw [if_neg hnone, if_neg]
    · have hstart : ((before.length : ℤ) + u.length).toNat = before.length + u.length := by omega
      have hend : ((before.length : ℤ) + (u ++ dot :: v).length).toNat = before.length + (u ++ dot :: v).length := by
        omega
      rw [hstart, hend, hslice]
    · rintro (hminus | hminus | hzero | htwo)
      · omega
      · omega
      · exact hnone (.inl (hpre.mp hzero))
      · exact hnone (.inr (hdots.mp htwo))

theorem exists_last_dot {name : Text} (h : dot ∈ name) : ∃ u v, name = u ++ dot :: v ∧ dot ∉ v := by
  obtain ⟨v, u, hsplit, hv⟩ := eq_append_cons_of_mem (mem_reverse.mpr h)
  refine ⟨u.reverse, v.reverse, ?_, by simpa using hv⟩
  rw [← reverse_reverse name, hsplit]
  simp

theorem rfindDot_eq {u v : Text} (hv : dot ∉ v) : rfindDot (u ++ dot :: v) = some u.length := by
  have hindex : (u ++ dot :: v).reverse.idxOf dot = v.length := by
    rw [reverse_append, reverse_cons, append_assoc, idxOf_append_of_notMem (by simpa using hv)]
    simp
  rw [rfindDot, if_pos (by simp), hindex]
  simp

theorem extname_agrees (path : JsString) : scrPathExtname path.toUtf8Lossy = pathExtname path := by
  obtain ⟨before, last, n, h⟩ := exists_ending slash path.toUtf8Lossy
  rw [pathExtname, trimEnd, h.trimmed, lastPart, h.component]
  by_cases hdot : dot ∈ last
  · obtain ⟨u, v, rfl, hv⟩ := exists_last_dot hdot
    rw [scrPathExtname_dotted h hv]
    simp only [rfindDot_eq hv, length_eq_zero_iff, drop_left]
  · have hnone : rfindDot last = none := if_neg hdot
    rw [scrPathExtname_plain h hdot]
    simp only [hnone]

end Scan

end Scriptc.PosixPath
