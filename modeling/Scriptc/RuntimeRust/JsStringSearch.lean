import Scriptc.Lib.Occurrence
import Scriptc.Num.Integral
import Scriptc.RuntimeRust.JsString

/-!
# Searching, splitting and replacing

All of it happens on UTF-16 units: a needle may begin or end inside of a surrogate pair. `split` and
`replaceAll` are two loops over one scan from the left (`Occurrence.Split`); the position arguments
are numbers, clamped to the string (`clamp_spec`).
-/

namespace Scriptc.RuntimeRust.JsStrings

open List

open PosixPath (JsString)
open Occurrence

/-! ### Positions -/

def stringLen (value : JsString) : F64 := .ofInt (encodeUtf16 value).length

def clampStringPosition (value : JsString) (position : F64) : F64 :=
  if position.isNaN then .zero else clamp position.trunc .zero (stringLen value)

/-- A slice past the end panics: `none`. -/
def stringIndexOf (value search : JsString) (fromIndex : F64) : Option F64 :=
  let haystack := encodeUtf16 value
  let needle := encodeUtf16 search
  let start :=
    if fromIndex.isNaN then 0
    else if fromIndex = .posInf then haystack.length
    else asUsize (clamp fromIndex.trunc .zero (.ofInt haystack.length))
  if needle = [] then some (.ofInt start)
  else if start ≤ haystack.length then
    match first (haystack.drop start) needle with
    | some index => some (.ofInt (start + index : ℕ))
    | none => some (.ofInt (-1))
  else none

def stringLastIndexOf (value search : JsString) (position : F64) : F64 :=
  let haystack := encodeUtf16 value
  let needle := encodeUtf16 search
  let position :=
    if position.isNaN || position = .posInf then haystack.length
    else asUsize (clamp position.trunc .zero (.ofInt haystack.length))
  if needle = [] then .ofInt position
  else if haystack.length < needle.length then .ofInt (-1)
  else
    match last haystack needle (min position (haystack.length - needle.length) + 1) with
    | some index => .ofInt index
    | none => .ofInt (-1)

def stringStartsWith (value search : JsString) (position : F64) : Option Bool :=
  let start := clampStringPosition value position
  (stringIndexOf value search start).map fun index => index.eq start

def stringEndsWith (value search : JsString) (endPosition : F64) : Bool :=
  let stop := clampStringPosition value endPosition
  let start := F64.sub stop (stringLen search)
  F64.le .zero start && (stringLastIndexOf value search start).eq start

/-! ### Splitting and replacing -/

/-- The loop of `string_split`, with the turns it can take. -/
def splitLoop (units sep : Units) (limit : ℕ) : ℕ → ℕ → List JsString → List JsString
  | 0, start, parts => parts ++ [fromUtf16 (units.drop start)]
  | n + 1, start, parts =>
    match first (units.drop start) sep with
    | none => parts ++ [fromUtf16 (units.drop start)]
    | some offset =>
      let stop := start + offset
      let parts := parts ++ [fromUtf16 ((units.take stop).drop start)]
      if parts.length = limit then parts else splitLoop units sep limit n (stop + sep.length) parts

/-- `string_split`, with `to_uint32` of the limit. -/
def stringSplit (value separator : JsString) (limit : F64) : List JsString :=
  let limit := limit.toBits.toNat
  let units := encodeUtf16 value
  let sep := encodeUtf16 separator
  if limit = 0 then []
  else if sep = [] then (units.take limit).map fun unit => fromUtf16 [unit]
  else splitLoop units sep limit (units.length + 1) 0 []

/-- The limit where none is given. -/
def noLimit : F64 := .ofInt 4294967295

/-- `array_join` of strings in a dense array. -/
def arrayJoin (elements : List JsString) (separator : JsString) : JsString :=
  (elements.zipIdx.foldl (fun output e =>
    (if 0 < e.2 then output.pushStr separator else output).pushStr e.1) Builder.new).finish

/-- `append_string_substitution`: what is appended. -/
def substitution (source matched : Units) (position : ℕ) : Units → Units
  | [] => []
  | [u] => [u]
  | u :: v :: rest =>
    if u ≠ 0x24 then u :: substitution source matched position (v :: rest)
    else if v = 0x24 then 0x24 :: substitution source matched position rest
    else if v = 0x26 then matched ++ substitution source matched position rest
    else if v = 0x60 then source.take position ++ substitution source matched position rest
    else if v = 0x27 then source.drop (position + matched.length) ++ substitution source matched position rest
    else 0x24 :: substitution source matched position (v :: rest)

def stringFindUnits (source search : Units) (start : ℕ) : Option ℕ :=
  if source.length < start then none
  else if search = [] then some start
  else (first (source.drop start) search).map (start + ·)

/-- The loop of `string_replace_all`, with the turns it can take: the output, the end of the last
match, and whether there was one. -/
def replaceAllLoop (source needle template : Units) : ℕ → Units × ℕ × Bool → ℕ → Units × ℕ × Bool
  | 0, s, _ => s
  | n + 1, (output, endOfLastMatch, matchedAny), searchFrom =>
    match stringFindUnits source needle searchFrom with
    | none => (output, endOfLastMatch, matchedAny)
    | some position =>
      let output := output ++ (source.take position).drop endOfLastMatch ++ substitution source needle position template
      let s := (output, position + needle.length, true)
      if position = source.length then s
      else replaceAllLoop source needle template n s (position + max needle.length 1)

def stringReplaceAll (value search replacement : JsString) : JsString :=
  let source := encodeUtf16 value
  let (output, endOfLastMatch, matchedAny) :=
    replaceAllLoop source (encodeUtf16 search) (encodeUtf16 replacement) (source.length + 2) ([], 0, false) 0
  if !matchedAny then value else fromUtf16 (output ++ source.drop endOfLastMatch)

/-! ### The loops follow the scan -/

section Loops

variable {units sep : Units} {ps : List Units}

/-- What comes before an occurrence, and what is left. -/
theorem next_piece {start : ℕ} {p rest : Units} (h : units.drop start = p ++ sep ++ rest) :
    (units.take (start + p.length)).drop start = p ∧ units.drop (start + p.length + sep.length) = rest := by
  constructor
  · rw [drop_take, h, Nat.add_sub_cancel_left, append_assoc, take_left]
  · rw [Nat.add_assoc, ← drop_drop, h, ← length_append, drop_left]

theorem splitLoop_eq {u : Units} (hs : Split sep u ps) {limit n start : ℕ} {parts : List JsString}
    (hu : units.drop start = u) (hparts : parts.length < limit) (hn : ps.length ≤ n) :
    splitLoop units sep limit n start parts = (parts ++ ps.map fromUtf16).take limit := by
  induction hs generalizing start parts n with
  | @last u hnot =>
    obtain ⟨n, rfl⟩ := Nat.exists_eq_succ_of_ne_zero (by simp at hn; omega : n ≠ 0)
    rw [splitLoop, hu, first_last hnot, take_of_length_le (by simp; omega)]
    rfl
  | @next p rest ps hfirst _ ih =>
    obtain ⟨n, rfl⟩ := Nat.exists_eq_succ_of_ne_zero (by simp at hn; omega : n ≠ 0)
    obtain ⟨hpiece, hrest⟩ := next_piece hu
    rw [splitLoop, hu, first_next hfirst]
    simp only [hpiece, length_append, length_singleton]
    have hparts' : parts ++ (p :: ps).map fromUtf16 = parts ++ [fromUtf16 p] ++ ps.map fromUtf16 := by simp
    rw [hparts']
    split_ifs with hlimit
    · exact (take_left' (by simpa using hlimit)).symm
    · refine ih hrest ?_ (by simpa using hn)
      rw [length_append, length_singleton]
      omega

theorem substitution_of_plain {source matched : Units} {position : ℕ} {template : Units} (h : 0x24 ∉ template) :
    substitution source matched position template = template := by
  induction template using substitution.induct with
  | case1 => rfl
  | case2 u => rfl
  | case3 u v rest hu ih => rw [substitution, if_pos hu, ih fun hin => h (mem_cons_of_mem _ hin)]
  | case4 u v rest hu => simp_all
  | case5 u v rest hu => simp_all
  | case6 u v rest hu => simp_all
  | case7 u v rest hu => simp_all
  | case8 u v rest hu => simp_all

/-- From the end of a match on, the loop puts the template between the pieces. -/
theorem replaceAllLoop_eq {u template : Units} (hsep : sep ≠ []) (ht : 0x24 ∉ template) (hs : Split sep u ps) (n start : ℕ)
    (output : Units) (matchedAny : Bool) (hu : units.drop start = u) (hle : start ≤ units.length) (hn : ps.length ≤ n) :
    ∃ output' stop, replaceAllLoop units sep template n (output, start, matchedAny) start =
        (output', stop, matchedAny || decide (1 < ps.length)) ∧
      output' ++ units.drop stop = output ++ template.intercalate ps := by
  have hpos := length_pos_iff.mpr hsep
  induction hs generalizing start output matchedAny n with
  | @last u hnot =>
    obtain ⟨n, rfl⟩ := Nat.exists_eq_succ_of_ne_zero (by simp at hn; omega : n ≠ 0)
    refine ⟨output, start, ?_, by rw [hu, intercalate_singleton]⟩
    rw [replaceAllLoop, stringFindUnits, if_neg (by omega), if_neg hsep, hu, first_last hnot]
    simp
  | @next p rest ps hfirst hrest ih =>
    obtain ⟨n, rfl⟩ := Nat.exists_eq_succ_of_ne_zero (by simp at hn; omega : n ≠ 0)
    obtain ⟨hpiece, hdrop⟩ := next_piece hu
    have hlen := congrArg List.length hu
    simp only [length_drop, length_append] at hlen
    have hmax : max sep.length 1 = sep.length := by omega
    obtain ⟨output', stop, hloop, hout⟩ := ih n _ (output ++ p ++ template) true hdrop
      (by omega) (by simpa using hn)
    refine ⟨output', stop, ?_, ?_⟩
    · rw [replaceAllLoop, stringFindUnits, if_neg (by omega), if_neg hsep, hu, first_next hfirst, Option.map_some]
      simp only [hpiece, substitution_of_plain ht, hmax]
      rw [if_neg (by omega), hloop]
      have hone := length_pos_iff.mpr hrest.ne_nil
      simp [hone]
    · rw [hout, intercalate_cons_of_ne_nil hrest.ne_nil]
      simp only [append_assoc]

theorem encodeUtf16_replaceAll {v s r : JsString} (hs : encodeUtf16 s ≠ []) (hr : 0x24 ∉ encodeUtf16 r)
    (h : Split (encodeUtf16 s) (encodeUtf16 v) ps) :
    encodeUtf16 (stringReplaceAll v s r) = (encodeUtf16 r).intercalate ps := by
  have hlen := h.length_le hs
  have hwhole : (encodeUtf16 v).drop 0 = encodeUtf16 v := rfl
  obtain ⟨output, stop, hloop, hout⟩ := replaceAllLoop_eq hs hr h ((encodeUtf16 v).length + 2) 0 [] false hwhole (Nat.zero_le _) (by omega)
  rw [stringReplaceAll, hloop]
  rw [nil_append] at hout
  by_cases hone : 1 < ps.length
  · simpa [hone] using hout
  · simp [h.eq_singleton hone]

end Loops

theorem encodeUtf16_arrayJoin (elements : List JsString) (separator : JsString) :
    encodeUtf16 (arrayJoin elements separator) = (encodeUtf16 separator).intercalate (elements.map encodeUtf16) := by
  have hpush : ∀ (b : Builder) (value : JsString), (b.pushStr value).content = b.content ++ encodeUtf16 value :=
    fun b value => Builder.content_push b (.str value)
  have hfold : ∀ (l : List JsString) (k : ℕ) (b : Builder), 0 < k →
      ((l.zipIdx k).foldl (fun output e =>
        (if 0 < e.2 then output.pushStr separator else output).pushStr e.1) b).content =
      b.content ++ l.flatMap fun e => encodeUtf16 separator ++ encodeUtf16 e := by
    intro l
    induction l with
    | nil => exact fun k b _ => (append_nil _).symm
    | cons e l ih =>
      intro k b hk
      rw [zipIdx_cons, foldl_cons, ih (k + 1) _ (Nat.succ_pos k), if_pos hk, hpush, hpush, flatMap_cons]
      simp only [append_assoc]
  rw [arrayJoin, Builder.encodeUtf16_finish]
  cases elements with
  | nil => rfl
  | cons e l =>
    have hjoin : ∀ (l : List JsString) (e : JsString), (encodeUtf16 separator).intercalate ((e :: l).map encodeUtf16) =
        encodeUtf16 e ++ l.flatMap fun e => encodeUtf16 separator ++ encodeUtf16 e := by
      intro l
      induction l with
      | nil => exact fun e => intercalate_singleton.trans (append_nil _).symm
      | cons d l ih =>
        intro e
        rw [map_cons, intercalate_cons_of_ne_nil (by simp), ih, flatMap_cons]
        simp only [append_assoc]
    rw [zipIdx_cons, foldl_cons, hfold l 1 _ Nat.one_pos, if_neg (Nat.lt_irrefl 0), hpush, hjoin]
    rfl

/-! ### Positions in a string -/

/-- The position that a number stands for: towards zero, and within the string. -/
def unitPosition (len : ℕ) : F64 → ℕ
  | .fin x => min len (F64.truncRat x.val).toNat
  | .inf false => len
  | _ => 0

theorem unitPosition_le (len : ℕ) (x : F64) : unitPosition len x ≤ len := by
  cases x with
  | nan => exact Nat.zero_le len
  | inf neg => cases neg <;> simp [unitPosition]
  | negZero => exact Nat.zero_le len
  | fin x => exact min_le_left _ _

theorem num_ofInt {n : ℤ} (h : F64.IsSafe n) : (F64.ofInt n).num = ExtRat.fin n := by
  rw [F64.ofInt, F64.num_round, F64.num_round_intCast h.abs_bound]

variable {r : F64}

theorem of_num {q : ℚ} (h : r.num = ExtRat.fin q) : r ≠ .nan ∧ r ≠ .inf false ∧ r.rat = q := by
  cases r with
  | nan => exact absurd h (by simp [F64.num])
  | inf neg => cases neg <;> simp [F64.num] at h
  | negZero => exact ⟨by simp, by simp, (ExtRat.fin_inj.mp h)⟩
  | fin x => exact ⟨by simp, by simp, (ExtRat.fin_inj.mp h)⟩

theorem asUsize_of_num {k : ℕ} (h : r.num = ExtRat.fin k) : asUsize r = k := by
  rw [asUsize, (of_num h).2.2, ← Int.cast_natCast, F64.truncRat_intCast, Int.toNat_natCast]

theorem unitPosition_of_num {len k : ℕ} (h : r.num = ExtRat.fin k) (hk : k ≤ len) : unitPosition len r = k := by
  have hrat := (of_num h).2.2
  cases r with
  | nan => exact absurd rfl (of_num h).1
  | inf neg => cases neg <;> simp [F64.num] at h
  | negZero =>
    have hk0 : (0 : ℚ) = k := hrat
    exact (by exact_mod_cast hk0 : 0 = k)
  | fin x =>
    have hval : x.val = ((k : ℤ) : ℚ) := by exact_mod_cast hrat
    rw [unitPosition, hval, F64.truncRat_intCast, Int.toNat_natCast, min_eq_right hk]

theorem eq_ofInt_iff {n k : ℤ} (hn : F64.IsSafe n) (h : r.num = ExtRat.fin k) : (F64.ofInt n).eq r = true ↔ n = k := by
  have hnum := num_ofInt hn
  rw [F64.eq_iff, hnum, h, ExtRat.fin_inj, and_iff_right (of_num hnum).1, and_iff_right (of_num h).1]
  exact Int.cast_inj

/-- **A clamped position** is the one its number stands for. -/
theorem clamp_spec {len : ℕ} (hlen : F64.IsSafe len) {x : F64} (hx : x ≠ .nan) :
    (clamp x.trunc .zero (.ofInt len)).num = ExtRat.fin (unitPosition len x : ℕ) := by
  have hnum := num_ofInt hlen
  have hne := (of_num hnum).1
  have hzero : F64.zero.num = ExtRat.fin 0 := rfl
  have hz : F64.zero ≠ .nan := by simp [F64.zero]
  have hlt : ∀ {a b : F64}, a ≠ .nan → b ≠ .nan → (a.lt b = true ↔ a.num < b.num) := by
    intro a b ha hb
    rw [F64.lt_iff, and_iff_right ha, and_iff_right hb]
  unfold clamp
  cases x with
  | nan => exact absurd rfl hx
  | inf neg =>
    cases neg with
    | true => rfl
    | false =>
      have hup : (F64.ofInt len).lt (F64.inf false) = true := (hlt hne (by simp)).mpr (by rw [hnum]; exact ExtRat.fin_lt_top _)
      show (if (F64.inf false).lt .zero then F64.zero else if (F64.ofInt len).lt (F64.inf false) then .ofInt len else .inf false).num = _
      rw [if_neg (by decide), if_pos hup, hnum]
      rfl
  | negZero =>
    have hup : ¬ (F64.ofInt len).lt F64.negZero = true := by
      rw [hlt hne (by simp), hnum, F64.num, ExtRat.fin_lt_fin]
      exact not_lt.mpr (by exact_mod_cast Nat.zero_le len)
    show (if F64.negZero.lt .zero then F64.zero else if (F64.ofInt len).lt F64.negZero then .ofInt len else .negZero).num = _
    rw [if_neg (by decide), if_neg hup]
    rfl
  | fin x =>
    obtain ⟨n, hn⟩ : ∃ n, F64.truncRat x.val = n := ⟨_, rfl⟩
    have htrunc : (F64.fin x).trunc ≠ .nan ∧ (F64.fin x).trunc.num = F64.roundNum n := by
      rw [F64.trunc, F64.toIntegral, hn]
      split_ifs with h
      · exact ⟨by simp, by rw [h.1, Int.cast_zero, F64.roundNum_zero]; rfl⟩
      · exact ⟨F64.round_ne_nan _, F64.num_round _⟩
    rw [unitPosition, hn]
    have h53 : (len : ℤ) < 2 ^ 53 := by
      have := hlen.2
      unfold F64.maxSafeInteger at this
      omega
    by_cases hneg : n < 0
    · -- below the string
      have hle : F64.roundNum n ≤ ExtRat.fin (-1 : ℤ) := by
        rw [← F64.num_round_intCast (n := -1) (by norm_num)]
        exact F64.roundNum_mono (by exact_mod_cast (by omega : n ≤ -1))
      rw [if_pos ((hlt htrunc.1 hz).mpr _), hzero, Int.toNat_of_nonpos hneg.le]
      · simp
      · rw [htrunc.2, hzero]
        exact hle.trans_lt (by simp)
    · have hlow : ExtRat.fin 0 ≤ F64.roundNum n := by
        rw [← F64.roundNum_zero]
        exact F64.roundNum_mono (by exact_mod_cast not_lt.mp hneg)
      rw [if_neg (by rw [hlt htrunc.1 hz, htrunc.2, hzero]; exact not_lt.mpr hlow)]
      by_cases hbig : (len : ℤ) < n
      · -- past the end
        have hle : ExtRat.fin ((len : ℤ) + 1 : ℤ) ≤ F64.roundNum n := by
          rw [← F64.num_round_intCast (n := len + 1) (by rw [abs_of_nonneg (by omega)]; omega)]
          exact F64.roundNum_mono (by exact_mod_cast hbig)
        rw [if_pos ((hlt hne htrunc.1).mpr _), hnum, min_eq_left (by omega), Int.cast_natCast]
        rw [hnum, htrunc.2]
        refine lt_of_lt_of_le ?_ hle
        simp
      · have hexact : F64.roundNum n = ExtRat.fin n := F64.num_round_intCast (abs_le.mpr ⟨by omega, by omega⟩)
        rw [if_neg, htrunc.2, hexact, min_eq_right (by omega)]
        · congr 1
          exact_mod_cast (Int.toNat_of_nonneg (not_lt.mp hneg)).symm
        · rw [hlt hne htrunc.1, htrunc.2, hnum, hexact, ExtRat.fin_lt_fin]
          exact_mod_cast hbig

/-! ### Finding -/

section Finding

variable {v s : JsString} (hv : F64.IsSafe (encodeUtf16 v).length)
include hv

theorem isSafe_le {n : ℕ} (h : n ≤ (encodeUtf16 v).length) : F64.IsSafe n := by
  have h2 := hv.2
  exact ⟨by unfold F64.maxSafeInteger; omega, by omega⟩

theorem clampStringPosition_num (x : F64) :
    (clampStringPosition v x).num = ExtRat.fin (unitPosition (encodeUtf16 v).length x : ℕ) := by
  unfold clampStringPosition
  by_cases hx : x = .nan
  · subst hx
    rfl
  · rw [if_neg (by cases x <;> simp_all [F64.isNaN])]
    exact clamp_spec hv hx

theorem stringIndexOf_eq (x : F64) : stringIndexOf v s x =
    match first ((encodeUtf16 v).drop (unitPosition (encodeUtf16 v).length x)) (encodeUtf16 s) with
    | some index => some (.ofInt (unitPosition (encodeUtf16 v).length x + index : ℕ))
    | none => some (.ofInt (-1)) := by
  have hstart : (if x.isNaN then 0 else if x = .posInf then (encodeUtf16 v).length
      else asUsize (clamp x.trunc .zero (.ofInt (encodeUtf16 v).length))) = unitPosition (encodeUtf16 v).length x := by
    cases x with
    | nan => rfl
    | inf neg =>
      cases neg with
      | true => exact asUsize_of_num (clamp_spec hv (x := .inf true) (by simp))
      | false => rfl
    | negZero => exact asUsize_of_num (clamp_spec hv (by simp))
    | fin x => exact asUsize_of_num (clamp_spec hv (by simp))
  unfold stringIndexOf
  simp only [hstart]
  split_ifs with hempty hle
  · have hfirst : first ((encodeUtf16 v).drop (unitPosition (encodeUtf16 v).length x)) (encodeUtf16 s) = some 0 := by
      rw [hempty]
      exact first_eq_some.mpr ⟨List.nil_prefix, by simp⟩
    rw [hfirst]
    rfl
  · rfl
  · exact absurd (unitPosition_le _ x) hle

/-- `indexOf`: the first place at or after the position, or `-1`. -/
theorem stringIndexOf_spec (x : F64) :
    (∃ k : ℕ, unitPosition (encodeUtf16 v).length x ≤ k ∧ encodeUtf16 s <+: (encodeUtf16 v).drop k ∧
      (∀ j, unitPosition (encodeUtf16 v).length x ≤ j → j < k → ¬ encodeUtf16 s <+: (encodeUtf16 v).drop j) ∧
      stringIndexOf v s x = some (.ofInt k)) ∨
    (∀ k, unitPosition (encodeUtf16 v).length x ≤ k → k ≤ (encodeUtf16 v).length →
      ¬ encodeUtf16 s <+: (encodeUtf16 v).drop k) ∧ stringIndexOf v s x = some (.ofInt (-1)) := by
  rw [stringIndexOf_eq hv]
  generalize unitPosition (encodeUtf16 v).length x = p
  cases hf : first ((encodeUtf16 v).drop p) (encodeUtf16 s) with
  | some index =>
    obtain ⟨hat, hbefore⟩ := first_eq_some.mp hf
    rw [drop_drop] at hat
    refine .inl ⟨p + index, Nat.le_add_right _ _, hat, fun j hj hlt hp => hbefore (j - p) (by omega) ?_, rfl⟩
    rwa [drop_drop, Nat.add_sub_cancel' hj]
  | none =>
    refine .inr ⟨fun k hk hle hp => first_eq_none.mp hf (k - p) (by rw [length_drop]; omega) ?_, rfl⟩
    rwa [drop_drop, Nat.add_sub_cancel' hk]

/-- `startsWith`: the units stand at the position. -/
theorem stringStartsWith_eq (x : F64) : stringStartsWith v s x =
    some (decide (encodeUtf16 s <+: (encodeUtf16 v).drop (unitPosition (encodeUtf16 v).length x))) := by
  have hnum := clampStringPosition_num hv x
  have hle := unitPosition_le (encodeUtf16 v).length x
  have hsame : unitPosition (encodeUtf16 v).length (clampStringPosition v x) = unitPosition (encodeUtf16 v).length x :=
    unitPosition_of_num hnum hle
  rw [stringStartsWith]
  rcases stringIndexOf_spec (s := s) hv (clampStringPosition v x) with ⟨k, hk, hat, hbefore, heq⟩ | ⟨hnone, heq⟩
  · rw [hsame] at hk hbefore
    rw [heq, Option.map_some, Option.some_inj, ← Bool.coe_iff_coe, decide_eq_true_iff]
    have hklen : k ≤ (encodeUtf16 v).length := by
      by_contra hlt
      have hnil := hat
      rw [drop_eq_nil_of_le (by omega), prefix_nil] at hnil
      exact hbefore _ le_rfl (by omega) (hnil ▸ nil_prefix)
    rw [eq_ofInt_iff (isSafe_le hv hklen) (k := (unitPosition (encodeUtf16 v).length x : ℕ)) (by exact_mod_cast hnum)]
    constructor
    · intro h
      rwa [← Int.ofNat.inj h]
    · intro hp
      by_contra hne
      exact hbefore _ le_rfl (by omega) hp
  · rw [hsame] at hnone
    rw [heq, Option.map_some, Option.some_inj, ← Bool.coe_iff_coe, decide_eq_true_iff]
    rw [eq_ofInt_iff (by decide) (k := (unitPosition (encodeUtf16 v).length x : ℕ)) (by exact_mod_cast hnum)]
    exact iff_of_false (by omega) (hnone _ le_rfl hle)

theorem stringLastIndexOf_eq {x : F64} {k : ℕ} (hx : x.num = ExtRat.fin k)
    (hk : k + (encodeUtf16 s).length ≤ (encodeUtf16 v).length) :
    (stringLastIndexOf v s x).eq x = true ↔ encodeUtf16 s <+: (encodeUtf16 v).drop k := by
  obtain ⟨hnan, hinf, -⟩ := of_num hx
  have hposition : (if x.isNaN || x = .posInf then (encodeUtf16 v).length
      else asUsize (clamp x.trunc .zero (.ofInt (encodeUtf16 v).length))) = k := by
    have hnot : ¬ (x.isNaN || decide (x = .posInf)) = true := by
      rw [Bool.or_eq_true, decide_eq_true_iff, not_or]
      exact ⟨by cases x <;> simp_all [F64.isNaN], hinf⟩
    rw [if_neg hnot, asUsize_of_num (clamp_spec hv hnan), unitPosition_of_num hx (by omega)]
  have hx' : x.num = ExtRat.fin ((k : ℤ) : ℚ) := by exact_mod_cast hx
  have hmin : min k ((encodeUtf16 v).length - (encodeUtf16 s).length) + 1 = k + 1 := by omega
  unfold stringLastIndexOf
  simp only [hposition, hmin]
  split_ifs with hempty hshort
  · rw [hempty, eq_ofInt_iff (isSafe_le hv (by omega)) hx']
    exact iff_of_true rfl nil_prefix
  · omega
  · rw [← last_eq_self hk]
    cases hl : last (encodeUtf16 v) (encodeUtf16 s) (k + 1) with
    | some index =>
      have hlt := last_lt hl
      rw [eq_ofInt_iff (isSafe_le hv (by omega)) hx', Option.some_inj]
      exact Int.ofNat_inj
    | none =>
      rw [eq_ofInt_iff (by decide) hx']
      exact iff_of_false (by omega) (by simp)

/-- `endsWith`: the units stand right before the position. -/
theorem stringEndsWith_eq (hs : F64.IsSafe (encodeUtf16 s).length) (x : F64) : stringEndsWith v s x =
    decide (encodeUtf16 s <:+ (encodeUtf16 v).take (unitPosition (encodeUtf16 v).length x)) := by
  have hnum := clampStringPosition_num hv x
  have hle := unitPosition_le (encodeUtf16 v).length x
  rw [stringEndsWith, stringLen]
  generalize clampStringPosition v x = stop at hnum ⊢
  generalize unitPosition (encodeUtf16 v).length x = p at hnum hle ⊢
  obtain ⟨hnan, -, hrat⟩ := of_num hnum
  have hfin : stop.isFinite = true := (F64.isFinite_iff_num hnan).mpr (by rw [hnum]; simp)
  obtain ⟨hne, hsub⟩ := F64.num_sub_of_finite hfin (F64.isFinite_ofInt hs)
  have hdiff : F64.IsSafe (p - (encodeUtf16 s).length : ℤ) := by
    have h1 := hv.2
    have h2 := hs.2
    unfold F64.IsSafe F64.maxSafeInteger at *
    omega
  rw [hrat, F64.rat_ofInt hs] at hsub
  have hstart : (F64.sub stop (.ofInt (encodeUtf16 s).length)).num = ExtRat.fin ((p - (encodeUtf16 s).length : ℤ) : ℚ) := by
    rw [hsub, ← F64.num_round_intCast hdiff.abs_bound]
    push_cast
    rfl
  generalize F64.sub stop (.ofInt (encodeUtf16 s).length) = start at hne hstart
  have hzero : F64.le .zero start = true ↔ (encodeUtf16 s).length ≤ p := by
    have hz : F64.zero.num = ExtRat.fin 0 := rfl
    rw [F64.le_iff, and_iff_right (by simp [F64.zero]), and_iff_right hne, hstart, hz, ExtRat.fin_le_fin]
    constructor
    · intro h
      have h : (0 : ℤ) ≤ p - (encodeUtf16 s).length := by exact_mod_cast h
      omega
    · intro h
      exact_mod_cast (by omega : (0 : ℤ) ≤ p - (encodeUtf16 s).length)
  have hlen : ((encodeUtf16 v).take p).length = p := by rw [length_take, min_eq_left hle]
  rw [← Bool.coe_iff_coe, Bool.and_eq_true, decide_eq_true_iff, hzero]
  by_cases hfit : (encodeUtf16 s).length ≤ p
  · have hk : start.num = ExtRat.fin ((p - (encodeUtf16 s).length : ℕ) : ℚ) := by
      rw [hstart, Nat.cast_sub hfit]
      push_cast
      rfl
    rw [and_iff_right hfit, stringLastIndexOf_eq hv hk (by omega), suffix_iff_eq_drop, hlen, drop_take,
      Nat.sub_sub_self hfit, prefix_iff_eq_take]
  · refine iff_of_false (fun h => hfit h.1) fun h => hfit ?_
    have := h.length_le
    rwa [hlen] at this

end Finding

/-- **The laws of strings.** For every string and every separator that is not empty there is one way
to split it. `split` gives its first pieces, as many as the limit says, none of which holds the
separator, and all of them together are the string. Where the pieces are no more than an array of
JavaScript holds, `split` without a limit gives them all: joined by the separator they are the string,
and joined by a replacement without `$` they are `replaceAll`. The searches compare units at every
position. -/
theorem string_laws {v s : JsString} (hs : encodeUtf16 s ≠ []) :
    (∃ ps, (∀ qs, Split (encodeUtf16 s) (encodeUtf16 v) qs ↔ qs = ps) ∧
      (∀ limit, stringSplit v s limit = (ps.map fromUtf16).take limit.toBits.toNat) ∧
      (∀ p ∈ ps, ¬ encodeUtf16 s <:+: p) ∧ (encodeUtf16 s).intercalate ps = encodeUtf16 v ∧
      (ps.length ≤ 2 ^ 32 - 1 →
        encodeUtf16 (arrayJoin (stringSplit v s noLimit) s) = encodeUtf16 v ∧
        ∀ r, 0x24 ∉ encodeUtf16 r →
          encodeUtf16 (stringReplaceAll v s r) = encodeUtf16 (arrayJoin (stringSplit v s noLimit) r))) ∧
    (F64.IsSafe (encodeUtf16 v).length → ∀ x,
      stringStartsWith v s x =
        some (decide (encodeUtf16 s <+: (encodeUtf16 v).drop (unitPosition (encodeUtf16 v).length x))) ∧
      (F64.IsSafe (encodeUtf16 s).length → stringEndsWith v s x =
        decide (encodeUtf16 s <:+ (encodeUtf16 v).take (unitPosition (encodeUtf16 v).length x))) ∧
      ((∃ k : ℕ, unitPosition (encodeUtf16 v).length x ≤ k ∧ encodeUtf16 s <+: (encodeUtf16 v).drop k ∧
          (∀ j, unitPosition (encodeUtf16 v).length x ≤ j → j < k → ¬ encodeUtf16 s <+: (encodeUtf16 v).drop j) ∧
          stringIndexOf v s x = some (.ofInt k)) ∨
        (∀ k, unitPosition (encodeUtf16 v).length x ≤ k → k ≤ (encodeUtf16 v).length →
          ¬ encodeUtf16 s <+: (encodeUtf16 v).drop k) ∧ stringIndexOf v s x = some (.ofInt (-1)))) := by
  refine ⟨?_, fun hv x => ⟨stringStartsWith_eq hv x, fun hsafe => stringEndsWith_eq hv hsafe x, stringIndexOf_spec hv x⟩⟩
  obtain ⟨ps, hps⟩ := Split.exists hs (encodeUtf16 v)
  have hsplit : ∀ limit, stringSplit v s limit = (ps.map fromUtf16).take limit.toBits.toNat := by
    intro limit
    unfold stringSplit
    simp only
    split_ifs with hzero
    · rw [hzero]
      rfl
    · rw [splitLoop_eq hps rfl (by simp; omega) (hps.length_le hs), nil_append]
  refine ⟨ps, fun qs => ⟨fun h => h.unique hps, fun h => h ▸ hps⟩, hsplit, hps.not_infix hs, hps.intercalate, fun hfew => ?_⟩
  have hall : stringSplit v s noLimit = ps.map fromUtf16 := by
    have hlimit : noLimit.toBits.toNat = 2 ^ 32 - 1 := by
      have hsafe : F64.IsSafe 4294967295 := by decide
      rw [F64.toBits, noLimit, F64.rat_ofInt hsafe, F64.truncRat_intCast]
      rfl
    rw [hsplit, hlimit]
    exact take_of_length_le (by rwa [length_map])
  have hunits : (ps.map fromUtf16).map encodeUtf16 = ps := by
    rw [map_map, show encodeUtf16 ∘ fromUtf16 = id from funext encodeUtf16_fromUtf16, map_id]
  refine ⟨?_, fun r hr => ?_⟩
  · rw [hall, encodeUtf16_arrayJoin, hunits, hps.intercalate]
  · rw [hall, encodeUtf16_arrayJoin, hunits, encodeUtf16_replaceAll hs hr hps]

/-- A lone surrogate stands inside of a character. -/
theorem string_laws_half : stringEndsWith (.utf8 [Char.ofNat 0x1F600]) (.utf16 [0xDE00]) .posInf = true := by
  obtain ⟨-, h⟩ := string_laws (v := .utf8 [Char.ofNat 0x1F600]) (s := .utf16 [0xDE00]) (by decide)
  exact ((h (by decide) .posInf).2.1 (by decide)).trans (by decide)

/-! ### More pieces than an array holds -/

theorem split_replicate (u : UInt16) (n : ℕ) : Split [u] (replicate n u) (replicate (n + 1) []) := by
  induction n with
  | zero => exact .last (by simp)
  | succ n ih => exact .next (p := []) (by simp) ih

theorem intercalate_replicate (u : UInt16) (n : ℕ) : [u].intercalate (replicate (n + 1) []) = replicate n u :=
  (split_replicate u n).intercalate

def comma : JsString := .utf8 [',']

def commas : JsString := .utf8 (replicate (2 ^ 32 - 1) ',')

/-- Of `2³²` pieces the last is not in the array. -/
theorem split_drops : encodeUtf16 (arrayJoin (stringSplit commas comma noLimit) comma) ≠ encodeUtf16 commas := by
  have hcomma : encodeUtf16 comma = [0x2C] := by decide
  have hcommas : ∀ n, Utf16.encode (replicate n ',') = replicate n 0x2C := by
    intro n
    rw [Utf16.encode, flatMap_replicate, show Utf16.encodeChar ',' = [0x2C] by decide]
    induction n with
    | zero => rfl
    | succ n ih => rw [replicate_succ, flatten_cons, ih, replicate_succ]; rfl
  have hunits : encodeUtf16 commas = replicate (2 ^ 32 - 1) 0x2C := hcommas _
  obtain ⟨ps, hps, hsplit, -⟩ := (string_laws (v := commas) (s := comma) (by rw [hcomma]; exact cons_ne_nil _ _)).1
  have hpieces : replicate (2 ^ 32) [] = ps := by
    refine (hps _).mp ?_
    rw [hcomma, hunits]
    exact split_replicate _ _
  have hlimit : noLimit.toBits.toNat = 2 ^ 32 - 2 + 1 := by
    have hsafe : F64.IsSafe 4294967295 := by decide
    rw [F64.toBits, noLimit, F64.rat_ofInt hsafe, F64.truncRat_intCast]
    rfl
  intro h
  rw [encodeUtf16_arrayJoin, hsplit, ← hpieces, hlimit, map_replicate, take_replicate, map_replicate,
    encodeUtf16_fromUtf16, hcomma, min_eq_left (by norm_num), intercalate_replicate, hunits] at h
  have hlen := congrArg List.length h
  rw [length_replicate, length_replicate] at hlen
  omega

end Scriptc.RuntimeRust.JsStrings
