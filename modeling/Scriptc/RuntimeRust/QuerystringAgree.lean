import Scriptc.RuntimeRust.QuerystringChars

/-!
# The query string parsers agree

As long as bytes and code units take every character alike, the two runtimes and the scan over UTF-16
code units find the same pairs. They part where a character of the equals string begins, in UTF-8 only,
like the character that the separator expects; where the codes of a part of the separator stand inside
the equals string, so that going back its length ends at different characters; and where the counter
of the Rust scan overflows.
-/

namespace Scriptc.Querystring

open List Option

variable {K : Type} {C : Counter K} {T : Texts} {t : Scan Char K} {P : ℕ} {c : Char}

/-! ### Staying within the texts -/

section Fields

variable {α : Type} {q : Query α} {s : Scan α K} {i : ℕ}

theorem takeValue_fields (n : ℕ) : (q.takeValue n s).separatorIndex = s.separatorIndex ∧
    (q.takeValue n s).equalsIndex = s.equalsIndex ∧ (q.takeValue n s).returned = s.returned := by
  rw [Query.takeValue]
  split <;> exact ⟨rfl, rfl, rfl⟩

theorem takeKey_fields (n : ℕ) : (q.takeKey n s).separatorIndex = s.separatorIndex ∧
    (q.takeKey n s).equalsIndex = s.equalsIndex ∧ (q.takeKey n s).returned = s.returned := by
  rw [Query.takeKey]
  split <;> exact ⟨rfl, rfl, rfl⟩

theorem valueCode_fields (k : CodeKind) : (q.valueCode i k s).separatorIndex = s.separatorIndex ∧
    (q.valueCode i k s).equalsIndex = s.equalsIndex ∧
    ((q.valueCode i k s).lastPosition = s.lastPosition ∨ (q.valueCode i k s).lastPosition = i + 1) := by
  cases k with
  | plus =>
    obtain ⟨hsep, hequals, -⟩ := @takeValue_fields K α q s i
    exact ⟨hsep, hequals, .inr rfl⟩
  | percent =>
    rw [Query.valueCode]
    split <;> exact ⟨rfl, rfl, .inl rfl⟩
  | hex =>
    rw [Query.valueCode]
    split_ifs <;> exact ⟨rfl, rfl, .inl rfl⟩
  | other =>
    rw [Query.valueCode]
    split <;> exact ⟨rfl, rfl, .inl rfl⟩

theorem keyCode_fields (k : CodeKind) : (q.keyCode i k s).separatorIndex = s.separatorIndex ∧
    (q.keyCode i k s).equalsIndex = s.equalsIndex ∧
    ((q.keyCode i k s).lastPosition = s.lastPosition ∨ (q.keyCode i k s).lastPosition = i + 1) := by
  cases k with
  | plus =>
    obtain ⟨hsep, hequals, -⟩ := @takeKey_fields K α q s i
    exact ⟨hsep, hequals, .inr rfl⟩
  | percent =>
    rw [Query.keyCode]
    split
    · exact valueCode_fields .percent
    · exact ⟨rfl, rfl, .inl rfl⟩
  | hex =>
    rw [Query.keyCode]
    split_ifs
    · exact valueCode_fields .hex
    · exact ⟨rfl, rfl, .inl rfl⟩
    · exact valueCode_fields .hex
  | other =>
    rw [keyCode_other]
    exact ⟨rfl, rfl, .inl rfl⟩

theorem separatorMatched_fields : (q.separatorMatched C i s).separatorIndex = 0 ∧
    (q.separatorMatched C i s).equalsIndex = 0 ∧ (q.separatorMatched C i s).lastPosition = i + 1 := by
  rw [Query.separatorMatched]
  split_ifs <;> exact ⟨rfl, rfl, rfl⟩

theorem separatorMatched_check : (q.separatorMatched C i s).encodeCheck ≤ s.encodeCheck := by
  rw [Query.separatorMatched]
  split_ifs
  · exact Nat.zero_le _
  · exact le_refl _
  · exact Nat.zero_le _
  · exact Nat.zero_le _

end Fields

theorem Within.charStep (ht : Within T P t) (hc : T.input[P]? = some c) (clash : Bool) (stop : ℕ) :
    Within T (P + 1) (T.charStep C clash stop P c t) := by
  have hpos : 0 < T.separator.length := Nat.lt_of_le_of_lt (Nat.zero_le _) ht.separator_lt
  have hle := ht.last_le
  rw [Texts.charStep]
  split
  · next hsep =>
    split
    · obtain ⟨hzero, hequals, hlast⟩ := @separatorMatched_fields K C Char T.query
        { t with separatorIndex := t.separatorIndex + 1 } P
      exact ⟨by rw [hzero]; exact hpos, by rw [hequals]; exact Nat.zero_le _, by rw [hlast],
        by rw [hzero]; exact nil_suffix⟩
    · next hfull =>
      refine ⟨?_, ht.equals_le, by dsimp only; omega, ?_⟩
      · have := ht.separator_lt
        dsimp only
        omega
      · obtain ⟨before, hbefore⟩ := ht.suffix
        refine ⟨before, ?_⟩
        dsimp only
        rw [take_add_one, hsep, take_add_one, hc, ← hbefore, append_assoc]
  · split
    · split
      · next hequals =>
        have hlt := (List.getElem?_eq_some_iff.mp hequals.2).1
        split
        · have hzero := (@takeKey_fields K Char T.query { t with separatorIndex := 0 } stop).1
          exact ⟨by rw [Query.equalsMatched]; exact hzero ▸ hpos, le_refl _, le_refl _,
            by rw [Query.equalsMatched]; dsimp only; rw [hzero]; exact nil_suffix⟩
        · exact ⟨hpos, hlt, by dsimp only; omega, nil_suffix⟩
      · obtain ⟨hzero, hequals, hlast⟩ := @keyCode_fields K Char T.query
          { t with separatorIndex := 0, equalsIndex := 0 } P (kindOf c.toNat)
        refine ⟨by rw [hzero]; exact hpos, by rw [hequals]; exact Nat.zero_le _, ?_,
          by rw [hzero]; exact nil_suffix⟩
        rcases hlast with hlast | hlast <;> rw [hlast]
        exact Nat.le_succ_of_le hle
    · obtain ⟨hzero, hequals, hlast⟩ := @valueCode_fields K Char T.query { t with separatorIndex := 0 } P
        (kindOf c.toNat)
      refine ⟨by rw [hzero]; exact hpos, by rw [hequals]; exact ht.equals_le, ?_,
        by rw [hzero]; exact nil_suffix⟩
      rcases hlast with hlast | hlast <;> rw [hlast]
      exact Nat.le_succ_of_le hle

/-! ### The condition -/

/-- The character that as many bytes and as many units come after as the equals string has. -/
def Texts.back (T : Texts) (P : ℕ) : Option ℕ :=
  (List.range (P + 2)).find? fun m =>
    decide (T.place utf8 m + (utf8.text T.equals).length = T.place utf8 (P + 1)) &&
      decide (T.place utf16 m + (utf16.text T.equals).length = T.place utf16 (P + 1))

/-- The character ends the equals string. -/
def Texts.completes (T : Texts) (c : Char) (t : Scan Char K) : Bool :=
  decide (T.equals[t.equalsIndex]? = some c) && decide (t.equalsIndex + 1 = T.equals.length) &&
    decide (T.separator[t.separatorIndex]? ≠ some c) && !T.clash utf16 c t

/-- Bytes and units take the character alike: it is not the equals string's next while it begins like the
separator's next in one encoding only, and if it ends the equals string, going back leads both to one
character. -/
def Texts.agreed (T : Texts) (P : ℕ) (c : Char) (t : Scan Char K) : Bool :=
  decide (T.clash utf8 c t = T.clash utf16 c t ∨ T.separator[t.separatorIndex]? = some c ∨
    T.equals[t.equalsIndex]? ≠ some c) &&
    (!T.completes c t || (T.back P).isSome)

/-- A turn of the scan over units, told by characters. -/
def Texts.turn (T : Texts) (counter : Counter K) (P : ℕ) (c : Char) (t : Scan Char K) : Scan Char K :=
  T.charStep counter (T.clash utf16 c t) ((T.back P).getD 0) P c t

/-- Every turn is taken alike, and the counter stays a `u8`. -/
def Texts.steady (T : Texts) (counter : Counter K) : ℕ → List Char → Scan Char K → Bool
  | _, [], _ => true
  | P, c :: rest, t =>
    t.returned ||
      (T.agreed P c t && decide ((T.turn counter P c t).encodeCheck ≤ 255) &&
        T.steady counter (P + 1) rest (T.turn counter P c t))

theorem charStep_congr {clash clash' : Bool} (h : clash = clash' ∨ T.separator[t.separatorIndex]? = some c ∨
    T.equals[t.equalsIndex]? ≠ some c) (stop : ℕ) :
    T.charStep C clash stop P c t = T.charStep C clash' stop P c t := by
  rcases h with rfl | hsep | hequals
  · rfl
  · rw [Texts.charStep, Texts.charStep, if_pos hsep, if_pos hsep]
  · simp only [Texts.charStep, hequals, and_false, if_false]

theorem place_back {m : ℕ} (h : T.back P = some m) :
    m ≤ P + 1 ∧ T.place utf8 m + (utf8.text T.equals).length = T.place utf8 (P + 1) ∧
      T.place utf16 m + (utf16.text T.equals).length = T.place utf16 (P + 1) := by
  have hmem := mem_of_find?_eq_some h
  have hfound := find?_some h
  rw [Bool.and_eq_true, decide_eq_true_iff, decide_eq_true_iff] at hfound
  rw [mem_range] at hmem
  exact ⟨by omega, hfound⟩

section Turn

variable {α : Type} [DecidableEq α] {E : Coding α} {g : α → CodeKind} {b : α}

theorem scan_turn (h : Faithful E g b) (hequalsNe : T.equals ≠ []) (ht : Within T P t)
    (hret : t.returned = false) (hc : T.input[P]? = some c) (hagreed : T.agreed P c t = true)
    (hclash : T.clash E c t = T.clash utf16 c t ∨ T.separator[t.separatorIndex]? = some c ∨
      T.equals[t.equalsIndex]? ≠ some c)
    (hplace : ∀ m, T.back P = some m → T.place E m + (E.text T.equals).length = T.place E (P + 1)) :
    (T.encode E g b).scan C (T.place E P) (E.code c) (T.scan E t) = T.scan E (T.turn C P c t) := by
  rw [Texts.turn, ← charStep_congr hclash]
  refine scan_code h hc hequalsNe ht hret fun hequals hfull hsep hfalse => ?_
  have hunits : T.clash utf16 c t = false := by
    rcases hclash with heq | hmatch | hother
    · rw [← heq, hfalse]
    · exact absurd hmatch hsep
    · exact absurd hequals hother
  have hcompletes : T.completes c t = true := by
    simp [Texts.completes, hequals, hfull, hsep, hunits]
  rw [Texts.agreed, hcompletes, Bool.and_eq_true, Bool.not_true, Bool.false_or] at hagreed
  obtain ⟨m, hm⟩ := isSome_iff_exists.mp hagreed.2
  have hlt := (List.getElem?_eq_some_iff.mp hc).1
  have hle := (place_back hm).1
  rw [hm, getD_some]
  exact ⟨by omega, hplace m hm⟩

end Turn

/-! ### The counter -/

section Checked

variable {α : Type} [DecidableEq α] {q : Query α} {s : Scan α K} {i : ℕ}

/-- Only a hexadecimal digit counts. -/
theorem step_check {x : α} (hkind : q.kind x = .other) : (q.step C i x s).encodeCheck ≤ s.encodeCheck := by
  rw [Query.step, hkind, keyCode_other, valueCode_other]
  split_ifs
  · exact separatorMatched_check
  · exact le_refl _
  · exact Nat.zero_le _
  · exact le_refl _
  · exact le_refl _
  · exact Nat.zero_le _
  · exact le_refl _
  · exact Nat.zero_le _

theorem scanChecked_returned (h : s.returned = true) (codes : List α) : q.scanChecked C i codes s = some s := by
  cases codes with
  | nil => rfl
  | cons code rest => rw [Query.scanChecked, if_pos h]

theorem scanChecked_append (v w : List α) :
    q.scanChecked C i (v ++ w) s = (q.scanChecked C i v s).bind (q.scanChecked C (i + v.length) w) := by
  induction v generalizing i s with
  | nil => rfl
  | cons x v ih =>
    rw [cons_append, Query.scanChecked, Query.scanChecked]
    split
    · next h => rw [bind_some, scanChecked_returned h]
    · split
      · rfl
      · have hlength : i + (x :: v).length = i + 1 + v.length := by
          rw [length_cons]
          omega
        rw [ih, hlength]

theorem scanChecked_other {w : List α} (hw : ∀ x ∈ w, q.kind x = .other) (hs : s.encodeCheck ≤ 255) :
    q.scanChecked C i w s = some (q.scan C i w s) := by
  induction w generalizing i s with
  | nil => rfl
  | cons x w ih =>
    have hstep := @step_check K C α _ q s i x (hw x (by simp))
    rw [Query.scanChecked, Query.scan]
    split
    · rfl
    · rw [if_neg (by omega)]
      exact ih (fun y hy => hw y (by simp [hy])) (by omega)

theorem scanChecked_code {E : Coding α} {g : α → CodeKind} {b : α} (h : Faithful E g b) {c : Char}
    (hs : s.encodeCheck ≤ 255) (hend : ((T.encode E g b).scan C i (E.code c) s).encodeCheck ≤ 255) :
    (T.encode E g b).scanChecked C i (E.code c) s = some ((T.encode E g b).scan C i (E.code c) s) := by
  by_cases hother : kindOf c.toNat = .other
  · exact scanChecked_other (fun x hx => (h.kind_code c x hx).trans hother) hs
  · obtain ⟨x, hx⟩ := length_eq_one_iff.mp (h.single c hother)
    rw [hx] at hend ⊢
    rw [Query.scanChecked, Query.scan]
    split
    · rfl
    · next hret =>
      rw [Query.scan, if_neg hret, Query.scan] at hend
      rw [if_neg (by omega), Query.scanChecked, Query.scan]

end Checked

/-! ### The encodings -/

theorem kindOf_high {n : ℕ} (h : 0x80 ≤ n) : kindOf n = .other := by
  rw [kindOf, if_neg (by omega), if_neg (by omega), if_neg (by omega)]

theorem faithful_utf8 : Faithful utf8 (fun x : UInt8 => kindOf x.toNat) 0x20 where
  lawful := utf8_lawful
  kind_code c x hx := by
    have hcode := bytes8_code c
    generalize utf8.code c = bytes at hcode hx
    cases hcode with
    | one ha => obtain rfl := mem_singleton.mp hx; rw [ha]
    | two =>
      simp only [mem_cons, not_mem_nil, or_false] at hx
      rw [kindOf_high (by omega : 0x80 ≤ c.toNat)]
      rcases hx with rfl | rfl <;> exact kindOf_high (by omega)
    | three =>
      simp only [mem_cons, not_mem_nil, or_false] at hx
      rw [kindOf_high (by omega : 0x80 ≤ c.toNat)]
      rcases hx with rfl | rfl | rfl <;> exact kindOf_high (by omega)
    | four =>
      simp only [mem_cons, not_mem_nil, or_false] at hx
      rw [kindOf_high (by omega : 0x80 ≤ c.toNat)]
      rcases hx with rfl | rfl | rfl | rfl <;> exact kindOf_high (by omega)
  single c hc := by
    have hcode := bytes8_code c
    generalize utf8.code c = bytes at hcode
    cases hcode with
    | one => rfl
    | two => exact absurd (kindOf_high (by omega)) hc
    | three => exact absurd (kindOf_high (by omega)) hc
    | four => exact absurd (kindOf_high (by omega)) hc
  space := rfl

theorem faithful_utf16 : Faithful utf16 (fun x : UInt16 => kindOf x.toNat) 0x20 where
  lawful := utf16_lawful
  kind_code c x hx := by
    have hcode := units16_code c
    generalize utf16.code c = units at hcode hx
    cases hcode with
    | one ha => obtain rfl := mem_singleton.mp hx; rw [ha]
    | two =>
      simp only [mem_cons, not_mem_nil, or_false] at hx
      rw [kindOf_high (by omega : 0x80 ≤ c.toNat)]
      rcases hx with rfl | rfl <;> exact kindOf_high (by omega)
  single c hc := by
    have hcode := units16_code c
    generalize utf16.code c = units at hcode
    cases hcode with
    | one => rfl
    | two => exact absurd (kindOf_high (by omega)) hc
  space := rfl

/-! ### Runs -/

/-- **A run**: from any character on, the three scans stand for one scan over characters. -/
theorem scan_rest (hequalsNe : T.equals ≠ []) {rest : List Char} (hrest : T.input.drop P = rest)
    (hP : P ≤ T.input.length) (ht : Within T P t) (hcheck : t.encodeCheck ≤ 255)
    (hsteady : T.steady C P rest t = true) :
    ∃ t' : Scan Char K, (t'.returned = true ∨ Within T T.input.length t') ∧
      (T.encode utf8 (fun x => kindOf x.toNat) 0x20).scan C (T.place utf8 P) (utf8.text rest) (T.scan utf8 t) =
        T.scan utf8 t' ∧
      (T.encode utf8 (fun x => kindOf x.toNat) 0x20).scanChecked C (T.place utf8 P) (utf8.text rest)
        (T.scan utf8 t) = some (T.scan utf8 t') ∧
      (T.encode utf16 (fun x => kindOf x.toNat) 0x20).scan C (T.place utf16 P) (utf16.text rest) (T.scan utf16 t) =
        T.scan utf16 t' := by
  induction rest generalizing P t with
  | nil =>
    have hlength := congrArg List.length hrest
    rw [length_drop, length_nil] at hlength
    have hend : P = T.input.length := by omega
    exact ⟨t, .inr (hend ▸ ht), rfl, rfl, rfl⟩
  | cons c rest ih =>
    cases hret : t.returned with
    | true =>
      exact ⟨t, .inl hret, scan_returned (s := T.scan utf8 t) hret _,
        scanChecked_returned (s := T.scan utf8 t) hret _, scan_returned (s := T.scan utf16 t) hret _⟩
    | false =>
      obtain ⟨hc, hdrop, hlength⟩ := get_of_drop hrest
      rw [Texts.steady, hret, Bool.false_or, Bool.and_eq_true, Bool.and_eq_true, decide_eq_true_iff] at hsteady
      obtain ⟨⟨hagreed, hnext⟩, hsteady⟩ := hsteady
      have hclash : T.clash utf8 c t = T.clash utf16 c t ∨ T.separator[t.separatorIndex]? = some c ∨
          T.equals[t.equalsIndex]? ≠ some c := by
        rw [Texts.agreed, Bool.and_eq_true, decide_eq_true_iff] at hagreed
        exact hagreed.1
      have h8 := scan_turn (C := C) faithful_utf8 hequalsNe ht hret hc hagreed hclash
        fun m hm => (place_back hm).2.1
      have h16 := scan_turn (C := C) faithful_utf16 hequalsNe ht hret hc hagreed (.inl rfl)
        fun m hm => (place_back hm).2.2
      have hchecked := scanChecked_code (C := C) (i := T.place utf8 P) (s := T.scan utf8 t) (c := c)
        faithful_utf8 hcheck (by rw [h8]; exact hnext)
      have hwithin : Within T (P + 1) (T.turn C P c t) := ht.charStep hc _ _
      obtain ⟨t', hend, hscan8, hscanChecked, hscan16⟩ := ih hdrop (by omega) hwithin hnext hsteady
      refine ⟨t', hend, ?_, ?_, ?_⟩
      · rw [Coding.text_cons, scan_append, h8, ← place_succ hc, hscan8]
      · rw [Coding.text_cons, scanChecked_append, hchecked, bind_some, h8, ← place_succ hc, hscanChecked]
      · rw [Coding.text_cons, scan_append, h16, ← place_succ hc, hscan16]

/-! ### The end of the input -/

section Finish

variable {α : Type} {E : Coding α} {g : α → CodeKind} {b : α}

theorem place_length (T : Texts) (E : Coding α) : T.place E T.input.length = (E.text T.input).length := by
  rw [Texts.place, take_length]

theorem encode_addPair : (T.scan E t).addPair.output = t.addPair.output.map (Pair.encode E) := by
  simp [Scan.addPair, Texts.scan, Pair.encode]

theorem encode_finish (h : Faithful E g b) (ht : t.returned = true ∨ Within T T.input.length t) :
    (T.encode E g b).finish (T.scan E t) = (T.query.finish t).map (Pair.encode E) := by
  have hret : (T.scan E t).returned = t.returned := rfl
  have hinput : (T.encode E g b).input.length = T.place E T.input.length := (place_length T E).symm
  rw [Query.finish, Query.finish, hret]
  rcases ht with htrue | ht
  · rw [if_pos htrue, if_pos htrue]
    rfl
  · have hlast : (T.scan E t).lastPosition < T.place E T.input.length ↔ t.lastPosition < T.query.input.length :=
      h.lawful.length_take_lt T.input (le_refl _)
    have hequals : (T.scan E t).equalsIndex < (T.encode E g b).equals.length ↔
        t.equalsIndex < T.query.equals.length := equalsIndex_lt h
    have hsep : (T.scan E t).separatorIndex < (T.encode E g b).separator.length ↔
        t.separatorIndex < T.query.separator.length := by
      have := h.lawful.length_take_lt T.separator (m := t.separatorIndex) le_rfl
      rwa [take_length] at this
    have hzero : (T.scan E t).equalsIndex = 0 ↔ t.equalsIndex = 0 := by
      have := h.lawful.length_take_lt T.equals (m := 0) ht.equals_le
      rw [take_zero, Coding.text_nil, length_nil] at this
      have hindex : (T.scan E t).equalsIndex = (E.text (T.equals.take t.equalsIndex)).length := rfl
      omega
    have hkey : (T.scan E t).key.isEmpty = t.key.isEmpty := text_isEmpty h.lawful t.key
    have hquery : T.query.input.length = T.input.length := rfl
    rw [hinput, encode_takeKey h (le_refl _), encode_takeValue h (le_refl _), encode_addPair, encode_addPair,
      encode_addPair, hkey]
    simp only [hlast, hequals, hsep, hzero, hquery]
    split_ifs <;> rfl

end Finish

theorem pieces_encode (p : Pair Char) : pieces (p.encode utf8) = some (p.encode utf16) := by
  rw [pieces, Pair.encode, fromUtf8_text, bind_some, fromUtf8_text, map_some]
  rfl

theorem mapM_pieces (output : List (Pair Char)) :
    (output.map (Pair.encode utf8)).mapM pieces = some (output.map (Pair.encode utf16)) := by
  induction output with
  | nil => rfl
  | cons p output ih =>
    rw [map_cons, mapM_cons, pieces_encode, ih]
    rfl

/-! ### The parsers -/

/-- The texts of a call, with the defaults. -/
def texts (input separator equals : List Char) : Texts :=
  ⟨input, orDefault separator ['&'], orDefault equals ['=']⟩

/-- The C and the Rust parser return, and find the pairs of the scan over UTF-16 code units. -/
def ParsersAgree (counter : Counter K) (pairs : K) (input separator equals : List Char) : Prop :=
  querystringParse counter pairs input separator equals = some (unitParse counter pairs input separator equals) ∧
    ∃ output : List (Pair Char),
      scrQsParse counter pairs input separator equals = output.map (Pair.encode utf8) ∧
        unitParse counter pairs input separator equals = output.map (Pair.encode utf16)

theorem orDefault_ne_nil (given : List Char) {c : Char} : orDefault given [c] ≠ [] := by
  cases given with
  | nil => simp [orDefault]
  | cons d given => simp [orDefault]

/-- **The parsers agree** on every call whose turns are steady. -/
theorem parsers_agree (counter : Counter K) (pairs : K) (input separator equals : List Char)
    (h : (texts input separator equals).steady counter 0 input (Scan.start pairs) = true) :
    ParsersAgree counter pairs input separator equals := by
  cases hinput : input.isEmpty with
  | true =>
    obtain rfl := List.isEmpty_iff.mp hinput
    exact ⟨rfl, [], rfl, rfl⟩
  | false =>
    have hempty8 : (utf8.text input).isEmpty = false := (text_isEmpty utf8_lawful input).trans hinput
    have hempty16 : (utf16.text input).isEmpty = false := (text_isEmpty utf16_lawful input).trans hinput
    have hwithin : Within (texts input separator equals) 0 (Scan.start pairs) :=
      ⟨length_pos_iff.mpr (orDefault_ne_nil separator), Nat.zero_le _, le_refl _, nil_suffix⟩
    obtain ⟨t', hend, hscan8, hchecked, hscan16⟩ := scan_rest (C := counter) (orDefault_ne_nil equals)
      (T := texts input separator equals) (P := 0) rfl (Nat.zero_le _) hwithin (Nat.zero_le _) h
    have hbytes : scrQsParse counter pairs input separator equals =
        ((texts input separator equals).query.finish t').map (Pair.encode utf8) := by
      rw [← encode_finish faithful_utf8 hend, ← hscan8, scrQsParse, Query.parse]
      exact if_neg (by rw [Bool.not_eq_true]; exact hempty8)
    have hunits : unitParse counter pairs input separator equals =
        ((texts input separator equals).query.finish t').map (Pair.encode utf16) := by
      rw [← encode_finish faithful_utf16 hend, ← hscan16, unitParse, Query.parse]
      exact if_neg (by rw [Bool.not_eq_true]; exact hempty16)
    refine ⟨?_, _, hbytes, hunits⟩
    have hscan : (byteQuery input separator equals).scanChecked counter 0 (utf8.text input) (Scan.start pairs) =
        some ((texts input separator equals).scan utf8 t') := hchecked
    have hfinish : (byteQuery input separator equals).finish ((texts input separator equals).scan utf8 t') =
        ((texts input separator equals).query.finish t').map (Pair.encode utf8) := encode_finish faithful_utf8 hend
    rw [querystringParse, if_neg (by rw [hempty8]; exact Bool.false_ne_true), hscan, bind_some, hfinish,
      mapM_pieces, hunits]

/-- Counting down by one. -/
def countDown : Counter ℤ := ⟨fun n => n - 1, fun n => n = 0⟩

/-- A text with a character that begins like the separator. -/
theorem parsers_agree_shared : ParsersAgree countDown (-1) "kà=v+1é%41=x".toList "é".toList "=".toList :=
  parsers_agree countDown (-1) _ _ _ (by decide +kernel)

/-- The equals string is not found when its first byte starts the separator. -/
theorem not_parsers_agree :
    ¬∀ (pairs : ℤ) (input separator equals : List Char), separator ≠ [] → equals ≠ [] →
      ParsersAgree countDown pairs input separator equals := by
  intro h
  obtain ⟨-, output, hbytes, hunits⟩ := h (-1) "kàv".toList "é".toList "à".toList (by decide) (by decide)
  have hscanned : scrQsParse countDown (-1) "kàv".toList "é".toList "à".toList =
      [⟨[0x6b, 0xc3, 0xa0, 0x76], [], false, false⟩] := by
    decide +kernel
  have hwanted : unitParse countDown (-1) "kàv".toList "é".toList "à".toList = [⟨[0x6b], [0x76], false, false⟩] := by
    decide +kernel
  rw [hscanned] at hbytes
  rw [hwanted] at hunits
  match output with
  | [] => cases hbytes
  | p :: _ =>
    have hvalue8 : utf8.text p.value = [] := by
      have := congrArg (fun l => l.head?.map Pair.value) hbytes
      exact (some.inj this).symm
    have hvalue16 : utf16.text p.value = [0x76] := by
      have := congrArg (fun l => l.head?.map Pair.value) hunits
      exact (some.inj this).symm
    have hempty := text_isEmpty utf8_lawful p.value
    rw [hvalue8] at hempty
    rw [List.isEmpty_iff.mp hempty.symm] at hvalue16
    cases hvalue16

end Scriptc.Querystring
