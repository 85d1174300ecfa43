import Scriptc.RuntimeRust.Querystring

/-!
# The scan of a query string, in an encoding

The scan over the codes of an encoding follows the scan over characters, one character at a time. Two
things depend on the encoding: whether a character begins like the separator's next one, and where the
text before the equals string ends, which the code finds by going back the equals string's length.
-/

namespace Scriptc.Querystring

open List

variable {α K : Type} {C : Counter K}

/-- What the scan needs of an encoding. -/
structure Faithful (E : Coding α) (kind : α → CodeKind) (space : α) : Prop where
  lawful : E.Lawful
  kind_code : ∀ c, ∀ x ∈ E.code c, kind x = kindOf c.toNat
  single : ∀ c : Char, kindOf c.toNat ≠ .other → (E.code c).length = 1
  space : E.code ' ' = [space]

structure Texts where
  input : List Char
  separator : List Char
  equals : List Char

def Texts.query (T : Texts) : Query Char where
  kind c := kindOf c.toNat
  space := ' '
  input := T.input
  separator := T.separator
  equals := T.equals

def Texts.encode (T : Texts) (E : Coding α) (kind : α → CodeKind) (space : α) : Query α where
  kind := kind
  space := space
  input := E.text T.input
  separator := E.text T.separator
  equals := E.text T.equals

def Pair.encode (E : Coding α) (p : Pair Char) : Pair α :=
  ⟨E.text p.key, E.text p.value, p.keyEncoded, p.valueEncoded⟩

/-- Where a character begins. -/
def Texts.place (T : Texts) (E : Coding α) (n : ℕ) : ℕ := (E.text (T.input.take n)).length

/-- The scan over codes that a scan over characters stands for. -/
def Texts.scan (T : Texts) (E : Coding α) (t : Scan Char K) : Scan α K where
  output := t.output.map (Pair.encode E)
  pairs := t.pairs
  key := E.text t.key
  value := E.text t.value
  lastPosition := T.place E t.lastPosition
  separatorIndex := (E.text (T.separator.take t.separatorIndex)).length
  equalsIndex := (E.text (T.equals.take t.equalsIndex)).length
  keyEncoded := t.keyEncoded
  valueEncoded := t.valueEncoded
  encodeCheck := t.encodeCheck
  returned := t.returned

variable {T : Texts} {E : Coding α} {g : α → CodeKind} {b : α} {t : Scan Char K} {P m i : ℕ}

/-! ### The operations -/

theorem lastPosition_lt (h : Faithful E g b) (hm : m ≤ T.input.length) :
    (T.scan E t).lastPosition < T.place E m ↔ t.lastPosition < m :=
  h.lawful.length_take_lt T.input hm

theorem encode_slice (hlt : t.lastPosition < m) :
    ((T.encode E g b).input.take (T.place E m)).drop (T.scan E t).lastPosition = E.text ((T.input.take m).drop t.lastPosition) :=
  Coding.slice_text T.input (Nat.le_of_lt hlt)

theorem encode_takeKey (h : Faithful E g b) (hm : m ≤ T.input.length) :
    (T.encode E g b).takeKey (T.place E m) (T.scan E t) = T.scan E (T.query.takeKey m t) := by
  rw [Query.takeKey, Query.takeKey]
  by_cases hlt : t.lastPosition < m
  · rw [if_pos ((lastPosition_lt h hm).mpr hlt), if_pos hlt, encode_slice hlt]
    simp only [Texts.scan, Texts.query, Coding.text_append]
  · rw [if_neg fun hp => hlt ((lastPosition_lt h hm).mp hp), if_neg hlt]

theorem encode_takeValue (h : Faithful E g b) (hm : m ≤ T.input.length) :
    (T.encode E g b).takeValue (T.place E m) (T.scan E t) = T.scan E (T.query.takeValue m t) := by
  rw [Query.takeValue, Query.takeValue]
  by_cases hlt : t.lastPosition < m
  · rw [if_pos ((lastPosition_lt h hm).mpr hlt), if_pos hlt, encode_slice hlt]
    simp only [Texts.scan, Texts.query, Coding.text_append]
  · rw [if_neg fun hp => hlt ((lastPosition_lt h hm).mp hp), if_neg hlt]

theorem encode_nextPair (hindex : i + 1 = T.place E (P + 1)) :
    (T.scan E t).nextPair C i = T.scan E (t.nextPair C P) := by
  simp only [Scan.nextPair, Scan.countDown, Scan.addPair, Texts.scan, hindex, map_append, map_cons,
    map_nil, take_zero, Coding.text_nil, length_nil]
  rfl

theorem encode_skipEmpty (hindex : i + 1 = T.place E (P + 1)) :
    (T.scan E t).skipEmpty C i = T.scan E (t.skipEmpty C P) := by
  simp only [Scan.skipEmpty, Scan.countDown, Texts.scan, hindex, take_zero, Coding.text_nil,
    length_nil]

theorem text_isEmpty (h : E.Lawful) (cs : List Char) : (E.text cs).isEmpty = cs.isEmpty := by
  cases cs with
  | nil => rfl
  | cons c cs =>
    have := h.ne_nil c
    rw [Coding.text_cons]
    cases hc : E.code c with
    | nil => exact absurd hc this
    | cons x w => rfl

theorem equalsIndex_lt (h : Faithful E g b) :
    (T.scan E t).equalsIndex < (T.encode E g b).equals.length ↔ t.equalsIndex < T.equals.length := by
  have := h.lawful.length_take_lt T.equals (m := t.equalsIndex) le_rfl
  rwa [take_length] at this

theorem encode_separatorMatched (h : Faithful E g b) (hP : P < T.input.length)
    (hindex : i + 1 = T.place E (P + 1)) (hsep : T.separator <:+ T.input.take (P + 1)) :
    (T.encode E g b).separatorMatched C i (T.scan E t) =
      T.scan E (T.query.separatorMatched C P t) := by
  have hstop : i + 1 - (T.encode E g b).separator.length = T.place E (P + 1 - T.separator.length) := by
    obtain ⟨before, hbefore⟩ := hsep
    have hlength := congrArg List.length hbefore
    rw [length_append, length_take, Nat.min_eq_left hP] at hlength
    have htake : T.input.take (P + 1 - T.separator.length) = before := by
      have hle : P + 1 - T.separator.length ≤ P + 1 := Nat.sub_le _ _
      rw [← Nat.min_eq_left hle, ← take_take, ← hbefore]
      have hcount : P + 1 - T.separator.length = before.length := by omega
      rw [hcount, take_left]
    have hseparator : (T.encode E g b).separator = E.text T.separator := rfl
    rw [hindex, hseparator, Texts.place, Texts.place, htake, ← hbefore, Coding.text_append, length_append,
      Nat.add_sub_cancel]
  have hm : P + 1 - T.separator.length ≤ T.input.length := by omega
  have hlast : (T.scan E t).lastPosition < T.place E (P + 1 - T.separator.length) ↔
      t.lastPosition < P + 1 - T.separator.length := h.lawful.length_take_lt T.input hm
  have hkey : (T.scan E t).key.isEmpty = t.key.isEmpty := text_isEmpty h.lawful t.key
  rw [Query.separatorMatched, Query.separatorMatched, hstop, encode_takeKey h hm, encode_takeValue h hm,
    encode_nextPair hindex, encode_nextPair hindex, encode_nextPair hindex, encode_skipEmpty hindex, hkey]
  simp only [equalsIndex_lt h, hlast]
  have hquery : T.query.equals.length = T.equals.length ∧ T.query.separator.length = T.separator.length := ⟨rfl, rfl⟩
  rw [hquery.1, hquery.2]
  split_ifs <;> rfl

theorem encode_equalsMatched (h : Faithful E g b) (hm : m ≤ T.input.length)
    (hindex : i + 1 = T.place E (P + 1)) :
    (T.encode E g b).equalsMatched (T.place E m) i (T.scan E t) =
      T.scan E (T.query.equalsMatched m P t) := by
  rw [Query.equalsMatched, Query.equalsMatched, encode_takeKey h hm, hindex]
  have hquery : T.query.equals.length = T.equals.length := rfl
  simp only [Texts.scan, hquery, take_length]
  rfl

theorem text_snoc_space (h : Faithful E g b) (cs : List Char) : E.text (cs ++ [' ']) = E.text cs ++ [b] := by
  rw [Coding.text_append, Coding.text_cons, h.space]
  rfl

theorem encode_valueCode (h : Faithful E g b) (hP : P ≤ T.input.length) {k : CodeKind}
    (hindex : k = .plus → i = T.place E P ∧ i + 1 = T.place E (P + 1)) :
    (T.encode E g b).valueCode i k (T.scan E t) = T.scan E (T.query.valueCode P k t) := by
  have hvalue : (T.scan E t).valueEncoded = t.valueEncoded := rfl
  have hcheck : (T.scan E t).encodeCheck = t.encodeCheck := rfl
  cases k with
  | plus =>
    obtain ⟨rfl, hnext⟩ := hindex rfl
    rw [Query.valueCode, Query.valueCode, encode_takeValue h hP, hnext]
    simp only [Texts.scan, Texts.query, text_snoc_space h]
    rfl
  | percent =>
    rw [Query.valueCode, Query.valueCode, hvalue]
    split_ifs <;> rfl
  | hex =>
    rw [Query.valueCode, Query.valueCode, hvalue, hcheck]
    split_ifs <;> rfl
  | other =>
    rw [Query.valueCode, Query.valueCode, hvalue]
    split_ifs <;> rfl

theorem encode_keyCode (h : Faithful E g b) (hP : P ≤ T.input.length) {k : CodeKind}
    (hindex : k = .plus → i = T.place E P ∧ i + 1 = T.place E (P + 1)) :
    (T.encode E g b).keyCode i k (T.scan E t) = T.scan E (T.query.keyCode P k t) := by
  have hkey : (T.scan E t).keyEncoded = t.keyEncoded := rfl
  have hcheck : (T.scan E t).encodeCheck = t.encodeCheck := rfl
  cases k with
  | plus =>
    obtain ⟨rfl, hnext⟩ := hindex rfl
    rw [Query.keyCode, Query.keyCode, encode_takeKey h hP, hnext]
    simp only [Texts.scan, Texts.query, text_snoc_space h]
    rfl
  | percent =>
    rw [Query.keyCode, Query.keyCode, encode_valueCode h hP hindex, hkey]
    split_ifs <;> rfl
  | hex =>
    rw [Query.keyCode, Query.keyCode, encode_valueCode h hP hindex, hkey, hcheck]
    split_ifs <;> rfl
  | other =>
    rw [keyCode_other, keyCode_other]
    rfl

/-! ### One character -/

/-- What a character does to the scan over characters, when it is known whether it clashes with the
separator's next one, and where the text before the equals string ends. -/
def Texts.charStep (T : Texts) (C : Counter K) (clash : Bool) (stop P : ℕ) (c : Char) (t : Scan Char K) :
    Scan Char K :=
  if T.separator[t.separatorIndex]? = some c then
    if t.separatorIndex + 1 = T.separator.length then
      T.query.separatorMatched C P { t with separatorIndex := t.separatorIndex + 1 }
    else { t with separatorIndex := t.separatorIndex + 1 }
  else if t.equalsIndex < T.equals.length then
    if clash = false ∧ T.equals[t.equalsIndex]? = some c then
      if t.equalsIndex + 1 = T.equals.length then T.query.equalsMatched stop P { t with separatorIndex := 0 }
      else { t with separatorIndex := 0, equalsIndex := t.equalsIndex + 1 }
    else T.query.keyCode P (kindOf c.toNat) { t with separatorIndex := 0, equalsIndex := 0 }
  else T.query.valueCode P (kindOf c.toNat) { t with separatorIndex := 0 }

/-- A scan over characters that may be at a position. -/
structure Within (T : Texts) (P : ℕ) (t : Scan Char K) : Prop where
  separator_lt : t.separatorIndex < T.separator.length
  equals_le : t.equalsIndex ≤ T.equals.length
  last_le : t.lastPosition ≤ P
  suffix : T.separator.take t.separatorIndex <:+ T.input.take P

/-- Where the codes stand before and after a character. -/
theorem place_succ {c : Char} (hc : T.input[P]? = some c) : T.place E (P + 1) = T.place E P + (E.code c).length :=
  Coding.length_take_add T.input hc

/-- No code that goes on a character starts a text. -/
theorem tail_ne_text (h : E.Lawful) {cs : List Char} (hcs : cs ≠ []) (c : Char) :
    ∀ x ∈ (E.code c).tail, (E.text cs)[0]? ≠ some x := by
  intro x hx
  obtain ⟨d, ds, rfl⟩ := exists_cons_of_ne_nil hcs
  have hhead : (E.text (d :: ds))[0]? = (E.code d).head? := by
    cases hd : E.code d with
    | nil => exact absurd hd (h.ne_nil d)
    | cons y w => rw [Coding.text_cons, hd]; rfl
  rw [hhead]
  exact h.tail_ne_lead c d x hx

theorem kind_other (h : Faithful E g b) {c : Char} (hlength : (E.code c).length ≠ 1) :
    kindOf c.toNat = .other := by
  by_contra hne
  exact hlength (h.single c hne)

section Character

variable {c : Char}

/-- The equals string's next character starts with no code that goes on a character. -/
theorem tail_ne_equals (h : E.Lawful) {x : α} (hx : x ∈ (E.code c).tail) :
    (T.encode E g b).equals[(T.scan E t).equalsIndex]? ≠ some x := by
  have hdrop : (T.encode E g b).equals[(T.scan E t).equalsIndex]? =
      (E.text (T.equals.drop t.equalsIndex))[0]? := by
    have hsplit : E.text T.equals =
        E.text (T.equals.take t.equalsIndex) ++ E.text (T.equals.drop t.equalsIndex) := by
      rw [← Coding.text_append, take_append_drop]
    have hequals : (T.encode E g b).equals = E.text T.equals := rfl
    have hindex : (T.scan E t).equalsIndex = (E.text (T.equals.take t.equalsIndex)).length := rfl
    rw [hequals, hsplit, hindex, getElem?_append_right (le_refl _), Nat.sub_self]
  rw [hdrop]
  by_cases hnil : T.equals.drop t.equalsIndex = []
  · rw [hnil]
    simp
  · exact tail_ne_text h hnil c x hx

/-- Passing over a character that the key or the value has no use for. -/
theorem pass_scan (h : Faithful E g b) :
    (T.encode E g b).pass (T.scan E t) =
      T.scan E (if t.equalsIndex < T.equals.length then
        T.query.keyCode P .other { t with separatorIndex := 0, equalsIndex := 0 }
      else T.query.valueCode P .other { t with separatorIndex := 0 }) := by
  by_cases hlt : t.equalsIndex < T.equals.length
  · rw [if_pos hlt, Query.pass, if_pos ((equalsIndex_lt h).mpr hlt), keyCode_other, keyCode_other]
    rfl
  · rw [if_neg hlt, Query.pass, if_neg (fun hp => hlt ((equalsIndex_lt h).mp hp)), valueCode_other, valueCode_other]
    rfl

theorem code_separator (hd : T.separator[t.separatorIndex]? = some c) :
    (T.encode E g b).separator.drop (T.scan E t).separatorIndex =
      E.code c ++ E.text (T.separator.drop (t.separatorIndex + 1)) := Coding.drop_text T.separator hd

theorem code_equals (hd : T.equals[t.equalsIndex]? = some c) :
    (T.encode E g b).equals.drop (T.scan E t).equalsIndex =
      E.code c ++ E.text (T.equals.drop (t.equalsIndex + 1)) := Coding.drop_text T.equals hd

theorem text_drop_ne_nil (h : E.Lawful) {cs : List Char} {n : ℕ} (hn : n < cs.length) : E.text (cs.drop n) ≠ [] := by
  intro hnil
  have hempty := text_isEmpty h (cs.drop n)
  rw [hnil] at hempty
  have hlength : (cs.drop n).length = 0 := by rw [List.isEmpty_iff.mp hempty.symm]; rfl
  rw [length_drop] at hlength
  omega

theorem separator_lead (h : Faithful E g b) {d : Char} (hsep : T.separator[t.separatorIndex]? = some d) {x : α}
    (hx : (E.code c).head? = some x) (hhead : (E.code c).head? ≠ (E.code d).head?) :
    (T.encode E g b).separator[(T.scan E t).separatorIndex]? ≠ some x := by
  have hcodes := code_separator (g := g) (b := b) (E := E) hsep
  cases hd : E.code d with
  | nil => exact absurd hd (h.lawful.ne_nil d)
  | cons y w =>
    rw [hd, cons_append] at hcodes
    rw [(get_of_drop hcodes).1, ← hx]
    rw [hd] at hhead
    exact fun heq => hhead heq.symm

theorem equalsMatched_index (stop n : ℕ) (s : Scan α K) :
    (T.encode E g b).equalsMatched stop i { s with equalsIndex := n } =
      (T.encode E g b).equalsMatched stop i s := by
  rw [Query.equalsMatched, Query.equalsMatched, Query.takeKey, Query.takeKey]
  split <;> rfl

variable [DecidableEq α]

/-- The codes after a character's first one, when they start nothing. -/
theorem scan_tail (h : Faithful E g b) (hsep : T.separator ≠ []) (hequals : T.equals ≠ []) {w v : List α}
    (hw : E.code c = w ++ v) (hne : w ≠ []) (hother : kindOf c.toNat = .other) {s : Scan α K}
    (hs : s.returned = false) :
    (T.encode E g b).scan C i v ((T.encode E g b).pass s) =
      (T.encode E g b).pass s := by
  have htail : ∀ y ∈ v, y ∈ (E.code c).tail := by
    intro y hy
    obtain ⟨x, w', rfl⟩ := exists_cons_of_ne_nil hne
    rw [hw]
    simp [hy]
  have hpos : 0 < (T.encode E g b).equals.length := by
    obtain ⟨d, ds, hd⟩ := exists_cons_of_ne_nil hequals
    have := h.lawful.length_pos d
    have hequalsText : (T.encode E g b).equals = E.code d ++ E.text ds := by
      rw [Texts.encode, hd]
      rfl
    rw [hequalsText, length_append]
    omega
  refine scan_pass (fun y hy => tail_ne_text h.lawful hsep c y (htail y hy))
    (fun y hy => tail_ne_text h.lawful hequals c y (htail y hy)) (fun y hy => ?_) hpos hs
  have hkind : g y = kindOf c.toNat := h.kind_code c y (mem_of_mem_tail (htail y hy))
  exact hkind.trans hother

/-- The separator goes on with the character. -/
theorem scan_code_separator (h : Faithful E g b) (hc : T.input[P]? = some c) (ht : Within T P t)
    (hret : t.returned = false) (hsep : T.separator[t.separatorIndex]? = some c) :
    (T.encode E g b).scan C (T.place E P) (E.code c) (T.scan E t) =
      T.scan E (if t.separatorIndex + 1 = T.separator.length then
        T.query.separatorMatched C P { t with separatorIndex := t.separatorIndex + 1 }
      else { t with separatorIndex := t.separatorIndex + 1 }) := by
  have hcodes := code_separator (g := g) (b := b) (E := E) hsep
  by_cases hfull : t.separatorIndex + 1 = T.separator.length
  · rw [if_pos hfull]
    rw [hfull, drop_length, Coding.text_nil, append_nil] at hcodes
    have hindex : T.place E P + (E.code c).length - 1 + 1 = T.place E (P + 1) := by
      have := h.lawful.length_pos c
      rw [place_succ hc]
      omega
    have hsuffix : T.separator <:+ T.input.take (P + 1) := by
      obtain ⟨before, hbefore⟩ := ht.suffix
      refine ⟨before, ?_⟩
      rw [take_add_one, hc, ← hbefore, append_assoc]
      congr 1
      have hlast := take_add_one (l := T.separator) (i := t.separatorIndex)
      rwa [hfull, take_length, hsep] at hlast
    have hmatched := encode_separatorMatched (C := C) (t := { t with separatorIndex := t.separatorIndex + 1 }) h
      (List.getElem?_eq_some_iff.mp hc).1 hindex hsuffix
    rw [scan_separator_full hcodes (h.lawful.ne_nil c) hret, ← hmatched]
    congr 1
    simp only [Texts.scan, hfull, take_length]
    rfl
  · rw [if_neg hfull]
    have hlt : t.separatorIndex + 1 < T.separator.length := by
      have := ht.separator_lt
      omega
    rw [scan_separator hcodes (text_drop_ne_nil h.lawful hlt) hret]
    simp only [Texts.scan, Coding.length_take_add T.separator hsep]

/-- The separator goes on with the character's first code and not with a later one. -/
theorem scan_code_clash (h : Faithful E g b) {d : Char} (hsep : T.separator[t.separatorIndex]? = some d)
    (hne : c ≠ d) (hhead : (E.code c).head? = (E.code d).head?) (hequals : T.equals ≠ [])
    (hret : t.returned = false) :
    (T.encode E g b).scan C (T.place E P) (E.code c) (T.scan E t) =
      T.scan E (if t.equalsIndex < T.equals.length then
        T.query.keyCode P (kindOf c.toNat) { t with separatorIndex := 0, equalsIndex := 0 }
      else T.query.valueCode P (kindOf c.toNat) { t with separatorIndex := 0 }) := by
  obtain ⟨w, x, v, y, v', hcode, hcode', hxy⟩ := h.lawful.parts hne
  have hw : w ≠ [] := by
    rintro rfl
    rw [hcode, hcode'] at hhead
    exact hxy (Option.some.inj hhead)
  have hlength : (E.code c).length ≠ 1 := by
    have := length_pos_iff.mpr hw
    rw [hcode, length_append, length_cons]
    omega
  have hother := kind_other h hlength
  have hcodes := code_separator (g := g) (b := b) (E := E) hsep
  rw [hcode', append_assoc, cons_append] at hcodes
  have hrun := scan_separator (C := C) (i := T.place E P) hcodes (cons_ne_nil _ _) hret
  have hsepNe : T.separator ≠ [] := by
    rintro hnil
    rw [hnil] at hsep
    simp at hsep
  have htail : x ∈ (E.code c).tail := by
    obtain ⟨z, w', rfl⟩ := exists_cons_of_ne_nil hw
    rw [hcode]
    simp
  have hnext : (T.encode E g b).separator[(T.scan E t).separatorIndex + w.length]? = some y := by
    have hdrop : (T.encode E g b).separator.drop ((T.scan E t).separatorIndex + w.length) =
        y :: (v' ++ E.text (T.separator.drop (t.separatorIndex + 1))) := by
      rw [← drop_drop, hcodes, drop_left]
    exact (get_of_drop hdrop).1
  have hkind : (T.encode E g b).kind x = .other :=
    (h.kind_code c x (mem_of_mem_tail htail)).trans hother
  have hpass : (T.encode E g b).step C (T.place E P + w.length) x
      { T.scan E t with separatorIndex := (T.scan E t).separatorIndex + w.length } =
      (T.encode E g b).pass (T.scan E t) := by
    have hne : (T.encode E g b).separator[(T.scan E t).separatorIndex + w.length]? ≠ some x := by
      rw [hnext]
      exact fun heq => hxy (Option.some.inj heq).symm
    exact step_pass (s := { T.scan E t with separatorIndex := (T.scan E t).separatorIndex + w.length }) hne
      (tail_ne_equals h.lawful htail) hkind
  have hcodeSplit : E.code c = (w ++ [x]) ++ v := by rw [hcode]; simp
  have hend := scan_tail (C := C) (i := T.place E P + w.length + 1) h hsepNe hequals hcodeSplit
    (by simp) hother (s := T.scan E t) hret
  rw [hcode, scan_append, hrun, scan_cons, hpass, hend, pass_scan (P := P) h, hother]
  exact hret

/-- Neither the separator nor the equals string goes on with the character's first code. -/
theorem scan_code_rest (h : Faithful E g b) (hc : T.input[P]? = some c) (hsepNe : T.separator ≠ [])
    (hequalsNe : T.equals ≠ []) (hret : t.returned = false)
    (hsep : ∀ x, (E.code c).head? = some x →
      (T.encode E g b).separator[(T.scan E t).separatorIndex]? ≠ some x)
    (hequals : ∀ x, (E.code c).head? = some x →
      (T.encode E g b).equals[(T.scan E t).equalsIndex]? ≠ some x) :
    (T.encode E g b).scan C (T.place E P) (E.code c) (T.scan E t) =
      T.scan E (if t.equalsIndex < T.equals.length then
        T.query.keyCode P (kindOf c.toNat) { t with separatorIndex := 0, equalsIndex := 0 }
      else T.query.valueCode P (kindOf c.toNat) { t with separatorIndex := 0 }) := by
  obtain ⟨x, w, hcode⟩ := exists_cons_of_ne_nil (h.lawful.ne_nil c)
  have hhead : (E.code c).head? = some x := by rw [hcode]; rfl
  have hP : P ≤ T.input.length := Nat.le_of_lt (List.getElem?_eq_some_iff.mp hc).1
  have hkind : (T.encode E g b).kind x = kindOf c.toNat := h.kind_code c x (by rw [hcode]; simp)
  cases w with
  | nil =>
    have hindex : kindOf c.toNat = .plus → T.place E P = T.place E P ∧ T.place E P + 1 = T.place E (P + 1) := by
      intro _
      rw [place_succ hc, hcode]
      exact ⟨rfl, rfl⟩
    rw [hcode, scan_cons, Query.scan, Query.step, if_neg (hsep x hhead), if_neg (hequals x hhead), hkind]
    · by_cases hlt : t.equalsIndex < T.equals.length
      · rw [if_pos hlt, if_pos ((equalsIndex_lt h).mpr hlt)]
        exact encode_keyCode (t := { t with separatorIndex := 0, equalsIndex := 0 }) h hP hindex
      · rw [if_neg hlt, if_neg (fun hp => hlt ((equalsIndex_lt h).mp hp))]
        exact encode_valueCode (t := { t with separatorIndex := 0 }) h hP hindex
    · exact hret
  | cons y w =>
    have hother := kind_other h (c := c) (by rw [hcode]; simp)
    have hpass := step_pass (C := C) (i := T.place E P) (hsep x hhead) (hequals x hhead)
      (hkind.trans hother)
    have hend := scan_tail (C := C) (i := T.place E P + 1) h hsepNe hequalsNe
      (w := [x]) (v := y :: w) hcode (by simp) hother (s := T.scan E t) hret
    rw [hcode, scan_cons, hpass, hend, pass_scan (P := P) h, hother]
    exact hret

/-- The equals string goes on with the character. -/
theorem scan_code_equals (h : Faithful E g b) (hc : T.input[P]? = some c) (hsepNe : T.separator ≠ [])
    (hret : t.returned = false)
    (hsep : ∀ x, (E.code c).head? = some x →
      (T.encode E g b).separator[(T.scan E t).separatorIndex]? ≠ some x)
    (hequals : T.equals[t.equalsIndex]? = some c) {stop : ℕ} (hstop : t.equalsIndex + 1 = T.equals.length →
      stop ≤ T.input.length ∧ T.place E stop + (E.text T.equals).length = T.place E (P + 1)) :
    (T.encode E g b).scan C (T.place E P) (E.code c) (T.scan E t) =
      T.scan E (if t.equalsIndex + 1 = T.equals.length then
        T.query.equalsMatched stop P { t with separatorIndex := 0 }
      else { t with separatorIndex := 0, equalsIndex := t.equalsIndex + 1 }) := by
  obtain ⟨x, w, hcode⟩ := exists_cons_of_ne_nil (h.lawful.ne_nil c)
  have hhead : (E.code c).head? = some x := by rw [hcode]; rfl
  have htail : ∀ y ∈ w, (T.encode E g b).separator[0]? ≠ some y := by
    intro y hy
    exact tail_ne_text h.lawful hsepNe c y (by rw [hcode]; exact hy)
  have hcodes := code_equals (g := g) (b := b) (E := E) hequals
  by_cases hfull : t.equalsIndex + 1 = T.equals.length
  · obtain ⟨hle, hplace⟩ := hstop hfull
    rw [hfull, drop_length, Coding.text_nil, append_nil, hcode] at hcodes
    have hindex : T.place E P + w.length + 1 = T.place E (P + 1) := by
      rw [place_succ hc, hcode]
      rfl
    have hback : T.place E P + w.length + 1 - (T.encode E g b).equals.length = T.place E stop := by
      have hlength : (T.encode E g b).equals.length = (E.text T.equals).length := rfl
      rw [hindex, hlength]
      omega
    rw [if_pos hfull, hcode, scan_equals_full hcodes (hsep x hhead) htail hret, hback,
      ← encode_equalsMatched h hle hindex]
    exact equalsMatched_index (T.place E stop) _ { T.scan E t with separatorIndex := 0 }
  · have hlt : t.equalsIndex + 1 < T.equals.length := by
      have := (List.getElem?_eq_some_iff.mp hequals).1
      omega
    rw [hcode] at hcodes
    have hlength := Coding.length_take_add (E := E) T.equals hequals
    rw [if_neg hfull, hcode, scan_equals hcodes (text_drop_ne_nil h.lawful hlt) (hsep x hhead) htail hret]
    simp only [Texts.scan, hlength, hcode, length_cons]
    rfl

/-- The equals string goes on with the character's first code and not with a later one. -/
theorem scan_code_equals_clash (h : Faithful E g b) (hsepNe : T.separator ≠ []) (hret : t.returned = false)
    (hsep : ∀ x, (E.code c).head? = some x →
      (T.encode E g b).separator[(T.scan E t).separatorIndex]? ≠ some x)
    {f : Char} (hequals : T.equals[t.equalsIndex]? = some f) (hne : c ≠ f)
    (hheads : (E.code c).head? = (E.code f).head?) :
    (T.encode E g b).scan C (T.place E P) (E.code c) (T.scan E t) =
      T.scan E (T.query.keyCode P (kindOf c.toNat) { t with separatorIndex := 0, equalsIndex := 0 }) := by
  have hlt : t.equalsIndex < T.equals.length := (List.getElem?_eq_some_iff.mp hequals).1
  obtain ⟨w, x, v, y, v', hcode, hcode', hxy⟩ := h.lawful.parts hne
  have hw : w ≠ [] := by
    rintro rfl
    rw [hcode, hcode'] at hheads
    exact hxy (Option.some.inj hheads)
  have hlength : (E.code c).length ≠ 1 := by
    have := length_pos_iff.mpr hw
    rw [hcode, length_append, length_cons]
    omega
  have hother := kind_other h hlength
  obtain ⟨z, w', rfl⟩ := exists_cons_of_ne_nil hw
  have hhead : (E.code c).head? = some z := by rw [hcode]; rfl
  have htails : ∀ u ∈ w', (T.encode E g b).separator[0]? ≠ some u := by
    intro u hu
    exact tail_ne_text h.lawful hsepNe c u (by rw [hcode]; simp [hu])
  have hcodes := code_equals (g := g) (b := b) (E := E) hequals
  rw [hcode', append_assoc] at hcodes
  have hrun := scan_equals (C := C) (i := T.place E P) hcodes (by simp)
    (hsep z hhead) htails hret
  have hdrop : (T.encode E g b).equals.drop ((T.scan E t).equalsIndex + (w'.length + 1)) =
      y :: (v' ++ E.text (T.equals.drop (t.equalsIndex + 1))) := by
    have hlen : w'.length + 1 = (z :: w').length := rfl
    rw [hlen, ← drop_drop, hcodes, drop_left, cons_append]
  obtain ⟨hnext, -, hequalsLength⟩ := get_of_drop hdrop
  have htail : x ∈ (E.code c).tail := by rw [hcode]; simp
  have hkind : (T.encode E g b).kind x = .other :=
    (h.kind_code c x (mem_of_mem_tail htail)).trans hother
  let s : Scan α K :=
    { T.scan E t with separatorIndex := 0, equalsIndex := (T.scan E t).equalsIndex + (w'.length + 1) }
  have hpass : (T.encode E g b).step C (T.place E P + (z :: w').length) x s =
      (T.encode E g b).pass s := by
    refine step_pass (s := s) (tail_ne_text h.lawful hsepNe c x htail) ?_ hkind
    rw [hnext]
    exact fun heq => hxy (Option.some.inj heq).symm
  have hsame : (T.encode E g b).pass s = (T.encode E g b).pass (T.scan E t) := by
    have hs : s.equalsIndex < (T.encode E g b).equals.length := by
      rw [hequalsLength]
      change (T.scan E t).equalsIndex + (w'.length + 1) < _
      omega
    rw [Query.pass, if_pos hs, Query.pass, if_pos ((equalsIndex_lt h).mpr hlt)]
  have hcodeSplit : E.code c = (z :: w' ++ [x]) ++ v := by rw [hcode]; simp
  have hequalsNe : T.equals ≠ [] := by
    rintro hnil
    rw [hnil] at hlt
    simp at hlt
  have hend := scan_tail (C := C) (i := T.place E P + (z :: w').length + 1) h hsepNe hequalsNe
    hcodeSplit (by simp) hother (s := s) hret
  have hpassed := pass_scan (T := T) (P := P) (t := t) h
  rw [if_pos hlt] at hpassed
  rw [hcode, scan_append, hrun, scan_cons, hpass, hend, hsame, hpassed, hother]
  exact hret

/-- The first code of a character is that of the separator's next character. -/
def Texts.clash (T : Texts) (E : Coding α) (c : Char) (t : Scan Char K) : Bool :=
  T.separator[t.separatorIndex]?.any fun d => (E.code c).head? = (E.code d).head?

/-- **The codes of a character** do what the character does. -/
theorem scan_code (h : Faithful E g b) (hc : T.input[P]? = some c) (hequalsNe : T.equals ≠ [])
    (ht : Within T P t) (hret : t.returned = false) {stop : ℕ}
    (hstop : T.equals[t.equalsIndex]? = some c → t.equalsIndex + 1 = T.equals.length →
      T.separator[t.separatorIndex]? ≠ some c → T.clash E c t = false →
      stop ≤ T.input.length ∧ T.place E stop + (E.text T.equals).length = T.place E (P + 1)) :
    (T.encode E g b).scan C (T.place E P) (E.code c) (T.scan E t) =
      T.scan E (T.charStep C (T.clash E c t) stop P c t) := by
  obtain ⟨d, hd⟩ : ∃ d, T.separator[t.separatorIndex]? = some d :=
    ⟨_, List.getElem?_eq_getElem ht.separator_lt⟩
  have hsepNe : T.separator ≠ [] := by
    rintro hnil
    rw [hnil] at hd
    simp at hd
  have hclash : T.clash E c t = decide ((E.code c).head? = (E.code d).head?) := by
    rw [Texts.clash, hd, Option.any_some]
  rw [Texts.charStep]
  by_cases hsep : T.separator[t.separatorIndex]? = some c
  · rw [if_pos hsep]
    exact scan_code_separator h hc ht hret hsep
  · have hne : c ≠ d := fun hcd => hsep (hcd ▸ hd)
    rw [if_neg hsep]
    by_cases hheads : (E.code c).head? = (E.code d).head?
    · have htrue : T.clash E c t = true := by rw [hclash, decide_eq_true hheads]
      have hnot : ¬(true = false ∧ T.equals[t.equalsIndex]? = some c) := fun hboth => Bool.noConfusion hboth.1
      rw [htrue, if_neg hnot]
      exact scan_code_clash h hd hne hheads hequalsNe hret
    · have hfalse : T.clash E c t = false := by rw [hclash, decide_eq_false hheads]
      have hlead : ∀ x, (E.code c).head? = some x →
          (T.encode E g b).separator[(T.scan E t).separatorIndex]? ≠ some x :=
        fun x hx => separator_lead h hd hx hheads
      rw [hfalse]
      by_cases hlt : t.equalsIndex < T.equals.length
      · obtain ⟨f, hf⟩ : ∃ f, T.equals[t.equalsIndex]? = some f := ⟨_, List.getElem?_eq_getElem hlt⟩
        rw [if_pos hlt]
        by_cases hfc : T.equals[t.equalsIndex]? = some c
        · rw [if_pos ⟨rfl, hfc⟩]
          exact scan_code_equals h hc hsepNe hret hlead hfc fun hfull => hstop hfc hfull hsep hfalse
        · have hcf : c ≠ f := fun heq => hfc (heq ▸ hf)
          rw [if_neg fun hboth => hfc hboth.2]
          by_cases hfheads : (E.code c).head? = (E.code f).head?
          · exact scan_code_equals_clash h hsepNe hret hlead hf hcf hfheads
          · have hcodes := code_equals (g := g) (b := b) (E := E) hf
            have hrest := scan_code_rest (C := C) h hc hsepNe hequalsNe hret hlead (by
              intro x hx
              cases hcodef : E.code f with
              | nil => exact absurd hcodef (h.lawful.ne_nil f)
              | cons y w =>
                rw [hcodef, cons_append] at hcodes
                rw [(get_of_drop hcodes).1, ← hx]
                rw [hcodef] at hfheads
                exact fun heq => hfheads heq.symm)
            rwa [if_pos hlt] at hrest
      · have hrest := scan_code_rest (C := C) h hc hsepNe hequalsNe hret hlead (by
          intro x _
          rw [List.getElem?_eq_none (Nat.le_of_not_lt fun hp => hlt ((equalsIndex_lt h).mp hp))]
          simp)
        rw [if_neg hlt] at hrest ⊢
        exact hrest

end Character

end Scriptc.Querystring
