import Scriptc.Lib.Loop
import Scriptc.Lib.Numerals
import Scriptc.RuntimeRust.HttpServerCuts
import Mathlib.Data.List.Perm.Basic

/-!
# How a request head frames its body

The header lines fold into one decision. It is the one that all the lengths and all the codings of a
head stand for, as long as no line is overruled by a later one of its name: the parser keeps the last
length, and looks for `chunked` in the last list of codings only.
-/

namespace Scriptc.RuntimeRust.Http

open List

abbrev Header := Text × Text × Text

abbrev contentLengthName : Text := "content-length".toList

abbrev transferEncodingName : Text := "transfer-encoding".toList

abbrev chunkedCoding : Text := "chunked".toList

/-- The values of the headers of a name. -/
def valuesOf (name : Text) (headers : List Header) : List Text := (headers.filter fun h => h.2.1 = name).map fun h => h.2.2

/-- The codings that some values list. -/
def codings (values : List Text) : List Text :=
  (values.flatMap fun value => (splitBy (· = ',') value).map fun part => toAsciiLowercase (trim part)).filter (· ≠ [])

/-- Digits and nothing else, as a number. -/
def plainNumber (radix : ℕ) (s : Text) : Option ℕ := Numerals.number (toDigit radix) radix s

/-- `chunked` is the last coding, and it is listed once. -/
def ChunkedLast (values : List Text) : Prop := (codings values).getLast? = some chunkedCoding ∧ (codings values).count chunkedCoding = 1

instance (values : List Text) : Decidable (ChunkedLast values) := inferInstanceAs (Decidable (_ ∧ _))

/-- No header is overruled. Without a transfer coding, every length is a plain number, and they are the
same. With one and without a length, the last list of codings has `chunked` when it is the last
coding of all. -/
def Plain (headers : List Header) : Prop :=
  let lengths := valuesOf contentLengthName headers
  let encodings := valuesOf transferEncodingName headers
  (encodings = [] → ∃ n, ∀ v ∈ lengths, plainNumber 10 v = some n) ∧
    (encodings ≠ [] → lengths = [] → ((encodings.getLast?.any fun v => httpTokenPresent v chunkedCoding) ↔ ChunkedLast encodings))

/-! ### Header lines -/

/-- The header that a line gives. -/
def headerOf (line : Text) : Option Header := do
  let (rawName, rawValue) ← splitOnce ':' line
  if trim rawName = [] then none
  some (trim rawName, toAsciiLowercase (trim rawName), trim rawValue)

/-- A length has to be a number. -/
def Readable (h : Header) : Prop := h.2.1 = contentLengthName → (fromStrRadix 10 h.2.2).isSome

instance (h : Header) : Decidable (Readable h) := inferInstanceAs (Decidable (_ → _))

/-- What a header says. -/
def HeadFields.add (fields : HeadFields) (h : Header) : HeadFields :=
  let fields :=
    if h.2.1 = contentLengthName then { fields with contentLength := fromStrRadix 10 h.2.2 }
    else if h.2.1 = transferEncodingName then
      { fields with transferEncoding := true, chunked := httpTokenPresent h.2.2 chunkedCoding }
    else if h.2.1 = "connection".toList then
      if httpTokenPresent h.2.2 "close".toList then { fields with keepAlive := false }
      else if httpTokenPresent h.2.2 "keep-alive".toList then { fields with keepAlive := true }
      else fields
    else fields
  { fields with headers := fields.headers ++ [h] }

theorem headerLine_eq (fields : HeadFields) (line : Text) :
    headerLine fields line = (headerOf line).bind fun h => if Readable h then some (fields.add h) else none := by
  unfold headerLine headerOf
  cases splitOnce ':' line with
  | none => rfl
  | some p =>
    obtain ⟨rawName, rawValue⟩ := p
    by_cases hname : trim rawName = []
    · simp only [hname, if_true, Option.bind_eq_bind, Option.bind_some, Option.bind_none]
    · simp only [hname, if_false, Option.bind_eq_bind, Option.bind_some, Option.pure_def, Readable, HeadFields.add]
      by_cases hlen : toAsciiLowercase (trim rawName) = "content-length".toList
      · rw [if_pos hlen, if_pos hlen]
        cases hv : fromStrRadix 10 (trim rawValue) with
        | none => exact (if_neg fun h => Bool.false_ne_true (h hlen)).symm
        | some n => exact (if_pos fun _ => Option.isSome_some).symm
      · rw [if_neg hlen, if_neg hlen, if_pos fun h => absurd h hlen]
        split
        · rfl
        split
        · split
          · rfl
          split <;> rfl
        · rfl

/-! ### The lines of a head together -/

/-- What the header lines have said when they gave some headers. -/
def Said (fields : HeadFields) (headers : List Header) : Prop :=
  fields.headers = headers ∧
    fields.contentLength = (valuesOf contentLengthName headers).getLast?.bind (fromStrRadix 10) ∧
    (fields.transferEncoding ↔ valuesOf transferEncodingName headers ≠ []) ∧
    fields.chunked = (valuesOf transferEncodingName headers).getLast?.any fun v => httpTokenPresent v chunkedCoding

theorem valuesOf_append (name : Text) (headers : List Header) (h : Header) :
    valuesOf name (headers ++ [h]) = valuesOf name headers ++ if h.2.1 = name then [h.2.2] else [] := by
  rw [valuesOf, filter_append, map_append]
  congr 1
  split
  case isTrue hn => simp [hn]
  case isFalse hn => simp [hn]

theorem name_ne : contentLengthName ≠ transferEncodingName := by decide

variable {headers : List Header} {fields : HeadFields}

theorem Said.add (hs : Said fields headers) (h : Header) :
    Said (fields.add h) (headers ++ [h]) := by
  obtain ⟨hh, hlen, hte, hch⟩ := hs
  simp only [Said, valuesOf_append, HeadFields.add]
  by_cases hc : h.2.1 = contentLengthName
  · have ht : h.2.1 ≠ transferEncodingName := fun h' => name_ne (hc.symm.trans h')
    simp only [if_pos hc, if_neg ht, append_nil, List.getLast?_append, List.getLast?_singleton]
    exact ⟨by rw [hh], rfl, hte, hch⟩
  by_cases ht : h.2.1 = transferEncodingName
  · simp only [if_neg hc, if_pos ht, append_nil, List.getLast?_append, List.getLast?_singleton]
    exact ⟨by rw [hh], hlen, by simp, rfl⟩
  simp only [if_neg hc, if_neg ht, append_nil]
  subst hh
  split
  · split
    · exact ⟨rfl, hlen, hte, hch⟩
    split <;> exact ⟨rfl, hlen, hte, hch⟩
  · exact ⟨rfl, hlen, hte, hch⟩

/-- The lines are read one by one: each has to give a header, and each length has to be a number. -/
theorem foldlM_headerLine (lines : List Text) (fields : HeadFields) :
    lines.foldlM headerLine fields =
      (lines.mapM headerOf).bind fun hs => if ∀ h ∈ hs, Readable h then some (hs.foldl HeadFields.add fields) else none := by
  induction lines generalizing fields with
  | nil => simp
  | cons line lines ih =>
    rw [foldlM_cons, headerLine_eq, mapM_cons]
    cases headerOf line with
    | none => rfl
    | some h =>
      simp only [Option.bind_some, Option.bind_eq_bind]
      cases hrest : lines.mapM headerOf with
      | none =>
        split
        · rw [Option.bind_some, ih, hrest]
          rfl
        · rfl
      | some hs =>
        simp only [Option.bind_some, Option.pure_def, forall_mem_cons, foldl_cons]
        by_cases hr : Readable h
        · simp only [hr, if_true, Option.bind_some, ih, hrest, true_and]
        · simp only [hr, if_false, Option.bind_none, false_and]

theorem Said.foldl (hs : Said fields headers) (more : List Header) :
    Said (more.foldl HeadFields.add fields) (headers ++ more) := by
  induction more generalizing fields headers with
  | nil => simpa using hs
  | cons h more ih =>
    rw [foldl_cons, append_cons]
    exact ih (hs.add h)

/-- The request line and the header lines that a head's bytes spell. -/
def Spells (bytes : Bytes) (requestLine : Text) (lines : List Text) : Prop :=
  ∃ text, fromUtf8 bytes = some text ∧ splitCrlf (text.take (text.length - 4)) = requestLine :: lines

/-- Method, target and version. -/
def requestLineOf (line : Text) : Option (Text × Text × Text) :=
  match splitWhitespace line with
  | [method, url, version] => if version ≠ "HTTP/1.0".toList ∧ version ≠ "HTTP/1.1".toList then none else some (method, url, version)
  | _ => none

/-- What some headers say after a request line. -/
def fieldsOf (request : Text × Text × Text) (hs : List Header) : HeadFields :=
  hs.foldl HeadFields.add ⟨[], none, false, false, request.2.2 = "HTTP/1.1".toList⟩

/-- The head that a request line and some headers make. -/
def headOf (request : Text × Text × Text) (hs : List Header) : HttpRequestHead :=
  { method := request.1, url := request.2.1, http10 := request.2.2 = "HTTP/1.0".toList, headers := (fieldsOf request hs).headers,
    framing := bodyFraming (fieldsOf request hs), keepAlive := (fieldsOf request hs).keepAlive }

variable {bytes : Bytes}

theorem httpParseRequestHead_eq {requestLine : Text} {lines : List Text} (hsp : Spells bytes requestLine lines) :
    httpParseRequestHead bytes = (requestLineOf requestLine).bind fun request => (lines.mapM headerOf).bind fun hs =>
      if ∀ h ∈ hs, Readable h then some (headOf request hs) else none := by
  obtain ⟨text, htext, hlines⟩ := hsp
  simp only [httpParseRequestHead, htext, Option.bind_eq_bind, Option.bind_some, hlines, requestLineOf]
  rcases splitWhitespace requestLine with _ | ⟨method, _ | ⟨url, _ | ⟨version, _ | ⟨extra, rest⟩⟩⟩⟩
  case cons.cons.cons.nil =>
    dsimp only
    by_cases hv : version ≠ "HTTP/1.0".toList ∧ version ≠ "HTTP/1.1".toList
    · rw [if_pos hv, if_pos hv]
      rfl
    · rw [if_neg hv, if_neg hv, Option.bind_some, foldlM_headerLine]
      cases lines.mapM headerOf with
      | none => rfl
      | some hs =>
        simp only [Option.bind_some, Option.pure_def]
        split <;> rfl
  all_goals rfl

variable {head : HttpRequestHead}

theorem spells_of_some (h : httpParseRequestHead bytes = some head) :
    ∃ requestLine lines, Spells bytes requestLine lines := by
  rw [httpParseRequestHead] at h
  obtain ⟨text, htext, h⟩ := Option.bind_eq_some_iff.mp h
  cases hlines : splitCrlf (text.take (text.length - 4)) with
  | nil => simp [hlines] at h
  | cons requestLine lines => exact ⟨requestLine, lines, text, htext, hlines⟩

theorem said_fieldsOf (request : Text × Text × Text) (hs : List Header) : Said (fieldsOf request hs) hs := by
  have hnone : Said ⟨[], none, false, false, request.2.2 = "HTTP/1.1".toList⟩ [] := ⟨rfl, rfl, by simp [valuesOf], rfl⟩
  exact hnone.foldl hs

theorem headOf_headers (request : Text × Text × Text) (hs : List Header) : (headOf request hs).headers = hs :=
  (said_fieldsOf request hs).1

/-- An accepted head has headers that its lines give, and its framing comes from them. -/
theorem httpParseRequestHead_some {requestLine : Text} {lines : List Text}
    (hsp : Spells bytes requestLine lines) (h : httpParseRequestHead bytes = some head) :
    ∃ request, requestLineOf requestLine = some request ∧ lines.mapM headerOf = some head.headers ∧
      (∀ h ∈ head.headers, Readable h) ∧ head.framing = bodyFraming (fieldsOf request head.headers) := by
  rw [httpParseRequestHead_eq hsp] at h
  obtain ⟨request, hreq, h⟩ := Option.bind_eq_some_iff.mp h
  obtain ⟨hs, hhs, h⟩ := Option.bind_eq_some_iff.mp h
  split at h
  case isFalse => cases h
  case isTrue hread =>
    obtain rfl := Option.some.inj h
    rw [headOf_headers]
    exact ⟨request, hreq, hhs, hread, rfl⟩

/-! ### Numbers -/

variable {s : Text}

/-- The digits of a `usize` are those of a number that fits. -/
theorem digitsToUsize_eq_some {radix acc n : ℕ} (hr : 0 < radix) (hacc : acc < 2 ^ 64) :
    digitsToUsize radix acc s = some n ↔ Numerals.read (toDigit radix) radix acc s = some n ∧ n < 2 ^ 64 := by
  induction s generalizing acc with
  | nil =>
    rw [digitsToUsize, Numerals.read, Option.some_inj]
    exact ⟨fun h => ⟨h, h ▸ hacc⟩, fun h => h.1⟩
  | cons ch s ih =>
    rw [digitsToUsize, Numerals.read]
    cases toDigit radix ch with
    | none => simp
    | some d =>
      simp only [Option.bind_eq_bind, Option.bind_some]
      split
      case isTrue hd => exact ih hd
      case isFalse hd =>
        refine ⟨fun h => absurd h (Option.some_ne_none n).symm, fun h => ?_⟩
        have := Numerals.le_of_read hr h.1
        omega

/-- A number without a sign is read as what it says, if it fits. -/
theorem fromStrRadix_eq_some {radix n : ℕ} (hr : 0 < radix) (hs : s.head? ≠ some '+') :
    fromStrRadix radix s = some n ↔ plainNumber radix s = some n ∧ n < 2 ^ 64 := by
  cases s with
  | nil => exact ⟨nofun, fun h => nomatch h.1⟩
  | cons ch s =>
    have hplus : ch ≠ '+' := fun h => hs (congrArg some h)
    rw [fromStrRadix, if_neg hplus, digitsToUsize_eq_some hr (by norm_num), plainNumber, Numerals.number_of_ne_nil (by simp)]

theorem head?_ne_plus {radix n : ℕ} (h : plainNumber radix s = some n) : s.head? ≠ some '+' := by
  cases s with
  | nil => simp
  | cons ch s =>
    rw [plainNumber, Numerals.number_of_ne_nil (by simp), Numerals.read] at h
    obtain ⟨d, hd, -⟩ := Option.bind_eq_some_iff.mp h
    rintro ⟨⟩
    exact Option.some_ne_none d (hd.symm.trans (if_neg (Nat.lt_irrefl radix)))

/-- A plain number is read as what it says. -/
theorem plainNumber_eq {radix m n : ℕ} (hr : 0 < radix) (hp : plainNumber radix s = some n)
    (h : fromStrRadix radix s = some m) : m = n :=
  Option.some.inj (((fromStrRadix_eq_some hr (head?_ne_plus hp)).mp h).1.symm.trans hp)

/-! ### The decision -/

/-- The framing that lengths and lists of codings decide together. -/
def Decided (lengths encodings : List Text) (framing : HttpBodyFraming) : Prop :=
  (∀ n, framing = .length n ↔ encodings = [] ∧ (lengths = [] ∧ n = 0 ∨ lengths ≠ [] ∧ ∀ v ∈ lengths, plainNumber 10 v = some n)) ∧
    (framing = .chunked ↔ encodings ≠ [] ∧ ChunkedLast encodings ∧ lengths = [])

theorem Decided.unique {lengths lengths' encodings : List Text} {framing framing' : HttpBodyFraming}
    (h : Decided lengths encodings framing) (h' : Decided lengths' encodings framing') (hp : lengths'.Perm lengths) :
    framing' = framing := by
  have hnil : lengths' = [] ↔ lengths = [] := by rw [← length_eq_zero_iff, hp.length_eq, length_eq_zero_iff]
  have hlen : ∀ n, framing' = .length n ↔ framing = .length n := fun n => by
    rw [h.1, h'.1, hnil, Ne, hnil]
    simp only [hp.mem_iff]
  have hch : framing' = .chunked ↔ framing = .chunked := by rw [h.2, h'.2, hnil]
  cases hf : framing with
  | length n => exact (hlen n).mpr hf
  | chunked => exact hch.mpr hf
  | invalid =>
    cases hf' : framing' with
    | length n => exact absurd ((hlen n).mp hf') (by rw [hf]; exact fun h => HttpBodyFraming.noConfusion h)
    | chunked => exact absurd (hch.mp hf') (by rw [hf]; exact fun h => HttpBodyFraming.noConfusion h)
    | invalid => rfl

theorem mem_valuesOf {name v : Text} : v ∈ valuesOf name headers ↔ ∃ h ∈ headers, h.2.1 = name ∧ h.2.2 = v := by
  simp only [valuesOf, mem_map, mem_filter, decide_eq_true_eq, and_assoc]

/-- Where the lengths are plain and the same, the last one is all of them. -/
theorem lastLength {n : ℕ} (hread : ∀ h ∈ headers, Readable h)
    (hn : ∀ v ∈ valuesOf contentLengthName headers, plainNumber 10 v = some n) :
    (valuesOf contentLengthName headers).getLast?.bind (fromStrRadix 10) =
      if valuesOf contentLengthName headers = [] then none else some n := by
  cases hlast : (valuesOf contentLengthName headers).getLast? with
  | none => rw [if_pos (List.getLast?_eq_none_iff.mp hlast), Option.bind_none]
  | some v =>
    have hv := mem_of_getLast? hlast
    have hne : valuesOf contentLengthName headers ≠ [] := ne_nil_of_mem hv
    obtain ⟨h, hmem, hname, hval⟩ := mem_valuesOf.mp hv
    obtain ⟨m, hm⟩ := Option.isSome_iff_exists.mp (hread h hmem hname)
    rw [hval] at hm
    rw [if_neg hne, Option.bind_some, hm, plainNumber_eq (by norm_num) (hn v hv) hm]

theorem bodyFraming_decided (hs : Said fields headers)
    (hread : ∀ h ∈ headers, Readable h) (hp : Plain headers) :
    Decided (valuesOf contentLengthName headers) (valuesOf transferEncodingName headers) (bodyFraming fields) := by
  obtain ⟨-, hlen, hte, hch⟩ := hs
  by_cases he : valuesOf transferEncodingName headers = []
  · obtain ⟨n, hn⟩ := hp.1 he
    have hf : bodyFraming fields = .length (if valuesOf contentLengthName headers = [] then 0 else n) := by
      rw [bodyFraming, if_neg (by rw [hte]; exact not_not_intro he), hlen, lastLength hread hn]
      split <;> rfl
    refine ⟨fun m => ?_, by simp [hf, he]⟩
    rw [hf, HttpBodyFraming.length.injEq]
    by_cases hl : valuesOf contentLengthName headers = []
    · simp [hl, he, eq_comm]
    · simp only [hl, he, if_false, true_and, false_and, false_or, ne_eq, not_false_eq_true]
      constructor
      · rintro rfl
        exact hn
      · intro hm
        obtain ⟨v, hv⟩ := exists_mem_of_ne_nil _ hl
        exact Option.some.inj ((hn v hv).symm.trans (hm v hv))
  · have hte' : fields.transferEncoding := hte.mpr he
    by_cases hl : valuesOf contentLengthName headers = []
    · have hnone : fields.contentLength = none := by rw [hlen, hl]; rfl
      have hcl : fields.chunked = true ↔ ChunkedLast (valuesOf transferEncodingName headers) := by rw [hch]; exact hp.2 he hl
      rw [bodyFraming, if_pos hte']
      constructor
      · intro n
        split <;> simp [he]
      · simp only [hnone, and_true, hcl, he, hl, ne_eq, not_false_eq_true, true_and]
        split <;> simp_all
    · have hsome : fields.contentLength ≠ none := by
        obtain ⟨v, hv⟩ : ∃ v, (valuesOf contentLengthName headers).getLast? = some v :=
          Option.ne_none_iff_exists'.mp (mt List.getLast?_eq_none_iff.mp hl)
        obtain ⟨h, hmem, hname, hval⟩ := mem_valuesOf.mp (mem_of_getLast? hv)
        obtain ⟨m, hm⟩ := Option.isSome_iff_exists.mp (hread h hmem hname)
        rw [hlen, hv, Option.bind_some, ← hval, hm]
        exact Option.some_ne_none m
      rw [bodyFraming, if_pos hte', if_neg fun h => hsome h.2]
      exact ⟨fun n => by simp [he], by simp [hl]⟩

/-! ### Other orders -/

/-- Two heads that differ in the order of their header lines. The lists of codings stay in order: they
are one list. -/
def Reordered (bytes bytes' : Bytes) : Prop :=
  ∃ requestLine lines lines', Spells bytes requestLine lines ∧ Spells bytes' requestLine lines' ∧ lines'.Perm lines ∧
    valuesOf transferEncodingName (lines'.filterMap headerOf) = valuesOf transferEncodingName (lines.filterMap headerOf)

/-- A head with its lines in another order is accepted too, with the same headers. -/
theorem Reordered.accepted {bytes bytes' : Bytes} (hr : Reordered bytes bytes')
    (h : httpParseRequestHead bytes = some head) :
    ∃ head', httpParseRequestHead bytes' = some head' ∧ head'.headers.Perm head.headers ∧
      valuesOf transferEncodingName head'.headers = valuesOf transferEncodingName head.headers := by
  obtain ⟨requestLine, lines, lines', hsp, hsp', hperm, hte⟩ := hr
  obtain ⟨request, hreq, hmap, hread, -⟩ := httpParseRequestHead_some hsp h
  obtain ⟨hall, hfilter⟩ := Option.mapM_eq_some_iff_filterMap.mp hmap
  have hmap' : lines'.mapM headerOf = some (lines'.filterMap headerOf) :=
    Option.mapM_eq_some_iff_filterMap.mpr ⟨fun a ha => hall a (hperm.mem_iff.mp ha), rfl⟩
  have hperm' : (lines'.filterMap headerOf).Perm head.headers := hfilter ▸ hperm.filterMap headerOf
  refine ⟨headOf request (lines'.filterMap headerOf), ?_, ?_, ?_⟩
  · rw [httpParseRequestHead_eq hsp', hreq, Option.bind_some, hmap', Option.bind_some,
      if_pos fun h hm => hread h (hperm'.mem_iff.mp hm)]
  · rw [headOf_headers]
    exact hperm'
  · rw [headOf_headers, ← hfilter, hte]

theorem Plain.reordered {headers headers' : List Header} (hp : Plain headers) (hperm : headers'.Perm headers)
    (hte : valuesOf transferEncodingName headers' = valuesOf transferEncodingName headers) : Plain headers' := by
  have hlen : (valuesOf contentLengthName headers').Perm (valuesOf contentLengthName headers) := (hperm.filter _).map _
  rw [Plain, hte]
  refine ⟨fun he => ?_, fun he hl => hp.2 he ?_⟩
  · obtain ⟨n, hn⟩ := hp.1 he
    exact ⟨n, fun v hv => hn v (hlen.mem_iff.mp hv)⟩
  · rw [hl] at hlen
    exact hlen.nil_eq.symm

/-- The framing of an accepted head where no header is overruled: a length comes from no length at all,
or from plain numbers that agree, without a transfer coding; the chunked coding is the last one, once,
without a length; and the order of the headers does not matter. -/
theorem httpParseRequestHead_framing {bytes : Bytes} {head : HttpRequestHead} (h : httpParseRequestHead bytes = some head)
    (hp : Plain head.headers) :
    Decided (valuesOf contentLengthName head.headers) (valuesOf transferEncodingName head.headers) head.framing ∧
      ∀ bytes', Reordered bytes bytes' → ∃ head', httpParseRequestHead bytes' = some head' ∧
        head'.headers.Perm head.headers ∧ head'.framing = head.framing := by
  have decided : ∀ {bytes head}, httpParseRequestHead bytes = some head → Plain head.headers →
      Decided (valuesOf contentLengthName head.headers) (valuesOf transferEncodingName head.headers) head.framing := by
    intro bytes head h hp
    obtain ⟨requestLine, lines, hsp⟩ := spells_of_some h
    obtain ⟨request, -, -, hread, hf⟩ := httpParseRequestHead_some hsp h
    exact hf ▸ bodyFraming_decided (said_fieldsOf request _) hread hp
  refine ⟨decided h hp, fun bytes' hr => ?_⟩
  obtain ⟨head', h', hperm, hte⟩ := hr.accepted h
  have hd := decided h' (hp.reordered hperm hte)
  rw [hte] at hd
  exact ⟨head', h', hperm, (decided h hp).unique hd ((hperm.filter _).map _)⟩

def header (name value : String) : Header := (name.toList, toAsciiLowercase name.toList, value.toList)

def posted (headers : List Header) (framing : HttpBodyFraming) : HttpRequestHead :=
  ⟨"POST".toList, "/".toList, false, headers, framing, true⟩

/-- The length is given twice. -/
def twoLengths : Bytes := ascii "POST / HTTP/1.1\r\nContent-Length: 3\r\nHost: t\r\ncontent-length: 3\r\n\r\n"

def twoLengthsHeaders : List Header := [header "Content-Length" "3", header "Host" "t", header "content-length" "3"]

theorem httpParseRequestHead_framing_twoLengths :
    Decided ["3".toList, "3".toList] [] (.length 3) ∧
      ∀ bytes', Reordered twoLengths bytes' → ∃ head', httpParseRequestHead bytes' = some head' ∧
        head'.headers.Perm twoLengthsHeaders ∧ head'.framing = .length 3 := by
  have hp : Plain twoLengthsHeaders := ⟨fun _ => ⟨3, by decide +kernel⟩, fun he => absurd (by decide +kernel) he⟩
  have haccepted : httpParseRequestHead twoLengths = some (posted twoLengthsHeaders (.length 3)) := by decide +kernel
  have h := httpParseRequestHead_framing haccepted hp
  have hlen : valuesOf contentLengthName twoLengthsHeaders = ["3".toList, "3".toList] := by decide +kernel
  have hte : valuesOf transferEncodingName twoLengthsHeaders = [] := by decide +kernel
  rwa [posted, hlen, hte] at h

def gzipThenChunked : Bytes := ascii "POST / HTTP/1.1\r\nTransfer-Encoding: gzip\r\nTransfer-Encoding: chunked\r\n\r\n"

def chunkedThenGzip : Bytes := ascii "POST / HTTP/1.1\r\nTransfer-Encoding: chunked\r\nTransfer-Encoding: gzip\r\n\r\n"

/-- Without a length the body is empty; and the order of the codings matters. -/
theorem not_lengthGiven_orderFree :
    (¬∀ bytes head n, httpParseRequestHead bytes = some head → head.framing = .length n →
        valuesOf contentLengthName head.headers ≠ []) ∧
    ¬∀ bytes bytes' head head', httpParseRequestHead bytes = some head → httpParseRequestHead bytes' = some head' →
        head'.headers.Perm head.headers → head'.framing = head.framing := by
  constructor
  · intro h
    exact h (ascii "POST / HTTP/1.1\r\nHost: t\r\n\r\n") (posted [header "Host" "t"] (.length 0)) 0
      (by decide +kernel) rfl (by decide +kernel)
  · intro h
    have := h gzipThenChunked chunkedThenGzip
      (posted [header "Transfer-Encoding" "gzip", header "Transfer-Encoding" "chunked"] .chunked)
      (posted [header "Transfer-Encoding" "chunked", header "Transfer-Encoding" "gzip"] .invalid)
      (by decide +kernel) (by decide +kernel) (List.Perm.swap _ _ _)
    cases this

end Scriptc.RuntimeRust.Http
