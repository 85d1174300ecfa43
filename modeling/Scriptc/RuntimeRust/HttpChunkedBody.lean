import Mathlib.Data.List.TakeWhile
import Scriptc.Lib.Coding
import Scriptc.RuntimeRust.HttpHeadFraming

/-!
# Whole chunked bodies

The steps of the decoder, repeated until a body is complete or refused, against the grammar of the
chunked coding. A size line of the grammar is UTF-8, and can have white space around its size. The decoder
overlooks some things: a size line of any length when its end is there, a plus sign before the size, what
stands where a chunk or the body should end, and a size near the largest integer. On every other buffer it
takes exactly the bodies of the grammar (`decodeBody_grammar`).
-/

namespace Scriptc.RuntimeRust.Http

open List

/-- The chunk that carries some bytes; no bytes are no chunk. -/
def httpChunk (bytes : Bytes) : Bytes :=
  if bytes = [] then []
  else (Nat.toDigits 16 bytes.length).map (fun ch => UInt8.ofNat ch.toNat) ++ crlf ++ bytes ++ crlf

/-! ### Repeated steps -/

/-- What a decoding comes to. -/
inductive Decoded where
  | needMore
  | complete (body rest : Bytes)
  | malformed
  | panicked
  deriving DecidableEq

/-- Data came before the rest. -/
def Decoded.after (data : Bytes) : Decoded → Decoded
  | .complete body rest => .complete (data ++ body) rest
  | d => d

/-- The decoder's steps over a buffer, until one of them gives no data. -/
def decodeBody (limit : ℕ) (buffer : Bytes) (chunkRemaining : Option ℕ) : Decoded :=
  match h : httpChunkedStep buffer chunkRemaining limit with
  | none => .panicked
  | some (.needMore, _, _) => .needMore
  | some (.data body, buffer, chunkRemaining) => (decodeBody limit buffer chunkRemaining).after body
  | some (.done, rest, _) => .complete [] rest
  | some (.bad, _, _) => .malformed
termination_by buffer.length
decreasing_by exact (chunkedStep_data h).1

/-! ### The grammar -/

/-- A line that gives a size: hexadecimal digits with white space around them, and then perhaps
extensions, which begin with a semicolon. -/
inductive GivesSize : Bytes → ℕ → Prop where
  | line {before digits after extensions : Text} {size : ℕ} : (∀ ch ∈ before ++ after, isWhitespace ch = true) →
      plainNumber 16 digits = some size → extensions = [] ∨ extensions.head? = some ';' →
      GivesSize (utf8.text (before ++ digits ++ after ++ extensions)) size

/-- Bytes that end at the first line end after them. -/
def Unbroken (line : Bytes) : Prop := position crlf (line ++ crlf) = some line.length

instance (line : Bytes) : Decidable (Unbroken line) := inferInstanceAs (Decidable (_ = _))

/-- A line with the size of a chunk, within the limits. -/
structure SizeLine (limit : ℕ) (line : Bytes) (size : ℕ) : Prop where
  unbroken : Unbroken line
  short : line.length < limit
  gives : GivesSize line size
  fits : size + 2 < 2 ^ 64

/-- Lines up to an empty one. -/
inductive Trailers : Bytes → Prop where
  | nil : Trailers []
  | line {line rest : Bytes} : Unbroken line → line ≠ [] → Trailers rest → Trailers (line ++ crlf ++ rest)

/-- The bodies in the chunked coding and the data they carry. The size of a chunk whose line has been
read may be given. -/
inductive ChunkedBody (limit : ℕ) : Option ℕ → Bytes → Bytes → Prop where
  | last {line trailers : Bytes} : SizeLine limit line 0 → Trailers trailers →
      ChunkedBody limit none (line ++ crlf ++ trailers ++ crlf) []
  | size {line body data : Bytes} {n : ℕ} : SizeLine limit line (n + 1) → ChunkedBody limit (some (n + 1)) body data →
      ChunkedBody limit none (line ++ crlf ++ body) data
  | chunk {chunk body data : Bytes} : chunk.length + 2 < 2 ^ 64 → ChunkedBody limit none body data →
      ChunkedBody limit (some chunk.length) (chunk ++ crlf ++ body) (chunk ++ data)

/-- A complete size line is short and has no sign, and after the last one the body ends. -/
def Clean (limit : ℕ) (buffer : Bytes) (lineEnd size : ℕ) : Prop :=
  lineEnd < limit ∧ GivesSize (buffer.take lineEnd) size ∧ (size = 0 → crlf <+: buffer.drop (lineEnd + 2))

/-- The decoder comes to something that it overlooks. -/
inductive Overlooked (limit : ℕ) : Option ℕ → Bytes → Prop where
  | line {buffer : Bytes} {lineEnd size : ℕ} : position crlf buffer = some lineEnd → lineSize buffer = some size →
      ¬Clean limit buffer lineEnd size → Overlooked limit none buffer
  | chunkEnd {buffer : Bytes} {size : ℕ} : size + 2 ≤ buffer.length → ¬crlf <+: buffer.drop size →
      Overlooked limit (some size) buffer
  | wraps {buffer : Bytes} {size : ℕ} : 2 ^ 64 ≤ size + 2 → Overlooked limit (some size) buffer
  | afterLine {buffer : Bytes} {lineEnd size : ℕ} : position crlf buffer = some lineEnd → lineSize buffer = some (size + 1) →
      Overlooked limit (some (size + 1)) (buffer.drop (lineEnd + 2)) → Overlooked limit none buffer
  | afterChunk {buffer : Bytes} {size : ℕ} : size + 2 ≤ buffer.length → Overlooked limit none (buffer.drop (size + 2)) →
      Overlooked limit (some size) buffer

/-! ### Size lines -/

variable {n : ℕ}

/-- A character has one encoding. -/
theorem bytes8_unique {as bs : Bytes} (ha : Bytes8 n as) (hb : Bytes8 n bs) : as = bs := by
  cases ha <;> cases hb <;> simp only [List.cons.injEq, ← UInt8.toNat_inj, and_true, reduceCtorEq, and_false] <;> omega

theorem fromUtf8_code (ch : Char) (rest : Bytes) : fromUtf8 (utf8.code ch ++ rest) = (fromUtf8 rest).map (ch :: ·) := by
  have hvalid := toNat_char ch
  have hcode := bytes8_code ch
  have hself (n : ℕ) (hn : n = ch.toNat) : Char.ofNat n = ch := by rw [hn, Char.ofNat_toNat]
  generalize utf8.code ch = code at hcode
  cases hcode with
  | @one a ha hlt => 
    rw [singleton_append, fromUtf8.eq_def]
    dsimp only
    rw [if_pos (by omega), hself _ ha]
  | @two a b ha hb hge hlt =>
    rw [cons_append, singleton_append, fromUtf8.eq_def]
    dsimp only
    rw [if_neg (by omega), if_pos (by simp only [isTail, decide_eq_true_eq]; omega), hself _ (by omega)]
  | @three a b c ha hb hc hge hlt =>
    rw [cons_append, cons_append, singleton_append, fromUtf8.eq_def]
    dsimp only
    rw [if_neg (by omega), if_neg (by omega), if_pos (by simp only [isTail, decide_eq_true_eq]; omega), hself _ (by omega)]
  | @four a b c d ha hb hc hd hge hlt =>
    rw [cons_append, cons_append, cons_append, singleton_append, fromUtf8.eq_def]
    dsimp only
    rw [if_neg (by omega), if_neg (by omega), if_neg (by omega), if_pos (by simp only [isTail, decide_eq_true_eq]; omega), hself _ (by omega)]

/-- What is read as a text is its encoding. -/
theorem text_of_fromUtf8 {bytes : Bytes} {text : Text} (h : fromUtf8 bytes = some text) : bytes = utf8.text text := by
  have hcode {n : ℕ} {as rest : Bytes} {text : Text} (hn : n < 0xD800 ∨ 0xDFFF < n ∧ n < 0x110000) (ha : Bytes8 n as)
      (ht : rest = utf8.text text) : as ++ rest = utf8.text (Char.ofNat n :: text) := by
    have hself := bytes8_code (Char.ofNat n)
    rw [Utf16.toNat_ofNat_char hn] at hself
    rw [Coding.text_cons, ht, bytes8_unique hself ha]
  induction hn : bytes.length using Nat.strongRecOn generalizing bytes text with
  | ind n ih =>
    subst hn
    rw [fromUtf8.eq_def] at h
    split at h
    · cases h
      rfl
    · next a as =>
      split at h
      · next ha =>
        obtain ⟨t, ht, rfl⟩ := Option.map_eq_some_iff.mp h
        exact hcode (by omega) (.one rfl ha) (ih _ (by simp) ht rfl)
      · split at h
        · cases h
        · next b bs =>
          split at h
          · next hb =>
            obtain ⟨t, ht, rfl⟩ := Option.map_eq_some_iff.mp h
            simp only [isTail, decide_eq_true_eq] at hb
            exact hcode (by omega) (.two (a := a) (b := b) (by omega) (by omega) (by omega) (by omega)) (ih _ (by simp only [length_cons]; omega) ht rfl)
          · split at h
            · cases h
            · next c cs =>
              dsimp only at h
              split at h
              · next hc =>
                obtain ⟨t, ht, rfl⟩ := Option.map_eq_some_iff.mp h
                simp only [isTail, decide_eq_true_eq] at hc
                exact hcode (by omega) (.three (a := a) (b := b) (c := c) (by omega) (by omega) (by omega) (by omega) (by omega))
                  (ih _ (by simp only [length_cons]; omega) ht rfl)
              · split at h
                · cases h
                · next d ds =>
                  split at h
                  · next hd =>
                    obtain ⟨t, ht, rfl⟩ := Option.map_eq_some_iff.mp h
                    simp only [isTail, decide_eq_true_eq] at hd
                    exact hcode (by omega) (.four (a := a) (b := b) (c := c) (d := d) (by omega) (by omega) (by omega) (by omega)
                      (by omega) (by omega)) (ih _ (by simp only [length_cons]; omega) ht rfl)
                  · cases h

theorem fromUtf8_utf8 (text : Text) : fromUtf8 (utf8.text text) = some text := by
  induction text with
  | nil => rfl
  | cons ch text ih => rw [Coding.text_cons, fromUtf8_code, ih, Option.map_some]

/-- The size that the decoder reads in a line, if there is no plus sign. -/
def plainSize (line : Bytes) : Option ℕ := do
  let text ← fromUtf8 line
  plainNumber 16 (trim (text.takeWhile (· ≠ ';')))

theorem trimStart_append {blank s : Text} (hb : ∀ ch ∈ blank, isWhitespace ch = true) : trimStart (blank ++ s) = trimStart s :=
  dropWhile_append_of_pos hb

theorem trimStart_plain {s : Text} (h : ∀ ch ∈ s, isWhitespace ch = false) (rest : Text) (hne : s ≠ []) : trimStart (s ++ rest) = s ++ rest := by
  obtain ⟨ch, s, rfl⟩ := exists_cons_of_ne_nil hne
  exact dropWhile_cons_of_neg (by simp [h ch mem_cons_self])

theorem trim_padded {before digits after : Text} (hb : ∀ ch ∈ before ++ after, isWhitespace ch = true)
    (hd : ∀ ch ∈ digits, isWhitespace ch = false) (hne : digits ≠ []) : trim (before ++ digits ++ after) = digits := by
  obtain ⟨hbefore, hafter⟩ := forall_mem_append.mp hb
  rw [trim, append_assoc, trimStart_append hbefore, trimStart_plain hd after hne, reverse_append,
    trimStart_append (by simpa using hafter), ← append_nil digits.reverse,
    trimStart_plain (by simpa using hd) [] (by simpa using hne), append_nil, reverse_reverse]

theorem trim_split (s : Text) : ∃ before after, s = before ++ trim s ++ after ∧ ∀ ch ∈ before ++ after, isWhitespace ch = true := by
  have hall (s : Text) : ∀ ch ∈ s.takeWhile isWhitespace, isWhitespace ch = true := fun ch hch => mem_takeWhile_imp hch
  refine ⟨s.takeWhile isWhitespace, ((trimStart s).reverse.takeWhile isWhitespace).reverse, ?_, forall_mem_append.mpr ⟨hall s, ?_⟩⟩
  · rw [trim, append_assoc, ← reverse_append, trimStart, trimStart, takeWhile_append_dropWhile, reverse_reverse,
      takeWhile_append_dropWhile]
  · simpa using hall _

theorem toDigit_plain {ch : Char} (h : (toDigit 16 ch).isSome) : isWhitespace ch = false ∧ ch ≠ ';' := by
  have hrange : 0x30 ≤ ch.toNat ∧ ch.toNat ≤ 0x39 ∨ 0x41 ≤ ch.toNat ∧ ch.toNat ≤ 0x5a ∨ 0x61 ≤ ch.toNat ∧ ch.toNat ≤ 0x7a := by
    rw [toDigit] at h
    simp only [Char.le_def, UInt32.le_iff_toNat_le] at h
    split at h
    · next hd => exact .inl hd
    · split at h
      · next hd => exact .inr (.inr hd)
      · split at h
        · next hd => exact .inr (.inl hd)
        · simp at h
  constructor
  · simp only [isWhitespace, decide_eq_false_iff_not, mem_cons, not_mem_nil, or_false]
    omega
  · rintro rfl
    revert hrange
    decide

variable {line : Bytes}

theorem givesSize_iff {size : ℕ} : GivesSize line size ↔ plainSize line = some size := by
  constructor
  · rintro @⟨before, digits, after, extensions, _, hblank, hsize, hext⟩
    obtain ⟨hne, hsome⟩ := Numerals.ne_nil_of_number hsize
    have hhead : ∀ ch ∈ before ++ digits ++ after, decide (ch ≠ ';') = true := by
      intro ch hch
      rw [append_assoc, mem_append, mem_append, or_left_comm, ← mem_append] at hch
      rw [decide_eq_true_eq]
      rcases hch with hdigit | hblank'
      · exact (toDigit_plain (hsome ch hdigit)).2
      · rintro rfl
        exact absurd (hblank _ hblank') (by decide)
    have hcut : (before ++ digits ++ after ++ extensions).takeWhile (· ≠ ';') = before ++ digits ++ after := by
      rw [takeWhile_append_of_pos hhead]
      cases extensions with
      | nil => rw [takeWhile_nil, append_nil]
      | cons ch extensions =>
        obtain rfl : ch = ';' := by simpa using hext
        rw [takeWhile_cons_of_neg (by simp), append_nil]
    rw [plainSize, fromUtf8_utf8, Option.bind_eq_bind, Option.bind_some, hcut,
      trim_padded hblank (fun ch hch => (toDigit_plain (hsome ch hch)).1) hne, hsize]
  · intro h
    obtain ⟨text, htext, hsize⟩ := Option.bind_eq_some_iff.mp h
    obtain ⟨before, after, hsplit, hblank⟩ := trim_split (text.takeWhile (· ≠ ';'))
    rw [text_of_fromUtf8 htext, ← takeWhile_append_dropWhile (p := (· ≠ ';')) (l := text), hsplit]
    refine .line hblank hsize ?_
    cases hrest : text.dropWhile (· ≠ ';') with
    | nil => exact .inl rfl
    | cons ch rest =>
      have hhead := List.head?_dropWhile_not (· ≠ ';') text
      rw [hrest] at hhead
      exact .inr (congrArg some (by simpa using hhead))
instance (line : Bytes) (size : ℕ) : Decidable (GivesSize line size) := decidable_of_iff _ givesSize_iff.symm

/-- What is found splits the buffer. -/
theorem position_split {p b : Bytes} {i : ℕ} (hp : p ≠ []) (h : position p b = some i) :
    b = b.take i ++ p ++ b.drop (i + p.length) ∧ position p (b.take i ++ p) = some i := by
  induction b generalizing i with
  | nil => cases h
  | cons a b ih =>
    rw [position] at h
    split at h
    case isTrue hpre =>
      obtain rfl := Option.some.inj h
      obtain ⟨t, ht⟩ := isPrefixOf_iff_prefix.mp hpre
      obtain ⟨c, p, rfl⟩ := exists_cons_of_ne_nil hp
      refine ⟨by rw [← ht]; simp, ?_⟩
      rw [take_zero, nil_append, position, if_pos (List.isPrefixOf_iff_prefix.mpr (prefix_refl _))]
    case isFalse hpre =>
      obtain ⟨j, hj, rfl⟩ := Option.map_eq_some_iff.mp h
      obtain ⟨hb, hpos⟩ := ih hj
      have hcons : a :: b = a :: (b.take j ++ p) ++ b.drop (j + p.length) := by rw [cons_append, ← hb]
      refine ⟨by rw [take_succ_cons, Nat.add_right_comm, drop_succ_cons]; exact hcons, ?_⟩
      rw [take_succ_cons, cons_append, position, if_neg, hpos, Option.map_some]
      rw [List.isPrefixOf_iff_prefix] at hpre ⊢
      intro hlater
      exact hpre (hlater.trans (hcons ▸ prefix_append _ _))

theorem crlf_ne_nil : crlf ≠ [] := by decide

theorem position_line {line x : Bytes} (h : Unbroken line) : position crlf (line ++ crlf ++ x) = some line.length :=
  position_append h x

theorem take_line (line x : Bytes) : (line ++ crlf ++ x).take line.length = line := by
  rw [append_assoc, take_left]

theorem drop_line (line x : Bytes) : (line ++ crlf ++ x).drop (line.length + 2) = x := by
  rw [← drop_drop, append_assoc, drop_left]
  rfl

theorem chunkSize_of_plain (h : plainSize line = some n) (hn : n < 2 ^ 64) : chunkSize line = some n := by
  obtain ⟨text, htext, hsize⟩ := Option.bind_eq_some_iff.mp h
  rw [chunkSize, htext]
  exact (fromStrRadix_eq_some (by norm_num) (head?_ne_plus hsize)).mpr ⟨hsize, hn⟩

variable {limit size : ℕ}

theorem SizeLine.lineSize (h : SizeLine limit line size) (x : Bytes) :
    lineSize (line ++ crlf ++ x) = some size := by
  have hfits := h.fits
  rw [Http.lineSize, position_line h.unbroken, Option.bind_some, take_line]
  exact chunkSize_of_plain (givesSize_iff.mp h.gives) (by omega)

/-- A size line that is there is one of the grammar, if nothing is overlooked. -/
theorem sizeLine_of_clean {limit lineEnd size : ℕ} {b : Bytes} (h : position crlf b = some lineEnd)
    (hc : Clean limit b lineEnd size) (hfits : size + 2 < 2 ^ 64) :
    SizeLine limit (b.take lineEnd) size ∧ b = b.take lineEnd ++ crlf ++ b.drop (lineEnd + 2) := by
  have hle := lineEnd_le h
  obtain ⟨hsplit, hpos⟩ := position_split crlf_ne_nil h
  have hlen : (b.take lineEnd).length = lineEnd := by rw [length_take]; omega
  exact ⟨⟨by rw [Unbroken, hpos, hlen], by rw [hlen]; exact hc.1, hc.2.1, hfits⟩, hsplit⟩

/-! ### The decoder, state by state -/

section Decode

variable {limit lineEnd : ℕ} {b : Bytes}

theorem decodeBody_congr {b' : Bytes} {rem rem' : Option ℕ} (h : httpChunkedStep b rem limit = httpChunkedStep b' rem' limit) :
    decodeBody limit b rem = decodeBody limit b' rem' := by
  rw [decodeBody, decodeBody]
  split <;> split <;> simp_all

theorem decodeBody_size {size : ℕ} (h : size + 2 < 2 ^ 64) :
    decodeBody limit b (some size) =
      if b.length < size + 2 then .needMore else (decodeBody limit (b.drop (size + 2)) none).after (b.take size) := by
  have hstep : httpChunkedStep b (some size) limit =
      if b.length < size + 2 then some (.needMore, b, some size) else some (.data (b.take size), b.drop (size + 2), none) := by
    rw [httpChunkedStep, chunkBody, Nat.mod_eq_of_lt h, if_neg (Nat.not_le_of_lt h)]
  rw [decodeBody]
  split at hstep <;> split <;> simp_all

theorem decodeBody_open (h : position crlf b = none) :
    decodeBody limit b none = if limit < b.length then .malformed else .needMore := by
  have hstep := @chunkedStep_open b limit h
  rw [decodeBody]
  split at hstep <;> split <;> simp_all

theorem decodeBody_badLine (h : position crlf b = some lineEnd) (hs : lineSize b = none) :
    decodeBody limit b none = .malformed := by
  have hstep := @chunkedStep_badLine b limit lineEnd h hs
  rw [decodeBody]
  split <;> simp_all

theorem decodeBody_last (h : position crlf b = some lineEnd) (hs : lineSize b = some 0) :
    decodeBody limit b none = .complete [] (if lineEnd + 4 ≤ b.length then b.drop (lineEnd + 4) else b.drop (lineEnd + 2)) := by
  have hstep := @chunkedStep_last b limit lineEnd h hs
  rw [decodeBody]
  split <;> simp_all

theorem decodeBody_line {size : ℕ} (h : position crlf b = some lineEnd) (hs : lineSize b = some (size + 1)) :
    decodeBody limit b none = decodeBody limit (b.drop (lineEnd + 2)) (some (size + 1)) :=
  decodeBody_congr (chunkedStep_size h hs)

end Decode

@[simp] theorem Decoded.after_nil (d : Decoded) : d.after [] = d := by cases d <;> rfl

@[simp] theorem Decoded.after_after (a b : Bytes) (d : Decoded) : (d.after b).after a = d.after (a ++ b) := by
  cases d <;> simp [Decoded.after]

/-- Where the decoder stops, when it overlooks nothing. -/
inductive Stands (limit : ℕ) : Option ℕ → Bytes → Decoded → Prop where
  | waitsForChunk {size : ℕ} {b : Bytes} : size + 2 < 2 ^ 64 → b.length < size + 2 → Stands limit (some size) b .needMore
  | waitsForLine {b : Bytes} : position crlf b = none → b.length ≤ limit → Stands limit none b .needMore
  | refuses {b : Bytes} : Stands limit none b .malformed
  | last {line rest : Bytes} : SizeLine limit line 0 → Stands limit none (line ++ crlf ++ crlf ++ rest) (.complete [] rest)

/-- Some bytes and their data come before any rest of a body. -/
def Leads (limit : ℕ) (rem : Option ℕ) (taken data : Bytes) (rem' : Option ℕ) : Prop :=
  ∀ body data', ChunkedBody limit rem' body data' → ChunkedBody limit rem (taken ++ body) (data ++ data')

theorem Leads.refl (limit : ℕ) (rem : Option ℕ) : Leads limit rem [] [] rem := fun _ _ h => h

/-- A buffer in front of some bytes that follow a part of it. -/
theorem append_of_prefix {p b : Bytes} (h : p <+: b.drop n) : b = b.take n ++ p ++ b.drop (n + p.length) := by
  obtain ⟨t, ht⟩ := h
  have hdrop : b.drop (n + p.length) = t := by rw [← drop_drop, ← ht, drop_left]
  rw [hdrop, append_assoc, ht, take_append_drop]

variable {limit : ℕ} {rem : Option ℕ}

/-- The decoder takes the beginning of a body and then stops. -/
theorem decodeBody_stands {b : Bytes} (h : ¬Overlooked limit rem b) :
    ∃ taken data rem' b' r, b = taken ++ b' ∧ Leads limit rem taken data rem' ∧ Stands limit rem' b' r ∧
      decodeBody limit b rem = r.after data := by
  induction hn : b.length using Nat.strongRecOn generalizing b rem with
  | ind n ih =>
    subst hn
    cases rem with
    | some size =>
      have hwrap : size + 2 < 2 ^ 64 := Nat.lt_of_not_le fun hle => h (.wraps hle)
      rw [decodeBody_size hwrap]
      by_cases hlen : b.length < size + 2
      · rw [if_pos hlen]
        exact ⟨[], [], some size, b, .needMore, rfl, .refl _ _, .waitsForChunk hwrap hlen, rfl⟩
      have hle := Nat.le_of_not_lt hlen
      have hend : crlf <+: b.drop size := by
        by_contra hend
        exact h (.chunkEnd hle hend)
      obtain ⟨taken, data, rem', b', r, hb, hleads, hst, hr⟩ :=
        ih _ (by rw [length_drop]; omega) (fun ho => h (.afterChunk hle ho)) rfl
      refine ⟨b.take size ++ crlf ++ taken, b.take size ++ data, rem', b', r, ?_, fun body data' hbody => ?_, hst, ?_⟩
      · rw [append_assoc, ← hb]
        exact append_of_prefix hend
      · have htake : (b.take size).length = size := by rw [length_take]; omega
        have hfits : (b.take size).length + 2 < 2 ^ 64 := by rwa [htake]
        have hchunk := ChunkedBody.chunk hfits (hleads body data' hbody)
        rw [htake] at hchunk
        simpa only [append_assoc] using hchunk
      · rw [if_neg hlen, hr, Decoded.after_after]
    | none =>
      cases hpos : position crlf b with
      | none =>
        rw [decodeBody_open hpos]
        split
        case isTrue => exact ⟨[], [], none, b, .malformed, rfl, .refl _ _, .refuses, rfl⟩
        case isFalse hle => exact ⟨[], [], none, b, .needMore, rfl, .refl _ _, .waitsForLine hpos (Nat.le_of_not_lt hle), rfl⟩
      | some lineEnd =>
        have hle := lineEnd_le hpos
        rcases hsize : lineSize b with _ | _ | size
        · exact ⟨[], [], none, b, .malformed, rfl, .refl _ _, .refuses, decodeBody_badLine hpos hsize⟩
        · have hc : Clean limit b lineEnd 0 := by
            by_contra hc
            exact h (.line hpos hsize hc)
          obtain ⟨hline, hb⟩ := sizeLine_of_clean hpos hc (by norm_num)
          obtain ⟨rest, hrest⟩ := hc.2.2 rfl
          have hb' : b = b.take lineEnd ++ crlf ++ crlf ++ rest := by
            rw [append_assoc, hrest]
            exact hb
          have hlen : lineEnd + 4 ≤ b.length := by
            have := congrArg List.length hrest
            rw [length_append, length_drop, show crlf.length = 2 from rfl] at this
            omega
          have hdrop : b.drop (lineEnd + 4) = rest := by rw [← drop_drop (i := 2) (j := lineEnd + 2), ← hrest]; rfl
          have hst : Stands limit none (b.take lineEnd ++ crlf ++ crlf ++ rest) (.complete [] rest) := .last hline
          rw [← hb'] at hst
          refine ⟨[], [], none, b, .complete [] rest, rfl, .refl _ _, hst, ?_⟩
          rw [decodeBody_last hpos hsize, if_pos hlen, hdrop]
          rfl
        · have hwrap : size + 1 + 2 < 2 ^ 64 := Nat.lt_of_not_le fun hle => h (.afterLine hpos hsize (.wraps hle))
          have hc : Clean limit b lineEnd (size + 1) := by
            by_contra hc
            exact h (.line hpos hsize hc)
          obtain ⟨hline, hb⟩ := sizeLine_of_clean hpos hc hwrap
          obtain ⟨taken, data, rem', b', r, hb', hleads, hst, hr⟩ :=
            ih _ (by rw [length_drop]; omega) (fun ho => h (.afterLine hpos hsize ho)) rfl
          refine ⟨b.take lineEnd ++ crlf ++ taken, data, rem', b', r, ?_, fun body data' hbody => ?_, hst, ?_⟩
          · rw [append_assoc, ← hb']
            exact hb
          · have := ChunkedBody.size hline (hleads body data' hbody)
            simpa only [append_assoc] using this
          · rw [decodeBody_line hpos hsize, hr]

/-! ### Against the grammar -/

theorem trailers_of_crlf {trailers x : Bytes} (h : Trailers trailers) (hc : crlf <+: trailers ++ x) : trailers = [] := by
  cases h with
  | nil => rfl
  | @line line rest hline hne _ =>
    exfalso
    have hpre : crlf <+: line ++ crlf := by
      refine prefix_of_prefix_length_le hc ⟨rest ++ x, by simp⟩ ?_
      rw [length_append]
      omega
    obtain ⟨c, cs, rfl⟩ := exists_cons_of_ne_nil hne
    rw [cons_append] at hpre
    rw [Unbroken, cons_append, position, if_pos (List.isPrefixOf_iff_prefix.mpr hpre)] at hline
    exact absurd (Option.some.inj hline) (by simp)

/-- A body at the front of a buffer is decoded. -/
theorem decodeBody_of_chunkedBody {body data : Bytes} (hbody : ChunkedBody limit rem body data)
    (rest : Bytes) (h : ¬Overlooked limit rem (body ++ rest)) : decodeBody limit (body ++ rest) rem = .complete data rest := by
  induction hbody with
  | @last line trailers hline htrailers =>
    have happ : line ++ crlf ++ trailers ++ crlf ++ rest = line ++ crlf ++ (trailers ++ crlf ++ rest) := by simp only [append_assoc]
    rw [happ] at h ⊢
    have hpos := position_line (x := trailers ++ crlf ++ rest) hline.unbroken
    have hsize := hline.lineSize (trailers ++ crlf ++ rest)
    have hc : Clean limit (line ++ crlf ++ (trailers ++ crlf ++ rest)) line.length 0 := by
      by_contra hc
      exact h (.line hpos hsize hc)
    have hnil : trailers = [] := by
      have := hc.2.2 rfl
      rw [drop_line, append_assoc] at this
      exact trailers_of_crlf htrailers this
    subst hnil
    rw [decodeBody_last hpos hsize, if_pos (by simp [show crlf.length = 2 from rfl]; omega),
      ← drop_drop (i := 2) (j := line.length + 2), drop_line]
    rfl
  | @size line body data n hline _ ih =>
    have happ : line ++ crlf ++ body ++ rest = line ++ crlf ++ (body ++ rest) := by simp only [append_assoc]
    rw [happ] at h ⊢
    have hpos := position_line (x := body ++ rest) hline.unbroken
    have hsize := hline.lineSize (body ++ rest)
    rw [decodeBody_line hpos hsize, drop_line]
    exact ih fun ho => h (.afterLine hpos hsize (by rwa [drop_line]))
  | @chunk chunk body data hfits _ ih =>
    have happ : chunk ++ crlf ++ body ++ rest = chunk ++ crlf ++ (body ++ rest) := by simp only [append_assoc]
    rw [happ] at h ⊢
    have hlen : chunk.length + 2 ≤ (chunk ++ crlf ++ (body ++ rest)).length := by
      simp only [length_append, show crlf.length = 2 from rfl]
      omega
    rw [decodeBody_size hfits, if_neg (Nat.not_lt_of_le hlen), take_line, drop_line,
      ih fun ho => h (.afterChunk hlen (by rwa [drop_line]))]
    rfl

/-- A buffer that begins a size line waits for the rest of the line or has all of it. -/
theorem decodeBody_of_sizeLine {line b x y : Bytes} (hline : SizeLine limit line size)
    (h : b ++ x = line ++ crlf ++ y) :
    decodeBody limit b none = .needMore ∨
      position crlf b = some line.length ∧ lineSize b = some size ∧ b.drop (line.length + 2) ++ x = y := by
  have hpos := position_line (x := y) hline.unbroken
  have hsize := hline.lineSize y
  rw [← h] at hpos hsize
  cases hb : position crlf b with
  | none =>
    have hlen := length_lt_of_position hb hpos crlf_ne_nil
    have hshort := hline.short
    rw [show crlf.length = 2 from rfl] at hlen
    exact .inl (by rw [decodeBody_open hb, if_neg (by omega)])
  | some lineEnd =>
    obtain rfl := Option.some.inj ((position_append hb x).symm.trans hpos)
    rw [lineSize_append hb] at hsize
    refine .inr ⟨rfl, hsize, ?_⟩
    rw [← drop_append_of_le_length (lineEnd_le hb), h, drop_line]

/-- What begins a body is not refused. -/
theorem not_malformed_of_chunkedBody {body data : Bytes} (hbody : ChunkedBody limit rem body data)
    {b x rest : Bytes} (h : b ++ x = body ++ rest) : decodeBody limit b rem ≠ .malformed := by
  induction hbody generalizing b with
  | @last line trailers hline htrailers =>
    rw [append_assoc, append_assoc] at h
    obtain hwait | ⟨hpos, hsize, -⟩ := decodeBody_of_sizeLine hline h
    · rw [hwait]
      exact Decoded.noConfusion
    · rw [decodeBody_last hpos hsize]
      exact Decoded.noConfusion
  | @size line body data n hline _ ih =>
    rw [append_assoc] at h
    obtain hwait | ⟨hpos, hsize, hrest⟩ := decodeBody_of_sizeLine hline h
    · rw [hwait]
      exact Decoded.noConfusion
    · rw [decodeBody_line hpos hsize]
      exact ih hrest
  | @chunk chunk body data hfits _ ih =>
    rw [append_assoc] at h
    rw [decodeBody_size hfits]
    split
    · exact Decoded.noConfusion
    case isFalse hlen =>
      have hrest : b.drop (chunk.length + 2) ++ x = body ++ rest := by
        rw [← drop_append_of_le_length (Nat.le_of_not_lt hlen), h, drop_line]
      have hne := ih hrest
      cases hd : decodeBody limit (b.drop (chunk.length + 2)) none with
      | malformed => exact absurd hd hne
      | needMore => exact Decoded.noConfusion
      | complete _ _ => exact Decoded.noConfusion
      | panicked => exact Decoded.noConfusion

/-- No chunk and no trailers. -/
def closing : Bytes := ascii "0\r\n\r\n"

theorem chunkedBody_closing (hl : 1 < limit) : ChunkedBody limit none closing [] := by
  have hline : SizeLine limit (ascii "0") 0 := ⟨by decide +kernel, hl, givesSize_iff.mpr (by decide +kernel), by norm_num⟩
  exact ChunkedBody.last hline .nil

/-- A chunk that is waited for can still come. -/
theorem chunkedBody_waiting {b : Bytes} (hl : 1 < limit) (hfits : size + 2 < 2 ^ 64) :
    ∃ rest data, ChunkedBody limit (some size) (b.take size ++ rest) data := by
  have hlen : (b.take size ++ replicate (size - (b.take size).length) 0).length = size := by
    rw [length_append, length_replicate, length_take]
    omega
  have hchunk := ChunkedBody.chunk (by rw [hlen]; exact hfits) (chunkedBody_closing hl)
  rw [hlen, append_assoc, append_assoc] at hchunk
  exact ⟨_, _, hchunk⟩

/-- Where no body can come any more, that is seen once enough bytes have come. -/
theorem malformed_of_not_chunkedBody {b x : Bytes} (hl : 1 < limit)
    (hno : ∀ x body data rest, b ++ x = body ++ rest → ¬ChunkedBody limit rem body data) (hx : limit < x.length)
    (h : ¬Overlooked limit rem (b ++ x)) : decodeBody limit (b ++ x) rem = .malformed := by
  obtain ⟨taken, data, rem', b', r, hb, hleads, hst, hr⟩ := decodeBody_stands h
  -- a body that goes on from bytes which hold the whole buffer would be one
  have hgo : ∀ {more rest data'}, b <+: taken ++ more → ¬ChunkedBody limit rem' (more ++ rest) data' := by
    rintro more rest data' ⟨t, ht⟩ hbody
    refine hno (t ++ rest) _ _ [] ?_ (hleads _ _ hbody)
    rw [← append_assoc, ht, append_nil, append_assoc]
  cases hst with
  | refuses => rw [hr]; rfl
  | @last line rest hline =>
    exact absurd (hleads _ _ (ChunkedBody.last hline .nil)) (hno x _ _ rest (by rw [hb]; simp only [append_assoc, nil_append]))
  | waitsForLine _ hlen =>
    have hlens := congrArg List.length hb
    rw [length_append, length_append] at hlens
    have hpre : b <+: taken ++ [] := by
      rw [append_nil]
      exact prefix_of_prefix_length_le ⟨x, hb⟩ ⟨b', rfl⟩ (by omega)
    exact absurd (chunkedBody_closing hl) (hgo hpre)
  | @waitsForChunk size _ hfits hlen =>
    have hlens := congrArg List.length hb
    rw [length_append, length_append] at hlens
    obtain ⟨rest, data', hbody⟩ := chunkedBody_waiting (b := b') hl hfits
    have hpre : b <+: taken ++ b'.take size := by
      refine prefix_of_prefix_length_le ⟨x, hb⟩ ⟨b'.drop size, by rw [append_assoc, take_append_drop]⟩ ?_
      rw [length_append, length_take]
      omega
    exact absurd hbody (hgo hpre)

/-! ### What is written -/

theorem unbroken_of_not_mem (h : 13 ∉ line) : Unbroken line := by
  induction line with
  | nil => decide
  | cons c cs ih =>
    rw [mem_cons, not_or] at h
    have hpos : position crlf (cs ++ crlf) = some cs.length := ih h.2
    rw [Unbroken, cons_append, position, hpos, if_neg]
    · rfl
    · intro hpre
      obtain ⟨t, ht⟩ := isPrefixOf_iff_prefix.mp hpre
      exact h.1 (List.cons.inj ht).1

/-- What the digits of a size are. -/
theorem hexDigit_plain {ch : Char} (h : ch ∈ Nat.toDigits 16 n) : ch.toNat < 0x80 ∧ UInt8.ofNat ch.toNat ≠ 13 := by
  obtain ⟨d, hd, rfl⟩ := Numerals.mem_toDigits (by norm_num) h
  have hall : ∀ d < 16, d.digitChar.toNat < 0x80 ∧ UInt8.ofNat d.digitChar.toNat ≠ 13 := by decide
  exact hall d hd

/-- The bytes of a size in hexadecimal. -/
def hexSize (n : ℕ) : Bytes := (Nat.toDigits 16 n).map fun ch => UInt8.ofNat ch.toNat

theorem unbroken_hexSize (n : ℕ) : Unbroken (hexSize n) := by
  apply unbroken_of_not_mem
  intro h
  obtain ⟨ch, hch, heq⟩ := mem_map.mp h
  exact (hexDigit_plain hch).2 heq

theorem givesSize_hexSize (n : ℕ) : GivesSize (hexSize n) n := by
  have hsame : (Nat.toDigits 16 n).map (Char.ofNat ∘ Char.toNat) = Nat.toDigits 16 n :=
    (map_congr_left fun ch _ => Char.ofNat_toNat ch).trans (map_id _)
  have hascii : ∀ code ∈ (Nat.toDigits 16 n).map Char.toNat, code < 0x80 :=
    forall_mem_map.mpr fun ch hch => (hexDigit_plain hch).1
  have htext := text_ascii hascii
  rw [map_map, map_map, hsame] at htext
  have hsize : plainNumber 16 (Nat.toDigits 16 n) = some n := by
    rw [plainNumber, Numerals.number_of_ne_nil Nat.toDigits_ne_nil]
    exact Numerals.read_toDigits (by norm_num) (by decide) n
  have hpadding : ∀ ch ∈ ([] : Text) ++ [], isWhitespace ch = true := forall_mem_nil _
  have hgives := GivesSize.line hpadding hsize (.inl rfl)
  rwa [nil_append, append_nil, append_nil, htext] at hgives

/-- A chunk that was written is read back. -/
theorem decodeBody_httpChunk {bytes : Bytes} (hlen : bytes.length + 2 < 2 ^ 64) (rest : Bytes) :
    decodeBody limit (httpChunk bytes ++ rest) none = (decodeBody limit rest none).after bytes := by
  by_cases hnil : bytes = []
  · subst hnil
    rw [httpChunk, if_pos rfl, Decoded.after_nil]
    rfl
  have happ : httpChunk bytes ++ rest = hexSize bytes.length ++ crlf ++ (bytes ++ crlf ++ rest) := by
    rw [httpChunk, if_neg hnil]
    simp only [append_assoc, hexSize]
  obtain ⟨n, hn⟩ := Nat.exists_eq_succ_of_ne_zero (mt length_eq_zero_iff.mp hnil)
  have hpos := position_line (x := bytes ++ crlf ++ rest) (unbroken_hexSize bytes.length)
  have hsize : lineSize (hexSize bytes.length ++ crlf ++ (bytes ++ crlf ++ rest)) = some (n + 1) := by
    rw [lineSize, hpos, Option.bind_some, take_line, chunkSize_of_plain (givesSize_iff.mp (givesSize_hexSize _)) (by omega), hn]
  rw [happ, decodeBody_line hpos hsize, drop_line, ← Nat.succ_eq_add_one, ← hn, decodeBody_size hlen, take_line, drop_line, if_neg]
  rw [length_append, length_append, show crlf.length = 2 from rfl]
  omega

theorem decodeBody_closing (limit : ℕ) (rest : Bytes) : decodeBody limit (closing ++ rest) none = .complete [] rest := by
  have hline : position crlf closing = some 1 := by decide +kernel
  have hpos := position_append hline rest
  have hsize : lineSize (closing ++ rest) = some 0 := by
    rw [lineSize_append hline]
    decide +kernel
  rw [decodeBody_last hpos hsize, if_pos (by rw [length_append, show closing.length = 5 from rfl]; omega)]
  rfl

theorem decodeBody_written {payloads : List Bytes} (h : ∀ bytes ∈ payloads, bytes.length + 2 < 2 ^ 64) (rest : Bytes) :
    decodeBody limit (payloads.flatMap httpChunk ++ closing ++ rest) none = .complete payloads.flatten rest := by
  induction payloads with
  | nil => exact decodeBody_closing limit rest
  | cons bytes payloads ih =>
    rw [forall_mem_cons] at h
    have := ih h.2
    rw [flatMap_cons, append_assoc, append_assoc, decodeBody_httpChunk h.1, ← append_assoc, this]
    rfl

/-- The decoder against the grammar. Where it overlooks nothing, it takes the bodies and no others, hands
out their data, stops right behind them, and panics nowhere. It refuses only what cannot become a body,
and that as soon as more bytes have come than a size line may have. What the writer makes of some
payloads is read back as the payloads. -/
theorem decodeBody_grammar (limit : ℕ) :
    (∀ rem b, ¬Overlooked limit rem b →
      (∀ data rest, decodeBody limit b rem = .complete data rest ↔ ∃ body, b = body ++ rest ∧ ChunkedBody limit rem body data) ∧
      decodeBody limit b rem ≠ .panicked) ∧
    (∀ rem b, decodeBody limit b rem = .malformed →
      ∀ x body data rest, b ++ x = body ++ rest → ¬ChunkedBody limit rem body data) ∧
    (∀ rem b x, 1 < limit → (∀ x body data rest, b ++ x = body ++ rest → ¬ChunkedBody limit rem body data) →
      limit < x.length → ¬Overlooked limit rem (b ++ x) → decodeBody limit (b ++ x) rem = .malformed) ∧
    (∀ (payloads : List Bytes) rest, (∀ bytes ∈ payloads, bytes.length + 2 < 2 ^ 64) →
      decodeBody limit (payloads.flatMap httpChunk ++ closing ++ rest) none = .complete payloads.flatten rest) := by
  refine ⟨fun rem b h => ⟨fun data rest => ⟨fun hd => ?_, ?_⟩, ?_⟩, ?_, ?_, fun payloads rest h => decodeBody_written h rest⟩
  · obtain ⟨taken, data₀, rem', b', r, hb, hleads, hst, hr⟩ := decodeBody_stands h
    rw [hr] at hd
    cases hst with
    | @last line rest' hline =>
      obtain ⟨rfl, rfl⟩ := Decoded.complete.inj hd
      exact ⟨_, by rw [hb]; simp only [append_assoc, nil_append], hleads _ _ (ChunkedBody.last hline .nil)⟩
    | waitsForChunk => cases hd
    | waitsForLine => cases hd
    | refuses => cases hd
  · rintro ⟨body, rfl, hbody⟩
    exact decodeBody_of_chunkedBody hbody rest h
  · obtain ⟨taken, data₀, rem', b', r, hb, hleads, hst, hr⟩ := decodeBody_stands h
    rw [hr]
    cases hst <;> exact Decoded.noConfusion
  · intro rem b hd x body data rest heq hbody
    exact not_malformed_of_chunkedBody hbody heq hd
  · intro rem b x hl hno hx h
    exact malformed_of_not_chunkedBody hl hno hx h

section Seen

variable {limit lineEnd size : ℕ} {b : Bytes}

theorem not_overlooked_last (hpos : position crlf b = some lineEnd) (hsize : lineSize b = some 0)
    (hc : Clean limit b lineEnd 0) : ¬Overlooked limit none b := by
  intro h
  cases h with
  | line hp hs hc' =>
    cases hpos.symm.trans hp
    cases hsize.symm.trans hs
    exact hc' hc
  | afterLine hp hs _ => cases hsize.symm.trans hs

theorem not_overlooked_line (hpos : position crlf b = some lineEnd) (hsize : lineSize b = some (size + 1))
    (hc : Clean limit b lineEnd (size + 1)) (hrest : ¬Overlooked limit (some (size + 1)) (b.drop (lineEnd + 2))) :
    ¬Overlooked limit none b := by
  intro h
  cases h with
  | line hp hs hc' =>
    cases hpos.symm.trans hp
    cases hsize.symm.trans hs
    exact hc' hc
  | afterLine hp hs h =>
    cases hpos.symm.trans hp
    cases hsize.symm.trans hs
    exact hrest h

theorem not_overlooked_chunk (hfits : size + 2 < 2 ^ 64) (hend : crlf <+: b.drop size)
    (hrest : ¬Overlooked limit none (b.drop (size + 2))) : ¬Overlooked limit (some size) b := by
  intro h
  cases h with
  | chunkEnd _ hend' => exact hend' hend
  | wraps hw => omega
  | afterChunk _ h => exact hrest h

end Seen

instance (limit lineEnd size : ℕ) (b : Bytes) : Decidable (Clean limit b lineEnd size) := inferInstanceAs (Decidable (_ ∧ _))

theorem decodeBody_grammar_a :
    ¬Overlooked 8192 none (ascii "1\r\na\r\n0\r\n\r\nGET") ∧
      ∃ body, ascii "1\r\na\r\n0\r\n\r\nGET" = body ++ ascii "GET" ∧ ChunkedBody 8192 none body (ascii "a") := by
  have hseen : ¬Overlooked 8192 none (ascii "1\r\na\r\n0\r\n\r\nGET") := by
    have hfirst : position crlf (ascii "1\r\na\r\n0\r\n\r\nGET") = some 1 := by decide +kernel
    have hsize : lineSize (ascii "1\r\na\r\n0\r\n\r\nGET") = some (0 + 1) := by decide +kernel
    apply not_overlooked_line hfirst hsize (by decide +kernel)
    apply not_overlooked_chunk (by norm_num) (by decide +kernel)
    have hlast : position crlf (ascii "0\r\n\r\nGET") = some 1 := by decide +kernel
    exact not_overlooked_last hlast (by decide +kernel) (by decide +kernel)
  have hwritten : ascii "1\r\na\r\n0\r\n\r\nGET" = [ascii "a"].flatMap httpChunk ++ closing ++ ascii "GET" := by decide +kernel
  have hdecoded := (decodeBody_grammar 8192).2.2.2 [ascii "a"] (ascii "GET") (by decide +kernel)
  rw [← hwritten] at hdecoded
  exact ⟨hseen, (((decodeBody_grammar 8192).1 none _ hseen).1 _ _).mp hdecoded⟩

/-- A line that can give no size any more is refused when it ends, not before. -/
theorem not_malformed_iff :
    ¬∀ limit b, decodeBody limit b none = .malformed ↔
      ∀ x body data rest, b ++ x = body ++ rest → ¬ChunkedBody limit none body data := by
  intro h
  have hwait : decodeBody 8192 [255] none = .needMore := by
    rw [decodeBody_open (by decide +kernel)]
    rfl
  have hutf8 : ∀ as, fromUtf8 (255 :: as) = none := by
    intro as
    rw [fromUtf8.eq_def]
    rcases as with _ | ⟨b, _ | ⟨c, _ | ⟨d, as⟩⟩⟩ <;> simp
    intros
    omega
  have hline : ∀ {line x y : Bytes} {n : ℕ}, [255] ++ x = line ++ crlf ++ y → ¬SizeLine 8192 line n := by
    intro line x y n heq hl
    cases line with
    | nil => cases heq
    | cons c line =>
      obtain rfl : 255 = c := (List.cons.inj heq).1
      have hgives := givesSize_iff.mp hl.gives
      rw [plainSize, hutf8] at hgives
      cases hgives
  have hbad := (h 8192 [255]).mpr fun x body data rest heq hbody => by
    cases hbody with
    | last hl _ =>
      rw [append_assoc, append_assoc] at heq
      exact hline heq hl
    | size hl _ =>
      rw [append_assoc] at heq
      exact hline heq hl
  rw [hwait] at hbad
  cases hbad

end Scriptc.RuntimeRust.Http
