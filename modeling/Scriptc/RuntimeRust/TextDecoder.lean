import Scriptc.Lib.Transducer
import Scriptc.RuntimeRust.StringDecoder

/-!
# Legacy text decoders

The decoders of `text_decoder.rs` that read more than one byte for a character. They read a binary
asset that holds the tables of the encodings and the ranges of gb18030; it is a parameter here, with
its length. An index out of range and an unsigned subtraction or addition that overflows are faults.
-/

namespace Scriptc.RuntimeRust.TextDecoder

open List

open Decoder (forall_uint8)

inductive Fault where
  | index
  | overflow
  | endless
  deriving DecidableEq

/-! ### The tables -/

/-- `TEXT_DECODER_DATA`. -/
structure TextDecoderData where
  bytes : ℕ → UInt8
  length : ℕ

def tdGb18030Offset : ℕ := 27 * 128
def tdBig5Offset : ℕ := tdGb18030Offset + 126 * 190
def tdJis0208Offset : ℕ := tdBig5Offset + 126 * 157
def tdJis0212Offset : ℕ := tdJis0208Offset + 94 * 94
def tdShiftJisOffset : ℕ := tdJis0212Offset + 94 * 94
def tdEucKrOffset : ℕ := tdShiftJisOffset + 60 * 188
def tdTableEnd : ℕ := tdEucKrOffset + 94 * 94

variable (data : TextDecoderData)

def TextDecoderData.get (i : ℕ) : Except Fault ℕ := if i < data.length then .ok (data.bytes i).toNat else .error .index

def sub8 (a b : UInt8) : Except Fault ℕ := if b.toNat ≤ a.toNat then .ok (a.toNat - b.toNat) else .error .overflow

/-- `(low..=high).contains(&byte)`. -/
def contains (low high byte : UInt8) : Bool := low.toNat ≤ byte.toNat && byte.toNat ≤ high.toNat

def tdTable (offset index : ℕ) : Except Fault ℕ := do
  let low ← data.get ((offset + index) * 2)
  let high ← data.get ((offset + index) * 2 + 1)
  .ok (low + 2 ^ 8 * high)

def tdU32 (offset : ℕ) : Except Fault ℕ := do
  let b0 ← data.get offset
  let b1 ← data.get (offset + 1)
  let b2 ← data.get (offset + 2)
  let b3 ← data.get (offset + 3)
  .ok (b0 + 2 ^ 8 * b1 + 2 ^ 16 * b2 + 2 ^ 24 * b3)

/-- Where the range of an index begins. -/
def rangeOffset (i : ℕ) : ℕ := tdTableEnd * 2 + i * 12

def rangeCount : ℕ := (data.length - tdTableEnd * 2) / 12

/-- The loop of `td_gb_range`. -/
def tdGbSearch (pointer : ℕ) : ℕ → ℕ → ℕ → Except Fault ℕ
  | 0, _, _ => .error .endless
  | n + 1, low, high =>
    if low < high then do
      let middle := low + (high - low) / 2
      let start ← tdU32 data (rangeOffset middle)
      let stop ← tdU32 data (rangeOffset middle + 4)
      if pointer < start then tdGbSearch pointer n low middle
      else if stop < pointer then tdGbSearch pointer n (middle + 1) high
      else do
        let codePoint ← tdU32 data (rangeOffset middle + 8)
        if codePoint + pointer < 2 ^ 32 then .ok (codePoint + pointer - start) else .error .overflow
    else .ok 0

def tdGbRange (pointer : ℕ) : Except Fault ℕ :=
  if data.length < tdTableEnd * 2 then .error .overflow else tdGbSearch data pointer (rangeCount data + 1) 0 (rangeCount data)

def replacement : Char := Char.ofNat 0xfffd

/-- `char::from_u32`, and the replacement character for what is none. -/
def tdPut (codePoint : ℕ) : Char := if codePoint.isValidChar then Char.ofNat codePoint else replacement

/-- `index -= 1`. -/
def back (index : ℕ) : Except Fault ℕ := if 0 < index then .ok (index - 1) else .error .overflow

/-! ### Leads and trails -/

/-- What a byte is that follows no lead. -/
inductive Single where
  | put (codePoint : ℕ)
  | lead
  | error
  deriving DecidableEq

/-- What big5, shift_jis and euc-kr differ in. -/
structure LeadFormat where
  /-- The code point of a lead and the byte after it, 0 if there is none. -/
  pair : TextDecoderData → UInt8 → UInt8 → Except Fault ℕ
  /-- A byte that is decoded again when it makes no character with its lead. -/
  again : UInt8 → Bool
  single : UInt8 → Except Fault Single

structure LeadState where
  lead : UInt8
  index : ℕ
  output : List Char

def LeadFormat.step (F : LeadFormat) (input : Bytes) (s : LeadState) : Except Fault (Option LeadState) :=
  match input[s.index]? with
  | none => .ok none
  | some byte =>
    if s.lead ≠ 0 then do
      let codePoint ← F.pair data s.lead byte
      if codePoint ≠ 0 then .ok (some ⟨0, s.index + 1, s.output ++ [tdPut codePoint]⟩)
      else if F.again byte then do
        let index ← back (s.index + 1)
        .ok (some ⟨0, index, s.output ++ [replacement]⟩)
      else .ok (some ⟨0, s.index + 1, s.output ++ [replacement]⟩)
    else do
      match ← F.single byte with
      | .put codePoint => .ok (some ⟨0, s.index + 1, s.output ++ [tdPut codePoint]⟩)
      | .lead => .ok (some ⟨byte, s.index + 1, s.output⟩)
      | .error => .ok (some ⟨0, s.index + 1, s.output ++ [replacement]⟩)

/-- Turns enough for every input. -/
def turns (input : Bytes) : ℕ := (input.length + 1) * (input.length + 2)

def LeadFormat.decode (F : LeadFormat) (input : Bytes) : Except Fault (List Char) := do
  let s ← Transducer.run Fault.endless (F.step data input) (turns input) ⟨0, 0, []⟩
  .ok (if s.lead ≠ 0 then s.output ++ [replacement] else s.output)

/-- `td_big5`. -/
def tdBig5 : LeadFormat where
  pair data lead byte :=
    if contains 0x40 0x7e byte || contains 0xa1 0xfe byte then do
      let row ← sub8 lead 0x81
      let column ← sub8 byte (if byte < 0x7f then 0x40 else 0x62)
      tdTable data tdBig5Offset (row * 157 + column)
    else .ok 0
  again byte := byte < 0x80 || byte = 0xff
  single byte := .ok (
    if byte ≤ 0x80 then .put byte.toNat
    else if contains 0x81 0xfe byte then .lead
    else if byte = 0xff then .put 0xf8f8
    else .error)

/-- `td_shift_jis`. -/
def tdShiftJis : LeadFormat where
  pair data lead byte :=
    if contains 0x40 0x7e byte || contains 0x80 0xfc byte then do
      let row ← sub8 lead (if lead < 0xa0 then 0x81 else 0xc1)
      let column ← sub8 byte (if byte < 0x7f then 0x40 else 0x41)
      tdTable data tdShiftJisOffset (row * 188 + column)
    else .ok 0
  again byte := !(contains 0x40 0x7e byte || contains 0x80 0xfc byte)
  single byte :=
    if byte = 0x1a then .ok (.put 0x1c)
    else if byte = 0x1c then .ok (.put 0x7f)
    else if byte = 0x7f then .ok (.put 0x1a)
    else if byte < 0x80 then .ok (.put byte.toNat)
    else if contains 0xa1 0xdf byte then do
      let offset ← sub8 byte 0xa1
      .ok (.put (0xff61 + offset))
    else if contains 0x81 0x9f byte || contains 0xe0 0xfc byte then .ok .lead
    else .ok .error

/-- `td_euc_kr`. -/
def tdEucKr : LeadFormat where
  pair data lead byte :=
    if contains 0xa1 0xfe lead && contains 0xa1 0xfe byte then do
      let row ← sub8 lead 0xa1
      let column ← sub8 byte 0xa1
      tdTable data tdEucKrOffset (row * 94 + column)
    else .ok 0
  again byte := byte < 0xa0
  single byte := .ok (
    if byte < 0xa0 && byte ≠ 0x8e && byte ≠ 0x8f then .put byte.toNat
    else if contains 0xa1 0xfe byte then .lead
    else .error)

/-! ### gb18030 -/

structure GbState where
  first : UInt8
  second : UInt8
  third : UInt8
  /-- A stack: what was pushed last is at the front. -/
  replay : Bytes
  index : ℕ
  output : List Char

def GbState.put (s : GbState) (c : Char) : GbState := { s with output := s.output ++ [c] }

/-- The code point of two bytes. -/
def gbPair (lead byte : UInt8) : Except Fault ℕ := do
  let row ← sub8 lead 0x81
  let column ← sub8 byte (if byte < 0x7f then 0x40 else 0x41)
  tdTable data tdGb18030Offset (row * 190 + column)

/-- The code point of four bytes. -/
def gbFour (first second third byte : UInt8) : Except Fault ℕ := do
  let a ← sub8 first 0x81
  let b ← sub8 second 0x30
  let c ← sub8 third 0x81
  let d ← sub8 byte 0x30
  tdGbRange data (((a * 10 + b) * 126 + c) * 10 + d)

/-- What the loop does with a byte. -/
def GbState.take (s : GbState) (byte : UInt8) : Except Fault GbState :=
  if s.third ≠ 0 then do
    let validFourth := contains 0x30 0x39 byte
    let codePoint ← if validFourth then gbFour data s.first s.second s.third byte else .ok 0
    let cleared : GbState := { s with first := 0, second := 0, third := 0 }
    if codePoint ≠ 0 then .ok (cleared.put (tdPut codePoint))
    else if validFourth then .ok (cleared.put replacement)
    else .ok { cleared.put replacement with replay := s.second :: s.third :: byte :: s.replay }
  else if s.second ≠ 0 then
    if contains 0x81 0xfe byte then .ok { s with third := byte }
    else .ok { s.put replacement with first := 0, second := 0, replay := s.second :: byte :: s.replay }
  else if s.first ≠ 0 then
    if contains 0x30 0x39 byte then .ok { s with second := byte }
    else do
      let validTrail := contains 0x40 0x7e byte || contains 0x80 0xfe byte
      let codePoint ← if validTrail then gbPair data s.first byte else .ok 0
      let cleared : GbState := { s with first := 0 }
      if codePoint ≠ 0 then .ok (cleared.put (tdPut codePoint))
      else if !validTrail && byte < 0x80 then .ok { cleared.put replacement with replay := byte :: s.replay }
      else .ok (cleared.put replacement)
  else if byte < 0x80 then .ok (s.put (tdPut byte.toNat))
  else if byte = 0x80 then .ok (s.put (tdPut 0x20ac))
  else if contains 0x81 0xfe byte then .ok { s with first := byte }
  else .ok (s.put replacement)

def GbState.step (input : Bytes) (s : GbState) : Except Fault (Option GbState) :=
  match s.replay with
  | byte :: replay => (GbState.take data { s with replay := replay } byte).map some
  | [] =>
    match input[s.index]? with
    | none => .ok none
    | some byte => (GbState.take data { s with index := s.index + 1 } byte).map some

/-- `td_gb18030`. -/
def tdGb18030 (input : Bytes) : Except Fault (List Char) := do
  let s ← Transducer.run Fault.endless (GbState.step data input) (turns input) ⟨0, 0, 0, [], 0, []⟩
  .ok (if s.first ≠ 0 ∨ s.second ≠ 0 ∨ s.third ≠ 0 then s.output ++ [replacement] else s.output)

/-! ### euc-jp -/

structure EucJpState where
  lead : UInt8
  jis0212 : Bool
  index : ℕ
  output : List Char

def EucJpState.put (s : EucJpState) (c : Char) : EucJpState := { s with output := s.output ++ [c] }

/-- The code point of two bytes, in one of the two tables. -/
def eucJpPair (jis0212 : Bool) (lead byte : UInt8) : Except Fault ℕ := do
  let row ← sub8 lead 0xa1
  let column ← sub8 byte 0xa1
  tdTable data (if jis0212 then tdJis0212Offset else tdJis0208Offset) (row * 94 + column)

/-- What the loop does with a byte. -/
def EucJpState.take (s : EucJpState) (byte : UInt8) : Except Fault EucJpState :=
  if s.lead = 0x8e && contains 0xa1 0xdf byte then do
    let offset ← sub8 byte 0xa1
    .ok ({ s with lead := 0 }.put (tdPut (0xff61 + offset)))
  else if s.lead = 0x8e && contains 0xe0 0xe2 byte then do
    let offset ← sub8 byte 0xe0
    match [0x00a2, 0x00a3, 0x00ac][offset]? with
    | none => .error .index
    | some codePoint => .ok ({ s with lead := 0 }.put (tdPut codePoint))
  else if s.lead = 0x8f && contains 0xa1 0xfe byte then .ok { s with jis0212 := true, lead := byte }
  else if s.lead ≠ 0 then do
    let valid := contains 0xa1 0xfe s.lead && contains 0xa1 0xfe byte
    let codePoint ← if valid then eucJpPair data s.jis0212 s.lead byte else .ok 0
    if s.jis0212 && !valid then do
      let index ← back s.index
      .ok { s.put replacement with jis0212 := false, index := index }
    else
      let cleared : EucJpState := { s with lead := 0, jis0212 := false }
      if codePoint ≠ 0 then .ok (cleared.put (tdPut codePoint))
      else if byte < 0xa0 || s.lead = 0x8e && contains 0xe5 0xfe byte then do
        let index ← back s.index
        .ok { cleared.put replacement with index := index }
      else .ok (cleared.put replacement)
  else if byte < 0xa0 && byte ≠ 0x8e && byte ≠ 0x8f then .ok (s.put (tdPut byte.toNat))
  else if byte = 0x8e || byte = 0x8f || contains 0xa1 0xfe byte then .ok { s with lead := byte }
  else .ok (s.put replacement)

def EucJpState.step (input : Bytes) (s : EucJpState) : Except Fault (Option EucJpState) :=
  match input[s.index]? with
  | none => .ok none
  | some byte => (EucJpState.take data { s with index := s.index + 1 } byte).map some

/-- `td_euc_jp`. -/
def tdEucJp (input : Bytes) : Except Fault (List Char) := do
  let s ← Transducer.run Fault.endless (EucJpState.step data input) (turns input) ⟨0, false, 0, []⟩
  .ok (if s.lead ≠ 0 then s.output ++ [replacement] else s.output)

/-! ### No faults -/

/-- The asset: the tables are there, and no code point of a range overflows. -/
structure TextDecoderData.Sound (data : TextDecoderData) : Prop where
  tables : tdTableEnd * 2 ≤ data.length
  ranges : ∀ i < rangeCount data, ∀ stop codePoint, tdU32 data (rangeOffset i + 4) = .ok stop →
    tdU32 data (rangeOffset i + 8) = .ok codePoint → codePoint + stop < 2 ^ 32

variable {data} {a b byte lead : UInt8} {input bytes : Bytes}

theorem get_ok {i : ℕ} (h : i < data.length) : data.get i = .ok (data.bytes i).toNat := if_pos h

theorem sub8_ok (h : b.toNat ≤ a.toNat) : sub8 a b = .ok (a.toNat - b.toNat) := if_pos h

theorem contains_iff {low high : UInt8} : contains low high byte = true ↔ low.toNat ≤ byte.toNat ∧ byte.toNat ≤ high.toNat := by
  rw [contains, Bool.and_eq_true, decide_eq_true_iff, decide_eq_true_iff]

theorem tdTable_ok (h : data.Sound) {offset index : ℕ} (hi : offset + index < tdTableEnd) :
    ∃ codePoint, tdTable data offset index = .ok codePoint := by
  have hlength := h.tables
  rw [tdTable, get_ok (by omega), get_ok (by omega)]
  exact ⟨_, rfl⟩

theorem tdU32_ok (offset : ℕ) (h : offset + 3 < data.length) : ∃ value, tdU32 data offset = .ok value := by
  rw [tdU32, get_ok (by omega), get_ok (by omega), get_ok (by omega), get_ok (by omega)]
  exact ⟨_, rfl⟩

/-- The search ends, inside the ranges. -/
theorem tdGbSearch_ok (h : data.Sound) (pointer : ℕ) {n low high : ℕ} (hhigh : high ≤ rangeCount data) (hn : high - low < n) :
    ∃ codePoint, tdGbSearch data pointer n low high = .ok codePoint := by
  induction n generalizing low high with
  | zero => omega
  | succ n ih =>
    rw [tdGbSearch]
    split
    · have hmiddle : low + (high - low) / 2 < rangeCount data := by omega
      have hlength := h.tables
      have hinside : rangeOffset (low + (high - low) / 2) + 11 < data.length := by
        have hcount : rangeCount data = (data.length - tdTableEnd * 2) / 12 := rfl
        have hoffset : rangeOffset (low + (high - low) / 2) = tdTableEnd * 2 + (low + (high - low) / 2) * 12 := rfl
        omega
      obtain ⟨start, hstart⟩ := tdU32_ok (rangeOffset (low + (high - low) / 2)) (show _ < data.length by omega)
      obtain ⟨stop, hstop⟩ := tdU32_ok (rangeOffset (low + (high - low) / 2) + 4) (show _ < data.length by omega)
      obtain ⟨codePoint, hcode⟩ := tdU32_ok (rangeOffset (low + (high - low) / 2) + 8) (show _ < data.length by omega)
      have hsum := h.ranges _ hmiddle stop codePoint hstop hcode
      simp only [hstart, hstop, hcode]
      show ∃ r, (if pointer < start then _ else if stop < pointer then _ else _) = _
      split
      · exact ih (by omega) (by omega)
      · split
        · exact ih hhigh (by omega)
        · show ∃ r, (if codePoint + pointer < 2 ^ 32 then _ else _) = _
          rw [if_pos (by omega)]
          exact ⟨_, rfl⟩
    · exact ⟨0, rfl⟩

theorem tdGbRange_ok (h : data.Sound) (pointer : ℕ) : ∃ codePoint, tdGbRange data pointer = .ok codePoint := by
  rw [tdGbRange, if_neg (by have := h.tables; omega)]
  exact tdGbSearch_ok h pointer le_rfl (by omega)

/-- An asset with one character, which big5 has for 0xa4 0x40. -/
def sampleData : TextDecoderData where
  bytes i := if i = 65783 then 0x4e else 0
  length := 172452

theorem sampleData_sound : sampleData.Sound where
  tables := by decide
  ranges i _ stop codePoint hstop hcode := by
    have hzero : ∀ j value, 65784 ≤ j → tdU32 sampleData j = .ok value → value = 0 := by
      intro j value hj hvalue
      have hbyte : ∀ k, 65784 ≤ k → sampleData.get k = .ok 0 ∨ sampleData.get k = .error .index := by
        intro k hk
        by_cases hlt : k < sampleData.length
        · left
          rw [get_ok hlt, show sampleData.bytes k = 0 from if_neg (by omega)]
          rfl
        · exact .inr (if_neg hlt)
      rw [tdU32] at hvalue
      obtain h0 | h0 := hbyte j hj <;> obtain h1 | h1 := hbyte (j + 1) (by omega) <;>
        obtain h2 | h2 := hbyte (j + 2) (by omega) <;> obtain h3 | h3 := hbyte (j + 3) (by omega) <;>
        rw [h0, h1, h2, h3] at hvalue <;> cases hvalue
      rfl
    have hoffset : 65784 ≤ rangeOffset i := by
      have htable : 65784 ≤ tdTableEnd * 2 := by decide
      exact htable.trans (Nat.le_add_right _ _)
    rw [hzero _ _ (by omega) hstop, hzero _ _ (by omega) hcode]
    decide

/-! ### What the bytes are spent on -/

/-- Some bytes and what is written for them: the character that they encode, or the replacement
character for bytes above ASCII, or for a sequence that has no character. -/
def Piece (code : Bytes → ℕ → Prop) (unmapped : Bytes → Prop) (bytes : Bytes) (out : List Char) : Prop :=
  bytes ≠ [] ∧ ((∃ codePoint, code bytes codePoint ∧ out = [tdPut codePoint]) ∨
    out = [replacement] ∧ ((∀ b ∈ bytes, 0x80 ≤ b.toNat) ∨ unmapped bytes))

/-- The pieces of the input in order, and a sequence that the end of the input cuts off. -/
def DecodesTo (piece : Bytes → List Char → Prop) (cut : Bytes → Prop) (input : Bytes) (out : List Char) : Prop :=
  ∃ spent last written, input = spent ++ last ∧ Transducer.Spends piece spent written ∧
    (last = [] ∧ out = written ∨ cut last ∧ out = written ++ [replacement])

/-- Some bytes above ASCII. -/
def High (bytes : Bytes) : Prop := bytes ≠ [] ∧ ∀ b ∈ bytes, 0x80 ≤ b.toNat

theorem drop_of_getElem? {i : ℕ} (h : input[i]? = some byte) : input.drop i = byte :: input.drop (i + 1) := by
  obtain ⟨hlt, rfl⟩ := List.getElem?_eq_some_iff.mp h
  exact drop_eq_getElem_cons hlt

theorem turns_enough (input : Bytes) : input.length * (input.length + 2) + (input.length + 1) < turns input := by
  have hturns : turns input = input.length * (input.length + 2) + (input.length + 2) := Nat.succ_mul _ _
  omega

/-- **A decoder ends** where its queue is empty, and what it holds there is all that it has not spent. -/
theorem run_decodes (input : Bytes) {σ : Type} {step : σ → Except Fault (Option σ)} {piece : Bytes → List Char → Prop} (held queue : σ → Bytes)
    {output : σ → List Char} {I : σ → Prop}
    (hstep : ∀ s, I s → step s = .ok none ∧ queue s = [] ∨ ∃ s', step s = .ok (some s') ∧ I s' ∧
      Transducer.Turn piece (fun s => held s ++ queue s) (fun s => (queue s).length) output s s')
    {s : σ} (hs : I s) (hheld : held s = []) (hqueue : queue s = input) (houtput : output s = []) :
    ∃ s' spent, Transducer.run Fault.endless step (turns input) s = .ok s' ∧ I s' ∧ input = spent ++ held s' ∧
      Transducer.Spends piece spent (output s') := by
  have hrest : ∀ s, I s → (queue s).length ≤ (held s ++ queue s).length + 1 := by
    intro s _
    rw [length_append]
    omega
  have hpending : held s ++ queue s = input := by rw [hheld, hqueue, nil_append]
  have henough := turns_enough input
  obtain ⟨s', spent, out, hrun, hs', hempty, hspent, hout, hspends⟩ :=
    Transducer.run_spec input.length (n := turns input) hstep hrest hs (by rw [hpending]) (by rw [hpending, hqueue]; omega)
  rw [hpending, hempty, append_nil] at hspent
  rw [houtput, nil_append] at hout
  exact ⟨s', spent, hrun, hs', hspent, hout ▸ hspends⟩

/-! ### Leads and trails -/

/-- The characters of a format. -/
inductive LeadFormat.Code (F : LeadFormat) (data : TextDecoderData) : Bytes → ℕ → Prop
  | single {b : UInt8} {codePoint : ℕ} : F.single b = .ok (.put codePoint) → F.Code data [b] codePoint
  | pair {lead b : UInt8} {codePoint : ℕ} : F.single lead = .ok .lead → F.pair data lead b = .ok codePoint → codePoint ≠ 0 →
      F.Code data [lead, b] codePoint

/-- What a format has to keep. -/
structure LeadFormat.Sound (F : LeadFormat) (data : TextDecoderData) (unmapped : Bytes → Prop) : Prop where
  single_ok : ∀ b, ∃ r, F.single b = .ok r
  lead_high : ∀ b, F.single b = .ok .lead → 0x80 ≤ b.toNat
  error_high : ∀ b, F.single b = .ok .error → 0x80 ≤ b.toNat
  pair_ok : ∀ lead b, F.single lead = .ok .lead → ∃ codePoint, F.pair data lead b = .ok codePoint
  unmapped : ∀ lead b, F.single lead = .ok .lead → F.pair data lead b = .ok 0 → F.again b = false → 0x80 ≤ b.toNat ∨ unmapped [lead, b]

section Lead

variable {F : LeadFormat} {unmapped : Bytes → Prop}

def LeadState.held (s : LeadState) : Bytes := if s.lead = 0 then [] else [s.lead]

def LeadState.pending (input : Bytes) (s : LeadState) : Bytes := s.held ++ input.drop s.index

theorem ne_zero_of_high (h : 0x80 ≤ byte.toNat) : byte ≠ 0 := by
  rintro rfl
  revert h
  decide

/-- One turn. -/
theorem LeadFormat.step_turn (hF : F.Sound data unmapped) (s : LeadState) (hs : s.lead ≠ 0 → F.single s.lead = .ok .lead) :
    F.step data input s = .ok none ∧ input.drop s.index = [] ∨
    ∃ s', F.step data input s = .ok (some s') ∧ (s'.lead ≠ 0 → F.single s'.lead = .ok .lead) ∧
      Transducer.Turn (Piece (F.Code data) unmapped) (LeadState.pending input) (fun s => (input.drop s.index).length) LeadState.output s s' := by
  obtain ⟨lead, index, output⟩ := s
  cases hbyte : input[index]? with
  | none => exact .inl ⟨by rw [LeadFormat.step, hbyte], drop_eq_nil_of_le (List.getElem?_eq_none_iff.mp hbyte)⟩
  | some byte =>
    right
    have hdrop := drop_of_getElem? hbyte
    by_cases hl : lead = 0
    · subst hl
      obtain ⟨r, hr⟩ := hF.single_ok byte
      have hpending : LeadState.pending input ⟨0, index, output⟩ = [byte] ++ input.drop (index + 1) := hdrop
      cases r with
      | put codePoint =>
        have hstep : F.step data input ⟨0, index, output⟩ = .ok (some ⟨0, index + 1, output ++ [tdPut codePoint]⟩) := by
          simp [LeadFormat.step, hbyte, hr, bind, Except.bind]
        exact ⟨_, hstep, fun h => absurd rfl h,
          .spend [byte] [tdPut codePoint] hpending rfl ⟨by simp, .inl ⟨codePoint, .single hr, rfl⟩⟩ (by simp)⟩
      | lead =>
        have hstep : F.step data input ⟨0, index, output⟩ = .ok (some ⟨byte, index + 1, output⟩) := by
          simp [LeadFormat.step, hbyte, hr, bind, Except.bind]
        refine ⟨_, hstep, fun _ => hr, .move ?_ rfl ?_⟩
        · show (if byte = 0 then [] else [byte]) ++ input.drop (index + 1) = _
          rw [if_neg (ne_zero_of_high (hF.lead_high byte hr)), hpending]
        · show (input.drop (index + 1)).length < (input.drop index).length
          rw [hdrop]
          exact Nat.lt_succ_self _
      | error =>
        have hhigh : ∀ b ∈ [byte], 0x80 ≤ b.toNat := by
          rw [forall_mem_singleton]
          exact hF.error_high byte hr
        have hstep : F.step data input ⟨0, index, output⟩ = .ok (some ⟨0, index + 1, output ++ [replacement]⟩) := by
          simp [LeadFormat.step, hbyte, hr, bind, Except.bind]
        exact ⟨_, hstep, fun h => absurd rfl h, .spend [byte] [replacement] hpending rfl ⟨by simp, .inr ⟨rfl, .inl hhigh⟩⟩ (by simp)⟩
    · have hlead := hs hl
      have hleadHigh := hF.lead_high lead hlead
      obtain ⟨codePoint, hcode⟩ := hF.pair_ok lead byte hlead
      have hpending : LeadState.pending input ⟨lead, index, output⟩ = [lead] ++ input.drop index := by
        show (if lead = 0 then [] else [lead]) ++ _ = _
        rw [if_neg hl]
      have hpending' : LeadState.pending input ⟨lead, index, output⟩ = [lead, byte] ++ input.drop (index + 1) := by
        rw [hpending, hdrop]
        rfl
      by_cases hzero : codePoint = 0
      · subst hzero
        cases hagain : F.again byte with
        | true =>
          have hstep : F.step data input ⟨lead, index, output⟩ = .ok (some ⟨0, index, output ++ [replacement]⟩) := by
            simp [LeadFormat.step, hbyte, hl, hcode, hagain, back, bind, Except.bind]
          refine ⟨_, hstep, fun h => absurd rfl h, .spend [lead] [replacement] hpending rfl ⟨by simp, .inr ⟨rfl, .inl ?_⟩⟩ (by simp)⟩
          rw [forall_mem_singleton]
          exact hleadHigh
        | false =>
          have hstep : F.step data input ⟨lead, index, output⟩ = .ok (some ⟨0, index + 1, output ++ [replacement]⟩) := by
            simp [LeadFormat.step, hbyte, hl, hcode, hagain, bind, Except.bind]
          refine ⟨_, hstep, fun h => absurd rfl h, .spend [lead, byte] [replacement] hpending' rfl ⟨by simp, .inr ⟨rfl, ?_⟩⟩ (by simp)⟩
          refine (hF.unmapped lead byte hlead hcode hagain).imp_left fun hbyte => ?_
          simp only [forall_mem_cons]
          exact ⟨hleadHigh, hbyte, by simp⟩
      · have hstep : F.step data input ⟨lead, index, output⟩ = .ok (some ⟨0, index + 1, output ++ [tdPut codePoint]⟩) := by
          simp [LeadFormat.step, hbyte, hl, hcode, hzero, bind, Except.bind]
        exact ⟨_, hstep, fun h => absurd rfl h,
          .spend [lead, byte] [tdPut codePoint] hpending' rfl ⟨by simp, .inl ⟨codePoint, .pair hlead hcode hzero, rfl⟩⟩ (by simp)⟩

/-- **A format is decoded** without a fault, and every byte is spent once. -/
theorem LeadFormat.Sound.decode_spends (hF : F.Sound data unmapped) (input : Bytes) : ∃ out, F.decode data input = .ok out ∧
    DecodesTo (Piece (F.Code data) unmapped) High input out := by
  obtain ⟨s, spent, hrun, hs, hinput, hspends⟩ :=
    run_decodes input LeadState.held (fun s => input.drop s.index) (F.step_turn hF) (s := ⟨0, 0, []⟩) (fun h => absurd rfl h) rfl rfl rfl
  rw [LeadFormat.decode, hrun]
  refine ⟨_, rfl, spent, s.held, s.output, hinput, hspends, ?_⟩
  by_cases hl : s.lead = 0
  · exact .inl ⟨if_pos hl, if_neg fun h => h hl⟩
  · have hheld : s.held = [s.lead] := if_neg hl
    have hhigh : High s.held := by
      rw [hheld, High, forall_mem_singleton]
      exact ⟨cons_ne_nil _ _, hF.lead_high _ (hs hl)⟩
    exact .inr ⟨hhigh, if_pos hl⟩

end Lead

/-! ### The three formats -/

/-- A row and a column inside a table. -/
theorem lookup_ok (h : data.Sound) {offset width : ℕ} (rows m n : ℕ) (htable : offset + rows * width ≤ tdTableEnd) (ha : a.toNat = m)
    (hb : b.toNat = n) (hrow : m ≤ lead.toNat ∧ lead.toNat < m + rows) (hcolumn : n ≤ byte.toNat ∧ byte.toNat < n + width) :
    ∃ codePoint, (do
      let row ← sub8 lead a
      let column ← sub8 byte b
      tdTable data offset (row * width + column)) = .ok codePoint := by
  have hindex : (lead.toNat - a.toNat) * width + width ≤ rows * width := by
    rw [← Nat.succ_mul]
    exact Nat.mul_le_mul_right _ (by omega)
  rw [sub8_ok (by omega), sub8_ok (by omega)]
  exact tdTable_ok h (by omega)

theorem tdBig5_sound (h : data.Sound) : tdBig5.Sound data fun _ => False where
  single_ok _ := ⟨_, rfl⟩
  lead_high := forall_uint8 (p := fun b => tdBig5.single b = .ok .lead → 0x80 ≤ b.toNat) (by decide +kernel)
  error_high := forall_uint8 (p := fun b => tdBig5.single b = .ok .error → 0x80 ≤ b.toNat) (by decide +kernel)
  pair_ok lead b hlead := by
    obtain ⟨hlow, hhigh⟩ := forall_uint8 (p := fun b => tdBig5.single b = .ok .lead → 0x81 ≤ b.toNat ∧ b.toNat ≤ 0xfe)
      (by decide +kernel) lead hlead
    show ∃ codePoint, (if contains 0x40 0x7e b || contains 0xa1 0xfe b then _ else _) = Except.ok codePoint
    split
    · rename_i hvalid
      simp only [Bool.or_eq_true, contains_iff, UInt8.reduceToNat] at hvalid
      by_cases hb : b < 0x7f
      · have hlt : b.toNat < 0x7f := hb
        rw [if_pos hb]
        exact lookup_ok h 126 0x81 0x40 (by decide) rfl rfl ⟨hlow, by omega⟩ ⟨by omega, by omega⟩
      · have hlt : ¬ b.toNat < 0x7f := hb
        rw [if_neg hb]
        exact lookup_ok h 126 0x81 0x62 (by decide) rfl rfl ⟨hlow, by omega⟩ ⟨by omega, by omega⟩
    · exact ⟨0, rfl⟩
  unmapped lead b _ _ hagain := .inl (forall_uint8 (p := fun b => tdBig5.again b = false → 0x80 ≤ b.toNat) (by decide +kernel) b hagain)

theorem tdEucKr_sound (h : data.Sound) : tdEucKr.Sound data fun _ => False where
  single_ok _ := ⟨_, rfl⟩
  lead_high := forall_uint8 (p := fun b => tdEucKr.single b = .ok .lead → 0x80 ≤ b.toNat) (by decide +kernel)
  error_high := forall_uint8 (p := fun b => tdEucKr.single b = .ok .error → 0x80 ≤ b.toNat) (by decide +kernel)
  pair_ok lead b _ := by
    show ∃ codePoint, (if contains 0xa1 0xfe lead && contains 0xa1 0xfe b then _ else _) = Except.ok codePoint
    split
    · rename_i hvalid
      simp only [Bool.and_eq_true, contains_iff, UInt8.reduceToNat] at hvalid
      exact lookup_ok h 94 0xa1 0xa1 (by decide) rfl rfl ⟨by omega, by omega⟩ ⟨by omega, by omega⟩
    · exact ⟨0, rfl⟩
  unmapped lead b _ _ hagain := .inl (forall_uint8 (p := fun b => tdEucKr.again b = false → 0x80 ≤ b.toNat) (by decide +kernel) b hagain)

/-- A lead and a trail of shift_jis that the table has no character for. -/
def ShiftJisUnmapped (data : TextDecoderData) (bytes : Bytes) : Prop :=
  ∃ lead b, bytes = [lead, b] ∧ tdShiftJis.single lead = .ok .lead ∧ (contains 0x40 0x7e b || contains 0x80 0xfc b) = true ∧
    tdShiftJis.pair data lead b = .ok 0

theorem tdShiftJis_sound (h : data.Sound) : tdShiftJis.Sound data (ShiftJisUnmapped data) where
  single_ok := by
    intro b
    have hb := forall_uint8 (p := fun b => (tdShiftJis.single b).isOk = true) (by decide +kernel) b
    cases hs : tdShiftJis.single b with
    | ok r => exact ⟨r, rfl⟩
    | error e =>
      rw [hs] at hb
      cases hb
  lead_high := forall_uint8 (p := fun b => tdShiftJis.single b = .ok .lead → 0x80 ≤ b.toNat) (by decide +kernel)
  error_high := forall_uint8 (p := fun b => tdShiftJis.single b = .ok .error → 0x80 ≤ b.toNat) (by decide +kernel)
  pair_ok lead b hlead := by
    have hrange := forall_uint8 (p := fun b => tdShiftJis.single b = .ok .lead →
      0x81 ≤ b.toNat ∧ b.toNat ≤ 0x9f ∨ 0xe0 ≤ b.toNat ∧ b.toNat ≤ 0xfc) (by decide +kernel) lead hlead
    show ∃ codePoint, (if contains 0x40 0x7e b || contains 0x80 0xfc b then _ else _) = Except.ok codePoint
    split
    · rename_i hvalid
      simp only [Bool.or_eq_true, contains_iff, UInt8.reduceToNat] at hvalid
      by_cases hl : lead < 0xa0 <;> by_cases hb : b < 0x7f <;> simp only [hl, hb, if_true, if_false] <;>
        simp only [UInt8.lt_iff_toNat_lt, UInt8.reduceToNat] at hl hb
      · exact lookup_ok h 31 0x81 0x40 (by decide) rfl rfl ⟨by omega, by omega⟩ ⟨by omega, by omega⟩
      · exact lookup_ok h 31 0x81 0x41 (by decide) rfl rfl ⟨by omega, by omega⟩ ⟨by omega, by omega⟩
      · exact lookup_ok h 60 0xc1 0x40 (by decide) rfl rfl ⟨by omega, by omega⟩ ⟨by omega, by omega⟩
      · exact lookup_ok h 60 0xc1 0x41 (by decide) rfl rfl ⟨by omega, by omega⟩ ⟨by omega, by omega⟩
    · exact ⟨0, rfl⟩
  unmapped lead b hlead hpair hagain := .inr ⟨lead, b, rfl, hlead, by rw [← Bool.not_eq_false']; exact hagain, hpair⟩

/-- **The formats of a lead and a trail** are decoded without a fault, and every byte is spent once: on a character, on an error
above ASCII, or in shift_jis on a pair that has no character. -/
theorem leadFormats_spend (h : data.Sound) (input : Bytes) :
    (∃ out, tdBig5.decode data input = .ok out ∧ DecodesTo (Piece (tdBig5.Code data) fun _ => False) High input out) ∧
    (∃ out, tdShiftJis.decode data input = .ok out ∧ DecodesTo (Piece (tdShiftJis.Code data) (ShiftJisUnmapped data)) High input out) ∧
    ∃ out, tdEucKr.decode data input = .ok out ∧ DecodesTo (Piece (tdEucKr.Code data) fun _ => False) High input out :=
  ⟨(tdBig5_sound h).decode_spends input, (tdShiftJis_sound h).decode_spends input, (tdEucKr_sound h).decode_spends input⟩

theorem leadFormats_spend_han : ∃ out, tdBig5.decode sampleData [0xa4, 0x40, 0x81, 0x41] = .ok out ∧
    out = [Char.ofNat 0x4e00, replacement, 'A'] ∧
    DecodesTo (Piece (tdBig5.Code sampleData) fun _ => False) High [0xa4, 0x40, 0x81, 0x41] out := by
  obtain ⟨⟨out, hout, hdecodes⟩, -, -⟩ := leadFormats_spend sampleData_sound [0xa4, 0x40, 0x81, 0x41]
  exact ⟨out, hout, Except.ok.inj (hout.symm.trans rfl), hdecodes⟩

/-! ### gb18030 -/

def gbLead (b : UInt8) : Bool := contains 0x81 0xfe b
def gbDigit (b : UInt8) : Bool := contains 0x30 0x39 b
def gbTrail (b : UInt8) : Bool := contains 0x40 0x7e b || contains 0x80 0xfe b

inductive GbCode (data : TextDecoderData) : Bytes → ℕ → Prop
  | ascii {b : UInt8} : b < 0x80 → GbCode data [b] b.toNat
  | euro : GbCode data [0x80] 0x20ac
  | two {lead b : UInt8} {codePoint : ℕ} : gbLead lead = true → gbTrail b = true → gbPair data lead b = .ok codePoint → codePoint ≠ 0 →
      GbCode data [lead, b] codePoint
  | four {a b c d : UInt8} {codePoint : ℕ} : gbLead a = true → gbDigit b = true → gbLead c = true → gbDigit d = true →
      gbFour data a b c d = .ok codePoint → codePoint ≠ 0 → GbCode data [a, b, c, d] codePoint

/-- Two or four bytes that have no character. -/
inductive GbUnmapped (data : TextDecoderData) : Bytes → Prop
  | two {lead b : UInt8} : gbLead lead = true → gbTrail b = true → gbPair data lead b = .ok 0 → GbUnmapped data [lead, b]
  | four {a b c d : UInt8} : gbLead a = true → gbDigit b = true → gbLead c = true → gbDigit d = true →
      gbFour data a b c d = .ok 0 → GbUnmapped data [a, b, c, d]

/-- The bytes that are held are the beginning of four bytes. -/
def GbHeld (a b c : UInt8) : Prop :=
  a = 0 ∧ b = 0 ∧ c = 0 ∨ gbLead a = true ∧ b = 0 ∧ c = 0 ∨ gbLead a = true ∧ gbDigit b = true ∧ c = 0 ∨
    gbLead a = true ∧ gbDigit b = true ∧ gbLead c = true

def GbState.held (s : GbState) : Bytes := [s.first, s.second, s.third].takeWhile (· ≠ 0)

def GbState.queue (input : Bytes) (s : GbState) : Bytes := s.replay ++ input.drop s.index

def GbState.pending (input : Bytes) (s : GbState) : Bytes := s.held ++ s.queue input

def GbState.Valid (s : GbState) : Prop := GbHeld s.first s.second s.third

theorem gbLead_iff : gbLead b = true ↔ 0x81 ≤ b.toNat ∧ b.toNat ≤ 0xfe := contains_iff

theorem gbDigit_iff : gbDigit b = true ↔ 0x30 ≤ b.toNat ∧ b.toNat ≤ 0x39 := contains_iff

theorem gbTrail_iff : gbTrail b = true ↔ 0x40 ≤ b.toNat ∧ b.toNat ≤ 0x7e ∨ 0x80 ≤ b.toNat ∧ b.toNat ≤ 0xfe := by
  rw [gbTrail, Bool.or_eq_true, contains_iff, contains_iff]
  rfl

theorem gbLead_ne (h : gbLead b = true) : b ≠ 0 := by
  rintro rfl
  exact absurd h (by decide)

theorem gbDigit_ne (h : gbDigit b = true) : b ≠ 0 := by
  rintro rfl
  exact absurd h (by decide)

theorem gbLead_high (h : gbLead b = true) : 0x80 ≤ b.toNat := by
  rw [gbLead_iff] at h
  omega

theorem gbPair_ok (h : data.Sound) (hlead : gbLead lead = true) (htrail : gbTrail b = true) : ∃ codePoint, gbPair data lead b = .ok codePoint := by
  rw [gbLead_iff] at hlead
  rw [gbTrail_iff] at htrail
  rw [gbPair]
  by_cases hb : b < 0x7f <;> simp only [hb, if_true, if_false] <;> simp only [UInt8.lt_iff_toNat_lt, UInt8.reduceToNat] at hb
  · exact lookup_ok h 126 0x81 0x40 (by decide) rfl rfl ⟨by omega, by omega⟩ ⟨by omega, by omega⟩
  · exact lookup_ok h 126 0x81 0x41 (by decide) rfl rfl ⟨by omega, by omega⟩ ⟨by omega, by omega⟩

theorem gbFour_ok (h : data.Sound) {c d : UInt8} (ha : gbLead a = true) (hb : gbDigit b = true) (hc : gbLead c = true)
    (hd : gbDigit d = true) : ∃ codePoint, gbFour data a b c d = .ok codePoint := by
  rw [gbLead_iff] at ha hc
  rw [gbDigit_iff] at hb hd
  rw [gbFour, sub8_ok (b := 0x81) ha.1, sub8_ok (b := 0x30) hb.1, sub8_ok (b := 0x81) hc.1, sub8_ok (b := 0x30) hd.1]
  exact tdGbRange_ok h _

/-- What a decoder of gb18030 may do from a state that stands for what was before the byte was taken. -/
def GbTurn (data : TextDecoderData) (input : Bytes) (s s' : GbState) : Prop :=
  Transducer.Turn (Piece (GbCode data) (GbUnmapped data)) (GbState.pending input) (fun s => (s.queue input).length) GbState.output s s'

section Gb

variable {s s0 : GbState} {before : Bytes} (h : data.Sound) (hpending : s0.pending input = s.held ++ byte :: s.queue input)
  (hrest : (s0.queue input).length = (s.queue input).length + 1) (houtput : s0.output = s.output) (hheld : s.held = before)
include hpending houtput hheld

theorem gb_spend {out : List Char}
    (htake : s.take data byte = .ok { s with first := 0, second := 0, third := 0, output := s.output ++ out })
    (hp : Piece (GbCode data) (GbUnmapped data) (before ++ [byte]) out) :
    ∃ s', s.take data byte = .ok s' ∧ s'.Valid ∧ GbTurn data input s0 s' := by
  refine ⟨_, htake, .inl ⟨rfl, rfl, rfl⟩, .spend (before ++ [byte]) out ?_ (by rw [houtput]) hp hp.1⟩
  rw [hpending, hheld, append_assoc]
  rfl

/-- A character is written for what is held and the byte. -/
theorem gb_put {codePoint : ℕ}
    (htake : s.take data byte = .ok { s with first := 0, second := 0, third := 0, output := s.output ++ [tdPut codePoint] })
    (hcode : GbCode data (before ++ [byte]) codePoint) : ∃ s', s.take data byte = .ok s' ∧ s'.Valid ∧ GbTurn data input s0 s' :=
  gb_spend hpending houtput hheld htake ⟨by simp, .inl ⟨codePoint, hcode, rfl⟩⟩

/-- They are an error together. -/
theorem gb_error (htake : s.take data byte = .ok { s with first := 0, second := 0, third := 0, output := s.output ++ [replacement] })
    (hp : (∀ b ∈ before ++ [byte], 0x80 ≤ b.toNat) ∨ GbUnmapped data (before ++ [byte])) :
    ∃ s', s.take data byte = .ok s' ∧ s'.Valid ∧ GbTurn data input s0 s' :=
  gb_spend hpending houtput hheld htake ⟨by simp, .inr ⟨rfl, hp⟩⟩

/-- The first of them is an error, and the others are decoded again. -/
theorem gb_lose {first : UInt8} {again : Bytes} (hfirst : gbLead first = true) (hagain : before ++ [byte] = first :: again)
    (htake : s.take data byte =
      .ok { s with first := 0, second := 0, third := 0, replay := again ++ s.replay, output := s.output ++ [replacement] }) :
    ∃ s', s.take data byte = .ok s' ∧ s'.Valid ∧ GbTurn data input s0 s' := by
  have hhigh : ∀ b ∈ [first], 0x80 ≤ b.toNat := by
    rw [forall_mem_singleton]
    exact gbLead_high hfirst
  refine ⟨_, htake, .inl ⟨rfl, rfl, rfl⟩, .spend [first] [replacement] ?_ (by rw [houtput]) ⟨by simp, .inr ⟨rfl, .inl hhigh⟩⟩ (by simp)⟩
  have hqueue : before ++ byte :: s.queue input = first :: (again ++ s.queue input) := by
    rw [append_cons, hagain, cons_append]
  rw [hpending, hheld, hqueue, GbState.queue, ← append_assoc]
  rfl

include hrest in
/-- The byte is held as well. -/
theorem gb_hold {first second third : UInt8} (htake : s.take data byte = .ok { s with first, second, third })
    (hs' : GbHeld first second third) (hheld' : [first, second, third].takeWhile (· ≠ 0) = before ++ [byte]) :
    ∃ s', s.take data byte = .ok s' ∧ s'.Valid ∧ GbTurn data input s0 s' := by
  refine ⟨_, htake, hs', .move ?_ houtput.symm ?_⟩
  · rw [hpending, hheld, append_cons, ← hheld']
    rfl
  · show (s.queue input).length < (s0.queue input).length
    rw [hrest]
    exact Nat.lt_succ_self _

omit hheld in
include h hrest in
/-- **One byte** of gb18030: the sequence that is held is spent, goes on, or loses its first byte. -/
theorem gb_take (hs : s.Valid) : ∃ s', s.take data byte = .ok s' ∧ s'.Valid ∧ GbTurn data input s0 s' := by
  obtain ⟨first, second, third, replay, index, output⟩ := s
  obtain ⟨rfl, rfl, rfl⟩ | ⟨ha, rfl, rfl⟩ | ⟨ha, hb, rfl⟩ | ⟨ha, hb, hc⟩ : GbHeld first second third := hs
  · have hheld : GbState.held ⟨0, 0, 0, replay, index, output⟩ = [] := rfl
    by_cases hascii : byte < 0x80
    · exact gb_put hpending houtput hheld (by simp [GbState.take, hascii, GbState.put]) (.ascii hascii)
    by_cases heuro : byte = 0x80
    · subst heuro
      exact gb_put hpending houtput hheld (by simp [GbState.take, GbState.put]) .euro
    cases hlead : gbLead byte with
    | true =>
      refine gb_hold hpending hrest houtput hheld ?_ (.inr (.inl ⟨hlead, rfl, rfl⟩)) (by simp [gbLead_ne hlead])
      rw [gbLead] at hlead
      simp [GbState.take, hascii, heuro, hlead]
    | false =>
      have hbyte : ∀ b ∈ [byte], 0x80 ≤ b.toNat := by
        rw [forall_mem_singleton]
        exact Nat.le_of_not_lt hascii
      rw [gbLead] at hlead
      exact gb_error hpending houtput hheld (by simp [GbState.take, hascii, heuro, hlead, GbState.put]) (.inl hbyte)
  · have hne := gbLead_ne ha
    have hheld : GbState.held ⟨first, 0, 0, replay, index, output⟩ = [first] := by simp [GbState.held, hne]
    cases hdigit : gbDigit byte with
    | true =>
      refine gb_hold hpending hrest houtput hheld ?_ (.inr (.inr (.inl ⟨ha, hdigit, rfl⟩))) (by simp [hne, gbDigit_ne hdigit])
      rw [gbDigit] at hdigit
      simp [GbState.take, hne, hdigit]
    | false =>
      rw [gbDigit] at hdigit
      cases htrail : gbTrail byte with
      | true =>
        obtain ⟨codePoint, hcode⟩ := gbPair_ok h ha htrail
        have hvalid := htrail
        rw [gbTrail] at hvalid
        by_cases hzero : codePoint = 0
        · subst hzero
          refine gb_error hpending houtput hheld ?_ (.inr (.two ha htrail hcode))
          simp only [GbState.take]
          simp [hne, hdigit, hvalid, hcode, GbState.put, bind, Except.bind]
        · refine gb_put hpending houtput hheld ?_ (.two ha htrail hcode hzero)
          simp only [GbState.take]
          simp [hne, hdigit, hvalid, hcode, hzero, GbState.put, bind, Except.bind]
      | false =>
        rw [gbTrail] at htrail
        by_cases hascii : byte < 0x80
        · -- the byte is decoded again
          refine gb_lose hpending houtput hheld ha rfl ?_
          simp only [GbState.take]
          simp [hne, hdigit, htrail, hascii, GbState.put, bind, Except.bind]
        · refine gb_error hpending houtput hheld ?_ (.inl ?_)
          · simp only [GbState.take]
            simp [hne, hdigit, htrail, hascii, GbState.put, bind, Except.bind]
          · simp only [cons_append, nil_append, forall_mem_cons]
            exact ⟨gbLead_high ha, Nat.le_of_not_lt hascii, by simp⟩
  · have hne := gbLead_ne ha
    have hne' := gbDigit_ne hb
    have hheld : GbState.held ⟨first, second, 0, replay, index, output⟩ = [first, second] := by simp [GbState.held, hne, hne']
    cases hlead : gbLead byte with
    | true =>
      refine gb_hold hpending hrest houtput hheld ?_ (.inr (.inr (.inr ⟨ha, hb, hlead⟩))) (by simp [hne, hne', gbLead_ne hlead])
      rw [gbLead] at hlead
      simp [GbState.take, hne', hlead]
    | false =>
      rw [gbLead] at hlead
      exact gb_lose hpending houtput hheld ha rfl (by simp [GbState.take, hne', hlead, GbState.put])
  · have hne := gbLead_ne ha
    have hne' := gbDigit_ne hb
    have hne'' := gbLead_ne hc
    have hheld : GbState.held ⟨first, second, third, replay, index, output⟩ = [first, second, third] := by
      simp [GbState.held, hne, hne', hne'']
    cases hdigit : gbDigit byte with
    | true =>
      obtain ⟨codePoint, hcode⟩ := gbFour_ok h ha hb hc hdigit
      have hvalid := hdigit
      rw [gbDigit] at hvalid
      by_cases hzero : codePoint = 0
      · subst hzero
        refine gb_error hpending houtput hheld ?_ (.inr (.four ha hb hc hdigit hcode))
        simp only [GbState.take]
        simp [hne'', hvalid, hcode, GbState.put, bind, Except.bind]
      · refine gb_put hpending houtput hheld ?_ (.four ha hb hc hdigit hcode hzero)
        simp only [GbState.take]
        simp [hne'', hvalid, hcode, hzero, GbState.put, bind, Except.bind]
    | false =>
      rw [gbDigit] at hdigit
      refine gb_lose hpending houtput hheld ha rfl ?_
      simp only [GbState.take]
      simp [hne'', hdigit, GbState.put, bind, Except.bind]

end Gb

theorem gb_step (h : data.Sound) (s : GbState) (hs : s.Valid) :
    s.step data input = .ok none ∧ s.queue input = [] ∨
    ∃ s', s.step data input = .ok (some s') ∧ s'.Valid ∧ GbTurn data input s s' := by
  obtain ⟨first, second, third, replay, index, output⟩ := s
  cases replay with
  | nil =>
    cases hbyte : input[index]? with
    | none => exact .inl ⟨by simp only [GbState.step, hbyte], drop_eq_nil_of_le (List.getElem?_eq_none_iff.mp hbyte)⟩
    | some byte =>
      have hqueue : GbState.queue input ⟨first, second, third, [], index, output⟩ =
          byte :: GbState.queue input ⟨first, second, third, [], index + 1, output⟩ := drop_of_getElem? hbyte
      obtain ⟨s', htake, hs', hturn⟩ : ∃ s', GbState.take data ⟨first, second, third, [], index + 1, output⟩ byte = .ok s' ∧ s'.Valid ∧
          GbTurn data input ⟨first, second, third, [], index, output⟩ s' :=
        gb_take h (by rw [GbState.pending, hqueue]; rfl) (by rw [hqueue]; rfl) rfl hs
      exact .inr ⟨s', by simp only [GbState.step, hbyte, htake, Except.map], hs', hturn⟩
  | cons byte replay =>
    obtain ⟨s', htake, hs', hturn⟩ : ∃ s', GbState.take data ⟨first, second, third, replay, index, output⟩ byte = .ok s' ∧ s'.Valid ∧
        GbTurn data input ⟨first, second, third, byte :: replay, index, output⟩ s' :=
      gb_take h rfl rfl rfl hs
    exact .inr ⟨s', by simp only [GbState.step, htake, Except.map], hs', hturn⟩

/-- The beginning of four bytes. -/
def GbCut (last : Bytes) : Prop :=
  ∃ a, gbLead a = true ∧ (last = [a] ∨ ∃ b, gbDigit b = true ∧ (last = [a, b] ∨ ∃ c, gbLead c = true ∧ last = [a, b, c]))

/-- **gb18030 is decoded** without a fault, and every byte is spent once. -/
theorem tdGb18030_spends (h : data.Sound) (input : Bytes) :
    ∃ out, tdGb18030 data input = .ok out ∧ DecodesTo (Piece (GbCode data) (GbUnmapped data)) GbCut input out := by
  obtain ⟨⟨first, second, third, replay, index, output⟩, spent, hrun, hs, hinput, hspends⟩ :=
    run_decodes input GbState.held (GbState.queue input) (gb_step h) (s := ⟨0, 0, 0, [], 0, []⟩) (.inl ⟨rfl, rfl, rfl⟩) rfl rfl rfl
  rw [tdGb18030, hrun]
  refine ⟨_, rfl, spent, _, output, hinput, hspends, ?_⟩
  obtain ⟨rfl, rfl, rfl⟩ | ⟨ha, rfl, rfl⟩ | ⟨ha, hb, rfl⟩ | ⟨ha, hb, hc⟩ : GbHeld first second third := hs
  · exact .inl ⟨rfl, by simp⟩
  · have hne := gbLead_ne ha
    exact .inr ⟨⟨first, ha, .inl (by simp [GbState.held, hne])⟩, by simp [hne]⟩
  · have hne := gbLead_ne ha
    exact .inr ⟨⟨first, ha, .inr ⟨second, hb, .inl (by simp [GbState.held, hne, gbDigit_ne hb])⟩⟩, by simp [hne]⟩
  · have hne := gbLead_ne ha
    exact .inr ⟨⟨first, ha, .inr ⟨second, hb, .inr ⟨third, hc, by simp [GbState.held, hne, gbDigit_ne hb, gbLead_ne hc]⟩⟩⟩,
      by simp [hne]⟩

theorem tdGb18030_spends_replay : ∃ out, tdGb18030 sampleData [0x81, 0x30, 0x41] = .ok out ∧ out = [replacement, '0', 'A'] ∧
    DecodesTo (Piece (GbCode sampleData) (GbUnmapped sampleData)) GbCut [0x81, 0x30, 0x41] out := by
  obtain ⟨out, hout, hdecodes⟩ := tdGb18030_spends sampleData_sound [0x81, 0x30, 0x41]
  exact ⟨out, hout, Except.ok.inj (hout.symm.trans rfl), hdecodes⟩

/-! ### euc-jp -/

def eucByte (b : UInt8) : Bool := contains 0xa1 0xfe b

inductive EucJpCode (data : TextDecoderData) : Bytes → ℕ → Prop
  | ascii {b : UInt8} : b < 0xa0 → b ≠ 0x8e → b ≠ 0x8f → EucJpCode data [b] b.toNat
  | katakana {b : UInt8} : contains 0xa1 0xdf b = true → EucJpCode data [0x8e, b] (0xff61 + (b.toNat - 0xa1))
  | sign {b : UInt8} {codePoint : ℕ} : contains 0xe0 0xe2 b = true → [0x00a2, 0x00a3, 0x00ac][b.toNat - 0xe0]? = some codePoint →
      EucJpCode data [0x8e, b] codePoint
  | two {lead b : UInt8} {codePoint : ℕ} : eucByte lead = true → eucByte b = true → eucJpPair data false lead b = .ok codePoint →
      codePoint ≠ 0 → EucJpCode data [lead, b] codePoint
  | three {lead b : UInt8} {codePoint : ℕ} : eucByte lead = true → eucByte b = true → eucJpPair data true lead b = .ok codePoint →
      codePoint ≠ 0 → EucJpCode data [0x8f, lead, b] codePoint

theorem eucByte_iff : eucByte b = true ↔ 0xa1 ≤ b.toNat ∧ b.toNat ≤ 0xfe := contains_iff

theorem eucJpPair_ok (h : data.Sound) (jis0212 : Bool) (hlead : eucByte lead = true) (hb : eucByte b = true) :
    ∃ codePoint, eucJpPair data jis0212 lead b = .ok codePoint := by
  rw [eucByte_iff] at hlead hb
  cases jis0212 with
  | false => exact lookup_ok h 94 0xa1 0xa1 (by decide) rfl rfl ⟨hlead.1, by omega⟩ ⟨hb.1, by omega⟩
  | true => exact lookup_ok h 94 0xa1 0xa1 (by decide) rfl rfl ⟨hlead.1, by omega⟩ ⟨hb.1, by omega⟩

/-- The bytes that are held: a lead, after the byte of the second table or not. -/
def EucJpState.held (s : EucJpState) : Bytes := (if s.jis0212 then [0x8f] else []) ++ if s.lead = 0 then [] else [s.lead]

def EucJpState.pending (input : Bytes) (s : EucJpState) : Bytes := s.held ++ input.drop s.index

def EucJpState.Valid (s : EucJpState) : Prop :=
  s.lead = 0 ∧ s.jis0212 = false ∨ (s.lead = 0x8e ∨ s.lead = 0x8f) ∧ s.jis0212 = false ∨ eucByte s.lead = true

def EucJpTurn (data : TextDecoderData) (input : Bytes) (s s' : EucJpState) : Prop :=
  Transducer.Turn (Piece (EucJpCode data) fun _ => False) (EucJpState.pending input) (fun s => (input.drop s.index).length)
    EucJpState.output s s'

section EucJp


theorem eucByte_ne (h : eucByte b = true) : b ≠ 0 ∧ b ≠ 0x8e ∧ b ≠ 0x8f := by
  rw [eucByte_iff] at h
  refine ⟨?_, ?_, ?_⟩ <;> (rintro rfl; simp at h)

theorem spend_high {code : Bytes → ℕ → Prop} {items : Bytes} (hne : items ≠ []) (hhigh : ∀ b ∈ items, 0x80 ≤ b.toNat) :
    Piece code (fun _ => False) items [replacement] := ⟨hne, .inr ⟨rfl, .inl hhigh⟩⟩

/-- A step of euc-jp goes on. -/
def EucJpState.Goes (data : TextDecoderData) (input : Bytes) (s : EucJpState) : Prop :=
  ∃ s', s.step data input = .ok (some s') ∧ s'.Valid ∧ EucJpTurn data input s s'

variable {s : EucJpState} (hbyte : input[s.index]? = some byte)
include hbyte

theorem eucJp_step_of_take {s' : EucJpState} (htake : EucJpState.take data { s with index := s.index + 1 } byte = .ok s') :
    s.step data input = .ok (some s') := by
  simp only [EucJpState.step, hbyte, htake, Except.map]

/-- Something is written for everything that is held and the byte. -/
theorem eucJp_spend {out : List Char}
    (htake : EucJpState.take data { s with index := s.index + 1 } byte = .ok ⟨0, false, s.index + 1, s.output ++ out⟩)
    (hp : Piece (EucJpCode data) (fun _ => False) (s.held ++ [byte]) out) : s.Goes data input := by
  refine ⟨_, eucJp_step_of_take hbyte htake, .inl ⟨rfl, rfl⟩, .spend _ out ?_ rfl hp hp.1⟩
  rw [EucJpState.pending, drop_of_getElem? hbyte, append_assoc]
  rfl

/-- What is held is an error, and the byte is decoded again. -/
theorem eucJp_again
    (htake : EucJpState.take data { s with index := s.index + 1 } byte = .ok ⟨0, false, s.index, s.output ++ [replacement]⟩)
    (hlead : 0x80 ≤ s.lead.toNat) : s.Goes data input := by
  have hne := ne_zero_of_high hlead
  have hhigh : ∀ b ∈ s.held, 0x80 ≤ b.toNat := by
    rw [EucJpState.held]
    cases s.jis0212 <;> simp [hne, hlead]
  have hheld : s.held ≠ [] := by simp [EucJpState.held, hne]
  exact ⟨_, eucJp_step_of_take hbyte htake, .inl ⟨rfl, rfl⟩, .spend s.held [replacement] rfl rfl (spend_high hheld hhigh) hheld⟩

/-- The byte is held as well. -/
theorem eucJp_hold {s' : EucJpState} (htake : EucJpState.take data { s with index := s.index + 1 } byte = .ok s') (hs' : s'.Valid)
    (hindex : s'.index = s.index + 1) (houtput : s'.output = s.output) (hheld : s'.held = s.held ++ [byte]) : s.Goes data input := by
  have hdrop := drop_of_getElem? hbyte
  refine ⟨_, eucJp_step_of_take hbyte htake, hs', .move ?_ houtput ?_⟩
  · rw [EucJpState.pending, hheld, hindex, EucJpState.pending, hdrop, append_assoc]
    rfl
  · show (input.drop s'.index).length < (input.drop s.index).length
    rw [hindex, hdrop]
    exact Nat.lt_succ_self _

omit hbyte in
theorem eucJp_step (h : data.Sound) (s : EucJpState) (hs : s.Valid) :
    s.step data input = .ok none ∧ input.drop s.index = [] ∨ s.Goes data input := by
  obtain ⟨lead, jis0212, index, output⟩ := s
  cases hbyte : input[index]? with
  | none => exact .inl ⟨by simp only [EucJpState.step, hbyte], drop_eq_nil_of_le (List.getElem?_eq_none_iff.mp hbyte)⟩
  | some byte =>
    right
    have hlow : ¬ byte < 0xa0 → 0x80 ≤ byte.toNat := by
      intro hb
      simp only [UInt8.lt_iff_toNat_lt, UInt8.reduceToNat] at hb
      omega
    obtain ⟨rfl, rfl⟩ | ⟨rfl | rfl, rfl⟩ | hlead : _ ∨ _ ∨ _ := hs
    · have htake : EucJpState.take data ⟨0, false, index + 1, output⟩ byte =
          if byte < 0xa0 && byte ≠ 0x8e && byte ≠ 0x8f then .ok ⟨0, false, index + 1, output ++ [tdPut byte.toNat]⟩
          else if byte = 0x8e || byte = 0x8f || contains 0xa1 0xfe byte then .ok ⟨byte, false, index + 1, output⟩
          else .ok ⟨0, false, index + 1, output ++ [replacement]⟩ := rfl
      split at htake
      · rename_i hascii
        simp only [Bool.and_eq_true, decide_eq_true_iff] at hascii
        exact eucJp_spend hbyte htake ⟨by simp, .inl ⟨_, .ascii hascii.1.1 hascii.1.2 hascii.2, rfl⟩⟩
      · rename_i hascii
        split at htake
        · rename_i hheld
          have hvalid : EucJpState.Valid ⟨byte, false, index + 1, output⟩ := by
            rw [Bool.or_eq_true, Bool.or_eq_true, decide_eq_true_iff, decide_eq_true_iff] at hheld
            exact hheld.elim (fun hb => .inr (.inl ⟨hb, rfl⟩)) fun hb => .inr (.inr hb)
          have hne : byte ≠ 0 := by
            rintro rfl
            exact absurd hheld (by decide)
          exact eucJp_hold hbyte htake hvalid rfl rfl (by simp [EucJpState.held, hne])
        · rename_i hheld
          have hhigh : 0x80 ≤ byte.toNat := by
            refine hlow fun hlt => hascii ?_
            simp only [Bool.or_eq_true, decide_eq_true_iff, not_or] at hheld
            simp only [Bool.and_eq_true, decide_eq_true_iff]
            exact ⟨⟨hlt, hheld.1.1⟩, hheld.1.2⟩
          exact eucJp_spend hbyte htake (spend_high (by simp) (by simpa [EucJpState.held] using hhigh))
    · -- a lead that half-width katakana and signs follow
      have htake : EucJpState.take data ⟨0x8e, false, index + 1, output⟩ byte =
          if contains 0xa1 0xdf byte then do
            let offset ← sub8 byte 0xa1
            .ok ⟨0, false, index + 1, output ++ [tdPut (0xff61 + offset)]⟩
          else if contains 0xe0 0xe2 byte then do
            let offset ← sub8 byte 0xe0
            match [0x00a2, 0x00a3, 0x00ac][offset]? with
            | none => .error .index
            | some codePoint => .ok ⟨0, false, index + 1, output ++ [tdPut codePoint]⟩
          else if byte < 0xa0 || contains 0xe5 0xfe byte then .ok ⟨0, false, index, output ++ [replacement]⟩
          else .ok ⟨0, false, index + 1, output ++ [replacement]⟩ := by
        simp [EucJpState.take, EucJpState.put, back, bind, Except.bind, contains]
      split at htake
      · rename_i hkatakana
        have hrange := contains_iff.mp hkatakana
        rw [sub8_ok hrange.1] at htake
        exact eucJp_spend hbyte htake ⟨by simp, .inl ⟨_, .katakana hkatakana, rfl⟩⟩
      · split at htake
        · rename_i hsign
          have hrange := contains_iff.mp hsign
          simp only [UInt8.reduceToNat] at hrange
          have hthree : ∀ i < 3, ∃ codePoint, [0x00a2, 0x00a3, 0x00ac][i]? = some codePoint := by
            intro i hi
            exact ⟨_, List.getElem?_eq_getElem hi⟩
          obtain ⟨codePoint, hcode⟩ := hthree (byte.toNat - 0xe0) (by omega)
          have hoffset : sub8 byte 0xe0 = .ok (byte.toNat - 0xe0) := sub8_ok hrange.1
          simp only [hoffset, bind, Except.bind, hcode] at htake
          exact eucJp_spend hbyte htake ⟨by simp, .inl ⟨codePoint, .sign hsign hcode, rfl⟩⟩
        · split at htake
          · exact eucJp_again hbyte htake (show 0x80 ≤ (0x8e : UInt8).toNat by decide)
          · rename_i hlast
            have hhigh : 0x80 ≤ byte.toNat := hlow fun hlt => hlast (by rw [decide_eq_true hlt, Bool.true_or])
            exact eucJp_spend hbyte htake (spend_high (by simp) (by simpa [EucJpState.held] using hhigh))
    · -- the byte before the lead of the second table
      have htake : EucJpState.take data ⟨0x8f, false, index + 1, output⟩ byte =
          if contains 0xa1 0xfe byte then .ok ⟨byte, true, index + 1, output⟩
          else if byte < 0xa0 then .ok ⟨0, false, index, output ++ [replacement]⟩
          else .ok ⟨0, false, index + 1, output ++ [replacement]⟩ := by
        simp [EucJpState.take, EucJpState.put, back, bind, Except.bind, contains]
      split at htake
      · rename_i hlead
        exact eucJp_hold hbyte htake (.inr (.inr hlead)) rfl rfl (by simp [EucJpState.held, (eucByte_ne hlead).1])
      · split at htake
        · exact eucJp_again hbyte htake (show 0x80 ≤ (0x8f : UInt8).toNat by decide)
        · rename_i hlast
          exact eucJp_spend hbyte htake (spend_high (by simp) (by simpa [EucJpState.held] using hlow hlast))
    · have hlead : eucByte lead = true := hlead
      obtain ⟨hzero, hsigns, hfirst⟩ := eucByte_ne hlead
      have hleadHigh : 0x80 ≤ lead.toNat := by
        rw [eucByte_iff] at hlead
        omega
      cases hb : eucByte byte with
      | true =>
        obtain ⟨codePoint, hcode⟩ := eucJpPair_ok h jis0212 hlead hb
        have hvalid : contains 0xa1 0xfe lead = true := hlead
        have hvalid' : contains 0xa1 0xfe byte = true := hb
        have hbyteHigh : 0x80 ≤ byte.toNat := by
          rw [eucByte_iff] at hb
          omega
        by_cases hnone : codePoint = 0
        · subst hnone
          have hagain : ¬ byte < 0xa0 := by
            simp only [UInt8.lt_iff_toNat_lt, UInt8.reduceToNat]
            rw [eucByte_iff] at hb
            omega
          have htake : EucJpState.take data ⟨lead, jis0212, index + 1, output⟩ byte = .ok ⟨0, false, index + 1, output ++ [replacement]⟩ := by
            simp [EucJpState.take, EucJpState.put, hzero, hsigns, hfirst, hvalid, hvalid', hcode, hagain, bind, Except.bind]
          exact eucJp_spend hbyte htake (spend_high (by simp) (by cases jis0212 <;> simp [EucJpState.held, hzero, hleadHigh, hbyteHigh]))
        · have htake : EucJpState.take data ⟨lead, jis0212, index + 1, output⟩ byte =
              .ok ⟨0, false, index + 1, output ++ [tdPut codePoint]⟩ := by
            simp [EucJpState.take, EucJpState.put, hzero, hsigns, hfirst, hvalid, hvalid', hcode, hnone, bind, Except.bind]
          refine eucJp_spend hbyte htake ⟨by simp, .inl ⟨codePoint, ?_, rfl⟩⟩
          cases jis0212 with
          | false =>
            have hheld : EucJpState.held ⟨lead, false, index, output⟩ = [lead] := by simp [EucJpState.held, hzero]
            rw [hheld]
            exact .two hlead hb hcode hnone
          | true =>
            have hheld : EucJpState.held ⟨lead, true, index, output⟩ = [0x8f, lead] := by simp [EucJpState.held, hzero]
            rw [hheld]
            exact .three hlead hb hcode hnone
      | false =>
        have hinvalid : contains 0xa1 0xfe byte = false := hb
        cases jis0212 with
        | true =>
          -- the byte of the second table is an error, and the lead is one of the first table
          have htake : EucJpState.take data ⟨lead, true, index + 1, output⟩ byte = .ok ⟨lead, false, index, output ++ [replacement]⟩ := by
            simp [EucJpState.take, EucJpState.put, hzero, hsigns, hfirst, hinvalid, back, bind, Except.bind]
          refine ⟨_, eucJp_step_of_take hbyte htake, .inr (.inr hlead), .spend [0x8f] [replacement] ?_ rfl (spend_high (by simp) (by simp)) (by simp)⟩
          simp [EucJpState.pending, EucJpState.held, hzero]
        | false =>
          have htake : EucJpState.take data ⟨lead, false, index + 1, output⟩ byte =
              if byte < 0xa0 then .ok ⟨0, false, index, output ++ [replacement]⟩
              else .ok ⟨0, false, index + 1, output ++ [replacement]⟩ := by
            simp [EucJpState.take, EucJpState.put, hzero, hsigns, hfirst, hinvalid, back, bind, Except.bind]
          split at htake
          · exact eucJp_again hbyte htake hleadHigh
          · rename_i hlast
            exact eucJp_spend hbyte htake (spend_high (by simp) (by simp [EucJpState.held, hzero, hleadHigh, hlow hlast]))

end EucJp

/-- **euc-jp is decoded** without a fault, and every byte is spent once. -/
theorem tdEucJp_spends (h : data.Sound) (input : Bytes) : ∃ out, tdEucJp data input = .ok out ∧
    DecodesTo (Piece (EucJpCode data) fun _ => False) High input out := by
  obtain ⟨s, spent, hrun, hs, hinput, hspends⟩ :=
    run_decodes input EucJpState.held (fun s => input.drop s.index) (eucJp_step h) (s := ⟨0, false, 0, []⟩) (.inl ⟨rfl, rfl⟩) rfl rfl rfl
  rw [tdEucJp, hrun]
  refine ⟨_, rfl, spent, s.held, s.output, hinput, hspends, ?_⟩
  by_cases hl : s.lead = 0
  · have hheld : s.held = [] := by
      obtain ⟨-, hjis⟩ | ⟨hlead, -⟩ | hlead : _ ∨ _ ∨ _ := hs
      · rw [EucJpState.held, hjis, if_pos hl]
        rfl
      · rw [hl] at hlead
        exact absurd hlead (by decide)
      · exact absurd hl (eucByte_ne hlead).1
    exact .inl ⟨hheld, if_neg fun h => h hl⟩
  · have hlead : 0x80 ≤ s.lead.toNat := by
      obtain ⟨hzero, -⟩ | ⟨hlead | hlead, -⟩ | hlead : _ ∨ _ ∨ _ := hs
      · exact absurd hzero hl
      · rw [hlead]
        decide
      · rw [hlead]
        decide
      · rw [eucByte_iff] at hlead
        omega
    have hhigh : High s.held := by
      rw [High, EucJpState.held, if_neg hl]
      cases s.jis0212 <;> simp [hlead]
    exact .inr ⟨hhigh, if_pos hl⟩

theorem tdEucJp_spends_again : ∃ out, tdEucJp sampleData [0x8f, 0xa1, 0x41] = .ok out ∧ out = [replacement, replacement, 'A'] ∧
    DecodesTo (Piece (EucJpCode sampleData) fun _ => False) High [0x8f, 0xa1, 0x41] out := by
  obtain ⟨out, hout, hdecodes⟩ := tdEucJp_spends sampleData_sound [0x8f, 0xa1, 0x41]
  exact ⟨out, hout, Except.ok.inj (hout.symm.trans rfl), hdecodes⟩

end Scriptc.RuntimeRust.TextDecoder
