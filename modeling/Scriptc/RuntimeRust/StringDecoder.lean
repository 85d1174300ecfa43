import Mathlib.Data.List.Induction
import Scriptc.Lib.Bytes
import Scriptc.Lib.Chunks

/-!
# The string decoder

`StringDecoder` as `bytes_encoding.rs` and the `%strdec` helpers of the lowering have it: a record of
an encoding and of the bytes that wait for their character, packed into one number. A string is
the list of its UTF-16 code units, which is what equality and concatenation of a `JsString` look
at. The number is below `2 ^ 32`, so a binary64 holds it exactly.
-/

namespace Scriptc.RuntimeRust.Decoder

open List

/-- A JavaScript string: UTF-16 code units. -/
abbrev Units := List UInt16

inductive Encoding where
  | utf8
  | utf16le
  | base64
  | base64url
  | hex
  | latin1
  | ascii
  deriving DecidableEq

/-! ### Text of bytes -/

/-- The code unit of an ASCII character. -/
def unit (c : Char) : UInt16 := c.toNat.toUInt16

/-- The bytes that follow a lead byte, and the range of the first of them. -/
def tailRange (lead : ℕ) : Option (ℕ × ℕ × ℕ) :=
  if 0xc2 ≤ lead ∧ lead ≤ 0xdf then some (1, 0x80, 0xbf)
  else if lead = 0xe0 then some (2, 0xa0, 0xbf)
  else if lead = 0xed then some (2, 0x80, 0x9f)
  else if 0xe1 ≤ lead ∧ lead ≤ 0xef then some (2, 0x80, 0xbf)
  else if lead = 0xf0 then some (3, 0x90, 0xbf)
  else if lead = 0xf4 then some (3, 0x80, 0x8f)
  else if 0xf1 ≤ lead ∧ lead ≤ 0xf3 then some (3, 0x80, 0xbf)
  else none

/-- How many bytes go on a sequence that needs some more. -/
def goodTail : ℕ → ℕ → ℕ → Bytes → ℕ
  | 0, _, _, _ => 0
  | _ + 1, _, _, [] => 0
  | n + 1, lo, hi, b :: bs => if lo ≤ b.toNat ∧ b.toNat ≤ hi then goodTail n 0x80 0xbf bs + 1 else 0

/-- The first code point, and how many bytes after the lead byte belong to it. A sequence that does
not go on is one replacement character. -/
def scan (lead : UInt8) (bs : Bytes) : ℕ × ℕ :=
  if lead.toNat < 0x80 then (lead.toNat, 0)
  else
    match tailRange lead.toNat with
    | none => (0xfffd, 0)
    | some (n, lo, hi) =>
      let k := goodTail n lo hi bs
      (if k = n then (bs.take n).foldl (fun v b => v * 64 + b.toNat % 64) (lead.toNat % 2 ^ (6 - n)) else 0xfffd, k)

/-- `String::from_utf8_lossy`: the code points. -/
def fromUtf8Lossy : Bytes → List ℕ
  | [] => []
  | lead :: bs => (scan lead bs).1 :: fromUtf8Lossy (bs.drop (scan lead bs).2)
termination_by bs => bs.length
decreasing_by
  simp only [length_drop, length_cons]
  omega

def encodeUtf16 (point : ℕ) : Units :=
  if point < 0x10000 then [point.toUInt16]
  else [(0xd800 + (point - 0x10000) / 0x400).toUInt16, (0xdc00 + (point - 0x10000) % 0x400).toUInt16]

/-- The pairs of bytes; a byte without a partner is dropped. -/
def utf16Units : Bytes → Units
  | a :: b :: bs => (a.toNat + 256 * b.toNat).toUInt16 :: utf16Units bs
  | _ => []

def hexDigit (n : ℕ) : UInt16 := if n < 10 then (48 + n).toUInt16 else (87 + n).toUInt16

def ALPHABET : Units := "ABCDEFGHIJKLMNOPQRSTUVWXYZabcdefghijklmnopqrstuvwxyz0123456789+/".toList.map unit

/-- The digit of six bits. -/
def base64Unit (i : UInt8) : UInt16 := ALPHABET.getD i.toNat (unit 'A')

def bytesBase64Encode : Bytes → Units
  | [] => []
  | [a] => [base64Unit (a >>> 2), base64Unit ((a &&& 3) <<< 4), unit '=', unit '=']
  | [a, b] =>
    [base64Unit (a >>> 2), base64Unit ((a &&& 3) <<< 4 ||| b >>> 4), base64Unit ((b &&& 15) <<< 2), unit '=']
  | a :: b :: c :: bs =>
    base64Unit (a >>> 2) :: base64Unit ((a &&& 3) <<< 4 ||| b >>> 4) ::
      base64Unit ((b &&& 15) <<< 2 ||| c >>> 6) :: base64Unit (c &&& 63) :: bytesBase64Encode bs

/-- `replace('+', "-").replace('/', "_")` -/
def urlUnit (c : UInt16) : UInt16 :=
  let c := if c = unit '+' then unit '-' else c
  if c = unit '/' then unit '_' else c

/-- `trim_end_matches('=')` -/
def trimPadding (text : Units) : Units := (text.reverse.dropWhile (· = unit '=')).reverse

def stringDecoderBase64 (values : Bytes) (url : Bool) : Units :=
  let output := bytesBase64Encode values
  if url then trimPadding (output.map urlUnit) else output

def decodeBytes (values : Bytes) : Encoding → Units
  | .hex => values.flatMap fun b => [hexDigit (b.toNat / 16), hexDigit (b.toNat % 16)]
  | .base64 => bytesBase64Encode values
  | .base64url => trimPadding ((bytesBase64Encode values).map urlUnit)
  | .utf8 => (fromUtf8Lossy values).flatMap encodeUtf16
  | .utf16le => utf16Units values
  | .latin1 => values.map fun b => b.toNat.toUInt16
  | .ascii => values.map fun b => (b &&& 0x7f).toNat.toUInt16

/-! ### The decoder -/

/-- At most three bytes, each above the one before, over their number. -/
def stringDecoderPack (bytes : Bytes) : ℕ :=
  (bytes.take 3).zipIdx.foldl (fun packed p => packed ||| p.1.toNat <<< (8 * (p.2 + 1))) (min bytes.length 3)

def stringDecoderUnpack (packed : ℕ) : Bytes :=
  (List.range (min (packed &&& 0xff) 3)).map fun i => UInt8.ofNat (packed >>> (8 * (i + 1)))

/-- The bytes from the last one back to a lead byte, while there are fewer than it needs. -/
def utf8TailLoop (back : ℕ) : Bytes → ℕ
  | [] => 0
  | byte :: before =>
    if 3 < back then 0
    else if byte &&& 0xc0 = 0x80 then utf8TailLoop (back + 1) before
    else if byte &&& 0xe0 = 0xc0 then if back < 2 then back else 0
    else if byte &&& 0xf0 = 0xe0 then if back < 3 then back else 0
    else if byte &&& 0xf8 = 0xf0 then if back < 4 then back else 0
    else 0

def stringDecoderUtf8Tail (bytes : Bytes) : ℕ := utf8TailLoop 1 bytes.reverse

/-- How many bytes of a run of pairs are decoded now: not the odd one, and not a high surrogate. -/
def utf16Keep (rest : Bytes) : ℕ :=
  if rest.length % 2 = 1 then rest.length - 1
  else if 2 ≤ rest.length then
    let last := (rest.getD (rest.length - 2) 0).toNat + 256 * (rest.getD (rest.length - 1) 0).toNat
    if 0xd800 ≤ last ∧ last ≤ 0xdbff then rest.length - 2 else rest.length
  else 0

/-- What stands before is complete, the rest is cut. -/
def utf16Cut (complete rest : Bytes) : Units × ℕ :=
  (decodeBytes (complete ++ rest.take (utf16Keep rest)) .utf16le, stringDecoderPack (rest.drop (utf16Keep rest)))

def stringDecoderUtf16Step (pending : ℕ) (chunk : Bytes) : Units × ℕ :=
  let held := stringDecoderUnpack pending
  if held ≠ [] then
    let needed := (if held.length = 1 then 2 else 4) - held.length
    if chunk.length < needed then ([], stringDecoderPack (held ++ chunk))
    else utf16Cut (held ++ chunk.take needed) (chunk.drop needed)
  else utf16Cut [] chunk

def stringDecoderStep (enc : Encoding) (pending : ℕ) (chunk : Bytes) : Units × ℕ :=
  let combined := stringDecoderUnpack pending ++ chunk
  match enc with
  | .utf16le => stringDecoderUtf16Step pending chunk
  | .base64 | .base64url =>
    let complete := combined.length - combined.length % 3
    (stringDecoderBase64 (combined.take complete) (enc = .base64url), stringDecoderPack (combined.drop complete))
  | .latin1 | .ascii | .hex => (decodeBytes chunk enc, 0)
  | .utf8 =>
    let complete := combined.length - stringDecoderUtf8Tail combined
    (decodeBytes (combined.take complete) .utf8, stringDecoderPack (combined.drop complete))

def stringDecoderEnd (enc : Encoding) (pending : ℕ) : Units :=
  let pending := stringDecoderUnpack pending
  match enc with
  | .base64 => stringDecoderBase64 pending false
  | .base64url => stringDecoderBase64 pending true
  | .utf16le => decodeBytes pending .utf16le
  | .latin1 | .ascii | .hex => []
  | .utf8 => decodeBytes pending .utf8

/-- A decoder with the bytes it keeps, packed. -/
structure StringDecoder where
  enc : Encoding
  pending : ℕ
  deriving DecidableEq

namespace StringDecoder

/-- `new StringDecoder(enc)` -/
def new (enc : Encoding) : StringDecoder := ⟨enc, 0⟩

def write (d : StringDecoder) (chunk : Bytes) : Units × StringDecoder :=
  ((stringDecoderStep d.enc d.pending chunk).1, { d with pending := (stringDecoderStep d.enc d.pending chunk).2 })

/-- `d.end()` -/
def finish (d : StringDecoder) : Units × StringDecoder := (stringDecoderEnd d.enc d.pending, { d with pending := 0 })

end StringDecoder

end Scriptc.RuntimeRust.Decoder

/-!
## The string decoder and how its input is cut

For each encoding: what a write gives out and what it holds back are together what it was given,
and decoding the one and then the other is decoding both. The cut of the UTF-8 decoder is the one
with an argument: it is either before a byte that starts a character, or after bytes that no
continuation byte can change.
-/

namespace Scriptc.RuntimeRust.Decoder

open List

/-- A property of all bytes, checked one by one. -/
theorem forall_uint8 {p : UInt8 → Prop} (h : ∀ n : Fin 256, p (UInt8.ofNat n)) (b : UInt8) : p b := by
  have := h ⟨b.toNat, b.toNat_lt⟩
  rwa [UInt8.ofNat_toNat] at this

/-! ### The held bytes -/

theorem or_shiftLeft {p k : ℕ} (h : p < 2 ^ k) (x : ℕ) : p ||| x <<< k = p + x * 2 ^ k := by
  rw [Nat.or_comm, ← Nat.shiftLeft_add_eq_or_of_lt h, Nat.shiftLeft_eq, Nat.add_comm]

/-- What the number says about its bytes. -/
theorem unpack_of_mod {p n : ℕ} (hn : n ≤ 3) (h : p % 256 = n) :
    stringDecoderUnpack p = (List.range n).map fun i => UInt8.ofNat (p >>> (8 * (i + 1))) := by
  have hp : p &&& 0xff = n := by
    rw [show (0xff : ℕ) = 2 ^ 8 - 1 from rfl, Nat.and_two_pow_sub_one_eq_mod]
    exact h
  rw [stringDecoderUnpack, hp, Nat.min_eq_left hn]

theorem byte_of_shift {p k : ℕ} {b : UInt8} (h : p / 2 ^ k % 256 = b.toNat) : UInt8.ofNat (p >>> k) = b := by
  rw [← UInt8.toNat_inj, UInt8.toNat_ofNat', Nat.shiftRight_eq_div_pow]
  exact h

theorem pack_one (a : UInt8) : stringDecoderPack [a] = 1 + a.toNat * 2 ^ 8 := by
  have h : stringDecoderPack [a] = 1 ||| a.toNat <<< 8 := rfl
  rw [h]
  exact or_shiftLeft (by decide) _

theorem pack_two (a b : UInt8) : stringDecoderPack [a, b] = 2 + a.toNat * 2 ^ 8 + b.toNat * 2 ^ 16 := by
  have ha := a.toNat_lt
  have h : stringDecoderPack [a, b] = (2 ||| a.toNat <<< 8) ||| b.toNat <<< 16 := rfl
  have hone : 2 ||| a.toNat <<< 8 = 2 + a.toNat * 2 ^ 8 := or_shiftLeft (by decide) _
  rw [h, hone]
  exact or_shiftLeft (by omega) _

theorem pack_three (a b c : UInt8) :
    stringDecoderPack [a, b, c] = 3 + a.toNat * 2 ^ 8 + b.toNat * 2 ^ 16 + c.toNat * 2 ^ 24 := by
  have ha := a.toNat_lt
  have hb := b.toNat_lt
  have h : stringDecoderPack [a, b, c] = ((3 ||| a.toNat <<< 8) ||| b.toNat <<< 16) ||| c.toNat <<< 24 := rfl
  have hone : 3 ||| a.toNat <<< 8 = 3 + a.toNat * 2 ^ 8 := or_shiftLeft (by decide) _
  have htwo : (3 + a.toNat * 2 ^ 8) ||| b.toNat <<< 16 = 3 + a.toNat * 2 ^ 8 + b.toNat * 2 ^ 16 := or_shiftLeft (by omega) _
  rw [h, hone, htwo]
  exact or_shiftLeft (by omega) _

variable {bs : Bytes}

/-- Packing loses nothing of up to three bytes. -/
theorem unpack_pack (h : bs.length ≤ 3) : stringDecoderUnpack (stringDecoderPack bs) = bs := by
  rcases bs with _ | ⟨a, _ | ⟨b, _ | ⟨c, _ | ⟨d, bs⟩⟩⟩⟩
  · rfl
  · have ha := a.toNat_lt
    rw [pack_one]
    have hx : UInt8.ofNat ((1 + a.toNat * 2 ^ 8) >>> 8) = a := byte_of_shift (by omega)
    rw [unpack_of_mod (n := 1) (by omega) (by omega)]
    exact congrArg (· :: []) hx
  · have ha := a.toNat_lt
    have hb := b.toNat_lt
    rw [pack_two]
    have hx : UInt8.ofNat ((2 + a.toNat * 2 ^ 8 + b.toNat * 2 ^ 16) >>> 8) = a := byte_of_shift (by omega)
    have hy : UInt8.ofNat ((2 + a.toNat * 2 ^ 8 + b.toNat * 2 ^ 16) >>> 16) = b := byte_of_shift (by omega)
    rw [unpack_of_mod (n := 2) (by omega) (by omega)]
    exact congrArg₂ (fun x y => [x, y]) hx hy
  · have ha := a.toNat_lt
    have hb := b.toNat_lt
    have hc := c.toNat_lt
    rw [pack_three]
    have hx : UInt8.ofNat ((3 + a.toNat * 2 ^ 8 + b.toNat * 2 ^ 16 + c.toNat * 2 ^ 24) >>> 8) = a := byte_of_shift (by omega)
    have hy : UInt8.ofNat ((3 + a.toNat * 2 ^ 8 + b.toNat * 2 ^ 16 + c.toNat * 2 ^ 24) >>> 16) = b := byte_of_shift (by omega)
    have hz : UInt8.ofNat ((3 + a.toNat * 2 ^ 8 + b.toNat * 2 ^ 16 + c.toNat * 2 ^ 24) >>> 24) = c := byte_of_shift (by omega)
    rw [unpack_of_mod (n := 3) (by omega) (by omega)]
    exact congrArg₂ List.cons hx (congrArg₂ (fun x y => [x, y]) hy hz)
  · simp only [length_cons] at h
    omega

theorem unpack_zero : stringDecoderUnpack 0 = [] := rfl

/-! ### Pairs and groups of three -/

theorem utf16Units_append {a : Bytes} (h : 2 ∣ a.length) (b : Bytes) : utf16Units (a ++ b) = utf16Units a ++ utf16Units b := by
  induction a using List.twoStepInduction with
  | nil => rfl
  | singleton x => simp at h
  | cons_cons x y a ih _ =>
    have ha : 2 ∣ a.length := by
      rw [length_cons, length_cons] at h
      omega
    rw [cons_append, cons_append, utf16Units, utf16Units, ih ha, cons_append]

theorem bytesBase64Encode_append {a : Bytes} (h : 3 ∣ a.length) (b : Bytes) :
    bytesBase64Encode (a ++ b) = bytesBase64Encode a ++ bytesBase64Encode b := by
  induction a using bytesBase64Encode.induct with
  | case1 => rfl
  | case2 x => exact absurd (show 3 ∣ 1 from h) (by decide)
  | case3 x y => exact absurd (show 3 ∣ 2 from h) (by decide)
  | case4 x y z a ih =>
    have ha : 3 ∣ a.length := by
      simp only [length_cons] at h
      omega
    simp only [cons_append, bytesBase64Encode, ih ha]

theorem alphabet_ne : ∀ c ∈ ALPHABET, urlUnit c ≠ unit '=' := by
  intro c hc
  have hall : ALPHABET.all (fun c => urlUnit c != unit '=') = true := by decide +kernel
  exact bne_iff_ne.mp (all_eq_true.mp hall c hc)

theorem urlUnit_base64Unit_ne (i : UInt8) : urlUnit (base64Unit i) ≠ unit '=' := by
  rw [base64Unit, getD_eq_getElem?_getD]
  cases h : ALPHABET[i.toNat]? with
  | none => decide
  | some c => exact alphabet_ne c (mem_of_getElem? h)

/-- Whole groups have no padding. -/
theorem no_padding {a : Bytes} (h : 3 ∣ a.length) : ∀ c ∈ (bytesBase64Encode a).map urlUnit, c ≠ unit '=' := by
  induction a using bytesBase64Encode.induct with
  | case1 => simp [bytesBase64Encode]
  | case2 x => exact absurd (show 3 ∣ 1 from h) (by decide)
  | case3 x y => exact absurd (show 3 ∣ 2 from h) (by decide)
  | case4 x y z a ih =>
    have ha : 3 ∣ a.length := by
      simp only [length_cons] at h
      omega
    intro c hc
    simp only [bytesBase64Encode, map_cons, mem_cons] at hc
    rcases hc with rfl | rfl | rfl | rfl | hc
    · exact urlUnit_base64Unit_ne _
    · exact urlUnit_base64Unit_ne _
    · exact urlUnit_base64Unit_ne _
    · exact urlUnit_base64Unit_ne _
    · exact ih ha c hc

theorem trimPadding_append {a : Units} (h : ∀ c ∈ a, c ≠ unit '=') (b : Units) : trimPadding (a ++ b) = a ++ trimPadding b := by
  rw [trimPadding, reverse_append, dropWhile_append]
  split
  next hb =>
    have hnone : a.reverse.dropWhile (· = unit '=') = a.reverse := by
      cases hr : a.reverse with
      | nil => rfl
      | cons c cs =>
        have hc : c ∈ a := mem_reverse.mp (hr ▸ mem_cons_self)
        exact dropWhile_cons_of_neg (by simpa using h c hc)
    rw [hnone, reverse_reverse, trimPadding, List.isEmpty_iff.mp hb, reverse_nil, append_nil]
  · rw [reverse_append, reverse_reverse, trimPadding]

/-! ### UTF-8 -/

/-- A byte `10xxxxxx`. -/
def IsTail (b : UInt8) : Prop := 0x80 ≤ b.toNat ∧ b.toNat ≤ 0xbf

/-- Bytes that do not go on a character. -/
def Fresh (bs : Bytes) : Prop := ∀ b ∈ bs.head?, ¬IsTail b

theorem goodTail_le_length (n lo hi : ℕ) (bs : Bytes) : goodTail n lo hi bs ≤ bs.length := by
  induction bs generalizing n lo hi with
  | nil => cases n <;> exact Nat.zero_le _
  | cons b bs ih =>
    cases n with
    | zero => exact Nat.zero_le _
    | succ n =>
      rw [goodTail]
      split
      · exact Nat.succ_le_succ (ih ..)
      · exact Nat.zero_le _

variable {bs more : Bytes} {n lo hi : ℕ}

/-- More bytes do not change what goes on a sequence if it has all it needs, if it stopped before its
end, or if the first of them starts something new. -/
theorem goodTail_append (hlo : 0x80 ≤ lo) (hhi : hi ≤ 0xbf)
    (h : n ≤ bs.length ∨ goodTail n lo hi bs < bs.length ∨ Fresh more) :
    goodTail n lo hi (bs ++ more) = goodTail n lo hi bs := by
  induction bs generalizing n lo hi with
  | nil =>
    cases n with
    | zero => rfl
    | succ n =>
      cases more with
      | nil => rfl
      | cons b more =>
        have hb : ¬IsTail b := by
          rcases h with h | h | h
          · simp at h
          · simp at h
          · exact h b rfl
        have hout : ¬(lo ≤ b.toNat ∧ b.toNat ≤ hi) := fun hr => hb ⟨hlo.trans hr.1, hr.2.trans hhi⟩
        simp only [nil_append, goodTail, if_neg hout]
  | cons b bs ih =>
    cases n with
    | zero => rfl
    | succ n =>
      rw [cons_append, goodTail, goodTail]
      by_cases hb : lo ≤ b.toNat ∧ b.toNat ≤ hi
      · rw [if_pos hb, if_pos hb, ih (by decide) (by decide)]
        rw [goodTail, if_pos hb, length_cons] at h
        rcases h with h | h | h
        · exact .inl (by omega)
        · exact .inr (.inl (by omega))
        · exact .inr (.inr h)
      · rw [if_neg hb, if_neg hb]

theorem tailRange_bounds {lead n lo hi : ℕ} (h : tailRange lead = some (n, lo, hi)) : 0x80 ≤ lo ∧ hi ≤ 0xbf ∧ n ≤ 3 := by
  unfold tailRange at h
  split_ifs at h <;> cases h <;> decide

/-- The first code point is settled by the bytes that are there. -/
def Settled (lead : UInt8) (bs more : Bytes) : Prop :=
  ∀ n lo hi, tailRange lead.toNat = some (n, lo, hi) →
    n ≤ bs.length ∨ goodTail n lo hi bs < bs.length ∨ Fresh more

theorem take_append_of_goodTail (more : Bytes) (h : goodTail n lo hi bs = n) :
    (bs ++ more).take n = bs.take n :=
  take_append_of_le_length (h ▸ goodTail_le_length n lo hi bs)

theorem scan_append {lead : UInt8} (h : Settled lead bs more) : scan lead (bs ++ more) = scan lead bs := by
  rw [scan, scan]
  split
  · rfl
  · cases ht : tailRange lead.toNat with
    | none => rfl
    | some t =>
      obtain ⟨n, lo, hi⟩ := t
      have hb := tailRange_bounds ht
      have hg := goodTail_append hb.1 hb.2.1 (h n lo hi ht)
      simp only [hg]
      by_cases hn : goodTail n lo hi bs = n
      · rw [if_pos hn, if_pos hn, take_append_of_goodTail more hn]
      · rw [if_neg hn, if_neg hn]

theorem scan_le_length (lead : UInt8) (bs : Bytes) : (scan lead bs).2 ≤ bs.length := by
  rw [scan]
  split
  · exact Nat.zero_le _
  · cases ht : tailRange lead.toNat with
    | none => exact Nat.zero_le _
    | some t => exact goodTail_le_length ..

/-- Where every code point is settled, the text is that of the bytes and of what follows. -/
theorem fromUtf8Lossy_append {P : Bytes → Prop} (hP : ∀ b bs k, P (b :: bs) → P (bs.drop k))
    (hs : ∀ b bs, P (b :: bs) → Settled b bs more) (h : P bs) :
    fromUtf8Lossy (bs ++ more) = fromUtf8Lossy bs ++ fromUtf8Lossy more := by
  induction bs using fromUtf8Lossy.induct with
  | case1 => rw [fromUtf8Lossy, nil_append, nil_append]
  | case2 b bs ih =>
    rw [cons_append, fromUtf8Lossy, fromUtf8Lossy, scan_append (hs b bs h),
      drop_append_of_le_length (scan_le_length b bs), ih (hP b bs _ h), cons_append]

theorem fromUtf8Lossy_append_fresh {more : Bytes} (h : Fresh more) (bs : Bytes) :
    fromUtf8Lossy (bs ++ more) = fromUtf8Lossy bs ++ fromUtf8Lossy more :=
  fromUtf8Lossy_append (P := fun _ => True) (fun _ _ _ _ => trivial) (fun _ _ _ _ _ _ _ => .inr (.inr h)) trivial

/-! The tail: the bytes after the last lead byte, if there are too few. -/

theorem isTail_iff (b : UInt8) : b &&& 0xc0 = 0x80 ↔ IsTail b := by
  refine forall_uint8 (p := fun b => b &&& 0xc0 = 0x80 ↔ 0x80 ≤ b.toNat ∧ b.toNat ≤ 0xbf) ?_ b
  decide +kernel

/-- The bytes a lead byte needs, as the tail counts them. -/
theorem needed_of_tailRange (b : UInt8) : ∀ t ∈ tailRange b.toNat,
    ¬b &&& 0xc0 = 0x80 ∧ ((t.1 = 1 ∧ b &&& 0xe0 = 0xc0) ∨ (t.1 = 2 ∧ ¬b &&& 0xe0 = 0xc0 ∧ b &&& 0xf0 = 0xe0) ∨
      (t.1 = 3 ∧ ¬b &&& 0xe0 = 0xc0 ∧ ¬b &&& 0xf0 = 0xe0 ∧ b &&& 0xf8 = 0xf0)) := by
  refine forall_uint8 (p := fun b => ∀ t ∈ tailRange b.toNat,
    ¬b &&& 0xc0 = 0x80 ∧ ((t.1 = 1 ∧ b &&& 0xe0 = 0xc0) ∨ (t.1 = 2 ∧ ¬b &&& 0xe0 = 0xc0 ∧ b &&& 0xf0 = 0xe0) ∨
      (t.1 = 3 ∧ ¬b &&& 0xe0 = 0xc0 ∧ ¬b &&& 0xf0 = 0xe0 ∧ b &&& 0xf8 = 0xf0))) ?_ b
  decide +kernel

/-- A tail that is not empty starts with a lead byte. -/
theorem utf8TailLoop_lead {back k : ℕ} (rev : Bytes) (h : utf8TailLoop back rev = k) (hk : k ≠ 0) :
    back ≤ k ∧ k ≤ 3 ∧ ∃ b, rev[k - back]? = some b ∧ ¬IsTail b := by
  induction rev generalizing back with
  | nil => exact (hk h.symm).elim
  | cons b rev ih =>
    rw [utf8TailLoop] at h
    split at h
    · exact (hk h.symm).elim
    next hback =>
      split at h
      · obtain ⟨hle, h3, x, hx, ht⟩ := ih h
        refine ⟨by omega, h3, x, ?_, ht⟩
        rw [show k - back = (k - (back + 1)) + 1 by omega, List.getElem?_cons_succ]
        exact hx
      next hb =>
        have hkb : k = back := by
          split_ifs at h <;> omega
        subst hkb
        refine ⟨le_rfl, by omega, b, ?_, fun ht => hb ((isTail_iff b).mpr ht)⟩
        rw [Nat.sub_self]
        rfl

theorem utf8Tail_fresh (h : stringDecoderUtf8Tail bs ≠ 0) (more : Bytes) :
    stringDecoderUtf8Tail bs ≤ bs.length ∧ stringDecoderUtf8Tail bs ≤ 3 ∧
      Fresh (bs.drop (bs.length - stringDecoderUtf8Tail bs) ++ more) := by
  obtain ⟨hle, h3, b, hb, ht⟩ := utf8TailLoop_lead bs.reverse rfl h
  rw [← stringDecoderUtf8Tail] at hle h3 hb
  have hlt : stringDecoderUtf8Tail bs - 1 < bs.length := by
    have := (List.getElem?_eq_some_iff.mp hb).1
    rwa [length_reverse] at this
  rw [List.getElem?_reverse hlt] at hb
  refine ⟨by omega, h3, fun c hc => ?_⟩
  have hhead : (bs.drop (bs.length - stringDecoderUtf8Tail bs) ++ more).head? = some b := by
    rw [head?_append, List.head?_drop, show bs.length - stringDecoderUtf8Tail bs =
      bs.length - 1 - (stringDecoderUtf8Tail bs - 1) by omega, hb]
    rfl
  rw [hhead] at hc
  cases hc
  exact ht

theorem utf8TailLoop_append {back : ℕ} {x y : Bytes} (h : utf8TailLoop back (x ++ y) = 0) : utf8TailLoop back x = 0 := by
  induction x generalizing back with
  | nil => rfl
  | cons b x ih =>
    rw [cons_append, utf8TailLoop] at h
    rw [utf8TailLoop]
    split at h
    next h3 => rw [if_pos h3]
    next h3 =>
      rw [if_neg h3]
      split at h
      next hb => rw [if_pos hb, ih h]
      next hb => rw [if_neg hb, h]

/-- Bytes without a tail have none after the first of them were taken away. -/
theorem utf8Tail_drop {b : UInt8} (h : stringDecoderUtf8Tail (b :: bs) = 0) (k : ℕ) :
    stringDecoderUtf8Tail (bs.drop k) = 0 := by
  refine utf8TailLoop_append (y := (bs.take k).reverse ++ [b]) ?_
  rw [← append_assoc, ← reverse_append, take_append_drop, ← reverse_cons]
  exact h

theorem utf8TailLoop_tails {rev : Bytes} (h : ∀ b ∈ rev, IsTail b) {back : ℕ} (hback : back + rev.length ≤ 3) (y : Bytes) :
    utf8TailLoop back (rev ++ y) = utf8TailLoop (back + rev.length) y := by
  induction rev generalizing back with
  | nil => rfl
  | cons b rev ih =>
    rw [length_cons] at hback ⊢
    rw [cons_append, utf8TailLoop, if_neg (by omega), if_pos ((isTail_iff b).mpr (h b mem_cons_self)),
      ih (fun c hc => h c (mem_cons_of_mem _ hc)) (by omega), Nat.add_right_comm, Nat.add_assoc]

theorem isTail_of_goodTail (hlo : 0x80 ≤ lo) (hhi : hi ≤ 0xbf)
    (h : goodTail n lo hi bs = bs.length) : ∀ b ∈ bs, IsTail b := by
  induction bs generalizing n lo hi with
  | nil => simp
  | cons b bs ih =>
    cases n with
    | zero => simp [goodTail] at h
    | succ n =>
      rw [goodTail] at h
      split at h
      next hb =>
        intro c hc
        rcases mem_cons.mp hc with rfl | hc
        · exact ⟨hlo.trans hb.1, hb.2.trans hhi⟩
        · exact ih le_rfl le_rfl (Nat.succ.inj h) c hc
      · simp at h

/-- Bytes without a tail settle their first code point. -/
theorem settled_of_utf8Tail {b : UInt8} (h : stringDecoderUtf8Tail (b :: bs) = 0) (more : Bytes) :
    Settled b bs more := by
  intro n lo hi ht
  have hbounds := tailRange_bounds ht
  by_cases hn : n ≤ bs.length
  · exact .inl hn
  refine .inr (.inl (lt_of_le_of_ne (goodTail_le_length ..) fun hall => ?_))
  have htails := isTail_of_goodTail hbounds.1 hbounds.2.1 hall
  rw [stringDecoderUtf8Tail, reverse_cons, utf8TailLoop_tails (by simpa using htails) (by rw [length_reverse]; omega),
    length_reverse, utf8TailLoop, if_neg (by omega)] at h
  obtain ⟨hnot, hneed⟩ := needed_of_tailRange b _ ht
  rw [if_neg hnot] at h
  rcases hneed with ⟨h1, hb⟩ | ⟨h2, hb, hb'⟩ | ⟨h3, hb, hb', hb''⟩
  · rw [if_pos hb, if_pos (by omega)] at h
    omega
  · rw [if_neg hb, if_pos hb', if_pos (by omega)] at h
    omega
  · rw [if_neg hb, if_neg hb', if_pos hb'', if_pos (by omega)] at h
    omega

/-- The cut of the UTF-8 decoder. -/
theorem fromUtf8Lossy_cut (bs more : Bytes) :
    fromUtf8Lossy (bs ++ more) = fromUtf8Lossy (bs.take (bs.length - stringDecoderUtf8Tail bs)) ++
      fromUtf8Lossy (bs.drop (bs.length - stringDecoderUtf8Tail bs) ++ more) := by
  by_cases h : stringDecoderUtf8Tail bs = 0
  · rw [h, Nat.sub_zero, take_length, drop_length, nil_append]
    exact fromUtf8Lossy_append (P := fun bs => stringDecoderUtf8Tail bs = 0) (fun _ _ k hb => utf8Tail_drop hb k)
      (fun _ _ hb => settled_of_utf8Tail hb more) h
  · rw [← fromUtf8Lossy_append_fresh (utf8Tail_fresh h more).2.2, ← append_assoc, take_append_drop]

/-! ### The decoder -/

/-- The bytes a decoder holds. -/
def StringDecoder.held (d : StringDecoder) : Bytes := stringDecoderUnpack d.pending

/-- A decoder of an encoding; those that decode byte by byte hold nothing. -/
structure Reachable (enc : Encoding) (d : StringDecoder) : Prop where
  encoding : d.enc = enc
  short : d.held.length ≤ 3
  whole : enc = .latin1 ∨ enc = .ascii ∨ enc = .hex → d.held = []

/-- What a step has to do: give out what the bytes before the held ones decode to. -/
structure Cuts (enc : Encoding) (held chunk : Bytes) (r : Units × ℕ) : Prop where
  short : (stringDecoderUnpack r.2).length ≤ 3
  out : ∀ more, decodeBytes (held ++ (chunk ++ more)) enc = r.1 ++ decodeBytes (stringDecoderUnpack r.2 ++ more) enc

variable {enc : Encoding}

/-- A step that decodes some bytes and holds the others. -/
theorem Cuts.of_split {held chunk complete rest : Bytes} (h : held ++ chunk = complete ++ rest)
    (hrest : rest.length ≤ 3)
    (hcut : ∀ more, decodeBytes (complete ++ (rest ++ more)) enc = decodeBytes complete enc ++ decodeBytes (rest ++ more) enc) :
    Cuts enc held chunk (decodeBytes complete enc, stringDecoderPack rest) := by
  refine ⟨?_, fun more => ?_⟩
  · rw [unpack_pack hrest]
    exact hrest
  · rw [unpack_pack hrest, ← append_assoc, h, append_assoc]
    exact hcut more

theorem cuts_utf8 (held chunk : Bytes) :
    Cuts .utf8 held chunk
      (decodeBytes ((held ++ chunk).take ((held ++ chunk).length - stringDecoderUtf8Tail (held ++ chunk))) .utf8,
        stringDecoderPack ((held ++ chunk).drop ((held ++ chunk).length - stringDecoderUtf8Tail (held ++ chunk)))) := by
  refine Cuts.of_split (take_append_drop ..).symm ?_ fun more => ?_
  · rw [length_drop]
    by_cases h : stringDecoderUtf8Tail (held ++ chunk) = 0
    · omega
    · have := utf8Tail_fresh h []
      omega
  · rw [← append_assoc, take_append_drop, decodeBytes, fromUtf8Lossy_cut, flatMap_append]
    rfl

/-- Whole groups decode for themselves. -/
theorem decodeBytes_group (h : 3 ∣ bs.length) (more : Bytes)
    (henc : enc = .base64 ∨ enc = .base64url) :
    decodeBytes (bs ++ more) enc = decodeBytes bs enc ++ decodeBytes more enc := by
  rcases henc with rfl | rfl
  · exact bytesBase64Encode_append h more
  · have hpad := no_padding h
    have htrim : trimPadding ((bytesBase64Encode bs).map urlUnit) = (bytesBase64Encode bs).map urlUnit := by
      have := trimPadding_append hpad []
      simpa [trimPadding] using this
    rw [decodeBytes, decodeBytes, decodeBytes, bytesBase64Encode_append h, map_append, trimPadding_append hpad, htrim]

theorem cuts_base64 (henc : enc = .base64 ∨ enc = .base64url) (held chunk : Bytes) :
    Cuts enc held chunk
      (decodeBytes ((held ++ chunk).take ((held ++ chunk).length - (held ++ chunk).length % 3)) enc,
        stringDecoderPack ((held ++ chunk).drop ((held ++ chunk).length - (held ++ chunk).length % 3))) := by
  have hmod := Nat.mod_lt (held ++ chunk).length (show 3 > 0 by decide)
  refine Cuts.of_split (take_append_drop ..).symm ?_ fun more => decodeBytes_group ?_ _ henc
  · rw [length_drop]
    omega
  · rw [length_take]
    omega

theorem utf16Keep_spec (rest : Bytes) : utf16Keep rest ≤ rest.length ∧ 2 ∣ utf16Keep rest ∧ rest.length ≤ utf16Keep rest + 2 := by
  unfold utf16Keep
  dsimp only
  split_ifs <;> omega

theorem cuts_utf16Cut {held chunk complete rest : Bytes} (h : held ++ chunk = complete ++ rest) (heven : 2 ∣ complete.length) :
    Cuts .utf16le held chunk (utf16Cut complete rest) := by
  obtain ⟨hle, hdvd, hlen⟩ := utf16Keep_spec rest
  refine Cuts.of_split ?_ ?_ fun more => utf16Units_append ?_ _
  · rw [append_assoc, take_append_drop, h]
  · rw [length_drop]
    omega
  · rw [length_append, length_take, Nat.min_eq_left hle]
    omega

theorem cuts_utf16 {pending : ℕ} (hheld : (stringDecoderUnpack pending).length ≤ 3) (chunk : Bytes) :
    Cuts .utf16le (stringDecoderUnpack pending) chunk (stringDecoderUtf16Step pending chunk) := by
  rw [stringDecoderUtf16Step]
  generalize stringDecoderUnpack pending = held at hheld
  dsimp only
  by_cases h0 : held = []
  · rw [if_neg (not_not.mpr h0), h0]
    exact cuts_utf16Cut rfl (dvd_zero 2)
  · rw [if_pos h0]
    have hpos : 0 < held.length := length_pos_iff.mpr h0
    have htotal : ∃ total, (if held.length = 1 then 2 else 4) = total ∧ 2 ∣ total ∧ held.length ≤ total ∧ total ≤ 4 := by
      refine ⟨_, rfl, ?_⟩
      split <;> omega
    obtain ⟨total, ht, hdvd, hge, hle⟩ := htotal
    rw [ht]
    by_cases hshort : chunk.length < total - held.length
    · rw [if_pos hshort]
      have hlen : (held ++ chunk).length ≤ 3 := by
        rw [length_append]
        omega
      exact Cuts.of_split (nil_append _).symm hlen fun more => rfl
    · rw [if_neg hshort]
      refine cuts_utf16Cut ?_ ?_
      · rw [append_assoc, take_append_drop]
      · rw [length_append, length_take, Nat.min_eq_left (Nat.not_lt.mp hshort), Nat.add_sub_cancel' hge]
        exact hdvd

/-- Byte by byte. -/
theorem decodeBytes_append_of_bytewise (henc : enc = .latin1 ∨ enc = .ascii ∨ enc = .hex) (a b : Bytes) :
    decodeBytes (a ++ b) enc = decodeBytes a enc ++ decodeBytes b enc := by
  rcases henc with rfl | rfl | rfl
  · exact map_append
  · exact map_append
  · exact flatMap_append

variable {d : StringDecoder}

theorem cuts_step (h : Reachable enc d) (chunk : Bytes) :
    Cuts enc d.held chunk (stringDecoderStep enc d.pending chunk) := by
  have bytewise (henc : enc = .latin1 ∨ enc = .ascii ∨ enc = .hex) : Cuts enc d.held chunk (decodeBytes chunk enc, 0) := by
    refine ⟨?_, fun more => ?_⟩
    · rw [unpack_zero]
      exact Nat.zero_le _
    · rw [unpack_zero, h.whole henc]
      exact decodeBytes_append_of_bytewise henc chunk more
  cases enc with
  | utf8 => exact cuts_utf8 d.held chunk
  | utf16le => exact cuts_utf16 h.short chunk
  | base64 => exact cuts_base64 (.inl rfl) d.held chunk
  | base64url => exact cuts_base64 (.inr rfl) d.held chunk
  | hex => exact bytewise (.inr (.inr rfl))
  | latin1 => exact bytewise (.inl rfl)
  | ascii => exact bytewise (.inr (.inl rfl))

theorem Reachable.write (h : Reachable enc d) (chunk : Bytes) :
    Reachable enc (d.write chunk).2 := by
  have hcut := cuts_step h chunk
  have hheld : (d.write chunk).2.held = stringDecoderUnpack (stringDecoderStep enc d.pending chunk).2 := by
    rw [StringDecoder.held, StringDecoder.write, h.encoding]
  refine ⟨h.encoding, hheld ▸ hcut.short, fun henc => ?_⟩
  rw [hheld]
  rcases henc with rfl | rfl | rfl <;> exact unpack_zero

theorem decodes_write (enc : Encoding) :
    Chunks.Decodes StringDecoder.write (decodeBytes · enc) StringDecoder.held (Reachable enc) where
  inv _ chunk h := h.write chunk
  out d chunk more h := by
    have hout := (cuts_step h chunk).out more
    rw [StringDecoder.write, StringDecoder.held, StringDecoder.held, h.encoding]
    exact hout

theorem held_new (enc : Encoding) : (StringDecoder.new enc).held = [] := unpack_zero

theorem reachable_new (enc : Encoding) : Reachable enc (.new enc) :=
  ⟨rfl, (held_new enc).symm ▸ Nat.zero_le 3, fun _ => held_new enc⟩

/-- The end decodes what is held. -/
theorem finish_eq (h : Reachable enc d) : d.finish = (decodeBytes d.held enc, .new enc) := by
  rw [StringDecoder.finish, h.encoding, StringDecoder.new]
  congr 1
  cases enc with
  | utf8 | utf16le | base64 | base64url => rfl
  | latin1 => rw [h.whole (.inl rfl)]; rfl
  | ascii => rw [h.whole (.inr (.inl rfl))]; rfl
  | hex => rw [h.whole (.inr (.inr rfl))]; rfl

/-- What a new decoder gives for the chunks and at its end, and the decoder after that. -/
def StringDecoder.decodeAll (enc : Encoding) (chunks : List Bytes) : Units × StringDecoder :=
  let fed := Chunks.feed write (new enc) chunks
  (fed.1 ++ fed.2.finish.1, fed.2.finish.2)

theorem decodeAll_eq (enc : Encoding) (chunks : List Bytes) :
    StringDecoder.decodeAll enc chunks = (decodeBytes chunks.flatten enc, .new enc) := by
  have hnew := reachable_new enc
  have hout := (decodes_write enc).feed_out hnew chunks []
  have hend := finish_eq ((decodes_write enc).feed_inv hnew chunks)
  rw [StringDecoder.decodeAll, hend]
  rw [held_new, nil_append, append_nil, append_nil] at hout
  exact congrArg (·, StringDecoder.new enc) hout.symm

/-- **A string decoder does not see how its input is cut**, and after its end it is a new one. What it gives is the
whole input decoded at once (`decodeAll_eq`). -/
theorem decodeAll_chunks (enc : Encoding) (chunks : List Bytes) :
    (StringDecoder.decodeAll enc chunks).1 = (StringDecoder.decodeAll enc [chunks.flatten]).1 ∧
      (StringDecoder.decodeAll enc chunks).2 = .new enc := by
  rw [decodeAll_eq, decodeAll_eq, flatten_singleton]
  exact ⟨rfl, rfl⟩

end Scriptc.RuntimeRust.Decoder
