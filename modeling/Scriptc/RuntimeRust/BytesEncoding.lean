import Scriptc.Lib.Coding
import Scriptc.Lib.Loop
import Scriptc.RuntimeRust.StringDecoder

/-!
# Bytes from text

`buffer_string_bytes` of `bytes_encoding.rs`, which reads the texts that `decode_bytes` writes, and
`btoa` and `atob` of `strings_and_process.rs`. A string that is read as a Rust `str` is read in UTF-8,
with U+FFFD for a surrogate that stands alone.
What hex, base64, latin1 or UTF-16 writes is read back.
-/

namespace Scriptc.RuntimeRust.Decoder

open List

open scoped Scriptc.Utf16

/-- The characters of a `str`. -/
def chars (value : Units) : List Char := (Utf16.decode value).map (Sum.elim id fun _ => Char.ofNat 0xFFFD)

/-- `to_utf8_lossy` -/
def toUtf8Lossy (value : Units) : Bytes := utf8.text (chars value)

/-! ### `buffer_string_bytes` -/

def nibble (byte : UInt8) : Option UInt8 :=
  if 48 ≤ byte ∧ byte ≤ 57 then some (byte - 48)
  else if 97 ≤ byte ∧ byte ≤ 102 then some (byte - 97 + 10)
  else if 65 ≤ byte ∧ byte ≤ 70 then some (byte - 65 + 10)
  else none

/-- Pairs of digits, up to the first that is none; a digit without a partner is dropped. -/
def bytesHexDecode : Bytes → Bytes
  | a :: b :: text =>
    match nibble a, nibble b with
    | some high, some low => (high <<< 4 ||| low) :: bytesHexDecode text
    | _, _ => []
  | _ => []

/-- The digit of a byte in the alphabet. -/
def base64Value (byte : UInt8) : Option UInt8 :=
  if 65 ≤ byte ∧ byte ≤ 90 then some (byte - 65)
  else if 97 ≤ byte ∧ byte ≤ 122 then some (byte - 97 + 26)
  else if 48 ≤ byte ∧ byte ≤ 57 then some (byte - 48 + 52)
  else if byte = 43 then some 62
  else if byte = 47 then some 63
  else none

/-- The digit of a byte in either alphabet. -/
def bytesBase64Value (byte : UInt8) : Option UInt8 :=
  if 65 ≤ byte ∧ byte ≤ 90 then some (byte - 65)
  else if 97 ≤ byte ∧ byte ≤ 122 then some (byte - 97 + 26)
  else if 48 ≤ byte ∧ byte ≤ 57 then some (byte - 48 + 52)
  else if byte = 43 ∨ byte = 45 then some 62
  else if byte = 47 ∨ byte = 95 then some 63
  else none

/-- Four digits are three bytes; a digit alone at the end is dropped. -/
def digitBytes : List UInt8 → Bytes
  | a :: b :: c :: d :: values => (a <<< 2 ||| b >>> 4) :: (b <<< 4 ||| c >>> 2) :: (c <<< 6 ||| d) :: digitBytes values
  | [a, b, c] => [a <<< 2 ||| b >>> 4, b <<< 4 ||| c >>> 2]
  | [a, b] => [a <<< 2 ||| b >>> 4]
  | _ => []

/-- The digits before the first `=`; other bytes are passed over. -/
def bytesBase64Decode (text : Bytes) : Bytes := digitBytes ((text.takeWhile (· ≠ 61)).filterMap bytesBase64Value)

def bufferStringBytes (value : Units) : Encoding → Bytes
  | .hex => bytesHexDecode (toUtf8Lossy value)
  | .base64 | .base64url => bytesBase64Decode (toUtf8Lossy value)
  | .utf8 => toUtf8Lossy value
  | .utf16le => value.flatMap fun u => [UInt8.ofNat u.toNat, UInt8.ofNat (u.toNat / 256)]
  | .latin1 | .ascii => value.map fun u => UInt8.ofNat u.toNat

/-! ### `btoa` and `atob` -/

/-- The digit of six bits of three bytes. -/
def tripleUnit (first second third : UInt8) (shift : ℕ) : UInt16 :=
  let triple := first.toNat <<< 16 ||| second.toNat <<< 8 ||| third.toNat
  ALPHABET.getD ((triple >>> shift) &&& 0x3f) (unit 'A')

def btoaText : Bytes → Units
  | [] => []
  | [a] => [tripleUnit a 0 0 18, tripleUnit a 0 0 12, unit '=', unit '=']
  | [a, b] => [tripleUnit a b 0 18, tripleUnit a b 0 12, tripleUnit a b 0 6, unit '=']
  | a :: b :: c :: bytes =>
    tripleUnit a b c 18 :: tripleUnit a b c 12 :: tripleUnit a b c 6 :: tripleUnit a b c 0 :: btoaText bytes

/-- There is no result where a character is no byte. -/
def stringBtoa (value : Units) : Option Units :=
  ((chars value).mapM fun ch => if 0xff < ch.toNat then none else some (UInt8.ofNat ch.toNat)).map btoaText

/-- ASCII white space. -/
def isBlank (byte : UInt8) : Bool := byte ∈ [9, 10, 12, 13, 32]

/-- The last byte goes if it is a `=`. -/
def popPadding (encoded : Bytes) : Bytes := if encoded.getLast? = some 61 then encoded.dropLast else encoded

/-- The digits, six bits at a time; a byte comes out where eight are there. -/
def atobLoop : Bytes → ℕ → ℕ → Option Units
  | [], _, _ => some []
  | byte :: encoded, accumulator, bits => do
    let value ← base64Value byte
    let accumulator := accumulator <<< 6 ||| value.toNat
    let bits := bits + 6
    if 8 ≤ bits then
      let bits := bits - 8
      let output ← atobLoop encoded (accumulator &&& (if bits = 0 then 0 else 1 <<< bits - 1)) bits
      some (((accumulator >>> bits) &&& 0xff).toUInt16 :: output)
    else atobLoop encoded accumulator bits

/-- Up to two `=` behind whole groups go. -/
def stripPadding (encoded : Bytes) : Bytes :=
  if encoded ≠ [] ∧ encoded.length % 4 = 0 then popPadding (popPadding encoded) else encoded

def stringAtob (value : Units) : Option Units :=
  let encoded := stripPadding ((toUtf8Lossy value).filter fun byte => !isBlank byte)
  if encoded.length % 4 = 1 then none else atobLoop encoded 0 0

/-! ### Text of bytes -/

variable {value : Units}

theorem decode_below (h : ∀ u ∈ value, u.toNat < 0xD800) :
    Utf16.decode value = value.map fun u => .inl (Char.ofNat u.toNat) := by
  have halone : ∀ u ∈ value, ¬(Utf16.IsHigh u ∨ Utf16.IsLow u) := by
    intro u hu
    have := h u hu
    simp only [Utf16.IsHigh, Utf16.IsLow]
    omega
  clear h
  induction value using Utf16.decode.induct with
  | case1 => rfl
  | case2 u hs => exact absurd hs (halone u (by simp))
  | case3 u hs => simp [Utf16.decode, hs]
  | case4 u v rest hs ih => exact absurd (.inl hs.1) (halone u (by simp))
  | case5 u v rest hs hs' ih => exact absurd hs' (halone u (by simp))
  | case6 u v rest hs hs' ih =>
    rw [Utf16.decode, if_neg hs, if_neg hs', ih fun w hw => halone w (mem_cons_of_mem u hw)]
    rfl

theorem chars_encode_append (text : List Char) (rest : Units) : chars (Utf16.encode text ++ rest) = text ++ chars rest := by
  rw [chars, Utf16.decode_encode_append, map_append, map_map]
  exact congrArg (· ++ chars rest) (map_id text)

theorem chars_encode (text : List Char) : chars (Utf16.encode text) = text := by
  have h := chars_encode_append text []
  rwa [append_nil, show chars [] = [] from rfl, append_nil] at h

theorem chars_below (h : ∀ u ∈ value, u.toNat < 0xD800) : chars value = value.map fun u => Char.ofNat u.toNat := by
  rw [chars, decode_below h, map_map]
  rfl

/-- ASCII text is its units as bytes. -/
theorem toUtf8Lossy_ascii (h : ∀ u ∈ value, u.toNat < 0x80) : toUtf8Lossy value = value.map fun u => UInt8.ofNat u.toNat := by
  have hchars : chars value = (value.map UInt16.toNat).map Char.ofNat := by
    rw [chars_below fun u hu => (h u hu).trans (by decide), map_map]
    rfl
  rw [toUtf8Lossy, hchars, text_ascii (forall_mem_map.mpr h), map_map]
  rfl

theorem toUtf8Lossy_digits {digit : UInt8 → UInt16} (hdigit : ∀ i, (digit i).toNat < 0x80) (values : List UInt8)
    (k : ℕ) : toUtf8Lossy (values.map digit ++ replicate k (unit '=')) =
      (values.map fun i => UInt8.ofNat (digit i).toNat) ++ replicate k 61 := by
  rw [toUtf8Lossy_ascii, map_append, map_map, map_replicate]
  · rfl
  · intro u hu
    rcases mem_append.mp hu with hu | hu
    · obtain ⟨i, -, rfl⟩ := mem_map.mp hu
      exact hdigit i
    · rw [eq_of_mem_replicate hu]
      decide

/-! ### Six bits at a time -/

/-- The digits of bytes, without padding. -/
def sextets : Bytes → List UInt8
  | [] => []
  | [a] => [a >>> 2, (a &&& 3) <<< 4]
  | [a, b] => [a >>> 2, (a &&& 3) <<< 4 ||| b >>> 4, (b &&& 15) <<< 2]
  | a :: b :: c :: bytes =>
    a >>> 2 :: ((a &&& 3) <<< 4 ||| b >>> 4) :: ((b &&& 15) <<< 2 ||| c >>> 6) :: (c &&& 63) :: sextets bytes

/-- How many `=` fill up the last group. -/
def padding (bytes : Bytes) : ℕ := (3 - bytes.length % 3) % 3

theorem bytesBase64Encode_eq (bytes : Bytes) :
    bytesBase64Encode bytes = (sextets bytes).map base64Unit ++ replicate (padding bytes) (unit '=') := by
  induction bytes using sextets.induct with
  | case1 => rfl
  | case2 a => rfl
  | case3 a b => rfl
  | case4 a b c bytes ih =>
    have hpad : padding (a :: b :: c :: bytes) = padding bytes := by
      simp only [padding, length_cons]
      omega
    rw [bytesBase64Encode, ih, hpad]
    rfl

theorem length_sextets (bytes : Bytes) : 4 ∣ (sextets bytes).length + padding bytes := by
  induction bytes using sextets.induct with
  | case1 => decide
  | case2 a => exact ⟨1, rfl⟩
  | case3 a b => exact ⟨1, rfl⟩
  | case4 a b c bytes ih =>
    simp only [sextets, padding, length_cons] at ih ⊢
    omega

theorem toNat_shiftRight {k : UInt8} (hk : k.toNat < 8) (x : UInt8) : (x >>> k).toNat = x.toNat / 2 ^ k.toNat := by
  rw [UInt8.toNat_shiftRight, Nat.mod_eq_of_lt hk, Nat.shiftRight_eq_div_pow]

/-- What is shifted and what fills it up are added. -/
theorem toNat_shiftLeft_or {k : UInt8} (hk : k.toNat < 8) (x : UInt8) {y : UInt8} (hy : y.toNat < 2 ^ k.toNat) :
    (x <<< k ||| y).toNat = x.toNat % 2 ^ (8 - k.toNat) * 2 ^ k.toNat + y.toNat := by
  have hpow : 2 ^ 8 = 2 ^ (8 - k.toNat) * 2 ^ k.toNat := by rw [← pow_add, Nat.sub_add_cancel hk.le]
  have hx : (x <<< k).toNat = (x.toNat % 2 ^ (8 - k.toNat)) <<< k.toNat := by
    rw [UInt8.toNat_shiftLeft, Nat.mod_eq_of_lt hk, Nat.shiftLeft_eq, Nat.shiftLeft_eq, hpow, Nat.mul_mod_mul_right]
  rw [UInt8.toNat_or, hx, Nat.or_comm, or_shiftLeft hy, Nat.add_comm]

theorem toNat_and_mask {n : ℕ} (hn : n ≤ 8) (x : UInt8) : (x &&& UInt8.ofNat (2 ^ n - 1)).toNat = x.toNat % 2 ^ n := by
  have hmask : 2 ^ n - 1 < 256 := by
    have hpow := Nat.pow_le_pow_right (show 0 < 2 by decide) hn
    have height : 2 ^ 8 = 256 := rfl
    omega
  rw [UInt8.toNat_and, UInt8.toNat_ofNat_of_lt' hmask, Nat.and_two_pow_sub_one_eq_mod]

theorem sextet_one (a : UInt8) : (a >>> 2).toNat = a.toNat / 4 := toNat_shiftRight (by decide) a

theorem sextet_two (a b : UInt8) : ((a &&& 3) <<< 4 ||| b >>> 4).toNat = a.toNat % 4 * 16 + b.toNat / 16 := by
  have hb := b.toNat_lt
  have hand : (a &&& 3).toNat = a.toNat % 4 := toNat_and_mask (n := 2) (by decide) a
  have hfill : (b >>> 4).toNat = b.toNat / 16 := toNat_shiftRight (by decide) b
  have hadd : ((a &&& 3) <<< 4 ||| b >>> 4).toNat = (a &&& 3).toNat % 16 * 16 + (b >>> 4).toNat :=
    toNat_shiftLeft_or (k := 4) (by decide) _ (show _ < 16 by omega)
  omega

theorem sextet_three (b c : UInt8) : ((b &&& 15) <<< 2 ||| c >>> 6).toNat = b.toNat % 16 * 4 + c.toNat / 64 := by
  have hc := c.toNat_lt
  have hand : (b &&& 15).toNat = b.toNat % 16 := toNat_and_mask (n := 4) (by decide) b
  have hfill : (c >>> 6).toNat = c.toNat / 64 := toNat_shiftRight (by decide) c
  have hadd : ((b &&& 15) <<< 2 ||| c >>> 6).toNat = (b &&& 15).toNat % 64 * 4 + (c >>> 6).toNat :=
    toNat_shiftLeft_or (k := 2) (by decide) _ (show _ < 4 by omega)
  omega

theorem sextet_four (c : UInt8) : (c &&& 63).toNat = c.toNat % 64 := toNat_and_mask (n := 6) (by decide) c

/-- The last digit of a group with padding is the one before a byte of zeros. -/
theorem sextet_two_zero (a : UInt8) : (a &&& 3) <<< 4 = (a &&& 3) <<< 4 ||| (0 : UInt8) >>> 4 := by simp

theorem sextet_three_zero (b : UInt8) : (b &&& 15) <<< 2 = (b &&& 15) <<< 2 ||| (0 : UInt8) >>> 6 := by simp

theorem sextets_lt (bytes : Bytes) : ∀ i ∈ sextets bytes, i.toNat < 64 := by
  have hone : ∀ a : UInt8, (a >>> 2).toNat < 64 := fun a => by
    have := a.toNat_lt
    rw [sextet_one]
    omega
  have htwo : ∀ a b : UInt8, ((a &&& 3) <<< 4 ||| b >>> 4).toNat < 64 := fun a b => by
    have := b.toNat_lt
    rw [sextet_two]
    omega
  have hthree : ∀ b c : UInt8, ((b &&& 15) <<< 2 ||| c >>> 6).toNat < 64 := fun b c => by
    have := c.toNat_lt
    rw [sextet_three]
    omega
  have hfour : ∀ c : UInt8, (c &&& 63).toNat < 64 := fun c => by
    rw [sextet_four]
    omega
  induction bytes using sextets.induct with
  | case1 => simp [sextets]
  | case2 a =>
    simp only [sextets, forall_mem_cons]
    exact ⟨hone a, sextet_two_zero a ▸ htwo a 0, by simp⟩
  | case3 a b =>
    simp only [sextets, forall_mem_cons]
    exact ⟨hone a, htwo a b, sextet_three_zero b ▸ hthree b 0, by simp⟩
  | case4 a b c bytes ih =>
    simp only [sextets, forall_mem_cons]
    exact ⟨hone a, htwo a b, hthree b c, hfour c, ih⟩

theorem join_one (a b : UInt8) : a >>> 2 <<< 2 ||| ((a &&& 3) <<< 4 ||| b >>> 4) >>> 4 = a := by
  have ha := a.toNat_lt
  have hb := b.toNat_lt
  have hfill : (((a &&& 3) <<< 4 ||| b >>> 4) >>> 4).toNat = ((a &&& 3) <<< 4 ||| b >>> 4).toNat / 16 :=
    toNat_shiftRight (by decide) _
  rw [sextet_two] at hfill
  have hadd : _ = (a >>> 2).toNat % 64 * 4 + _ := toNat_shiftLeft_or (k := 2) (by decide) (a >>> 2) (show _ < 4 by rw [hfill]; omega)
  rw [hfill, sextet_one] at hadd
  apply UInt8.toNat_inj.mp
  omega

theorem join_two (a b c : UInt8) : ((a &&& 3) <<< 4 ||| b >>> 4) <<< 4 ||| ((b &&& 15) <<< 2 ||| c >>> 6) >>> 2 = b := by
  have hb := b.toNat_lt
  have hc := c.toNat_lt
  have hfill : (((b &&& 15) <<< 2 ||| c >>> 6) >>> 2).toNat = ((b &&& 15) <<< 2 ||| c >>> 6).toNat / 4 :=
    toNat_shiftRight (by decide) _
  rw [sextet_three] at hfill
  have hadd : _ = ((a &&& 3) <<< 4 ||| b >>> 4).toNat % 16 * 16 + _ :=
    toNat_shiftLeft_or (k := 4) (by decide) _ (show _ < 16 by rw [hfill]; omega)
  rw [hfill, sextet_two] at hadd
  apply UInt8.toNat_inj.mp
  omega

theorem join_three (b c : UInt8) : ((b &&& 15) <<< 2 ||| c >>> 6) <<< 6 ||| c &&& 63 = c := by
  have hc := c.toNat_lt
  have hadd : _ = ((b &&& 15) <<< 2 ||| c >>> 6).toNat % 4 * 64 + _ :=
    toNat_shiftLeft_or (k := 6) (by decide) _ (show _ < 64 by rw [sextet_four c]; omega)
  rw [sextet_four, sextet_three] at hadd
  apply UInt8.toNat_inj.mp
  omega

/-- Joining the digits gives the bytes. -/
theorem digitBytes_sextets (bytes : Bytes) : digitBytes (sextets bytes) = bytes := by
  induction bytes using sextets.induct with
  | case1 => rfl
  | case2 a => rw [sextets, digitBytes, sextet_two_zero, join_one]
  | case3 a b => rw [sextets, digitBytes, join_one, sextet_three_zero, join_two]
  | case4 a b c bytes ih => rw [sextets, digitBytes, join_one, join_two, join_three, ih]

/-! ### Round trips -/

/-- A way to write digits that `bytes_base64_decode` reads. -/
structure ReadsBack (digit : UInt8 → UInt16) : Prop where
  ascii : ∀ i, (digit i).toNat < 0x80
  value : ∀ i, i.toNat < 64 → bytesBase64Value (UInt8.ofNat (digit i).toNat) = some i
  ne_padding : ∀ i, UInt8.ofNat (digit i).toNat ≠ 61

/-- All that is read off the alphabet itself. -/
theorem digits_checked : ALPHABET.length = 64 ∧ base64Unit 0 = unit 'A' ∧ ∀ n : Fin 64,
    ((base64Unit (UInt8.ofNat n)).toNat < 0x80 ∧ bytesBase64Value (UInt8.ofNat (base64Unit (UInt8.ofNat n)).toNat) = some (UInt8.ofNat n) ∧
      UInt8.ofNat (base64Unit (UInt8.ofNat n)).toNat ≠ 61) ∧
    ((urlUnit (base64Unit (UInt8.ofNat n))).toNat < 0x80 ∧
      bytesBase64Value (UInt8.ofNat (urlUnit (base64Unit (UInt8.ofNat n))).toNat) = some (UInt8.ofNat n) ∧
      UInt8.ofNat (urlUnit (base64Unit (UInt8.ofNat n))).toNat ≠ 61) ∧
    base64Value (UInt8.ofNat (base64Unit (UInt8.ofNat n)).toNat) = some (UInt8.ofNat n) ∧
      isBlank (UInt8.ofNat (base64Unit (UInt8.ofNat n)).toNat) = false := by
  decide +kernel

/-- A byte that is no digit has the digit of zero. -/
theorem base64Unit_cases (i : UInt8) : ∃ n : Fin 64, base64Unit i = base64Unit (UInt8.ofNat n) ∧ (i.toNat < 64 → i = UInt8.ofNat n) := by
  by_cases hi : i.toNat < 64
  · exact ⟨⟨i.toNat, hi⟩, by rw [UInt8.ofNat_toNat], fun _ => UInt8.ofNat_toNat.symm⟩
  · refine ⟨0, ?_, fun h => absurd h hi⟩
    rw [base64Unit, getD_eq_getElem?_getD, getElem?_eq_none (by rw [digits_checked.1]; omega), Option.getD_none]
    exact digits_checked.2.1.symm

theorem readsBack_base64Unit : ReadsBack base64Unit where
  ascii i := by
    obtain ⟨n, hn, -⟩ := base64Unit_cases i
    rw [hn]
    exact (digits_checked.2.2 n).1.1
  value i hi := by
    obtain ⟨n, hn, hval⟩ := base64Unit_cases i
    rw [hn, hval hi]
    exact (digits_checked.2.2 n).1.2.1
  ne_padding i := by
    obtain ⟨n, hn, -⟩ := base64Unit_cases i
    rw [hn]
    exact (digits_checked.2.2 n).1.2.2

theorem readsBack_urlUnit : ReadsBack fun i => urlUnit (base64Unit i) where
  ascii i := by
    obtain ⟨n, hn, -⟩ := base64Unit_cases i
    rw [hn]
    exact (digits_checked.2.2 n).2.1.1
  value i hi := by
    obtain ⟨n, hn, hval⟩ := base64Unit_cases i
    rw [hn, hval hi]
    exact (digits_checked.2.2 n).2.1.2.1
  ne_padding i := by
    obtain ⟨n, hn, -⟩ := base64Unit_cases i
    rw [hn]
    exact (digits_checked.2.2 n).2.1.2.2

/-- The digits are read back, with padding behind them and without. -/
theorem bytesBase64Decode_digits {digit : UInt8 → UInt16} (h : ReadsBack digit) (bytes : Bytes) (k : ℕ) :
    bytesBase64Decode (toUtf8Lossy ((sextets bytes).map digit ++ replicate k (unit '='))) = bytes := by
  have htake : (((sextets bytes).map fun i => UInt8.ofNat (digit i).toNat) ++ replicate k 61).takeWhile (· ≠ 61) =
      (sextets bytes).map fun i => UInt8.ofNat (digit i).toNat := by
    rw [takeWhile_append_of_pos]
    · rw [takeWhile_replicate]
      simp
    · intro byte hbyte
      obtain ⟨i, -, rfl⟩ := mem_map.mp hbyte
      exact decide_eq_true (h.ne_padding i)
  have hvalues : ((sextets bytes).map fun i => UInt8.ofNat (digit i).toNat).filterMap bytesBase64Value = sextets bytes := by
    rw [filterMap_map, filterMap_congr (g := some), filterMap_some]
    intro i hi
    exact h.value i (sextets_lt bytes i hi)
  rw [toUtf8Lossy_digits h.ascii, bytesBase64Decode, htake, hvalues, digitBytes_sextets]

theorem base64url_eq (bytes : Bytes) :
    decodeBytes bytes .base64url = (sextets bytes).map (fun i => urlUnit (base64Unit i)) ++ replicate 0 (unit '=') := by
  have hdigits : ∀ c ∈ ((sextets bytes).map base64Unit).map urlUnit, c ≠ unit '=' := by
    intro c hc
    rw [map_map] at hc
    obtain ⟨i, -, rfl⟩ := mem_map.mp hc
    exact urlUnit_base64Unit_ne i
  have hpad : trimPadding ((replicate (padding bytes) (unit '=')).map urlUnit) = [] := by
    rw [map_replicate, show urlUnit (unit '=') = unit '=' by decide, trimPadding, reverse_replicate, dropWhile_replicate]
    simp
  rw [decodeBytes, bytesBase64Encode_eq, map_append, trimPadding_append hdigits, hpad, map_map]
  rfl

theorem nibble_hexDigit (b : UInt8) : nibble (UInt8.ofNat (hexDigit (b.toNat / 16)).toNat) = some (b >>> 4) ∧
    nibble (UInt8.ofNat (hexDigit (b.toNat % 16)).toNat) = some (b &&& 15) ∧ (b >>> 4) <<< 4 ||| (b &&& 15) = b ∧
      (hexDigit (b.toNat / 16)).toNat < 0x80 ∧ (hexDigit (b.toNat % 16)).toNat < 0x80 := by
  have hdigit : ∀ n < 16, nibble (UInt8.ofNat (hexDigit n).toNat) = some (UInt8.ofNat n) ∧ (hexDigit n).toNat < 0x80 := by
    decide +kernel
  have hb := b.toNat_lt
  have hhigh : (b >>> 4).toNat = b.toNat / 16 := toNat_shiftRight (by decide) b
  have hlow : (b &&& 15).toNat = b.toNat % 16 := toNat_and_mask (n := 4) (by decide) b
  have hjoin : ((b >>> 4) <<< 4 ||| (b &&& 15)).toNat = (b >>> 4).toNat % 16 * 16 + (b &&& 15).toNat :=
    toNat_shiftLeft_or (k := 4) (by decide) _ (show _ < 16 by omega)
  have hfirst := hdigit (b.toNat / 16) (by omega)
  have hsecond := hdigit (b.toNat % 16) (by omega)
  rw [← hhigh, UInt8.ofNat_toNat] at hfirst
  rw [← hlow, UInt8.ofNat_toNat] at hsecond
  rw [← hhigh, ← hlow]
  exact ⟨hfirst.1, hsecond.1, UInt8.toNat_inj.mp (by omega), hfirst.2, hsecond.2⟩

theorem bytesHexDecode_digits (bytes : Bytes) : bytesHexDecode (toUtf8Lossy (decodeBytes bytes .hex)) = bytes := by
  have hascii : ∀ u ∈ decodeBytes bytes .hex, u.toNat < 0x80 := by
    intro u hu
    obtain ⟨b, -, hu⟩ := mem_flatMap.mp hu
    obtain ⟨-, -, -, hhigh, hlow⟩ := nibble_hexDigit b
    rcases mem_pair.mp hu with rfl | rfl
    · exact hhigh
    · exact hlow
  rw [toUtf8Lossy_ascii hascii]
  clear hascii
  induction bytes with
  | nil => rfl
  | cons b bytes ih =>
    obtain ⟨hhigh, hlow, hjoin, -⟩ := nibble_hexDigit b
    simp only [decodeBytes, flatMap_cons, cons_append, nil_append, map_cons, bytesHexDecode, hhigh, hlow,
      hjoin] at ih ⊢
    rw [ih]

theorem utf16Units_bytes {bytes : Bytes} (h : 2 ∣ bytes.length) :
    (utf16Units bytes).flatMap (fun u => [UInt8.ofNat u.toNat, UInt8.ofNat (u.toNat / 256)]) = bytes := by
  induction bytes using List.twoStepInduction with
  | nil => rfl
  | singleton a => simp at h
  | cons_cons a b bytes ih _ =>
    have ha := a.toNat_lt
    have hb := b.toNat_lt
    have hrest : 2 ∣ bytes.length := by
      rw [length_cons, length_cons] at h
      omega
    have hunit : (a.toNat + 256 * b.toNat).toUInt16.toNat = a.toNat + 256 * b.toNat := UInt16.toNat_ofNat_of_lt (show _ < 65536 by omega)
    have hlow : UInt8.ofNat (a.toNat + 256 * b.toNat) = a := by
      apply UInt8.toNat_inj.mp
      rw [UInt8.toNat_ofNat']
      omega
    have hhigh : (a.toNat + 256 * b.toNat) / 256 = b.toNat := by omega
    rw [utf16Units, flatMap_cons, ih hrest, hunit, hlow, hhigh, UInt8.ofNat_toNat]
    rfl

/-- What `decode_bytes` writes is read back. -/
theorem bufferStringBytes_decodeBytes {bytes : Bytes} {enc : Encoding}
    (h : enc = .hex ∨ enc = .base64 ∨ enc = .base64url ∨ enc = .latin1 ∨ enc = .utf16le ∧ 2 ∣ bytes.length) :
    bufferStringBytes (decodeBytes bytes enc) enc = bytes := by
  rcases h with rfl | rfl | rfl | rfl | ⟨rfl, heven⟩
  · exact bytesHexDecode_digits bytes
  · rw [bufferStringBytes, decodeBytes, bytesBase64Encode_eq, bytesBase64Decode_digits readsBack_base64Unit]
  · rw [bufferStringBytes, base64url_eq, bytesBase64Decode_digits readsBack_urlUnit]
  · rw [bufferStringBytes, decodeBytes, map_map]
    refine (map_congr_left fun b _ => ?_).trans (map_id bytes)
    have hb := b.toNat_lt
    simp only [Function.comp_apply]
    rw [Nat.toUInt16_eq, UInt16.toNat_ofNat_of_lt' (hb.trans (by decide)), UInt8.ofNat_toNat]
    rfl
  · exact utf16Units_bytes heven

/-! ### `btoa` -/

theorem triple_eq (a b c : UInt8) : a.toNat <<< 16 ||| b.toNat <<< 8 ||| c.toNat = a.toNat * 65536 + b.toNat * 256 + c.toNat := by
  have hb := b.toNat_lt
  have hc := c.toNat_lt
  have hab : b.toNat <<< 8 ||| a.toNat <<< 16 = b.toNat * 256 + a.toNat * 65536 := by
    have h : b.toNat <<< 8 = b.toNat * 256 := Nat.shiftLeft_eq ..
    have hor : b.toNat * 256 ||| a.toNat <<< 16 = b.toNat * 256 + a.toNat * 65536 := or_shiftLeft (by omega) _
    rw [h, hor]
  have hsum : b.toNat * 256 + a.toNat * 65536 = (b.toNat + a.toNat * 256) <<< 8 := by
    rw [Nat.shiftLeft_eq]
    omega
  rw [Nat.or_comm (a.toNat <<< 16), hab, hsum, Nat.or_comm, or_shiftLeft (by omega)]
  omega

/-- The digit at a number of bits from the end. -/
theorem tripleUnit_eq (a b c : UInt8) {i : UInt8} {k : ℕ}
    (h : (a.toNat * 65536 + b.toNat * 256 + c.toNat) / 2 ^ k % 64 = i.toNat) : tripleUnit a b c k = base64Unit i := by
  have hmask : ∀ n : ℕ, n &&& 0x3f = n % 64 := fun n => Nat.and_two_pow_sub_one_eq_mod n 6
  rw [tripleUnit, base64Unit, triple_eq, hmask, Nat.shiftRight_eq_div_pow, h]

theorem btoaText_eq (bytes : Bytes) : btoaText bytes = bytesBase64Encode bytes := by
  have hone : ∀ a b c, tripleUnit a b c 18 = base64Unit (a >>> 2) := fun a b c => by
    have ha := a.toNat_lt
    have hb := b.toNat_lt
    have hc := c.toNat_lt
    apply tripleUnit_eq
    rw [sextet_one]
    omega
  have htwo : ∀ a b c, tripleUnit a b c 12 = base64Unit ((a &&& 3) <<< 4 ||| b >>> 4) := fun a b c => by
    have hb := b.toNat_lt
    have hc := c.toNat_lt
    apply tripleUnit_eq
    rw [sextet_two]
    omega
  have hthree : ∀ a b c, tripleUnit a b c 6 = base64Unit ((b &&& 15) <<< 2 ||| c >>> 6) := fun a b c => by
    have hc := c.toNat_lt
    apply tripleUnit_eq
    rw [sextet_three]
    omega
  have hfour : ∀ a b c, tripleUnit a b c 0 = base64Unit (c &&& 63) := fun a b c => by
    apply tripleUnit_eq
    rw [sextet_four]
    omega
  induction bytes using btoaText.induct with
  | case1 => rfl
  | case2 a => rw [btoaText, bytesBase64Encode, hone, htwo, ← sextet_two_zero]
  | case3 a b => rw [btoaText, bytesBase64Encode, hone, htwo, hthree, ← sextet_three_zero]
  | case4 a b c bytes ih => rw [btoaText, bytesBase64Encode, hone, htwo, hthree, hfour, ih]

/-- A character is a byte where its units are. -/
theorem chars_le_iff (value : Units) : (∀ ch ∈ chars value, ch.toNat ≤ 0xff) ↔ ∀ u ∈ value, u.toNat ≤ 0xff := by
  have hitem : ∀ item ∈ Utf16.decode value,
      ((Sum.elim id (fun _ => Char.ofNat 0xFFFD) item : Char).toNat ≤ 0xff ↔ ∀ u ∈ Utf16.encodeItem item, u.toNat ≤ 0xff) := by
    intro item hmem
    rcases item with c | u
    · have hc := toNat_char c
      change c.toNat ≤ 0xff ↔ ∀ u ∈ Utf16.encodeChar c, u.toNat ≤ 0xff
      rw [Utf16.encodeChar]
      split
      · simp only [forall_mem_singleton, UInt16.toNat_ofNat']
        omega
      · simp only [forall_mem_cons, UInt16.toNat_ofNat']
        omega
    · have hu := Utf16.decode_alone hmem
      have hrep : (Char.ofNat 0xFFFD).toNat = 0xFFFD := by decide
      simp only [Utf16.IsHigh, Utf16.IsLow] at hu
      change (Char.ofNat 0xFFFD).toNat ≤ 0xff ↔ ∀ v ∈ [u], v.toNat ≤ 0xff
      rw [hrep, forall_mem_singleton]
      omega
  have hunits : (∀ u ∈ value, u.toNat ≤ 0xff) ↔ ∀ item ∈ Utf16.decode value, ∀ u ∈ Utf16.encodeItem item, u.toNat ≤ 0xff := by
    rw [← Utf16.flatMap_decode value, forall_mem_flatMap, Utf16.flatMap_decode]
  rw [chars, forall_mem_map, hunits]
  exact forall₂_congr hitem

theorem stringBtoa_eq (value : Units) : stringBtoa value =
    if ∀ u ∈ value, u.toNat ≤ 0xff then some (bytesBase64Encode (value.map fun u => UInt8.ofNat u.toNat)) else none := by
  rw [stringBtoa]
  split
  next h =>
    have hchars : chars value = value.map fun u => Char.ofNat u.toNat := chars_below fun u hu => by
      have := h u hu
      omega
    have hbytes : (chars value).mapM (fun ch => if 0xff < ch.toNat then none else some (UInt8.ofNat ch.toNat)) =
        some (value.map fun u => UInt8.ofNat u.toNat) := by
      rw [hchars, mapM_map]
      refine Option.mapM_eq_some.mpr (forall₂_map_right_iff.mpr (forall₂_same.mpr fun u hu => ?_))
      have hu := h u hu
      have hnat : (Char.ofNat u.toNat).toNat = u.toNat := Utf16.toNat_ofNat_char (.inl (by omega))
      rw [Function.comp, hnat, if_neg (by omega)]
    rw [hbytes, Option.map_some, btoaText_eq]
  next h =>
    rw [Option.map_eq_none_iff, ← Option.not_isSome_iff_eq_none]
    intro hsome
    obtain ⟨bytes, hbytes⟩ := Option.isSome_iff_exists.mp hsome
    apply h
    apply (chars_le_iff value).mp
    intro ch hch
    have hall := (Option.mapM_eq_some_iff_filterMap.mp hbytes).1 ch hch
    by_contra hlt
    rw [if_pos (by omega)] at hall
    exact Bool.false_ne_true hall

/-! ### `atob` -/

theorem push_digit (accumulator : ℕ) {v : UInt8} (hv : v.toNat < 64) :
    accumulator <<< 6 ||| v.toNat = accumulator * 64 + v.toNat := by
  have hor : v.toNat ||| accumulator <<< 6 = v.toNat + accumulator * 64 := or_shiftLeft hv _
  rw [Nat.or_comm, hor, Nat.add_comm]

/-- The first digit of a group. -/
theorem atobLoop_first {byte v : UInt8} (h : base64Value byte = some v) (hv : v.toNat < 64) (encoded : Bytes) :
    atobLoop (byte :: encoded) 0 0 = atobLoop encoded v.toNat 6 := by
  rw [atobLoop, h, Option.bind_eq_bind, Option.bind_some, push_digit 0 hv, Nat.zero_mul, Nat.zero_add]
  rfl

/-- A digit where bits are left over gives out a byte. -/
theorem atobLoop_next {byte v : UInt8} (h : base64Value byte = some v) (hv : v.toNat < 64) (encoded : Bytes) (accumulator bits : ℕ) :
    atobLoop (byte :: encoded) accumulator (bits + 2) =
      (atobLoop encoded ((accumulator * 64 + v.toNat) % 2 ^ bits) bits).map
        (((accumulator * 64 + v.toNat) / 2 ^ bits % 256).toUInt16 :: ·) := by
  have hmask : (if bits = 0 then 0 else 1 <<< bits - 1) = 2 ^ bits - 1 := by
    split
    next hbits =>
      rw [hbits]
      rfl
    · rw [Nat.shiftLeft_eq, one_mul]
  have hbyte : ∀ n : ℕ, n &&& 0xff = n % 256 := fun n => Nat.and_two_pow_sub_one_eq_mod n 8
  rw [atobLoop, h, Option.bind_eq_bind, Option.bind_some, push_digit _ hv]
  simp only [show bits + 2 + 6 - 8 = bits by omega, show 8 ≤ bits + 2 + 6 by omega, ↓reduceIte, hmask,
    Nat.and_two_pow_sub_one_eq_mod, hbyte, Nat.shiftRight_eq_div_pow]
  cases atobLoop encoded ((accumulator * 64 + v.toNat) % 2 ^ bits) bits <;> rfl

/-- The byte of a digit. -/
def digitByte (i : UInt8) : UInt8 := UInt8.ofNat (base64Unit i).toNat

theorem base64Value_digitByte {i : UInt8} (hi : i.toNat < 64) : base64Value (digitByte i) = some i := by
  obtain ⟨n, hn, hval⟩ := base64Unit_cases i
  rw [digitByte, hn, hval hi]
  exact (digits_checked.2.2 n).2.2.1

theorem digitByte_ne (i : UInt8) : digitByte i ≠ 61 ∧ isBlank (digitByte i) = false := by
  obtain ⟨n, hn, -⟩ := base64Unit_cases i
  rw [digitByte, hn]
  exact ⟨(digits_checked.2.2 n).1.2.2, (digits_checked.2.2 n).2.2.2⟩

theorem atobLoop_sextets (bytes : Bytes) :
    atobLoop ((sextets bytes).map digitByte) 0 0 = some (bytes.map fun b => b.toNat.toUInt16) := by
  have hvalue : ∀ {i}, i ∈ sextets bytes → base64Value (digitByte i) = some i ∧ i.toNat < 64 := fun hi =>
    ⟨base64Value_digitByte (sextets_lt bytes _ hi), sextets_lt bytes _ hi⟩
  induction bytes using sextets.induct with
  | case1 => rfl
  | case2 a =>
    have ha := a.toNat_lt
    obtain ⟨hone, hone'⟩ := hvalue (i := a >>> 2) (by simp [sextets])
    obtain ⟨htwo, htwo'⟩ := hvalue (i := (a &&& 3) <<< 4) (by simp [sextets])
    have hvalue_two : ((a &&& 3) <<< 4).toNat = a.toNat % 4 * 16 + 0 / 16 := by
      rw [sextet_two_zero]
      exact sextet_two a 0
    have hout : (a.toNat / 4 * 64 + (a.toNat % 4 * 16 + 0 / 16)) / 2 ^ 4 % 256 = a.toNat := by omega
    simp only [sextets, map_cons, map_nil]
    rw [atobLoop_first hone hone', atobLoop_next htwo htwo', hvalue_two, sextet_one, hout]
    rfl
  | case3 a b =>
    have ha := a.toNat_lt
    have hb := b.toNat_lt
    obtain ⟨hone, hone'⟩ := hvalue (i := a >>> 2) (by simp [sextets])
    obtain ⟨htwo, htwo'⟩ := hvalue (i := (a &&& 3) <<< 4 ||| b >>> 4) (by simp [sextets])
    obtain ⟨hthree, hthree'⟩ := hvalue (i := (b &&& 15) <<< 2) (by simp [sextets])
    have hvalue_three : ((b &&& 15) <<< 2).toNat = b.toNat % 16 * 4 + 0 / 64 := by
      rw [sextet_three_zero]
      exact sextet_three b 0
    have hout_one : (a.toNat / 4 * 64 + (a.toNat % 4 * 16 + b.toNat / 16)) / 2 ^ 4 % 256 = a.toNat := by omega
    have hout_two : ((a.toNat / 4 * 64 + (a.toNat % 4 * 16 + b.toNat / 16)) % 2 ^ 4 * 64 + (b.toNat % 16 * 4 + 0 / 64)) / 2 ^ 2 % 256 =
        b.toNat := by omega
    simp only [sextets, map_cons, map_nil]
    rw [atobLoop_first hone hone', atobLoop_next htwo htwo', atobLoop_next hthree hthree', hvalue_three, sextet_one, sextet_two,
      hout_one, hout_two]
    rfl
  | case4 a b c bytes ih =>
    have ha := a.toNat_lt
    have hb := b.toNat_lt
    have hc := c.toNat_lt
    obtain ⟨hone, hone'⟩ := hvalue (i := a >>> 2) (by simp [sextets])
    obtain ⟨htwo, htwo'⟩ := hvalue (i := (a &&& 3) <<< 4 ||| b >>> 4) (by simp [sextets])
    obtain ⟨hthree, hthree'⟩ := hvalue (i := (b &&& 15) <<< 2 ||| c >>> 6) (by simp [sextets])
    obtain ⟨hfour, hfour'⟩ := hvalue (i := c &&& 63) (by simp [sextets])
    have hrest := ih fun hi => hvalue (by simp [sextets, hi])
    have hout_one : (a.toNat / 4 * 64 + (a.toNat % 4 * 16 + b.toNat / 16)) / 2 ^ 4 % 256 = a.toNat := by omega
    have hkeep : (a.toNat / 4 * 64 + (a.toNat % 4 * 16 + b.toNat / 16)) % 2 ^ 4 = b.toNat / 16 := by omega
    have hout_two : (b.toNat / 16 * 64 + (b.toNat % 16 * 4 + c.toNat / 64)) / 2 ^ 2 % 256 = b.toNat := by omega
    have hkeep' : (b.toNat / 16 * 64 + (b.toNat % 16 * 4 + c.toNat / 64)) % 2 ^ 2 = c.toNat / 64 := by omega
    have hout_three : (c.toNat / 64 * 64 + c.toNat % 64) / 2 ^ 0 % 256 = c.toNat := by omega
    simp only [sextets, map_cons]
    rw [atobLoop_first hone hone', atobLoop_next htwo htwo', atobLoop_next hthree hthree', atobLoop_next hfour hfour', sextet_one,
      sextet_two, sextet_three, sextet_four, hout_one, hkeep, hout_two, hkeep', hout_three, pow_zero, Nat.mod_one, hrest]
    rfl

theorem popPadding_append (encoded : Bytes) : popPadding (encoded ++ [61]) = encoded := by
  rw [popPadding, if_pos List.getLast?_concat, dropLast_concat]

theorem popPadding_of_ne {encoded : Bytes} (h : ∀ byte ∈ encoded, byte ≠ 61) : popPadding encoded = encoded :=
  if_neg fun hlast => h 61 (mem_of_getLast? hlast) rfl

/-- The padding of a text of whole groups is what goes. -/
theorem stripPadding_digits {digits : Bytes} (h : ∀ byte ∈ digits, byte ≠ 61) {k : ℕ} (hk : k ≤ 2)
    (hlength : 4 ∣ digits.length + k) : stripPadding (digits ++ replicate k 61) = digits := by
  rw [stripPadding, length_append, length_replicate]
  split
  · obtain rfl | rfl | rfl : k = 0 ∨ k = 1 ∨ k = 2 := by omega
    · rw [replicate_zero, append_nil, popPadding_of_ne h, popPadding_of_ne h]
    · rw [replicate_one, popPadding_append, popPadding_of_ne h]
    · rw [show replicate 2 (61 : UInt8) = [61] ++ [61] from rfl, ← append_assoc, popPadding_append, popPadding_append]
  next hnot =>
    have hnil : digits ++ replicate k 61 = [] := by
      by_contra hne
      exact hnot ⟨hne, Nat.mod_eq_zero_of_dvd hlength⟩
    rw [hnil, (append_eq_nil_iff.mp hnil).1]

/-- `atob` gives the bytes, each as a unit. -/
theorem stringAtob_bytesBase64Encode (bytes : Bytes) :
    stringAtob (bytesBase64Encode bytes) = some (bytes.map fun b => b.toNat.toUInt16) := by
  have hfilter : (((sextets bytes).map digitByte ++ replicate (padding bytes) 61).filter fun byte => !isBlank byte) =
      (sextets bytes).map digitByte ++ replicate (padding bytes) 61 := by
    apply filter_eq_self.mpr
    intro byte hbyte
    rcases mem_append.mp hbyte with hbyte | hbyte
    · obtain ⟨i, -, rfl⟩ := mem_map.mp hbyte
      rw [(digitByte_ne i).2]
      rfl
    · rw [eq_of_mem_replicate hbyte]
      rfl
  have hne : ∀ byte ∈ (sextets bytes).map digitByte, byte ≠ 61 := by
    intro byte hbyte
    obtain ⟨i, -, rfl⟩ := mem_map.mp hbyte
    exact (digitByte_ne i).1
  have hlength := length_sextets bytes
  have hpad : padding bytes ≤ 2 := Nat.le_of_lt_succ (Nat.mod_lt _ (by decide))
  have hstrip := stripPadding_digits hne hpad (by rwa [length_map])
  have hdigits := toUtf8Lossy_digits readsBack_base64Unit.ascii (sextets bytes) (padding bytes)
  rw [stringAtob, bytesBase64Encode_eq, hdigits]
  rw [show (sextets bytes).map (fun i => UInt8.ofNat (base64Unit i).toNat) = (sextets bytes).map digitByte from rfl, hfilter, hstrip,
    if_neg, atobLoop_sextets]
  rw [length_map]
  omega

/-! ### Forgiving base64 -/

/-- The code points of a string; a surrogate that stands alone is one. -/
def codePoints (value : Units) : List ℕ := (Utf16.decode value).map (Sum.elim Char.toNat UInt16.toNat)

def asciiWhitespace : List ℕ := [0x09, 0x0A, 0x0C, 0x0D, 0x20]

def Base64Digit (point : ℕ) : Prop :=
  point = 0x2B ∨ point = 0x2F ∨ 0x30 ≤ point ∧ point ≤ 0x39 ∨ 0x41 ≤ point ∧ point ≤ 0x5A ∨ 0x61 ≤ point ∧ point ≤ 0x7A

instance (point : ℕ) : Decidable (Base64Digit point) := inferInstanceAs (Decidable (_ ∨ _))

/-- One or two `=` at the end are removed from a text of whole groups. -/
def unpadded (data : List ℕ) : List ℕ :=
  if data.length % 4 = 0 then
    if [0x3D, 0x3D] <:+ data then data.take (data.length - 2)
    else if [0x3D] <:+ data then data.take (data.length - 1)
    else data
  else data

/-- The strings that forgiving-base64 decode of the standard does not fail on. -/
def ForgivingBase64 (value : Units) : Prop :=
  let data := unpadded ((codePoints value).filter (· ∉ asciiWhitespace))
  data.length % 4 ≠ 1 ∧ ∀ point ∈ data, Base64Digit point

instance (value : Units) : Decidable (ForgivingBase64 value) := inferInstanceAs (Decidable (_ ∧ _))

theorem atobLoop_isSome (encoded : Bytes) (accumulator bits : ℕ) :
    (atobLoop encoded accumulator bits).isSome ↔ ∀ byte ∈ encoded, (base64Value byte).isSome := by
  have hcons : ∀ (output : Option Units) (u : UInt16), (output.bind fun output => some (u :: output)).isSome = output.isSome :=
    fun output u => by cases output <;> rfl
  induction encoded generalizing accumulator bits with
  | nil => simp [atobLoop]
  | cons byte encoded ih =>
    rw [atobLoop, forall_mem_cons]
    cases hbyte : base64Value byte with
    | none => simp
    | some v =>
      simp only [Option.bind_eq_bind, Option.bind_some, Option.isSome_some, true_and]
      split
      · rw [hcons]
        exact ih ..
      · exact ih ..

theorem base64Value_isSome (byte : UInt8) : (base64Value byte).isSome ↔ Base64Digit byte.toNat := by
  simp only [base64Value, Base64Digit, UInt8.le_iff_toNat_le, ← UInt8.toNat_inj, UInt8.reduceToNat]
  split_ifs <;> simp <;> omega

theorem isBlank_iff (byte : UInt8) : isBlank byte ↔ byte.toNat ∈ asciiWhitespace := by
  simp [isBlank, asciiWhitespace, ← UInt8.toNat_inj]

/-- The two ways to strip are the same on bytes. -/
theorem unpadded_bytes (encoded : Bytes) : unpadded (encoded.map UInt8.toNat) = (stripPadding encoded).map UInt8.toNat := by
  have hpad : ∀ byte : UInt8, 0x3D = byte.toNat ↔ byte = 61 := fun byte => by
    rw [← UInt8.toNat_inj]
    exact eq_comm
  rw [unpadded, length_map, stripPadding]
  rcases eq_nil_or_concat' encoded with rfl | ⟨encoded, y, rfl⟩
  · rfl
  rcases eq_nil_or_concat' encoded with rfl | ⟨encoded, x, rfl⟩
  · rfl
  by_cases hlength : ((encoded ++ [x]) ++ [y]).length % 4 = 0
  · have htwo : [0x3D, 0x3D] <:+ ((encoded ++ [x]) ++ [y]).map UInt8.toNat ↔ x = 61 ∧ y = 61 := by
      rw [map_append, map_append, append_assoc, ← hpad, ← hpad]
      constructor
      · rintro ⟨before, h⟩
        have h := (append_inj' h rfl).2
        simpa using h
      · rintro ⟨hx, hy⟩
        exact ⟨encoded.map UInt8.toNat, by rw [map_singleton, map_singleton, ← hx, ← hy]; rfl⟩
    have hone : [0x3D] <:+ ((encoded ++ [x]) ++ [y]).map UInt8.toNat ↔ y = 61 := by
      rw [map_append, ← hpad]
      constructor
      · rintro ⟨before, h⟩
        have h := (append_inj' h rfl).2
        simpa using h
      · intro hy
        exact ⟨(encoded ++ [x]).map UInt8.toNat, by rw [map_singleton, ← hy]⟩
    have hne : (encoded ++ [x]) ++ [y] ≠ [] := by simp
    rw [if_pos hlength, if_pos (And.intro hne hlength)]
    simp only [htwo, hone, popPadding, List.getLast?_concat, Option.some_inj, dropLast_concat]
    by_cases hy : y = 61
    · by_cases hx : x = 61
      · simp [hx, hy]
      · simp [hx, hy, take_append, take_of_length_le]
    · simp [hy]
  · rw [if_neg hlength, if_neg fun h => hlength h.2]

theorem mem_unpadded {data : List ℕ} {point : ℕ} (h : point ∈ data) (hne : point ≠ 0x3D) : point ∈ unpadded data := by
  rw [unpadded]
  split
  · split
    next hsuffix =>
      obtain ⟨before, rfl⟩ := hsuffix
      have hmem : point ∈ before := by simpa [hne] using h
      simpa using hmem
    · split
      next hsuffix =>
        obtain ⟨before, rfl⟩ := hsuffix
        have hmem : point ∈ before := by simpa [hne] using h
        simpa using hmem
      · exact h
  · exact h

/-- A unit that is not ASCII is part of a code point and of a byte that are not. -/
theorem exists_above {u : UInt16} (hu : u ∈ value) (hge : 0x80 ≤ u.toNat) :
    (∃ point ∈ codePoints value, 0x80 ≤ point) ∧ ∃ byte ∈ toUtf8Lossy value, 0x80 ≤ byte.toNat := by
  rw [← Utf16.flatMap_decode value] at hu
  obtain ⟨item, hitem, hmem⟩ := mem_flatMap.mp hu
  have hpoint : 0x80 ≤ (Sum.elim Char.toNat UInt16.toNat item : ℕ) := by
    rcases item with c | v
    · have hc := toNat_char c
      change u ∈ Utf16.encodeChar c at hmem
      change 0x80 ≤ c.toNat
      rw [Utf16.encodeChar] at hmem
      split at hmem
      · rw [mem_singleton.mp hmem, UInt16.toNat_ofNat'] at hge
        omega
      · omega
    · rwa [mem_singleton.mp hmem] at hge
  have hbyte : ∀ c : Char, 0x80 ≤ c.toNat → ∃ byte ∈ utf8.code c, 0x80 ≤ byte.toNat := by
    intro c hc
    have hbytes := bytes8_code c
    generalize utf8.code c = code at hbytes
    cases hbytes with
    | one ha hlt => omega
    | two ha => exact ⟨_, mem_cons_self, by omega⟩
    | three ha => exact ⟨_, mem_cons_self, by omega⟩
    | four ha => exact ⟨_, mem_cons_self, by omega⟩
  have hchar : 0x80 ≤ (Sum.elim id (fun _ => Char.ofNat 0xFFFD) item : Char).toNat := by
    cases item with
    | inl c => exact hpoint
    | inr v => exact show 0x80 ≤ (Char.ofNat 0xFFFD).toNat by decide
  refine ⟨⟨_, mem_map_of_mem hitem, hpoint⟩, ?_⟩
  obtain ⟨byte, hmem, hbyte⟩ := hbyte _ hchar
  exact ⟨byte, mem_flatMap.mpr ⟨_, mem_map_of_mem hitem, hmem⟩, hbyte⟩

theorem stringAtob_isSome (value : Units) : (stringAtob value).isSome ↔
    (stripPadding ((toUtf8Lossy value).filter fun byte => !isBlank byte)).length % 4 ≠ 1 ∧
      ∀ byte ∈ stripPadding ((toUtf8Lossy value).filter fun byte => !isBlank byte), (base64Value byte).isSome := by
  rw [stringAtob]
  split
  next h => simp [h]
  next h => rw [atobLoop_isSome, and_iff_right h]

/-- `atob` reads what the standard does. -/
theorem stringAtob_isSome_iff (value : Units) : (stringAtob value).isSome ↔ ForgivingBase64 value := by
  rw [stringAtob_isSome, ForgivingBase64]
  by_cases hascii : ∀ u ∈ value, u.toNat < 0x80
  · have hpoints : codePoints value = (toUtf8Lossy value).map UInt8.toNat := by
      rw [codePoints, decode_below fun u hu => (hascii u hu).trans (by decide), toUtf8Lossy_ascii hascii, map_map, map_map]
      refine map_congr_left fun u hu => ?_
      have hu := hascii u hu
      have hbyte : (UInt8.ofNat u.toNat).toNat = u.toNat := UInt8.toNat_ofNat_of_lt (show _ < 256 by omega)
      exact (Utf16.toNat_ofNat_char (.inl (by omega))).trans hbyte.symm
    have hfilter : (codePoints value).filter (· ∉ asciiWhitespace) =
        ((toUtf8Lossy value).filter fun byte => !isBlank byte).map UInt8.toNat := by
      rw [hpoints, filter_map]
      refine congrArg _ (filter_congr fun byte _ => ?_)
      have := isBlank_iff byte
      cases hblank : isBlank byte <;> simp_all
    rw [hfilter, unpadded_bytes, length_map, forall_mem_map]
    exact and_congr_right fun _ => forall₂_congr fun byte _ => base64Value_isSome byte
  · push Not at hascii
    obtain ⟨u, hu, hge⟩ := hascii
    obtain ⟨⟨point, hpoint, hpoint'⟩, byte, hbyte, hbyte'⟩ := exists_above hu hge
    have hcode : ¬∀ byte ∈ stripPadding ((toUtf8Lossy value).filter fun byte => !isBlank byte), (base64Value byte).isSome := by
      intro hall
      have hkept : byte ∈ (toUtf8Lossy value).filter fun byte => !isBlank byte := by
        refine mem_filter.mpr ⟨hbyte, ?_⟩
        have := isBlank_iff byte
        cases hblank : isBlank byte with
        | false => rfl
        | true =>
          have hmem := this.mp hblank
          simp only [asciiWhitespace, mem_cons, not_mem_nil, or_false] at hmem
          omega
      have hmem := mem_unpadded (mem_map_of_mem hkept) (show byte.toNat ≠ 0x3D by omega)
      rw [unpadded_bytes] at hmem
      obtain ⟨other, hother, heq⟩ := mem_map.mp hmem
      have hdigit := (base64Value_isSome other).mp (hall other hother)
      rw [heq, Base64Digit] at hdigit
      omega
    have hspec : ¬∀ point ∈ unpadded ((codePoints value).filter (· ∉ asciiWhitespace)), Base64Digit point := by
      intro hall
      have hblank : point ∉ asciiWhitespace := by
        simp only [asciiWhitespace, mem_cons, not_mem_nil, or_false]
        omega
      have hdigit := hall point (mem_unpadded (mem_filter.mpr ⟨hpoint, decide_eq_true hblank⟩) (by omega))
      rw [Base64Digit] at hdigit
      omega
    exact iff_of_false (fun h => hcode h.2) fun h => hspec h.2

/-! ### The codecs -/

/-- What a codec writes it reads, `atob` undoes `btoa`, and both accept what the standard does. -/
theorem codecs_roundtrip :
    (∀ (bytes : Bytes) (enc : Encoding),
      enc = .hex ∨ enc = .base64 ∨ enc = .base64url ∨ enc = .latin1 ∨ enc = .utf16le ∧ 2 ∣ bytes.length →
        bufferStringBytes (decodeBytes bytes enc) enc = bytes) ∧
    (∀ value : Units, (∀ u ∈ value, u.toNat ≤ 0xff) → (stringBtoa value).bind stringAtob = some value) ∧
    (∀ value : Units, stringBtoa value = none ↔ ∃ u ∈ value, 0xff < u.toNat) ∧
    ∀ value : Units, (stringAtob value).isSome ↔ ForgivingBase64 value := by
  refine ⟨fun bytes enc h => bufferStringBytes_decodeBytes h, ?_, ?_, stringAtob_isSome_iff⟩
  · intro value h
    rw [stringBtoa_eq, if_pos h, Option.bind_some, stringAtob_bytesBase64Encode, map_map]
    refine congrArg some ((map_congr_left fun u hu => ?_).trans (map_id value))
    have hu := h u hu
    have hbyte : (UInt8.ofNat u.toNat).toNat = u.toNat := UInt8.toNat_ofNat_of_lt (show _ < 256 by omega)
    rw [Function.comp, hbyte]
    exact UInt16.ofNat_toNat
  · intro value
    rw [stringBtoa_eq]
    split
    next h =>
      refine iff_of_false (by simp) ?_
      rintro ⟨u, hu, hlt⟩
      exact absurd (h u hu) (by omega)
    next h =>
      push Not at h
      exact iff_of_true rfl h

theorem codecs_roundtrip_two : bufferStringBytes (decodeBytes [0xFB, 0xEF] .base64url) .base64url = [0xFB, 0xEF] ∧
    bufferStringBytes (decodeBytes [0x3D, 0xD8] .utf16le) .utf16le = [0x3D, 0xD8] ∧
    (stringBtoa [0xFF, 0x68]).bind stringAtob = some [0xFF, 0x68] :=
  ⟨codecs_roundtrip.1 _ _ (by decide), codecs_roundtrip.1 _ _ (by decide), codecs_roundtrip.2.1 _ (by decide)⟩

end Scriptc.RuntimeRust.Decoder
