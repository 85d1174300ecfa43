import Mathlib.Data.Nat.Digits.Defs
import Scriptc.Lib.Bytes
import Scriptc.Lib.Coding
import Scriptc.Lib.Numerals
import Scriptc.Runtime.BigIntArith

/-!
# BigInt values and their text

`bi_parse_string` and `scr_bigint_to_string` of `scr_bigint.c`. A string is well-formed UTF-8, and its
length is a `size_t`. What is between the two indices of the parser is a list of bytes here. The
renderer writes its buffer from the end: the place where the next byte goes and the bytes behind it.
-/

namespace Scriptc.Runtime.BigInt

open Limbs Except List

/-! ### Small limbs -/

/-- `v * m + add` -/
def biMulSmall (a : ScrBigInt) (m add : ℕ) : Run ScrBigInt := do
  let r ← biAlloc (a.len + 1)
  let (limb, carry) ← (List.range a.len).foldlM (fun (limb, carry) i => do
    let digit ← readLimb a.limb i
    let x := (digit * m + carry) % 2 ^ 64
    let limb ← writeLimb limb i (x % 2 ^ 32)
    return (limb, x >>> 32)) (r.limb, add)
  let limb ← writeLimb limb a.len (carry % 2 ^ 32)
  let len := a.len + if carry ≠ 0 then 1 else 0
  return ⟨len, if len ≠ 0 then 1 else 0, limb⟩

/-- The quotient stays in the buffer, the remainder is the result. -/
def biDivSmall (limb : List ℕ) (n d : ℕ) : Run (List ℕ × ℕ) :=
  Except.downM (fun (limb, rem) i => do
    let x ← readLimb limb i
    let cur := ((rem <<< 32) % 2 ^ 64) ||| x
    let limb ← writeLimb limb i ((cur / d) % 2 ^ 32)
    return (limb, cur % d)) n (limb, 0)

/-! ### Text to a value -/

def biDigit (c : UInt8) : Option ℕ :=
  if 48 ≤ c ∧ c ≤ 57 then some (c.toNat - 48)
  else if 97 ≤ c ∧ c ≤ 122 then some (c.toNat - 97 + 10)
  else if 65 ≤ c ∧ c ≤ 90 then some (c.toNat - 65 + 10)
  else none

/-- How many bytes of white space there are at the start: one character of it, or none. -/
def biSpacePrefix : Bytes → ℕ
  | [] => 0
  | a :: s =>
    if a ∈ [0x09, 0x0a, 0x0b, 0x0c, 0x0d, 0x20] then 1
    else
      match s with
      | [] => 0
      | b :: s =>
        if a = 0xc2 ∧ b = 0xa0 then 2
        else
          match s with
          | [] => 0
          | c :: _ =>
            if a = 0xe1 ∧ b = 0x9a ∧ c = 0x80 then 3
            else if a = 0xe2 ∧ b = 0x80 ∧ (0x80 ≤ c ∧ c ≤ 0x8a ∨ c = 0xa8 ∨ c = 0xa9 ∨ c = 0xaf) then 3
            else if a = 0xe2 ∧ b = 0x81 ∧ c = 0x9f then 3
            else if a = 0xe3 ∧ b = 0x80 ∧ c = 0x80 then 3
            else if a = 0xef ∧ b = 0xbb ∧ c = 0xbf then 3
            else 0

/-- Back over the bytes `10xxxxxx`. -/
def lastStart (s : Bytes) : ℕ → ℕ
  | 0 => 0
  | start + 1 => if s.getD (start + 1) 0 &&& 0xc0 = 0x80 then lastStart s start else start + 1

def biSpaceSuffix (s : Bytes) : ℕ :=
  if s = [] then 0
  else
    let start := lastStart s (s.length - 1)
    let width := biSpacePrefix (s.drop start)
    if width = s.length - start then width else 0

def skipPrefix (s : Bytes) : Bytes :=
  if biSpacePrefix s ≠ 0 then skipPrefix (s.drop (biSpacePrefix s)) else s
termination_by s.length
decreasing_by
  rcases s with _ | ⟨a, s⟩
  · simp [biSpacePrefix] at *
  · rw [length_drop, length_cons]
    omega

def skipSuffix (s : Bytes) : Bytes :=
  if biSpaceSuffix s ≠ 0 then skipSuffix (s.take (s.length - biSpaceSuffix s)) else s
termination_by s.length
decreasing_by
  rcases s with _ | ⟨a, s⟩
  · simp [biSpaceSuffix] at *
  · rw [length_take, length_cons]
    omega

/-- What the parser returns. -/
inductive Parsed where
  | value (v : ScrBigInt)
  /-- No value, and the message of the `SyntaxError` if one was thrown. -/
  | null (thrown : Option Bytes)
  deriving DecidableEq

def biParseInvalid (s : Bytes) (reportError : Bool) : Parsed :=
  .null (if reportError then some (utf8.text "Cannot convert ".toList ++ s ++ utf8.text " to a BigInt".toList) else none)

/-- The loop over the digits; it ends early at a byte that is no digit of the radix. -/
def parseDigits (radix : ℕ) (v : ScrBigInt) : Bytes → Run (Option ScrBigInt)
  | [] => .ok (some v)
  | c :: s =>
    match biDigit c with
    | some d =>
      if d < radix then do
        let v ← biMulSmall v radix d
        parseDigits radix v s
      else .ok none
    | none => .ok none

/-- The radix of a letter after a zero. -/
def prefixRadix (p : UInt8) : Option ℕ :=
  if p = 0x78 ∨ p = 0x58 then some 16
  else if p = 0x6f ∨ p = 0x4f then some 8
  else if p = 0x62 ∨ p = 0x42 then some 2
  else none

/-- A sign, whether there is one, and what follows. -/
def takeSign : Bytes → ℤ × Bool × Bytes
  | [] => (1, false, [])
  | c :: s => if c = 0x2b then (1, true, s) else if c = 0x2d then (-1, true, s) else (1, false, c :: s)

/-- The radix and its digits. There are none where a radix is named after a sign. -/
def radixDigits (signedInput : Bool) : Bytes → ℕ × Bytes
  | c :: p :: s =>
    match if c = 0x30 then prefixRadix p else none with
    | some radix => (radix, if signedInput then [] else s)
    | none => (10, c :: p :: s)
  | s => (10, s)

/-- The digits, of which there is at least one, and the sign. -/
def parseNumeral (s : Bytes) (reportError : Bool) (sign : ℤ) (radix : ℕ) (digits : Bytes) : Run Parsed := do
  if digits = [] then return biParseInvalid s reportError
  else
    let v ← biZero
    match ← parseDigits radix v digits with
    | none => return biParseInvalid s reportError
    | some v => return .value (if v.sign ≠ 0 then { v with sign } else v)

def biParseString (s : Bytes) (reportError : Bool) : Run Parsed := do
  let body := skipSuffix (skipPrefix s)
  if body = [] then
    let v ← biZero
    return .value v
  else
    let (sign, signedInput, body) := takeSign body
    let (radix, digits) := radixDigits signedInput body
    parseNumeral s reportError sign radix digits

def scrBigintParse (s : Bytes) : Run Parsed := biParseString s true

/-! ### A value to text -/

/-- `"0123456789abcdefghijklmnopqrstuvwxyz"[rem]` -/
def digitByte (rem : ℕ) : UInt8 := if rem < 10 then UInt8.ofNat (48 + rem) else UInt8.ofNat (87 + rem)

/-- `buf[--at]` -/
def pushByte (byte : UInt8) : ℕ × Bytes → Run (ℕ × Bytes)
  | (0, _) => .error .outOfBounds
  | (at' + 1, out) => .ok (at', byte :: out)

/-- Digits are split off while there are limbs. -/
def renderLoop (radix : ℕ) : ℕ → List ℕ → ℕ → Bytes → Run (ℕ × Bytes)
  | at', _, 0, out => .ok (at', out)
  | 0, _, _ + 1, _ => .error .outOfBounds
  | at' + 1, tmp, nlimbs + 1, out => do
    let (tmp, rem) ← biDivSmall tmp (nlimbs + 1) radix
    let nlimbs ← trimLen tmp (nlimbs + 1)
    renderLoop radix at' tmp nlimbs (digitByte rem :: out)

def scrBigintToString (v : ScrBigInt) (radixValue : F64) : Run Bytes := do
  if radixValue.isFinite = false ∨ F64.eq (F64.trunc radixValue) radixValue = false ∨ F64.lt radixValue (F64.ofInt 2) ∨
      F64.lt (F64.ofInt 36) radixValue then
    .error (.rangeError "toString() radix argument must be between 2 and 36")
  else
    let radix := (F64.truncRat radixValue.rat).toNat
    if v.sign = 0 then return [0x30]
    else
      let bits ← biBits v
      if SIZE_MAX - 2 < bits ∨ SIZE_MAX / 4 < v.len then .error .outOfMemory
      else
        let tmp ← copyLimbs (replicate v.len 0) v.limb v.len
        let rendered ← renderLoop radix (bits + 2) tmp v.len []
        let (_, out) ← if v.sign < 0 then pushByte 0x2d rendered else pure rendered
        return out

/-! ### Digits onto a value -/

/-- The product of the limbs below `i`. -/
structure Scaling (a : ScrBigInt) (m add i : ℕ) (s : List ℕ × ℕ) : Prop where
  length : s.1.length = a.len + 1
  limb_lt : ∀ x ∈ s.1, x < base
  carry_lt : s.2 < base
  val_eq : val base (dig s.1) i + s.2 * base ^ i = val base (dig a.limb) i * m + add

variable {a : ScrBigInt} {s : List ℕ × ℕ}

theorem Scaling.step {m add i : ℕ} (ha : Valid a) (hm : m < base) (h : Scaling a m add i s)
    (hi : i < a.len) : Scaling a m add (i + 1)
      (s.1.set i ((dig a.limb i * m + s.2) % 2 ^ 64 % 2 ^ 32), ((dig a.limb i * m + s.2) % 2 ^ 64) >>> 32) := by
  obtain ⟨hlength, hlimb, hcarry, hval⟩ := h
  have hdig := ha.dig_lt i
  have hlt : dig a.limb i * m + s.2 < 2 ^ 64 := by
    have hprod : dig a.limb i * m ≤ (base - 1) * (base - 1) := Nat.mul_le_mul (by omega) (by omega)
    simp only [base] at hprod hcarry
    omega
  rw [Nat.mod_eq_of_lt hlt]
  have hcut := limb_add_carry (dig a.limb i * m + s.2)
  refine ⟨by rw [length_set, hlength], mem_set_lt hlimb (Nat.mod_lt _ base_pos) i, ?_, ?_⟩
  · dsimp only
    rw [Nat.shiftRight_eq_div_pow]
    exact Nat.div_lt_of_lt_mul hlt
  · dsimp only
    rw [val_write (by omega), val_succ, pow_succ]
    generalize (dig a.limb i * m + s.2) % 2 ^ 32 = low at hcut ⊢
    generalize (dig a.limb i * m + s.2) >>> 32 = high at hcut ⊢
    calc val base (dig s.1) i + low * base ^ i + high * (base ^ i * base)
        = val base (dig s.1) i + (low + high * base) * base ^ i := by ring
      _ = (val base (dig s.1) i + s.2 * base ^ i) + dig a.limb i * m * base ^ i := by rw [hcut]; ring
      _ = (val base (dig a.limb) i + dig a.limb i * base ^ i) * m + add := by rw [hval]; ring

/-- The end of a product: the carry becomes the top limb, if there is one. -/
theorem biMulSmall_top (ha : Normal a) {m add : ℕ} (hm : 0 < m) (h : Scaling a m add a.len s) :
    let len := a.len + if s.2 ≠ 0 then 1 else 0
    let r : ScrBigInt := ⟨len, if len ≠ 0 then 1 else 0, s.1.set a.len s.2⟩
    Normal r ∧ 0 ≤ r.sign ∧ r.mag = a.mag * m + add := by
  intro len r
  obtain ⟨hlength, hlimb, hcarry, hval⟩ := h
  have hmag : r.mag = a.mag * m + add := (mag_carry (by omega) _).trans hval
  refine ⟨Normal.of_pow_le (valid_carry (by omega) hlimb hcarry _) ?_ ?_ ?_, ?_, hmag⟩
  · simp only [r]
    split
    · exact .inr (.inr rfl)
    · exact .inr (.inl rfl)
  · simp only [r]
    split <;> omega
  · intro k hk
    rw [hmag]
    by_cases h0 : s.2 = 0
    · simp only [r, len, h0, ne_eq, not_true, if_false, Nat.add_zero] at hk
      exact (ha.pow_le_mag hk).trans ((Nat.le_mul_of_pos_right _ hm).trans (Nat.le_add_right ..))
    · simp only [r, len, if_pos h0] at hk
      obtain rfl : k = a.len := by omega
      change _ ≤ val base (dig a.limb) a.len * m + add
      rw [← hval]
      exact (Nat.le_mul_of_pos_left _ (Nat.pos_of_ne_zero h0)).trans (Nat.le_add_left ..)
  · simp only [r]
    split <;> omega

/-- A digit comes in at the end. -/
theorem biMulSmall_eq (ha : Normal a) {m add : ℕ} (hm0 : 0 < m) (hm : m < base) (hadd : add < base)
    (hcap : a.len + 1 ≤ (SIZE_MAX - 24) / 4) :
    ∃ r, biMulSmall a m add = .ok r ∧ Normal r ∧ 0 ≤ r.sign ∧ r.mag = a.mag * m + add := by
  have halloc : biAlloc (a.len + 1) = .ok ⟨0, 0, replicate (a.len + 1) 0⟩ := if_neg (by omega)
  have hlen := ha.len_le
  apply Post.exists_eq_ok
  rw [biMulSmall, halloc, ok_bind]
  refine Post.bind (Post.foldlM_range (I := Scaling a m add) ?_ ?_) ?_
  · intro i hi s hs
    dsimp only
    rw [readLimb_eq (by omega), ok_bind, writeLimb_eq (by rw [hs.length]; omega), ok_bind]
    exact hs.step ha.toValid hm hi
  · exact ⟨length_replicate, replicate_lt _, hadd, by simp⟩
  · intro s hs
    have hcarry : s.2 % 2 ^ 32 = s.2 := Nat.mod_eq_of_lt hs.carry_lt
    dsimp only
    rw [writeLimb_eq (by rw [hs.length]; omega), ok_bind, hcarry]
    exact biMulSmall_top ha hm0 hs

/-- A digit of the radix. -/
def radixDigit (radix : ℕ) (c : UInt8) : Option ℕ := (biDigit c).filter (· < radix)

variable {v : ScrBigInt}

/-- A value of so many digits has few limbs. -/
theorem len_of_mag_lt (hv : Normal v) {j : ℕ} (hmag : v.mag < 16 ^ j) (hj : j ≤ SIZE_MAX) :
    v.len + 1 ≤ (SIZE_MAX - 24) / 4 := by
  cases hn : v.len with
  | zero => decide
  | succ n =>
    have hlt := (hv.pow_le_mag hn).trans_lt hmag
    rw [show (16 : ℕ) = 2 ^ 4 from rfl, base, ← pow_mul, ← pow_mul] at hlt
    have hexp := (Nat.pow_lt_pow_iff_right (by decide)).mp hlt
    simp only [SIZE_MAX] at hj ⊢
    omega

theorem parseDigits_eq {radix : ℕ} (hpos : 0 < radix) (hradix : radix ≤ 16) {s : Bytes} (hv : Normal v)
    (hsign : 0 ≤ v.sign) {j : ℕ} (hmag : v.mag < 16 ^ j) (hlen : j + s.length ≤ SIZE_MAX) :
    match Numerals.read (radixDigit radix) radix v.mag s with
    | some n => ∃ r, parseDigits radix v s = .ok (some r) ∧ Normal r ∧ 0 ≤ r.sign ∧ r.mag = n
    | none => parseDigits radix v s = .ok none := by
  induction s generalizing v j with
  | nil => exact ⟨v, rfl, hv, hsign, rfl⟩
  | cons c s ih =>
    rw [Numerals.read, parseDigits, radixDigit]
    cases hc : biDigit c with
    | none => rfl
    | some d =>
      rw [Option.filter_some]
      by_cases hd : d < radix
      · have hbase : radix < base := hradix.trans_lt (by decide)
        obtain ⟨r, hr, hnormal, hsign', hmag'⟩ := biMulSmall_eq hv hpos hbase (hd.trans hbase) (len_of_mag_lt hv hmag (by omega))
        have hlt : r.mag < 16 ^ (j + 1) := by
          rw [hmag', pow_succ]
          calc v.mag * radix + d < (v.mag + 1) * radix := by rw [Nat.add_mul, Nat.one_mul]; omega
            _ ≤ 16 ^ j * 16 := Nat.mul_le_mul hmag hradix
        rw [if_pos (decide_eq_true hd), Option.bind_some, ← hmag']
        simp only [if_pos hd, hr, ok_bind]
        exact ih hnormal hsign' hlt (by rw [length_cons] at hlen; omega)
      · simp [hd]

/-! ### Digits off a value -/

/-- The quotient of the limbs from `k` on. -/
structure DividingSmall (src : List ℕ) (n d k : ℕ) (s : List ℕ × ℕ) : Prop where
  length : s.1.length = src.length
  limb_lt : ∀ x ∈ s.1, x < base
  rem_lt : s.2 < d
  below : ∀ i < k, dig s.1 i = dig src i
  upper_eq : upper base (dig src) k n = upper base (dig s.1) k n * d + s.2

theorem DividingSmall.step {src : List ℕ} {n d k : ℕ} (hd : d < base) (h : DividingSmall src n d (k + 1) s)
    (hn : n ≤ src.length) (hk : k < n) :
    let cur := (s.2 <<< 32) % 2 ^ 64 ||| dig s.1 k
    DividingSmall src n d k (s.1.set k (cur / d % 2 ^ 32), cur % d) := by
  intro cur
  obtain ⟨hlength, hlimb, hrem, hbelow, hupper⟩ := h
  have hdig := dig_lt hlimb base_pos k
  have hcur : cur = s.2 * base + dig s.1 k := by
    have hshift : (s.2 <<< 32) % 2 ^ 64 = s.2 <<< 32 := by
      rw [Nat.shiftLeft_eq]
      exact Nat.mod_eq_of_lt (by simp only [base] at hd; omega)
    change (s.2 <<< 32) % 2 ^ 64 ||| dig s.1 k = _
    rw [hshift, ← Nat.shiftLeft_add_eq_or_of_lt hdig, Nat.shiftLeft_eq]
  have hquot : cur / d < base := by
    apply Nat.div_lt_of_lt_mul
    rw [hcur]
    calc s.2 * base + dig s.1 k < (s.2 + 1) * base := by rw [Nat.add_mul, Nat.one_mul]; omega
      _ ≤ d * base := Nat.mul_le_mul_right _ hrem
  rw [Nat.mod_eq_of_lt hquot]
  refine ⟨by rw [length_set, hlength], mem_set_lt hlimb hquot k, Nat.mod_lt _ (by omega), ?_, ?_⟩
  · intro i hi
    rw [dig_set_of_ne (by omega) _ (by omega)]
    exact hbelow i (by omega)
  · have habove : upper base (dig (s.1.set k (cur / d))) (k + 1) n = upper base (dig s.1) (k + 1) n :=
      val_congr fun i _ => dig_set_of_ne (by omega) _ (by omega)
    have hdivmod := Nat.div_add_mod cur d
    dsimp only
    rw [upper_of_lt hk, upper_of_lt hk, habove, dig_set_self (by omega), hupper, ← hbelow k (by omega)]
    calc dig s.1 k + base * (upper base (dig s.1) (k + 1) n * d + s.2)
        = cur + base * upper base (dig s.1) (k + 1) n * d := by rw [hcur]; ring
      _ = (d * (cur / d) + cur % d) + base * upper base (dig s.1) (k + 1) n * d := by rw [hdivmod]
      _ = (cur / d + base * upper base (dig s.1) (k + 1) n) * d + cur % d := by ring

theorem biDivSmall_eq {src : List ℕ} {n d : ℕ} (hsrc : ∀ x ∈ src, x < base) (hn : n ≤ src.length) (hd0 : 0 < d) (hd : d < base) :
    ∃ limb, biDivSmall src n d = .ok (limb, val base (dig src) n % d) ∧ limb.length = src.length ∧ (∀ x ∈ limb, x < base) ∧
      val base (dig limb) n = val base (dig src) n / d := by
  have hstart : DividingSmall src n d n (src, 0) := ⟨rfl, hsrc, hd0, fun _ _ => rfl, by simp [upper_self]⟩
  have hloop : Post (fun _ => False) (DividingSmall src n d 0) (biDivSmall src n d) := by
    rw [biDivSmall]
    refine Post.downM (fun k hk s hs => ?_) hstart
    have hlength := hs.length
    dsimp only
    rw [readLimb_eq (by omega), ok_bind, writeLimb_eq (by omega), ok_bind]
    exact hs.step hd hn hk
  obtain ⟨⟨limb, rem⟩, hrun, hlength, hlimb, hrem, -, hupper⟩ := Post.exists_eq_ok hloop
  rw [upper_zero, upper_zero] at hupper
  dsimp only at hlength hlimb hrem hupper
  refine ⟨limb, ?_, hlength, hlimb, ?_⟩
  · rw [hrun, hupper, Nat.add_comm, Nat.add_mul_mod_self_right, Nat.mod_eq_of_lt hrem]
  · rw [hupper, Nat.add_comm, Nat.add_mul_div_right _ _ hd0, Nat.div_eq_of_lt hrem, Nat.zero_add]

/-- The digits of a number as they are written. -/
def numeral (radix n : ℕ) : Bytes := (Nat.digits radix n).reverse.map digitByte

theorem renderLoop_eq {radix : ℕ} (h2 : 2 ≤ radix) (hradix : radix < base) {k nlimbs : ℕ} {tmp : List ℕ} (out : Bytes)
    (htmp : ∀ x ∈ tmp, x < base) (hn : nlimbs ≤ tmp.length) (htop : ∀ i, nlimbs = i + 1 → dig tmp i ≠ 0)
    (hlt : val base (dig tmp) nlimbs < 2 ^ k) :
    ∃ at', renderLoop radix (k + 2) tmp nlimbs out = .ok (at' + 2, numeral radix (val base (dig tmp) nlimbs) ++ out) := by
  induction k generalizing nlimbs tmp out with
  | zero =>
    cases nlimbs with
    | zero => exact ⟨0, by rw [renderLoop, val_zero, numeral, Nat.digits_zero]; rfl⟩
    | succ n =>
      have hpos := pow_pos base_pos n
      have := pow_le_val (B := base) (htop n rfl)
      omega
  | succ k ih =>
    cases nlimbs with
    | zero => exact ⟨k + 1, by rw [renderLoop, val_zero, numeral, Nat.digits_zero]; rfl⟩
    | succ n =>
      have hle := pow_le_val (B := base) (htop n rfl)
      have hpos := pow_pos base_pos n
      obtain ⟨limb, hdiv, hlength, hlimb, hval⟩ := biDivSmall_eq htmp hn (by omega : 0 < radix) hradix
      obtain ⟨m, htrim, hm, hval', htop'⟩ := trimLen_eq (l := limb) (n := n + 1) (by omega)
      generalize hnum : val base (dig tmp) (n + 1) = num at hle hlt hdiv hval ⊢
      have hsmall : val base (dig limb) m < 2 ^ k := by
        rw [hval', hval]
        calc num / radix ≤ num / 2 := Nat.div_le_div_left h2 (by decide)
          _ < 2 ^ k := by rw [pow_succ] at hlt; omega
      obtain ⟨at', hrest⟩ := ih (digitByte (num % radix) :: out) hlimb (by omega) htop' hsmall
      refine ⟨at', ?_⟩
      rw [renderLoop, hdiv, ok_bind]
      simp only [htrim, ok_bind]
      rw [hrest, hval', hval, numeral, numeral, Nat.digits_def' (by omega) (by omega : 0 < num), reverse_cons, map_append,
        append_assoc]
      rfl

theorem two_pow_limbBits_le {n top : ℕ} (h0 : top ≠ 0) (h : top < 2 ^ n) : 0 < limbBits n top ∧ 2 ^ (limbBits n top - 1) ≤ top := by
  induction n generalizing top with
  | zero => omega
  | succ n ih =>
    rw [limbBits, if_neg h0, Nat.shiftRight_one]
    refine ⟨Nat.succ_pos _, ?_⟩
    rw [Nat.add_sub_cancel]
    by_cases hhalf : top / 2 = 0
    · have hzero : limbBits n (top / 2) = 0 := by
        rw [hhalf]
        cases n <;> rfl
      rw [hzero]
      omega
    · obtain ⟨hpos, hle⟩ := ih hhalf (by rw [pow_succ] at h; omega)
      obtain ⟨k, hk⟩ := Nat.exists_eq_add_of_lt hpos
      rw [hk] at hle ⊢
      rw [show 0 + k + 1 = k + 1 by omega] at hle ⊢
      rw [Nat.add_sub_cancel] at hle
      rw [pow_succ]
      omega

/-- The number of bits, if a `size_t` holds it. -/
theorem biBits_eq (ha : Normal a) (h0 : a.sign ≠ 0) :
    ∃ bits, biBits a = (if SIZE_MAX < bits then .error .outOfMemory else .ok bits) ∧ a.mag < 2 ^ bits ∧ 2 ^ (bits - 1) ≤ a.mag ∧
      32 * (a.len - 1) < bits := by
  have hlen := ha.len_le
  have hne : a.len ≠ 0 := fun h => h0 (ha.sign_iff.mpr h)
  obtain ⟨n, hn⟩ := Nat.exists_eq_succ_of_ne_zero hne
  have htop := lt_two_pow_limbBits (n := 32) (ha.dig_lt n)
  obtain ⟨hpos, hle⟩ := two_pow_limbBits_le (n := 32) (ha.top n hn) (ha.dig_lt n)
  have hlimb := limbBits_le 32 (dig a.limb n)
  have hlow := val_lt (n := n) fun i _ => ha.dig_lt i
  have hmag : a.mag = val base (dig a.limb) n + dig a.limb n * base ^ n := by rw [ScrBigInt.mag, hn]; rfl
  refine ⟨n * 32 + limbBits 32 (dig a.limb n), ?_, ?_, ?_, by omega⟩
  · rw [biBits, if_neg hne, hn, Nat.succ_sub_one, readLimb_eq (by omega), ok_bind]
    dsimp only
    generalize limbBits 32 (dig a.limb n) = high at hlimb
    have hsize : (SIZE_MAX - high) / 32 < n ↔ SIZE_MAX < n * 32 + high := by
      simp only [SIZE_MAX]
      omega
    by_cases hbig : SIZE_MAX < n * 32 + high
    · rw [if_pos (hsize.mpr hbig), if_pos hbig]
    · rw [if_neg (fun h => hbig (hsize.mp h)), if_neg hbig]
      rfl
  · generalize limbBits 32 (dig a.limb n) = high at htop
    calc a.mag < base ^ n + dig a.limb n * base ^ n := by omega
      _ = (dig a.limb n + 1) * base ^ n := by ring
      _ ≤ 2 ^ high * base ^ n := Nat.mul_le_mul_right _ htop
      _ = 2 ^ (n * 32 + high) := by rw [base_pow, ← pow_add]; congr 1; omega
  · generalize limbBits 32 (dig a.limb n) = high at hpos hle
    calc 2 ^ (n * 32 + high - 1) = 2 ^ (high - 1) * base ^ n := by rw [base_pow, ← pow_add]; congr 1; omega
      _ ≤ dig a.limb n * base ^ n := Nat.mul_le_mul_right _ hle
      _ ≤ a.mag := by omega

/-- A radix as a number. -/
def IsRadix (radixValue : F64) (radix : ℕ) : Prop :=
  radixValue.isFinite = true ∧ F64.eq (F64.trunc radixValue) radixValue = true ∧ ¬F64.lt radixValue (F64.ofInt 2) ∧
    ¬F64.lt (F64.ofInt 36) radixValue ∧ (F64.truncRat radixValue.rat).toNat = radix ∧ 2 ≤ radix ∧ radix ≤ 36

instance (radixValue : F64) (radix : ℕ) : Decidable (IsRadix radixValue radix) := inferInstanceAs (Decidable (_ ∧ _))

example : IsRadix (F64.ofInt 10) 10 := by decide +kernel

/-- The text of an integer. -/
def integerText (radix : ℕ) (z : ℤ) : Bytes :=
  if z = 0 then [0x30] else (if z < 0 then [0x2d] else []) ++ numeral radix z.natAbs

theorem Normal.natAbs_value (hv : Normal v) : v.value.natAbs = v.mag := by
  rcases hv.sign_cases with hs | hs | hs
  · simp [ScrBigInt.value, hs]
  · rw [value_eq_zero hs, hv.mag_eq_zero.mpr hs]
    rfl
  · simp [ScrBigInt.value, hs]

/-- The program ends where the buffer would be too large for a `size_t`, and else there is the text. -/
theorem scrBigintToString_eq (hv : Normal v) {radixValue : F64} {radix : ℕ} (hr : IsRadix radixValue radix) :
    (v.mag < 2 ^ (SIZE_MAX - 2) → scrBigintToString v radixValue = .ok (integerText radix v.value)) ∧
      (2 ^ (SIZE_MAX - 2) ≤ v.mag → scrBigintToString v radixValue = .error .outOfMemory) := by
  obtain ⟨hfinite, htrunc, hlo, hhi, htoNat, h2, h36⟩ := hr
  have hcheck : ¬(radixValue.isFinite = false ∨ F64.eq (F64.trunc radixValue) radixValue = false ∨
      F64.lt radixValue (F64.ofInt 2) ∨ F64.lt (F64.ofInt 36) radixValue) := by
    rw [hfinite, htrunc]
    rintro (h | h | h | h)
    · exact absurd h (by decide)
    · exact absurd h (by decide)
    · exact hlo h
    · exact hhi h
  have hpow := Nat.two_pow_pos (SIZE_MAX - 2)
  rw [scrBigintToString, if_neg hcheck, htoNat]
  by_cases h0 : v.sign = 0
  · have hmag := hv.mag_eq_zero.mpr h0
    rw [if_pos h0, integerText, if_pos (value_eq_zero h0)]
    refine ⟨fun _ => rfl, fun h => ?_⟩
    omega
  · obtain ⟨bits, hbits, hlt, hle, hwords⟩ := biBits_eq hv h0
    have hfits : v.mag < 2 ^ (SIZE_MAX - 2) ↔ bits ≤ SIZE_MAX - 2 := by
      constructor
      · intro h
        have hexp := (Nat.pow_lt_pow_iff_right (by decide)).mp (hle.trans_lt h)
        omega
      · exact fun h => hlt.trans_le (Nat.pow_le_pow_right (by decide) h)
    have hlen : bits ≤ SIZE_MAX - 2 → ¬(SIZE_MAX - 2 < bits ∨ SIZE_MAX / 4 < v.len) := by
      intro h
      simp only [SIZE_MAX] at h ⊢
      omega
    rw [if_neg h0, hbits]
    constructor
    · intro h
      have hbound := hfits.mp h
      obtain ⟨tmp, hcopy, hlength, hdig, -, htmp⟩ := copyLimbs_eq hv.len_le
        (length_replicate (n := v.len) (a := 0)).ge
      have hmag : val base (dig tmp) v.len = v.mag := val_congr hdig
      obtain ⟨at', hrender⟩ := renderLoop_eq h2 (by simp only [base]; omega) (k := bits) [] (htmp hv.limb_lt (replicate_lt _))
        (by rw [hlength, length_replicate]) (fun i hi => by rw [hdig i (by omega)]; exact hv.top i hi) (lt_of_eq_of_lt hmag hlt)
      have hvalue : v.value ≠ 0 := mul_ne_zero h0 (by exact_mod_cast fun h => h0 (hv.mag_eq_zero.mp h))
      rw [if_neg (by omega : ¬SIZE_MAX < bits), ok_bind, if_neg (hlen hbound), hcopy, ok_bind, hrender, ok_bind, integerText,
        if_neg hvalue, hv.natAbs_value, hmag, append_nil]
      rcases hv.sign_of_ne h0 with hs | hs
      · have hneg : v.value < 0 := by
          rw [ScrBigInt.value, hs]
          have := Int.natCast_nonneg v.mag
          rw [ScrBigInt.value, hs] at hvalue
          omega
        rw [if_pos (by omega), if_pos hneg]
        rfl
      · have hpos : ¬v.value < 0 := by
          rw [ScrBigInt.value, hs]
          omega
        rw [if_neg (by omega), if_neg hpos]
        rfl
    · intro h
      have hbound : SIZE_MAX - 2 < bits := by
        by_contra hb
        exact absurd (hfits.mpr (by omega)) (by omega)
      split
      · rfl
      · rw [ok_bind, if_pos (.inl hbound)]

end Scriptc.Runtime.BigInt
