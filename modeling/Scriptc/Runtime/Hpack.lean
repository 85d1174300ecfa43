import Mathlib.Tactic.IntervalCases
import Scriptc.Lib.Bytes

/-!
# HPACK

The header compression of `scr_http2.c`: the integer and string codecs, the Huffman decoder, the
dynamic table, and the decoder and encoder of header blocks.

The entries of the dynamic table are buffers that `malloc` gave out and that eviction frees, and
the decoder holds on to a name by its address. So the buffers are part of the state. A step that
reads or frees a buffer that is no longer there, or reads a slot of the ring that was never
written, has no meaning: it gives `none`.

Sizes are naturals. No sum of them overflows: a block is shorter than `2 ^ 63`, and what it
decodes to is at most eight fifths of that, and the table adds at most its own size. Likewise the
integer decoder stops before the ten octets that a `uint64_t` might not hold.
-/

namespace Scriptc.Runtime.Hpack

open List Option

/-! ### Tables -/

/-- The Huffman code of each symbol, and its length. The last symbol is `EOS`. -/
def SCR_H2_HUFF : List (ℕ × ℕ) :=
  [ (0x1ff8, 13), (0x7fffd8, 23), (0xfffffe2, 28), (0xfffffe3, 28), (0xfffffe4, 28), (0xfffffe5, 28),
    (0xfffffe6, 28), (0xfffffe7, 28), (0xfffffe8, 28), (0xffffea, 24), (0x3ffffffc, 30), (0xfffffe9, 28),
    (0xfffffea, 28), (0x3ffffffd, 30), (0xfffffeb, 28), (0xfffffec, 28), (0xfffffed, 28), (0xfffffee, 28),
    (0xfffffef, 28), (0xffffff0, 28), (0xffffff1, 28), (0xffffff2, 28), (0x3ffffffe, 30), (0xffffff3, 28),
    (0xffffff4, 28), (0xffffff5, 28), (0xffffff6, 28), (0xffffff7, 28), (0xffffff8, 28), (0xffffff9, 28),
    (0xffffffa, 28), (0xffffffb, 28), (0x14, 6), (0x3f8, 10), (0x3f9, 10), (0xffa, 12), (0x1ff9, 13), (0x15, 6),
    (0xf8, 8), (0x7fa, 11), (0x3fa, 10), (0x3fb, 10), (0xf9, 8), (0x7fb, 11), (0xfa, 8), (0x16, 6), (0x17, 6),
    (0x18, 6), (0x0, 5), (0x1, 5), (0x2, 5), (0x19, 6), (0x1a, 6), (0x1b, 6), (0x1c, 6), (0x1d, 6), (0x1e, 6),
    (0x1f, 6), (0x5c, 7), (0xfb, 8), (0x7ffc, 15), (0x20, 6), (0xffb, 12), (0x3fc, 10), (0x1ffa, 13), (0x21, 6),
    (0x5d, 7), (0x5e, 7), (0x5f, 7), (0x60, 7), (0x61, 7), (0x62, 7), (0x63, 7), (0x64, 7), (0x65, 7), (0x66, 7),
    (0x67, 7), (0x68, 7), (0x69, 7), (0x6a, 7), (0x6b, 7), (0x6c, 7), (0x6d, 7), (0x6e, 7), (0x6f, 7), (0x70, 7),
    (0x71, 7), (0x72, 7), (0xfc, 8), (0x73, 7), (0xfd, 8), (0x1ffb, 13), (0x7fff0, 19), (0x1ffc, 13), (0x3ffc, 14),
    (0x22, 6), (0x7ffd, 15), (0x3, 5), (0x23, 6), (0x4, 5), (0x24, 6), (0x5, 5), (0x25, 6), (0x26, 6), (0x27, 6),
    (0x6, 5), (0x74, 7), (0x75, 7), (0x28, 6), (0x29, 6), (0x2a, 6), (0x7, 5), (0x2b, 6), (0x76, 7), (0x2c, 6),
    (0x8, 5), (0x9, 5), (0x2d, 6), (0x77, 7), (0x78, 7), (0x79, 7), (0x7a, 7), (0x7b, 7), (0x7ffe, 15), (0x7fc, 11),
    (0x3ffd, 14), (0x1ffd, 13), (0xffffffc, 28), (0xfffe6, 20), (0x3fffd2, 22), (0xfffe7, 20), (0xfffe8, 20),
    (0x3fffd3, 22), (0x3fffd4, 22), (0x3fffd5, 22), (0x7fffd9, 23), (0x3fffd6, 22), (0x7fffda, 23), (0x7fffdb, 23),
    (0x7fffdc, 23), (0x7fffdd, 23), (0x7fffde, 23), (0xffffeb, 24), (0x7fffdf, 23), (0xffffec, 24), (0xffffed, 24),
    (0x3fffd7, 22), (0x7fffe0, 23), (0xffffee, 24), (0x7fffe1, 23), (0x7fffe2, 23), (0x7fffe3, 23), (0x7fffe4, 23),
    (0x1fffdc, 21), (0x3fffd8, 22), (0x7fffe5, 23), (0x3fffd9, 22), (0x7fffe6, 23), (0x7fffe7, 23), (0xffffef, 24),
    (0x3fffda, 22), (0x1fffdd, 21), (0xfffe9, 20), (0x3fffdb, 22), (0x3fffdc, 22), (0x7fffe8, 23), (0x7fffe9, 23),
    (0x1fffde, 21), (0x7fffea, 23), (0x3fffdd, 22), (0x3fffde, 22), (0xfffff0, 24), (0x1fffdf, 21), (0x3fffdf, 22),
    (0x7fffeb, 23), (0x7fffec, 23), (0x1fffe0, 21), (0x1fffe1, 21), (0x3fffe0, 22), (0x1fffe2, 21), (0x7fffed, 23),
    (0x3fffe1, 22), (0x7fffee, 23), (0x7fffef, 23), (0xfffea, 20), (0x3fffe2, 22), (0x3fffe3, 22), (0x3fffe4, 22),
    (0x7ffff0, 23), (0x3fffe5, 22), (0x3fffe6, 22), (0x7ffff1, 23), (0x3ffffe0, 26), (0x3ffffe1, 26), (0xfffeb, 20),
    (0x7fff1, 19), (0x3fffe7, 22), (0x7ffff2, 23), (0x3fffe8, 22), (0x1ffffec, 25), (0x3ffffe2, 26),
    (0x3ffffe3, 26), (0x3ffffe4, 26), (0x7ffffde, 27), (0x7ffffdf, 27), (0x3ffffe5, 26), (0xfffff1, 24),
    (0x1ffffed, 25), (0x7fff2, 19), (0x1fffe3, 21), (0x3ffffe6, 26), (0x7ffffe0, 27), (0x7ffffe1, 27),
    (0x3ffffe7, 26), (0x7ffffe2, 27), (0xfffff2, 24), (0x1fffe4, 21), (0x1fffe5, 21), (0x3ffffe8, 26),
    (0x3ffffe9, 26), (0xffffffd, 28), (0x7ffffe3, 27), (0x7ffffe4, 27), (0x7ffffe5, 27), (0xfffec, 20),
    (0xfffff3, 24), (0xfffed, 20), (0x1fffe6, 21), (0x3fffe9, 22), (0x1fffe7, 21), (0x1fffe8, 21), (0x7ffff3, 23),
    (0x3fffea, 22), (0x3fffeb, 22), (0x1ffffee, 25), (0x1ffffef, 25), (0xfffff4, 24), (0xfffff5, 24),
    (0x3ffffea, 26), (0x7ffff4, 23), (0x3ffffeb, 26), (0x7ffffe6, 27), (0x3ffffec, 26), (0x3ffffed, 26),
    (0x7ffffe7, 27), (0x7ffffe8, 27), (0x7ffffe9, 27), (0x7ffffea, 27), (0x7ffffeb, 27), (0xffffffe, 28),
    (0x7ffffec, 27), (0x7ffffed, 27), (0x7ffffee, 27), (0x7ffffef, 27), (0x7fffff0, 27), (0x3ffffee, 26),
    (0x3fffffff, 30)]

def SCR_H2_STATIC : List (String × String) :=
  [ (":authority", ""), (":method", "GET"), (":method", "POST"), (":path", "/"), (":path", "/index.html"),
    (":scheme", "http"), (":scheme", "https"), (":status", "200"), (":status", "204"), (":status", "206"),
    (":status", "304"), (":status", "400"), (":status", "404"), (":status", "500"), ("accept-charset", ""),
    ("accept-encoding", "gzip, deflate"), ("accept-language", ""), ("accept-ranges", ""), ("accept", ""),
    ("access-control-allow-origin", ""), ("age", ""), ("allow", ""), ("authorization", ""), ("cache-control", ""),
    ("content-disposition", ""), ("content-encoding", ""), ("content-language", ""), ("content-length", ""),
    ("content-location", ""), ("content-range", ""), ("content-type", ""), ("cookie", ""), ("date", ""),
    ("etag", ""), ("expect", ""), ("expires", ""), ("from", ""), ("host", ""), ("if-match", ""),
    ("if-modified-since", ""), ("if-none-match", ""), ("if-range", ""), ("if-unmodified-since", ""),
    ("last-modified", ""), ("link", ""), ("location", ""), ("max-forwards", ""), ("proxy-authenticate", ""),
    ("proxy-authorization", ""), ("range", ""), ("referer", ""), ("refresh", ""), ("retry-after", ""),
    ("server", ""), ("set-cookie", ""), ("strict-transport-security", ""), ("transfer-encoding", ""),
    ("user-agent", ""), ("vary", ""), ("via", ""), ("www-authenticate", "")]

def bytesOf (s : String) : Bytes := s.toUTF8.data.toList

/-- The static table, as the code compares and copies it. -/
def staticTable : List (Bytes × Bytes) := SCR_H2_STATIC.map fun e => (bytesOf e.1, bytesOf e.2)

/-! ### Huffman decoding -/

inductive HuffNode where
  | null
  | node (sym : Option ℕ) (zero one : HuffNode)

namespace HuffNode

def child : HuffNode → Bool → HuffNode
  | null, _ => null
  | node _ zero _, false => zero
  | node _ _ one, true => one

def sym : HuffNode → Option ℕ
  | null => none
  | node s _ _ => s

/-- Walk down the bits of a code, with new nodes where there are none, and leave the symbol there. -/
def insert (s : ℕ) : List Bool → HuffNode → HuffNode
  | [], null => node (some s) null null
  | [], node _ zero one => node (some s) zero one
  | false :: bits, null => node none (insert s bits null) null
  | true :: bits, null => node none null (insert s bits null)
  | false :: bits, node v zero one => node v (insert s bits zero) one
  | true :: bits, node v zero one => node v zero (insert s bits one)

end HuffNode

/-- The lowest bits of a number, the highest of them first. -/
def bitsOf (code len : ℕ) : List Bool := (List.range len).reverse.map fun b => code.testBit b

def huffRoot : HuffNode :=
  SCR_H2_HUFF.zipIdx.foldl (fun root e => root.insert e.2 (bitsOf e.1.1 e.1.2)) (.node none .null .null)

/-- The walk over the bits: the node, the bits since the last symbol, and the symbols so far. -/
structure HuffWalk where
  node : HuffNode
  path : List Bool
  out : Bytes

def huffBit (w : HuffWalk) (bit : Bool) : Option HuffWalk :=
  match w.node.child bit with
  | .null => none
  | .node none zero one => some { w with node := .node none zero one, path := w.path ++ [bit] }
  | .node (some s) _ _ => if s = 256 then none else some { node := huffRoot, path := [], out := w.out ++ [UInt8.ofNat s] }

/-- Decode Huffman bytes. What is left over must be ones, and at most seven: a node is the one
that so many ones lead to exactly when ones led to it. -/
def huffDecode (p : Bytes) : Option Bytes := do
  let w ← (p.flatMap fun b => bitsOf b.toNat 8).foldlM huffBit { node := huffRoot, path := [], out := [] }
  if 7 < w.path.length then none else if w.path.all id then some w.out else none

/-! ### Integers and strings -/

/-- The continuation octets of an integer, from a shift on. -/
def intRest (v shift : ℕ) : Bytes → Option (ℕ × Bytes)
  | [] => none
  | b :: p =>
    if 56 < shift then none
    else
      let v := v + (b.toNat &&& 0x7f) <<< shift
      if b.toNat &&& 0x80 = 0 then some (v, p) else intRest v (shift + 7) p

def maxPrefix (bits : ℕ) : ℕ := 1 <<< bits - 1

/-- An integer, and what follows it. -/
def intDecode (bits : ℕ) : Bytes → Option (ℕ × Bytes)
  | [] => none
  | b :: p =>
    let v := b.toNat &&& maxPrefix bits
    if v < maxPrefix bits then some (v, p) else intRest v 0 p

/-- A string literal, and what follows it. -/
def strDecode : Bytes → Option (Bytes × Bytes)
  | [] => none
  | b :: p => do
    let (len, q) ← intDecode 7 (b :: p)
    if q.length < len then none
    else do
      let s ← if b.toNat &&& 0x80 ≠ 0 then huffDecode (q.take len) else some (q.take len)
      some (s, q.drop len)

/-- The octets after the first one. -/
def restEncode (v : ℕ) : Bytes :=
  if h : 128 ≤ v then UInt8.ofNat (v % 128 + 128) :: restEncode (v / 128) else [UInt8.ofNat v]
termination_by v
decreasing_by omega

def intEncode (firstBits bits v : ℕ) : Bytes :=
  if v < maxPrefix bits then [UInt8.ofNat (firstBits ||| v)]
  else UInt8.ofNat (firstBits ||| maxPrefix bits) :: restEncode (v - maxPrefix bits)

def strEncode (s : Bytes) : Bytes := intEncode 0x00 7 s.length ++ s

/-! ### Encoding -/

/-- The search of the static table from a position on, with the first position whose name
matches, or zero: a full match, or that position. -/
def staticSearch (name value : Bytes) : ℕ → ℕ → List (Bytes × Bytes) → ℕ ⊕ ℕ
  | nameIdx, _, [] => .inr nameIdx
  | nameIdx, i, e :: es =>
    if e.1 ≠ name then staticSearch name value nameIdx (i + 1) es
    else if e.2 = value then .inl (i + 1)
    else staticSearch name value (if nameIdx = 0 then i + 1 else nameIdx) (i + 1) es

/-- One header: indexed where the static table has it, a literal without indexing otherwise. -/
def hpackEncode (name value : Bytes) : Bytes :=
  match staticSearch name value 0 0 staticTable with
  | .inl i => intEncode 0x80 7 i
  | .inr nameIdx => intEncode 0x00 4 nameIdx ++ (if nameIdx = 0 then strEncode name else []) ++ strEncode value

/-! ### Buffers -/

/-- The buffers that `malloc` gave out. A freed one holds nothing. -/
structure Heap where
  next : ℕ
  block : ℕ → Option Bytes

namespace Heap

def empty : Heap := ⟨0, fun _ => none⟩

/-- A new buffer with these bytes. -/
def malloc (h : Heap) (bytes : Bytes) : Heap × ℕ :=
  (⟨h.next + 1, Function.update h.block h.next (some bytes)⟩, h.next)

def free (h : Heap) (p : ℕ) : Option Heap := do
  let _ ← h.block p
  some { h with block := Function.update h.block p none }

end Heap

/-- A string that the decoder holds: bytes of its own or of the program, or a buffer of the table. -/
inductive Str where
  | bytes (b : Bytes)
  | buffer (p len : ℕ)

namespace Str

def len : Str → ℕ
  | bytes b => b.length
  | buffer _ n => n

def read (h : Heap) : Str → Option Bytes
  | bytes b => some b
  | buffer p n => do
    let b ← h.block p
    if n ≤ b.length then some (b.take n) else none

end Str

/-! ### The dynamic table -/

/-- A field of the table, as positions in its buffer. -/
structure TableEntry where
  name : ℕ
  nameLen : ℕ
  value : ℕ
  valueLen : ℕ

/-- A ring of entries, the newest before the head. -/
structure Dyntab where
  e : List (Option TableEntry)
  head : ℕ
  n : ℕ
  size : ℕ
  max : ℕ
  settingsMax : ℕ

namespace Dyntab

def init : Dyntab := { e := [], head := 0, n := 0, size := 0, max := 4096, settingsMax := 4096 }

variable (t : Dyntab)

def cap : ℕ := t.e.length

/-- The entry in a slot of the ring. -/
def slot (i : ℕ) : Option TableEntry := t.e[i]?.join

end Dyntab

/-- Free the oldest entry. -/
def evictOne (h : Heap) (t : Dyntab) : Option (Heap × Dyntab) := do
  let e ← t.slot ((t.head + t.cap - t.n) % t.cap)
  let h ← h.free e.name
  let h ← h.free e.value
  some (h, { t with size := t.size - (e.nameLen + e.valueLen + 32), n := t.n - 1 })

def evictLoop (need : ℕ) : ℕ → Heap → Dyntab → Option (Heap × Dyntab)
  | 0, h, t => some (h, t)
  | k + 1, h, t =>
    if 0 < t.n ∧ t.max < t.size + need then do
      let (h, t) ← evictOne h t
      evictLoop need k h t
    else some (h, t)

/-- Free the oldest entries until so many octets fit. Each turn frees one, so there are no more
turns than entries. -/
def dyntabEvict (h : Heap) (t : Dyntab) (need : ℕ) : Option (Heap × Dyntab) := evictLoop need t.n h t

/-- A ring of twice the size, the oldest entry first. -/
def growRing (t : Dyntab) : Dyntab :=
  let ncap := if t.cap = 0 then 16 else t.cap * 2
  { t with
    e := (List.range t.n).map (fun i => t.slot ((t.head + t.cap - t.n + i) % t.cap)) ++ replicate (ncap - t.n) none
    head := t.n }

def dyntabAdd (h : Heap) (t : Dyntab) (name : Str) (value : Bytes) : Option (Heap × Dyntab) := do
  let need := name.len + value.length + 32
  let (h, t) ← dyntabEvict h t need
  if t.max < need then some (h, t)
  else
    let t := if t.n = t.cap then growRing t else t
    let bytes ← name.read h
    let (h, p) := h.malloc bytes
    let (h, q) := h.malloc value
    some (h, { t with
      e := t.e.set t.head (some ⟨p, name.len, q, value.length⟩)
      head := (t.head + 1) % t.cap
      n := t.n + 1
      size := t.size + need })

/-- The entry at an index, `some none` where the index is bad. -/
def tableLookup (t : Dyntab) (idx : ℕ) : Option (Option (Str × Str)) :=
  if 1 ≤ idx ∧ idx ≤ 61 then some (staticTable[idx - 1]?.map fun e => (.bytes e.1, .bytes e.2))
  else if 62 ≤ idx ∧ idx - 62 < t.n then do
    let e ← t.slot ((t.head + t.cap - 1 - (idx - 62)) % t.cap)
    some (some (.buffer e.name e.nameLen, .buffer e.value e.valueLen))
  else some none

/-! ### Decoding -/

/-- The state of a decoder, with the headers of the current block. -/
structure Decoder where
  heap : Heap
  table : Dyntab
  out : List (Bytes × Bytes)

/-- What one field of a block leads to. -/
inductive FieldResult where
  | more (d : Decoder) (p : Bytes)
  | bad (d : Decoder)

/-- A literal: its name, by index or spelled out, and what follows the name. -/
def literalName (t : Dyntab) (idx : ℕ) (p : Bytes) : Option (Option (Str × Bytes)) :=
  if idx = 0 then some ((strDecode p).map fun s => (.bytes s.1, s.2))
  else do
    let e ← tableLookup t idx
    some (e.map fun e => (e.1, p))

/-- The field that starts with an octet. -/
def decodeField (d : Decoder) (b : UInt8) (p : Bytes) : Option FieldResult :=
  if b.toNat &&& 0x80 ≠ 0 then
    match intDecode 7 (b :: p) with
    | none => some (.bad d)
    | some (idx, p) => do
      let e ← tableLookup d.table idx
      match e with
      | none => some (.bad d)
      | some (name, value) => do
        let name ← name.read d.heap
        let value ← value.read d.heap
        some (.more { d with out := d.out ++ [(name, value)] } p)
  else if b.toNat &&& 0xe0 = 0x20 then
    match intDecode 5 (b :: p) with
    | none => some (.bad d)
    | some (sz, p) =>
      if d.table.settingsMax < sz then some (.bad d)
      else do
        let (h, t) ← dyntabEvict d.heap { d.table with max := sz } 0
        some (.more { d with heap := h, table := t } p)
  else
    let incremental := b.toNat &&& 0xc0 = 0x40
    match intDecode (if incremental then 6 else 4) (b :: p) with
    | none => some (.bad d)
    | some (idx, p) => do
      let name ← literalName d.table idx p
      match name with
      | none => some (.bad d)
      | some (name, p) =>
        match strDecode p with
        | none => some (.bad d)
        | some (value, p) => do
          let (h, t) ← if incremental then dyntabAdd d.heap d.table name value else some (d.heap, d.table)
          let bytes ← name.read h
          some (.more { heap := h, table := t, out := d.out ++ [(bytes, value)] } p)

/-- A block, field by field: the decoder it leaves, and whether the block was good. Each field
takes an octet or more, so there are no more fields than octets. -/
def decodeLoop : ℕ → Decoder → Bytes → Option (Decoder × Bool)
  | _, d, [] => some (d, true)
  | 0, d, _ :: _ => some (d, false)
  | k + 1, d, b :: p => do
    match ← decodeField d b p with
    | .more d p => decodeLoop k d p
    | .bad d => some (d, false)

/-- Decode a complete header block. -/
def hpackDecode (h : Heap) (t : Dyntab) (p : Bytes) : Option (Decoder × Bool) := decodeLoop p.length ⟨h, t, []⟩ p

/-!
## HPACK encoding and decoding are inverse

What the encoder writes for a list of headers is read back as that list, whatever is in the
decoder's table, and the table stays as it is. The integers are read back up to what nine
continuation octets carry; the decoder refuses a tenth one.
-/

/-! ### Integers -/

theorem maxPrefix_eq (bits : ℕ) : maxPrefix bits = 2 ^ bits - 1 := by
  rw [maxPrefix, Nat.shiftLeft_eq, one_mul]

theorem restEncode_of_lt {v : ℕ} (h : v < 128) : restEncode v = [UInt8.ofNat v] := by
  rw [restEncode, dif_neg (by omega)]

theorem restEncode_of_le {v : ℕ} (h : 128 ≤ v) :
    restEncode v = UInt8.ofNat (v % 128 + 128) :: restEncode (v / 128) := by
  rw [restEncode, dif_pos h]

theorem toNat_ofNat {n : ℕ} (h : n < 256) : (UInt8.ofNat n).toNat = n := by
  rw [UInt8.toNat_ofNat']
  exact Nat.mod_eq_of_lt h

theorem low_bits (n : ℕ) : n &&& 0x7f = n % 128 := Nat.and_two_pow_sub_one_eq_mod n 7

/-- The bit that says that an integer goes on. -/
theorem high_bit {n : ℕ} (h : n < 256) : n &&& 0x80 = 0 ↔ n < 128 := by
  decide +kernel +revert

/-- The last octet. -/
theorem intRest_last {a shift v : ℕ} (hs : shift ≤ 56) (hv : v < 128) (p : Bytes) :
    intRest a shift (UInt8.ofNat v :: p) = some (a + v * 2 ^ shift, p) := by
  rw [intRest, if_neg (by omega), toNat_ofNat (by omega), low_bits, Nat.mod_eq_of_lt hv]
  dsimp only
  rw [if_pos ((high_bit (by omega)).mpr hv), Nat.shiftLeft_eq]

/-- An octet that is not the last. -/
theorem intRest_more {a shift v : ℕ} (hs : shift ≤ 56) (hv : v < 128) (p : Bytes) :
    intRest a shift (UInt8.ofNat (v + 128) :: p) = intRest (a + v * 2 ^ shift) (shift + 7) p := by
  have hm : (v + 128) % 128 = v := by omega
  rw [intRest, if_neg (by omega), toNat_ofNat (by omega), low_bits, hm]
  dsimp only
  rw [if_neg (by rw [high_bit (by omega)]; omega), Nat.shiftLeft_eq]

/-- A tenth octet is refused. -/
theorem intRest_long {a shift : ℕ} (hs : 56 < shift) (p : Bytes) : intRest a shift p = none := by
  cases p with
  | nil => rfl
  | cons b p => rw [intRest, if_pos hs]

theorem intRest_restEncode {j : ℕ} (hj : j ≤ 8) (a v : ℕ) (p : Bytes) :
    intRest a (7 * j) (restEncode v ++ p) = if v < 128 ^ (9 - j) then some (a + v * 128 ^ j, p) else none := by
  have hpow : 2 ^ (7 * j) = 128 ^ j := by rw [pow_mul]; rfl
  induction v using Nat.strong_induction_on generalizing j a with
  | _ v ih =>
    by_cases hv : v < 128
    · have hle : 128 ≤ 128 ^ (9 - j) := by
        calc 128 = 128 ^ 1 := (pow_one _).symm
          _ ≤ 128 ^ (9 - j) := Nat.pow_le_pow_right (by omega) (by omega)
      rw [restEncode_of_lt hv, singleton_append, intRest_last (by omega) hv, if_pos (by omega), hpow]
    · rw [not_lt] at hv
      have hdiv := Nat.div_add_mod v 128
      rw [restEncode_of_le hv, cons_append, intRest_more (by omega) (Nat.mod_lt _ (by omega)), hpow]
      rcases Nat.lt_or_ge j 8 with hlt | hge
      · have hexp : 9 - j = 9 - (j + 1) + 1 := by omega
        rw [show 7 * j + 7 = 7 * (j + 1) by ring, ih (v / 128) (by omega) (by omega) _ (by rw [pow_mul]; rfl)]
        have hexp' : 128 ^ (9 - j) = 128 ^ (9 - (j + 1)) * 128 := by rw [hexp, pow_succ]
        rw [hexp']
        by_cases hlt : v / 128 < 128 ^ (9 - (j + 1))
        · rw [if_pos hlt, if_pos ((Nat.div_lt_iff_lt_mul (by omega)).mp hlt)]
          congr 2
          rw [pow_succ]
          calc a + v % 128 * 128 ^ j + v / 128 * (128 ^ j * 128) = a + (128 * (v / 128) + v % 128) * 128 ^ j := by ring
            _ = a + v * 128 ^ j := by rw [hdiv]
        · rw [if_neg hlt, if_neg (fun h => hlt ((Nat.div_lt_iff_lt_mul (by omega)).mpr h))]
      · -- the ninth octet says that there is more
        obtain rfl : j = 8 := by omega
        rw [intRest_long (by omega), if_neg (by omega)]

/-- The first octet: the bits that say what follows, and as much of the integer as fits. -/
theorem first_octet {firstBits bits v : ℕ} (hb : bits ≤ 8) (hf : firstBits < 256) (hd : 2 ^ bits ∣ firstBits)
    (hv : v < 2 ^ bits) : (UInt8.ofNat (firstBits ||| v)).toNat &&& maxPrefix bits = v := by
  obtain ⟨q, rfl⟩ := hd
  have hor : 2 ^ bits * q ||| v = 2 ^ bits * q + v := (Nat.two_pow_add_eq_or_of_lt hv q).symm
  have hlt : 2 ^ bits * q ||| v < 2 ^ 8 :=
    Nat.or_lt_two_pow hf (hv.trans_le (Nat.pow_le_pow_right (by omega) hb))
  rw [toNat_ofNat hlt, maxPrefix_eq, Nat.and_two_pow_sub_one_eq_mod, hor, Nat.mul_add_mod, Nat.mod_eq_of_lt hv]

/-- What the encoder writes for an integer is read back, up to what nine octets carry. -/
theorem intDecode_intEncode (firstBits : ℕ) {bits : ℕ} (hb : bits ≤ 8) (hf : firstBits < 256) (hd : 2 ^ bits ∣ firstBits)
    (v : ℕ) (p : Bytes) : intDecode bits (intEncode firstBits bits v ++ p) =
      if v < 2 ^ 63 + (2 ^ bits - 1) then some (v, p) else none := by
  have hpos : 0 < 2 ^ bits := Nat.two_pow_pos bits
  have hmax := maxPrefix_eq bits
  rw [intEncode]
  by_cases hv : v < maxPrefix bits
  · rw [if_pos hv, singleton_append, intDecode, first_octet hb hf hd (by omega)]
    rw [if_pos hv, if_pos (by omega)]
  · rw [if_neg hv, cons_append, intDecode, first_octet hb hf hd (by omega)]
    rw [if_neg (lt_irrefl _), show 0 = 7 * 0 from rfl, intRest_restEncode (by omega), pow_zero, mul_one,
      show maxPrefix bits + (v - maxPrefix bits) = v by omega]
    have hiff : v - maxPrefix bits < 128 ^ (9 - 0) ↔ v < 2 ^ 63 + (2 ^ bits - 1) := by
      rw [show 128 ^ (9 - 0) = 2 ^ 63 by decide, hmax]
      omega
    simp only [hiff]

/-! ### Strings -/

theorem intEncode_eq_cons (firstBits bits v : ℕ) :
    ∃ tail, intEncode firstBits bits v = UInt8.ofNat (firstBits ||| min v (maxPrefix bits)) :: tail := by
  rw [intEncode]
  split_ifs with h
  · exact ⟨[], by rw [min_eq_left h.le]⟩
  · exact ⟨_, by rw [min_eq_right (not_lt.mp h)]⟩

theorem strDecode_strEncode {s : Bytes} (hs : s.length < 2 ^ 63 + 127) (p : Bytes) :
    strDecode (strEncode s ++ p) = some (s, p) := by
  obtain ⟨tail, ht⟩ := intEncode_eq_cons 0x00 7 s.length
  have hint := intDecode_intEncode 0x00 (show 7 ≤ 8 by decide) (by decide) (by decide) s.length (s ++ p)
  rw [if_pos (hs.trans_eq (by decide)), ht, cons_append] at hint
  have hmin : min s.length (maxPrefix 7) ≤ 127 := min_le_right _ _
  have hlit : (UInt8.ofNat (0x00 ||| min s.length (maxPrefix 7))).toNat &&& 0x80 = 0 := by
    rw [Nat.zero_or, toNat_ofNat (by omega), high_bit (by omega)]
    omega
  rw [strEncode, ht, cons_append, cons_append, append_assoc, strDecode, hint]
  simp only [bind_eq_bind, bind_some, hlit]
  rw [if_neg (by simp), if_neg (by decide)]
  simp

/-! ### Headers -/

theorem length_staticTable : staticTable.length = 61 := by
  rw [staticTable, length_map]
  rfl

/-- A search that finds the header found it at the position it names. -/
theorem staticSearch_full {name value : Bytes} {n i j : ℕ} {es : List (Bytes × Bytes)}
    (h : staticSearch name value n i es = .inl j) : ∃ m, j = i + m + 1 ∧ es[m]? = some (name, value) := by
  induction es generalizing n i with
  | nil => cases h
  | cons e es ih =>
    rw [staticSearch] at h
    split_ifs at h with hn hv
    · obtain ⟨m, rfl, hm⟩ := ih h
      exact ⟨m + 1, by omega, hm⟩
    · rw [not_not] at hn
      cases h
      exact ⟨0, rfl, by rw [← hn, ← hv]; rfl⟩
    · obtain ⟨m, rfl, hm⟩ := ih h
      exact ⟨m + 1, by omega, hm⟩
    · obtain ⟨m, rfl, hm⟩ := ih h
      exact ⟨m + 1, by omega, hm⟩

/-- A search that does not find it names a position with that name, or the one it was given. -/
theorem staticSearch_name {name value : Bytes} {n i k : ℕ} {es : List (Bytes × Bytes)}
    (h : staticSearch name value n i es = .inr k) : k = n ∨ ∃ m e, k = i + m + 1 ∧ es[m]? = some e ∧ e.1 = name := by
  induction es generalizing n i with
  | nil => exact .inl (Sum.inr.inj h).symm
  | cons e es ih =>
    rw [staticSearch] at h
    split_ifs at h with hn hv h0
    · refine (ih h).imp_right ?_
      rintro ⟨m, e', rfl, hm, he⟩
      exact ⟨m + 1, e', by omega, hm, he⟩
    · rw [not_not] at hn
      rcases ih h with rfl | ⟨m, e', rfl, hm, he⟩
      · exact .inr ⟨0, e, rfl, rfl, hn⟩
      · exact .inr ⟨m + 1, e', by omega, hm, he⟩
    · refine (ih h).imp_right ?_
      rintro ⟨m, e', rfl, hm, he⟩
      exact ⟨m + 1, e', by omega, hm, he⟩

theorem tableLookup_static {t : Dyntab} {m : ℕ} {e : Bytes × Bytes} (h : staticTable[m]? = some e) :
    tableLookup t (m + 1) = some (some (.bytes e.1, .bytes e.2)) := by
  obtain ⟨hm, -⟩ := List.getElem?_eq_some_iff.mp h
  rw [length_staticTable] at hm
  rw [tableLookup, if_pos (by omega), Nat.add_sub_cancel, h]
  rfl

/-- The first octet of an indexed header. -/
theorem indexed_octet {i : ℕ} (h : i ≤ 61) : (UInt8.ofNat (0x80 ||| i)).toNat &&& 0x80 ≠ 0 := by
  decide +kernel +revert

/-- The first octet of a literal that is not indexed. -/
theorem literal_octet {i : ℕ} (h : i ≤ 15) : (UInt8.ofNat (0x00 ||| i)).toNat &&& 0x80 = 0 ∧
    (UInt8.ofNat (0x00 ||| i)).toNat &&& 0xe0 ≠ 0x20 ∧ (UInt8.ofNat (0x00 ||| i)).toNat &&& 0xc0 ≠ 0x40 := by
  decide +kernel +revert

variable {name value : Bytes}

theorem decodeField_indexed {i : ℕ} (h : staticSearch name value 0 0 staticTable = .inl i) (d : Decoder) :
    ∃ b rest, intEncode 0x80 7 i = b :: rest ∧ ∀ p, decodeField d b (rest ++ p) =
      some (.more { d with out := d.out ++ [(name, value)] } p) := by
  obtain ⟨m, rfl, hm⟩ := staticSearch_full h
  obtain ⟨hlt, -⟩ := List.getElem?_eq_some_iff.mp hm
  rw [length_staticTable] at hlt
  have hone : intEncode 0x80 7 (0 + m + 1) = [UInt8.ofNat (0x80 ||| 0 + m + 1)] := by
    rw [intEncode, if_pos (by rw [maxPrefix_eq]; omega)]
  refine ⟨_, _, hone, fun p => ?_⟩
  have hint := intDecode_intEncode 0x80 (show 7 ≤ 8 by decide) (by decide) (by decide) (0 + m + 1) p
  rw [hone, if_pos (by omega), singleton_append] at hint
  rw [nil_append, decodeField, if_pos (indexed_octet (by omega)), hint]
  simp only [Nat.zero_add, tableLookup_static hm, Str.read, bind_eq_bind, bind_some]

theorem decodeField_literal {k : ℕ} (h : staticSearch name value 0 0 staticTable = .inr k)
    (hn : name.length < 2 ^ 63 + 127) (hv : value.length < 2 ^ 63 + 127) (d : Decoder) :
    ∃ b rest, intEncode 0x00 4 k ++ (if k = 0 then strEncode name else []) ++ strEncode value = b :: rest ∧
      ∀ p, decodeField d b (rest ++ p) = some (.more { d with out := d.out ++ [(name, value)] } p) := by
  obtain ⟨tail, ht⟩ := intEncode_eq_cons 0x00 4 k
  obtain ⟨h1, h2, h3⟩ := literal_octet (i := min k (maxPrefix 4)) (min_le_right _ _)
  refine ⟨_, tail ++ (if k = 0 then strEncode name else []) ++ strEncode value, by rw [ht]; rfl, fun p => ?_⟩
  have hk : k ≤ 61 := by
    rcases staticSearch_name h with rfl | ⟨m, e, rfl, hm, -⟩
    · omega
    · obtain ⟨hlt, -⟩ := List.getElem?_eq_some_iff.mp hm
      rw [length_staticTable] at hlt
      omega
  have hint := intDecode_intEncode 0x00 (show 4 ≤ 8 by decide) (by decide) (by decide) k
    ((if k = 0 then strEncode name else []) ++ strEncode value ++ p)
  rw [ht, if_pos (show k < 2 ^ 63 + (2 ^ 4 - 1) by omega), cons_append] at hint
  have hname : literalName d.table k ((if k = 0 then strEncode name else []) ++ strEncode value ++ p) =
      some (some (.bytes name, strEncode value ++ p)) := by
    rw [literalName]
    by_cases h0 : k = 0
    · rw [if_pos h0, if_pos h0, append_assoc, strDecode_strEncode hn]
      rfl
    · rcases staticSearch_name h with rfl | ⟨m, e, rfl, hm, rfl⟩
      · exact absurd rfl h0
      · rw [if_neg h0, if_neg h0, Nat.zero_add, tableLookup_static hm]
        rfl
  have hassoc : tail ++ (if k = 0 then strEncode name else []) ++ strEncode value ++ p =
      tail ++ ((if k = 0 then strEncode name else []) ++ strEncode value ++ p) := by
    simp only [append_assoc]
  rw [hassoc, decodeField, if_neg (by rw [not_not]; exact h1), if_neg h2]
  simp only [h3, if_false, hint, hname, strDecode_strEncode hv, Str.read, bind_eq_bind, bind_some]

/-- What the encoder writes for a header is read back as one field. -/
theorem decodeField_hpackEncode (hn : name.length < 2 ^ 63 + 127) (hv : value.length < 2 ^ 63 + 127) (d : Decoder) :
    ∃ b rest, hpackEncode name value = b :: rest ∧ ∀ p, decodeField d b (rest ++ p) =
      some (.more { d with out := d.out ++ [(name, value)] } p) := by
  rw [hpackEncode]
  cases h : staticSearch name value 0 0 staticTable with
  | inl i => exact decodeField_indexed h d
  | inr k => exact decodeField_literal h hn hv d

/-! ### Blocks -/

/-- The block of a list of headers. -/
def encodeAll (headers : List (Bytes × Bytes)) : Bytes := headers.flatMap fun x => hpackEncode x.1 x.2

theorem decodeLoop_encodeAll {headers : List (Bytes × Bytes)}
    (h : ∀ x ∈ headers, x.1.length < 2 ^ 63 + 127 ∧ x.2.length < 2 ^ 63 + 127) {k : ℕ}
    (hk : (encodeAll headers).length ≤ k) (d : Decoder) :
    decodeLoop k d (encodeAll headers) = some ({ d with out := d.out ++ headers }, true) := by
  induction headers generalizing k d with
  | nil => simp [encodeAll, decodeLoop]
  | cons x headers ih =>
    obtain ⟨hn, hv⟩ := h x mem_cons_self
    obtain ⟨b, rest, he, hfield⟩ := decodeField_hpackEncode hn hv d
    have hcons : encodeAll (x :: headers) = b :: (rest ++ encodeAll headers) := by
      rw [encodeAll, flatMap_cons, he]
      rfl
    rw [hcons, length_cons, length_append] at hk
    obtain ⟨k, rfl⟩ := Nat.exists_eq_succ_of_ne_zero (by omega : k ≠ 0)
    rw [hcons, decodeLoop, hfield]
    simp only [bind_eq_bind, bind_some]
    rw [ih (fun y hy => h y (mem_cons_of_mem _ hy)) (by omega)]
    simp only [append_assoc, singleton_append]

/-- **HPACK encoding and decoding are inverse.** An integer is read back up to what nine
continuation octets carry, and refused from there on, whatever the first octet has besides it and
whatever follows. A block of headers is read back as those headers, and the table it is read with
stays as it is. -/
theorem hpack_inverse :
    (∀ bits, 1 ≤ bits → bits ≤ 8 → ∀ firstBits, firstBits < 256 → 2 ^ bits ∣ firstBits → ∀ v p,
      intDecode bits (intEncode firstBits bits v ++ p) = if v < 2 ^ 63 + (2 ^ bits - 1) then some (v, p) else none) ∧
    ∀ headers : List (Bytes × Bytes), (∀ x ∈ headers, x.1.length < 2 ^ 63 + 127 ∧ x.2.length < 2 ^ 63 + 127) →
      ∀ h t, hpackDecode h t (encodeAll headers) = some (⟨h, t, headers⟩, true) := by
  constructor
  · intro bits _ hb firstBits hf hd v p
    exact intDecode_intEncode firstBits hb hf hd v p
  · intro headers hlen h t
    rw [hpackDecode, decodeLoop_encodeAll hlen (le_refl _)]
    rfl

theorem hpack_inverse_short : intDecode 5 (intEncode 0x20 5 1337 ++ [7]) = some (1337, [7]) ∧
    hpackDecode .empty .init (encodeAll [([0x78], [0x79, 0x7a])]) =
      some (⟨.empty, .init, [([0x78], [0x79, 0x7a])]⟩, true) := by
  constructor
  · exact hpack_inverse.1 5 (by decide) (by decide) 0x20 (by decide) (by decide) 1337 [7]
  · exact hpack_inverse.2 _ (by simp) _ _

/-- The largest `size_t` needs ten continuation octets. -/
theorem intDecode_max : intDecode 7 (intEncode 0x00 7 (2 ^ 64 - 1)) = none := by
  have h := intDecode_intEncode 0x00 (show 7 ≤ 8 by decide) (by decide) (by decide) (2 ^ 64 - 1) []
  rwa [append_nil, if_neg (by decide)] at h

end Scriptc.Runtime.Hpack
