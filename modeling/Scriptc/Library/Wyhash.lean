import Scriptc.Lib.Bytes

/-!
# The hash of the identities

`library/wyhash.ts`. A hash is computed with a record of the places that it reads and of what its mixing steps give to
each other, so that both can be spoken of. A place outside of the data gives no value.
-/

namespace Wyhash

open List

/-- A computation that reads bytes. `places` are read, and `mixed` are the values that go from one mixing step to another. -/
structure Read (α : Type) where
  value : Option α
  places : List ℕ
  mixed : List ℕ

namespace Read

variable {α β : Type}

protected def pure (a : α) : Read α := ⟨some a, [], []⟩

protected def bind (x : Read α) (f : α → Read β) : Read β :=
  match x.value with
  | none => ⟨none, x.places, x.mixed⟩
  | some a => ⟨(f a).value, x.places ++ (f a).places, x.mixed ++ (f a).mixed⟩

instance : Monad Read where
  pure := Read.pure
  bind := Read.bind

/-- Every place is in range and among them are these, every value is below `2 ^ 64`, and the result is as it should be. -/
structure Spec (x : Read α) (length : ℕ) (covers : ℕ → Prop) (result : α → Prop) : Prop where
  value : ∃ a, x.value = some a ∧ result a
  places : ∀ o ∈ x.places, o < length
  covered : ∀ o, covers o → o ∈ x.places
  mixed : ∀ v ∈ x.mixed, v < 2 ^ 64

variable {x : Read α} {f : α → Read β} {length : ℕ} {covers covers' : ℕ → Prop} {result : α → Prop} {result' : β → Prop}

theorem Spec.of_pure {a : α} (ha : result a) : Spec (pure a : Read α) length (fun _ => False) result :=
  ⟨⟨a, rfl, ha⟩, forall_mem_nil _, nofun, forall_mem_nil _⟩

theorem Spec.done (a : α) : Spec (pure a : Read α) length (fun _ => False) fun _ => True := Spec.of_pure trivial

theorem Spec.bind (hx : Spec x length covers result) (hf : ∀ a, result a → Spec (f a) length covers' result') :
    Spec (x >>= f) length (fun o => covers o ∨ covers' o) result' := by
  obtain ⟨a, hvalue, ha⟩ := hx.value
  have hbind : x >>= f = ⟨(f a).value, x.places ++ (f a).places, x.mixed ++ (f a).mixed⟩ := by
    change Read.bind x f = _
    rw [Read.bind, hvalue]
  rw [hbind]
  have hfa := hf a ha
  exact ⟨hfa.value, forall_mem_append.mpr ⟨hx.places, hfa.places⟩,
    fun o ho => mem_append.mpr (ho.imp (hx.covered o) (hfa.covered o)), forall_mem_append.mpr ⟨hx.mixed, hfa.mixed⟩⟩

theorem Spec.mono (hx : Spec x length covers result) {result'' : α → Prop} (hcovers : ∀ o, covers' o → covers o)
    (hresult : ∀ a, result a → result'' a) : Spec x length covers' result'' := by
  obtain ⟨a, hvalue, ha⟩ := hx.value
  exact ⟨⟨a, hvalue, hresult a ha⟩, hx.places, fun o ho => hx.covered o (hcovers o ho), hx.mixed⟩

end Read

/-! ### The hash -/

def mask64 : ℕ := (1 <<< 64) - 1

def p0 : ℕ := 0xa0761d6478bd642f
def p1 : ℕ := 0xe7037ed1a0b428db
def p2 : ℕ := 0x8ebc6af09c88c6e3
def p3 : ℕ := 0x589965cc75374cc3

def wymix (a b : ℕ) : Read ℕ :=
  let r := (a &&& mask64) * (b &&& mask64)
  let mixed := (r &&& mask64 ^^^ r >>> 64) &&& mask64
  ⟨some mixed, [], [mixed]⟩

/-- The three seeds become one. -/
def fold (seed see1 see2 : ℕ) : Read ℕ := ⟨some (seed ^^^ see1 ^^^ see2), [], [seed ^^^ see1 ^^^ see2]⟩

/-- `d[o]`, which is undefined past the end. -/
def at' (d : List UInt8) (o : ℕ) : Read ℕ := ⟨d[o]?.map UInt8.toNat, [o], []⟩

def wyr8 (d : List UInt8) (o : ℕ) : Read ℕ :=
  [7, 6, 5, 4, 3, 2, 1, 0].foldlM (fun v i => do return v <<< 8 ||| (← at' d (o + i))) 0

def wyr4 (d : List UInt8) (o : ℕ) : Read ℕ := do
  return ((← at' d o) ||| (← at' d (o + 1)) <<< 8 ||| (← at' d (o + 2)) <<< 16) ||| (← at' d (o + 3)) <<< 24

def wyr3 (d : List UInt8) (o k : ℕ) : Read ℕ := do
  return (← at' d o) <<< 16 ||| (← at' d (o + k >>> 1)) <<< 8 ||| (← at' d (o + k - 1))

/-- The loop over 48 bytes at a time: what is left, the place and the seeds. -/
def stripes (data : List UInt8) (i p seed see1 see2 : ℕ) : Read (ℕ × ℕ × ℕ) := do
  let seed ← wymix ((← wyr8 data p) ^^^ p1) ((← wyr8 data (p + 8)) ^^^ seed)
  let see1 ← wymix ((← wyr8 data (p + 16)) ^^^ p2) ((← wyr8 data (p + 24)) ^^^ see1)
  let see2 ← wymix ((← wyr8 data (p + 32)) ^^^ p3) ((← wyr8 data (p + 40)) ^^^ see2)
  if 48 < i - 48 then stripes data (i - 48) (p + 48) seed see1 see2
  else return (i - 48, p + 48, ← fold seed see1 see2)
termination_by i

/-- The loop over 16 bytes at a time. -/
def blocks (data : List UInt8) (i p seed : ℕ) : Read (ℕ × ℕ × ℕ) := do
  if 16 < i then
    let seed ← wymix ((← wyr8 data p) ^^^ p1) ((← wyr8 data (p + 8)) ^^^ seed)
    blocks data (i - 16) (p + 16) seed
  else return (i, p, seed)
termination_by i

def wyhash64 (data : List UInt8) (seed : ℕ) : Read ℕ := do
  let len := data.length
  let seed := (seed ^^^ p0) &&& mask64
  let (a, b, seed) ← (
    if len ≤ 16 then
      if 4 ≤ len then do
        let a := (← wyr4 data 0) <<< 32 ||| (← wyr4 data (len >>> 3 <<< 2))
        let b := (← wyr4 data (len - 4)) <<< 32 ||| (← wyr4 data (len - 4 - len >>> 3 <<< 2))
        return (a, b, seed)
      else if 0 < len then do return (← wyr3 data 0 len, 0, seed)
      else pure (0, 0, seed)
    else do
      let (i, p, seed) ← if 48 < len then stripes data len 0 seed seed seed else pure (len, 0, seed)
      let (i, p, seed) ← blocks data i p seed
      return (← wyr8 data (p + i - 16), ← wyr8 data (p + i - 8), seed))
  wymix (p1 ^^^ len) (← wymix (a ^^^ p1) (b ^^^ seed))

/-! ### What is read -/

open Read (Spec)

variable {data : List UInt8} {o i p seed see1 see2 : ℕ}

theorem and_mask64_lt (n : ℕ) : n &&& mask64 < 2 ^ 64 := by
  have hmask : mask64 = 2 ^ 64 - 1 := rfl
  rw [hmask, Nat.and_two_pow_sub_one_eq_mod]
  exact Nat.mod_lt _ (by decide)

theorem wymix_spec (a b length : ℕ) : Spec (wymix a b) length (fun _ => False) (· < 2 ^ 64) :=
  ⟨⟨_, rfl, and_mask64_lt _⟩, forall_mem_nil _, nofun, forall_mem_singleton.mpr (and_mask64_lt _)⟩

theorem fold_spec (h : seed < 2 ^ 64) (h1 : see1 < 2 ^ 64) (h2 : see2 < 2 ^ 64) (length : ℕ) :
    Spec (fold seed see1 see2) length (fun _ => False) fun _ => True :=
  ⟨⟨_, rfl, trivial⟩, forall_mem_nil _, nofun,
    forall_mem_singleton.mpr (Nat.xor_lt_two_pow (Nat.xor_lt_two_pow h h1) h2)⟩

theorem at'_spec (h : o < data.length) : Spec (at' data o) data.length (· = o) fun _ => True := by
  refine ⟨⟨data[o].toNat, ?_, trivial⟩, forall_mem_singleton.mpr h, fun _ ho => mem_singleton.mpr ho, forall_mem_nil _⟩
  rw [at', getElem?_eq_getElem h]
  rfl

theorem foldlM_spec {is : List ℕ} (h : ∀ i ∈ is, o + i < data.length) (v : ℕ) :
    Spec (is.foldlM (fun v i => do return v <<< 8 ||| (← at' data (o + i))) v) data.length (fun k => ∃ i ∈ is, k = o + i) fun _ => True := by
  induction is generalizing v with
  | nil => exact (Spec.done _).mono (by simp) fun _ h => h
  | cons i is ih =>
    obtain ⟨hi, his⟩ := forall_mem_cons.mp h
    rw [foldlM_cons]
    refine (Spec.bind (Spec.bind (at'_spec hi) fun _ _ => Spec.done _) fun v _ => ih his v).mono ?_ fun _ h => h
    rintro k ⟨j, hj, rfl⟩
    rcases mem_cons.mp hj with rfl | hj
    · exact .inl (.inl rfl)
    · exact .inr ⟨j, hj, rfl⟩

theorem wyr8_spec (h : o + 8 ≤ data.length) : Spec (wyr8 data o) data.length (fun k => o ≤ k ∧ k < o + 8) fun _ => True := by
  refine (foldlM_spec (by simp; omega) 0).mono (fun k hk => ⟨k - o, ?_, by omega⟩) fun _ h => h
  simp only [mem_cons, not_mem_nil, or_false]
  omega

theorem wyr4_spec (h : o + 4 ≤ data.length) : Spec (wyr4 data o) data.length (fun k => o ≤ k ∧ k < o + 4) fun _ => True := by
  refine (Spec.bind (at'_spec (by omega)) fun _ _ => Spec.bind (at'_spec (by omega)) fun _ _ => Spec.bind (at'_spec (by omega)) fun _ _ =>
    Spec.bind (at'_spec (by omega)) fun _ _ => Spec.done _).mono (fun k hk => ?_) fun _ h => h
  omega

theorem wyr3_spec (h : 0 < data.length) (h3 : data.length < 4) :
    Spec (wyr3 data 0 data.length) data.length (fun k => k < data.length) fun _ => True := by
  have hhalf : data.length >>> 1 = data.length / 2 := rfl
  refine (Spec.bind (at'_spec (by omega)) fun _ _ => Spec.bind (at'_spec (by omega)) fun _ _ => Spec.bind (at'_spec (by omega)) fun _ _ =>
    Spec.done _).mono (fun k hk => ?_) fun _ h => h
  omega

theorem stripes_spec (hp : p + i = data.length) (hi : 48 < i) : Spec (stripes data i p seed see1 see2) data.length
    (fun k => p ≤ k ∧ k + ((i - 1) % 48 + 1) < data.length) fun r => r.1 = (i - 1) % 48 + 1 ∧ r.2.1 + r.1 = data.length := by
  induction i using Nat.strongRecOn generalizing p seed see1 see2 with
  | ind i ih =>
    have hnext {seed see1 see2 : ℕ} (h : seed < 2 ^ 64) (h1 : see1 < 2 ^ 64) (h2 : see2 < 2 ^ 64) :
        Spec (if 48 < i - 48 then stripes data (i - 48) (p + 48) seed see1 see2 else do return (i - 48, p + 48, ← fold seed see1 see2))
          data.length (fun k => p + 48 ≤ k ∧ k + ((i - 1) % 48 + 1) < data.length)
          fun r => r.1 = (i - 1) % 48 + 1 ∧ r.2.1 + r.1 = data.length := by
      split_ifs with hmore
      · exact (ih (i - 48) (by omega) (by omega) (by omega)).mono (fun k hk => by omega) fun r hr => by omega
      · exact (Spec.bind (fold_spec h h1 h2 _) fun _ _ => Spec.of_pure ⟨by dsimp only; omega, by dsimp only; omega⟩).mono
          (fun k hk => by omega) fun _ h => h
    rw [stripes]
    refine (Spec.bind (wyr8_spec (by omega)) fun _ _ => Spec.bind (wyr8_spec (by omega)) fun _ _ => Spec.bind (wymix_spec _ _ _) fun _ h =>
      Spec.bind (wyr8_spec (by omega)) fun _ _ => Spec.bind (wyr8_spec (by omega)) fun _ _ => Spec.bind (wymix_spec _ _ _) fun _ h1 =>
      Spec.bind (wyr8_spec (by omega)) fun _ _ => Spec.bind (wyr8_spec (by omega)) fun _ _ => Spec.bind (wymix_spec _ _ _) fun _ h2 =>
      hnext h h1 h2).mono (fun k hk => ?_) fun _ h => h
    omega

theorem blocks_spec (hp : p + i = data.length) (hi : 0 < i) : Spec (blocks data i p seed) data.length
    (fun k => p ≤ k ∧ k + ((i - 1) % 16 + 1) < data.length) fun r => r.1 = (i - 1) % 16 + 1 ∧ r.2.1 + r.1 = data.length := by
  induction i using Nat.strongRecOn generalizing p seed with
  | ind i ih =>
    rw [blocks]
    split_ifs with hmore
    · refine (Spec.bind (wyr8_spec (by omega)) fun _ _ => Spec.bind (wyr8_spec (by omega)) fun _ _ => Spec.bind (wymix_spec _ _ _) fun _ _ =>
        ih (i - 16) (by omega) (by omega) (by omega)).mono (fun k hk => ?_) fun r hr => ?_
      · omega
      · omega
    · exact (Spec.of_pure ⟨by omega, by omega⟩).mono (fun k hk => by omega) fun _ h => h

/-- The last 16 bytes are read whatever is left. -/
theorem tail_spec (hp : p + i = data.length) (hi : 0 < i) (hlong : 16 < data.length) :
    Spec (do let (i, p, seed) ← blocks data i p seed; return (← wyr8 data (p + i - 16), ← wyr8 data (p + i - 8), seed)) data.length
      (fun k => p ≤ k ∧ k < data.length) fun _ => True := by
  refine (@Spec.bind _ _ _ _ _ _ (fun k => data.length - 16 ≤ k ∧ k < data.length) _ _ (blocks_spec hp hi) ?_).mono (fun k hk => ?_) fun _ h => h
  · rintro ⟨i, p, seed⟩ ⟨-, hend⟩
    dsimp only at hend
    refine (Spec.bind (wyr8_spec (by omega)) fun _ _ => Spec.bind (wyr8_spec (by omega)) fun _ _ => Spec.done _).mono (fun k hk => ?_) fun _ h => h
    omega
  · omega

theorem wyhash64_spec (data : List UInt8) (seed : ℕ) : Spec (wyhash64 data seed) data.length (· < data.length) (· < 2 ^ 64) := by
  have heighth : data.length >>> 3 <<< 2 = data.length / 8 * 4 := by
    rw [Nat.shiftLeft_eq, Nat.shiftRight_eq_div_pow]
  rw [wyhash64]
  refine (@Read.Spec.bind _ _ _ _ _ (· < data.length) _ (fun _ => True) _ ?_ fun r _ =>
    Spec.bind (wymix_spec _ _ _) fun _ _ => wymix_spec _ _ _).mono (fun k hk => .inl hk) fun _ h => h
  split_ifs with hshort hfour hsome
  · refine (Spec.bind (wyr4_spec (by omega)) fun _ _ => Spec.bind (wyr4_spec (by omega)) fun _ _ => Spec.bind (wyr4_spec (by omega)) fun _ _ =>
      Spec.bind (wyr4_spec (by omega)) fun _ _ => Spec.done _).mono (fun k hk => ?_) fun _ h => h
    omega
  · exact (Spec.bind (wyr3_spec hsome (by omega)) fun _ _ => Spec.done _).mono (fun k hk => .inl hk) fun _ h => h
  · exact (Spec.done _).mono (fun k hk => by omega) fun _ h => h
  · refine (@Spec.bind _ _ _ _ _ _ (fun k => data.length ≤ k + ((data.length - 1) % 48 + 1) ∧ k < data.length) _ _
      (stripes_spec (by omega) (by omega)) ?_).mono (fun k hk => ?_) fun _ h => h
    · rintro ⟨i, p, seed⟩ ⟨hleft, hend⟩
      dsimp only at hleft hend
      exact (tail_spec hend (by omega) (by omega)).mono (fun k hk => by omega) fun _ h => h
    · omega
  · refine (@Spec.bind _ _ _ _ _ (fun _ => False) (· < data.length) (fun r : ℕ × ℕ × ℕ => r.1 = data.length ∧ r.2.1 = 0) _ ?_ ?_).mono
      (fun k hk => .inr hk) fun _ h => h
    · exact Spec.of_pure ⟨rfl, rfl⟩
    rintro ⟨_, _, seed⟩ ⟨rfl, rfl⟩
    exact (tail_spec (Nat.zero_add _) (by omega) (by omega)).mono (fun k hk => ⟨Nat.zero_le k, hk⟩) fun _ h => h

/-! ### The framed stream -/

/-- The bytes of the count, low ones first: `i` of them are left to write. -/
def lengthPrefix (n : ℕ) : ℕ → Bytes
  | 0 => []
  | i + 1 => UInt8.ofNat (n &&& 0xff) :: lengthPrefix (n / 256) i

/-- The loop that writes the chunks from a place on. -/
def frame : List Bytes → Bytes → ℕ → Bytes
  | [], out, _ => out
  | c :: chunks, out, o => frame chunks (Bytes.put (Bytes.put out o (lengthPrefix c.length 8)) (o + 8) c) (o + 8 + c.length)

def lengthPrefixedStream (chunks : List Bytes) : Bytes :=
  frame chunks (replicate (chunks.foldl (fun total c => total + (8 + c.length)) 0) 0) 0

theorem lengthPrefix_eq (n i : ℕ) : lengthPrefix n i = Bytes.leBytes i n := by
  induction i generalizing n with
  | zero => rfl
  | succ i ih =>
    have hlow : UInt8.ofNat (n &&& 0xff) = UInt8.ofNat n := by
      have hmask : n &&& 0xff = n % 2 ^ 8 := Nat.and_two_pow_sub_one_eq_mod n 8
      rw [hmask]
      exact UInt8.toNat_inj.mp (by simp)
    rw [lengthPrefix, Bytes.leBytes, hlow, ih]

/-- A chunk with its length. -/
def framed (c : Bytes) : Bytes := Bytes.leBytes 8 c.length ++ c

theorem put_append (before gap after bs : Bytes) (h : gap.length = bs.length) :
    Bytes.put (before ++ (gap ++ after)) before.length bs = before ++ (bs ++ after) := by
  rw [Bytes.put, take_left, append_assoc, ← h, ← drop_drop, drop_left, drop_left]

theorem frame_eq (chunks : List Bytes) (before : Bytes) {zeros : Bytes} (h : zeros.length = (chunks.flatMap framed).length) :
    frame chunks (before ++ zeros) before.length = before ++ chunks.flatMap framed := by
  induction chunks generalizing before zeros with
  | nil =>
    rw [eq_nil_of_length_eq_zero h]
    rfl
  | cons c chunks ih =>
    rw [flatMap_cons, length_append, framed, length_append, Bytes.length_leBytes] at h
    obtain ⟨low, mid, rest, rfl, hlow, hmid⟩ : ∃ low mid rest, zeros = low ++ (mid ++ rest) ∧ low.length = 8 ∧ mid.length = c.length := by
      refine ⟨zeros.take 8, (zeros.drop 8).take c.length, (zeros.drop 8).drop c.length, ?_, ?_, ?_⟩
      · rw [take_append_drop, take_append_drop]
      · rw [length_take]
        omega
      · rw [length_take, length_drop]
        omega
    have hprefix : (Bytes.leBytes 8 c.length).length = 8 := Bytes.length_leBytes 8 _
    have hfirst := put_append before low (mid ++ rest) (Bytes.leBytes 8 c.length) (hlow.trans hprefix.symm)
    have hsecond := put_append (before ++ Bytes.leBytes 8 c.length) mid rest c hmid
    rw [length_append, hprefix, append_assoc] at hsecond
    have hend : (before ++ framed c).length = before.length + 8 + c.length := by
      rw [length_append, framed, length_append, hprefix, Nat.add_assoc]
    have hrest := @ih (before ++ framed c) rest (by simp only [length_append] at h; omega)
    rw [frame, lengthPrefix_eq, hfirst, hsecond, flatMap_cons, ← append_assoc before, ← hrest, hend, framed]
    simp only [append_assoc]

theorem lengthPrefixedStream_eq (chunks : List Bytes) : lengthPrefixedStream chunks = chunks.flatMap framed := by
  have htotal (n : ℕ) : chunks.foldl (fun total c => total + (8 + c.length)) n = n + (chunks.flatMap framed).length := by
    induction chunks generalizing n with
    | nil => rfl
    | cons c chunks ih =>
      rw [foldl_cons, ih, flatMap_cons, length_append, framed, length_append, Bytes.length_leBytes]
      omega
  rw [lengthPrefixedStream]
  exact frame_eq chunks [] (by rw [length_replicate, htotal, Nat.zero_add])

/-- A frame says where it ends. -/
theorem framed_inj {c c' : Bytes} (hc : c.length < 2 ^ 53) (hc' : c'.length < 2 ^ 53) {rest rest' : Bytes}
    (h : framed c ++ rest = framed c' ++ rest') : c = c' ∧ rest = rest' := by
  rw [framed, framed, append_assoc, append_assoc] at h
  obtain ⟨hsizes, htail⟩ := append_inj h (by rw [Bytes.length_leBytes, Bytes.length_leBytes])
  have hlength := congrArg Bytes.leNat hsizes
  rw [Bytes.leNat_leBytes_of_lt (by omega), Bytes.leNat_leBytes_of_lt (by omega)] at hlength
  exact append_inj htail hlength

theorem flatMap_framed_inj {xs : List Bytes} (hxs : ∀ c ∈ xs, c.length < 2 ^ 53) (ys : List Bytes) (hys : ∀ c ∈ ys, c.length < 2 ^ 53)
    (h : xs.flatMap framed = ys.flatMap framed) : xs = ys := by
  have hne (c rest : Bytes) : framed c ++ rest ≠ [] := by
    rw [framed, Bytes.leBytes]
    exact cons_ne_nil _ _
  induction xs generalizing ys with
  | nil =>
    cases ys with
    | nil => rfl
    | cons c ys => exact absurd h.symm (hne c _)
  | cons c xs ih =>
    cases ys with
    | nil => exact absurd h (hne c _)
    | cons c' ys =>
      obtain ⟨hc, hxs⟩ := forall_mem_cons.mp hxs
      obtain ⟨hc', hys'⟩ := forall_mem_cons.mp hys
      rw [flatMap_cons, flatMap_cons] at h
      obtain ⟨rfl, hrest⟩ := framed_inj hc hc' h
      rw [ih hxs ys hys' hrest]

/-- **Identity hashes.** Different lists of chunks have different streams. The hash of any bytes exists, reads places of the
data only and every one of them, and its mixing steps hand on 64 bits. -/
theorem identity_hashes : (∀ xs ys : List Bytes, (∀ c ∈ xs, c.length < 2 ^ 53) → (∀ c ∈ ys, c.length < 2 ^ 53) → xs ≠ ys →
      lengthPrefixedStream xs ≠ lengthPrefixedStream ys) ∧
    ∀ (data : List UInt8) (seed : ℕ), (∃ hash, (wyhash64 data seed).value = some hash ∧ hash < 2 ^ 64) ∧
      (∀ o, o ∈ (wyhash64 data seed).places ↔ o < data.length) ∧ ∀ v ∈ (wyhash64 data seed).mixed, v < 2 ^ 64 := by
  refine ⟨fun xs ys hxs hys hne h => hne (flatMap_framed_inj hxs ys hys ?_), fun data seed => ?_⟩
  · rwa [lengthPrefixedStream_eq, lengthPrefixedStream_eq] at h
  · have hspec := wyhash64_spec data seed
    exact ⟨hspec.value, fun o => ⟨hspec.places o, hspec.covered o⟩, hspec.mixed⟩

end Wyhash
