import Mathlib.Data.Set.Insert
import Mathlib.Logic.Function.Basic
import Mathlib.Logic.Relation
import Scriptc.Lib.Bytes

/-!
# The build cache

`publishCachedFile`, `copyValidCachedFile` and `validCachedFile` of `backend/build-cache.ts`,
with what `pruneCache` does to an entry, as processes that take their file-system steps in any
order. All of them work on one cache entry: a file and, beside it, its digest.

A call writes files of its own only: a publisher its two temporary files, a copier its
destination. So a file's content is known by who made it (`Inode`), and a name holds one of
these files, or none. A process can crash, and a step of a call can fail, at any time. `rm`
with `force` removes the name, or fails and leaves it, which the calls do not look at.
-/

namespace BuildCache

open List Function

/-- The bytes of ASCII text. -/
def ascii (text : List Char) : Bytes := text.map fun c => UInt8.ofNat c.toNat

/-- What `readFile(path, "utf8")` gives for ASCII bytes. Another byte becomes a character that
no digest has. -/
def decode (bytes : Bytes) : List Char := bytes.map fun b => Char.ofNat b.toNat

def isBlank (c : Char) : Bool := c ∈ ['\t', '\n', '\x0b', '\x0c', '\r', ' ']

def trim (text : List Char) : List Char := ((text.dropWhile isBlank).reverse.dropWhile isBlank).reverse

/-- `/^[0-9a-f]{64}$/`. -/
def isDigest (text : List Char) : Bool :=
  text.length == 64 && text.all fun c => ('0' ≤ c && c ≤ '9') || ('a' ≤ c && c ≤ 'f')

/-- The calls of each kind have their own identities. -/
inductive Name (Pid : Type*) where
  | destination
  | digest
  | tmp (p : Pid)
  | tmpDigest (p : Pid)
  /-- Where a copier copies to. -/
  | copy (c : Pid)
  deriving DecidableEq

/-- A file, by what made it. -/
inductive Inode (Pid : Type*) where
  | tmp (p : Pid)
  | tmpDigest (p : Pid)
  | copy (c : Pid)
  deriving DecidableEq

/-- Where a call of `publishCachedFile` stands. -/
inductive Publisher where
  | start
  /-- `copyFile(source, tmp)` has made the file, and is filling it. -/
  | copying
  | copied
  | privateMode
  /-- `fileDigest(tmp)` has returned. -/
  | hashed (h : List Char)
  /-- `writeFile(tmpDigest, ..)` has made the file, and is filling it. -/
  | writing (h : List Char)
  | written (h : List Char)
  /-- The data has its name. -/
  | renamed
  /-- In the `finally` block; what is still to be removed. -/
  | cleaning (tmp tmpDigest : Bool)
  | returned
  | crashed
  deriving DecidableEq

/-- Where a call of `copyValidCachedFile` stands. `started`: it has come to its `copyFile`; `removed`: its
`rm` has succeeded. -/
inductive Copier (Pid : Type*) where
  | start
  /-- The digest is open. -/
  | reading (i : Inode Pid)
  | expecting (h : List Char)
  /-- `copyFile` has opened the data. -/
  | opened (h : List Char) (i : Inode Pid)
  /-- It has made or emptied the destination, and is filling it. -/
  | copying (h : List Char) (i : Inode Pid)
  | copied (h : List Char)
  | mismatch
  /-- In the `catch` block. -/
  | caught (started : Bool)
  | returnedTrue (h : List Char)
  | returnedFalse (started removed : Bool)
  | crashed
  deriving DecidableEq

/-- Where a call of `validCachedFile` stands. -/
inductive Checker (Pid : Type*) where
  | start
  | reading (i : Inode Pid)
  | expecting (h : List Char)
  | hashing (h : List Char) (i : Inode Pid)
  | returned (valid : Bool)
  | crashed
  deriving DecidableEq

/-- The directory with what is in its files, and what the processes are at. -/
structure State (Pid : Type*) where
  dir : Name Pid → Option (Inode Pid)
  content : Inode Pid → Bytes
  publisher : Pid → Publisher
  copier : Pid → Copier Pid
  checker : Pid → Checker Pid
  /-- The publishers whose temporary copy has been completed, so far. -/
  complete : Set Pid
  /-- Those whose temporary digest has been. -/
  digested : Set Pid

section

variable {Pid : Type*} [DecidableEq Pid]

namespace State

variable (s : State Pid)

def link (n : Name Pid) (i : Option (Inode Pid)) : State Pid := { s with dir := update s.dir n i }

def fill (i : Inode Pid) (b : Bytes) : State Pid := { s with content := update s.content i b }

def setPublisher (p : Pid) (pc : Publisher) : State Pid := { s with publisher := update s.publisher p pc }

def setCopier (c : Pid) (pc : Copier Pid) : State Pid := { s with copier := update s.copier c pc }

def setChecker (c : Pid) (pc : Checker Pid) : State Pid := { s with checker := update s.checker c pc }

/-- `rename(n, m)`. -/
def rename (n m : Name Pid) : State Pid := (s.link m (s.dir n)).link n none

end State

-- `source p` is the file that publisher `p` publishes.
variable (sha256 : Bytes → List Char) (source : Pid → Bytes)

/-- The digest file of some bytes. -/
def digestLine (h : List Char) : Bytes := ascii (h ++ ['\n'])

/-- A publisher in its `try` block. -/
def Publisher.trying : Publisher → Bool
  | cleaning _ _ | returned | crashed => false
  | _ => true

/-- A copier in its `try` block, before it has its answer, and whether it has come to `copyFile`. -/
def Copier.trying : Copier Pid → Option Bool
  | start | reading _ => some false
  | expecting _ | opened _ _ | copying _ _ | copied _ => some true
  | _ => none

inductive Publish (s : State Pid) (p : Pid) : State Pid → Prop where
  | create : s.publisher p = .start →
      Publish s p (((s.link (.tmp p) (some (.tmp p))).fill (.tmp p) []).setPublisher p .copying)
  | copyChunk (n : ℕ) : s.publisher p = .copying →
      Publish s p (s.fill (.tmp p) ((source p).take ((s.content (.tmp p)).length + n)))
  | copied : s.publisher p = .copying → s.content (.tmp p) = source p →
      Publish s p { s.setPublisher p .copied with complete := insert p s.complete }
  | chmod : s.publisher p = .copied → Publish s p (s.setPublisher p .privateMode)
  | hash {i : Inode Pid} : s.publisher p = .privateMode → s.dir (.tmp p) = some i →
      Publish s p (s.setPublisher p (.hashed (sha256 (s.content i))))
  | createDigest {h : List Char} : s.publisher p = .hashed h →
      Publish s p (((s.link (.tmpDigest p) (some (.tmpDigest p))).fill (.tmpDigest p) []).setPublisher p (.writing h))
  | writeChunk {h : List Char} (n : ℕ) : s.publisher p = .writing h →
      Publish s p (s.fill (.tmpDigest p) ((digestLine h).take ((s.content (.tmpDigest p)).length + n)))
  | written {h : List Char} : s.publisher p = .writing h → s.content (.tmpDigest p) = digestLine h →
      Publish s p { s.setPublisher p (.written h) with digested := insert p s.digested }
  | renameData {h : List Char} : s.publisher p = .written h → s.dir (.tmp p) ≠ none →
      Publish s p ((s.rename (.tmp p) .destination).setPublisher p .renamed)
  | renameDigest : s.publisher p = .renamed → s.dir (.tmpDigest p) ≠ none →
      Publish s p ((s.rename (.tmpDigest p) .digest).setPublisher p (.cleaning true true))
  | fail : (s.publisher p).trying = true → Publish s p (s.setPublisher p (.cleaning true true))
  | rmTmp {d : Bool} : s.publisher p = .cleaning true d →
      Publish s p ((s.link (.tmp p) none).setPublisher p (.cleaning false d))
  | rmTmpDigest {d : Bool} : s.publisher p = .cleaning d true →
      Publish s p ((s.link (.tmpDigest p) none).setPublisher p (.cleaning d false))
  | rmTmpFailed {d : Bool} : s.publisher p = .cleaning true d → Publish s p (s.setPublisher p (.cleaning false d))
  | rmTmpDigestFailed {d : Bool} : s.publisher p = .cleaning d true → Publish s p (s.setPublisher p (.cleaning d false))
  | finish : s.publisher p = .cleaning false false → Publish s p (s.setPublisher p .returned)
  | crash : Publish s p (s.setPublisher p .crashed)

/-- The digest that a digest file is read as. -/
def expected (bytes : Bytes) : Option (List Char) :=
  if isDigest (trim (decode bytes)) then some (trim (decode bytes)) else none

/-- A step of a process that copies the cached file out. -/
inductive Copy (s : State Pid) (c : Pid) : State Pid → Prop where
  | openDigest {i : Inode Pid} : s.copier c = .start → s.dir .digest = some i → Copy s c (s.setCopier c (.reading i))
  | noDigest : s.copier c = .start → s.dir .digest = none → Copy s c (s.setCopier c (.caught false))
  | readDigest {i : Inode Pid} {h : List Char} : s.copier c = .reading i → expected (s.content i) = some h →
      Copy s c (s.setCopier c (.expecting h))
  | badDigest {i : Inode Pid} : s.copier c = .reading i → expected (s.content i) = none →
      Copy s c (s.setCopier c (.returnedFalse false false))
  | openData {h : List Char} {i : Inode Pid} : s.copier c = .expecting h → s.dir .destination = some i →
      Copy s c (s.setCopier c (.opened h i))
  | noData {h : List Char} : s.copier c = .expecting h → s.dir .destination = none →
      Copy s c (s.setCopier c (.caught true))
  | create {h : List Char} {i : Inode Pid} : s.copier c = .opened h i →
      Copy s c (((s.link (.copy c) (some (.copy c))).fill (.copy c) []).setCopier c (.copying h i))
  | copyChunk {h : List Char} {i : Inode Pid} (n : ℕ) : s.copier c = .copying h i →
      Copy s c (s.fill (.copy c) (s.content (.copy c) ++ ((s.content i).drop (s.content (.copy c)).length).take n))
  | copied {h : List Char} {i : Inode Pid} : s.copier c = .copying h i →
      (s.content i).length ≤ (s.content (.copy c)).length → Copy s c (s.setCopier c (.copied h))
  | valid {h : List Char} {i : Inode Pid} : s.copier c = .copied h → s.dir (.copy c) = some i →
      sha256 (s.content i) = h → Copy s c (s.setCopier c (.returnedTrue h))
  | invalid {h : List Char} {i : Inode Pid} : s.copier c = .copied h → s.dir (.copy c) = some i →
      sha256 (s.content i) ≠ h → Copy s c (s.setCopier c .mismatch)
  | rmInvalid : s.copier c = .mismatch → Copy s c ((s.link (.copy c) none).setCopier c (.returnedFalse true true))
  | rmInvalidFailed : s.copier c = .mismatch → Copy s c (s.setCopier c (.returnedFalse true false))
  | fail {started : Bool} : (s.copier c).trying = some started → Copy s c (s.setCopier c (.caught started))
  | rmCaught {started : Bool} : s.copier c = .caught started →
      Copy s c ((s.link (.copy c) none).setCopier c (.returnedFalse started true))
  | rmCaughtFailed {started : Bool} : s.copier c = .caught started → Copy s c (s.setCopier c (.returnedFalse started false))
  | crash : Copy s c (s.setCopier c .crashed)

inductive Check (s : State Pid) (c : Pid) : State Pid → Prop where
  | openDigest {i : Inode Pid} : s.checker c = .start → s.dir .digest = some i → Check s c (s.setChecker c (.reading i))
  | readDigest {i : Inode Pid} {h : List Char} : s.checker c = .reading i → expected (s.content i) = some h →
      Check s c (s.setChecker c (.expecting h))
  | badDigest {i : Inode Pid} : s.checker c = .reading i → expected (s.content i) = none →
      Check s c (s.setChecker c (.returned false))
  | openData {h : List Char} {i : Inode Pid} : s.checker c = .expecting h → s.dir .destination = some i →
      Check s c (s.setChecker c (.hashing h i))
  | answer {h : List Char} {i : Inode Pid} : s.checker c = .hashing h i →
      Check s c (s.setChecker c (.returned (decide (sha256 (s.content i) = h))))
  | fail : Check s c (s.setChecker c (.returned false))
  | crash : Check s c (s.setChecker c .crashed)

/-- A step of any process. Pruning removes the data or the digest of an entry, never a file
with a temporary name. -/
inductive Step (s : State Pid) : State Pid → Prop where
  | publish {s' : State Pid} (p : Pid) : Publish sha256 source s p s' → Step s s'
  | copy {s' : State Pid} (c : Pid) : Copy sha256 s c s' → Step s s'
  | check {s' : State Pid} (c : Pid) : Check sha256 s c s' → Step s s'
  | pruneData : Step s (s.link .destination none)
  | pruneDigest : Step s (s.link .digest none)

/-- No call has begun, and there is no entry. A copier's destination can be there already. -/
structure Initial (s : State Pid) : Prop where
  publisher : ∀ p, s.publisher p = .start
  copier : ∀ c, s.copier c = .start
  checker : ∀ c, s.checker c = .start
  dir : ∀ n i, s.dir n = some i → ∃ c, n = .copy c ∧ i = .copy c
  complete : s.complete = ∅
  digested : s.digested = ∅

def Reachable (s : State Pid) : Prop := ∃ s₀, Initial s₀ ∧ Relation.ReflTransGen (Step sha256 source) s₀ s

end

/-!
## The build cache serves no torn file

A digest is only published for a complete temporary copy, and no one writes to a published
file any more (`Inv`). So what a copier's destination has to match is the digest of some
publisher's complete copy, whatever has been renamed, removed or left behind meanwhile
(`copyValidCachedFile_serves`). What a copier whose `rm` failed has left at its destination can be anything.
-/

variable {Pid : Type*} [DecidableEq Pid] {sha256 : Bytes → List Char} {source : Pid → Bytes} {s s' : State Pid}

/-! ### Digest files -/

variable {text : List Char}

theorem decode_ascii (h : ∀ c ∈ text, c.toNat < 256) : decode (ascii text) = text := by
  induction text with
  | nil => rfl
  | cons c text ih =>
    obtain ⟨hc, htext⟩ := forall_mem_cons.mp h
    have hchar : Char.ofNat (c.toNat % 256) = c := by rw [Nat.mod_eq_of_lt hc, Char.ofNat_toNat]
    simpa [decode, ascii, hchar] using ih htext

theorem not_blank_of_isDigest (h : isDigest text = true) :
    text ≠ [] ∧ ∀ c ∈ text, isBlank c = false ∧ c.toNat < 256 := by
  simp only [isDigest, Bool.and_eq_true, beq_iff_eq, all_eq_true] at h
  obtain ⟨hlen, hall⟩ := h
  refine ⟨by rintro rfl; simp at hlen, fun c hc => ?_⟩
  have hrange : 48 ≤ c.toNat ∧ c.toNat ≤ 57 ∨ 97 ≤ c.toNat ∧ c.toNat ≤ 102 := by
    simpa [Char.le_def, UInt32.le_iff_toNat_le] using hall c hc
  refine ⟨?_, by omega⟩
  simp only [isBlank, mem_cons, not_mem_nil, or_false, decide_eq_false_iff_not, not_or]
  refine ⟨?_, ?_, ?_, ?_, ?_, ?_⟩ <;> rintro rfl <;> revert hrange <;> decide

theorem trim_line (hne : text ≠ []) (h : ∀ c ∈ text, isBlank c = false) :
    trim (text ++ ['\n']) = text := by
  have keep {l : List Char} (hl : l ≠ []) (hb : ∀ c ∈ l, isBlank c = false) (l' : List Char) :
      (l ++ l').dropWhile isBlank = l ++ l' := by
    cases l with
    | nil => exact absurd rfl hl
    | cons c l => simp [hb c mem_cons_self]
  have back := keep (l := text.reverse) (by simpa using hne) (by simpa using h) []
  rw [append_nil] at back
  unfold trim
  rw [keep hne h, reverse_append, reverse_singleton, singleton_append, dropWhile_cons_of_pos (by decide),
    back, reverse_reverse]

theorem expected_digestLine (h : isDigest text = true) : expected (digestLine text) = some text := by
  obtain ⟨hne, hall⟩ := not_blank_of_isDigest h
  have hdecode : decode (digestLine text) = text ++ ['\n'] :=
    decode_ascii (forall_mem_append.mpr ⟨fun c hc => (hall c hc).2, forall_mem_singleton.mpr (by decide)⟩)
  have htrim : trim (decode (digestLine text)) = text := by rw [hdecode, trim_line hne fun c hc => (hall c hc).1]
  simp only [expected, htrim, h, if_true]

/-! ### The invariant -/

section

variable (sha256 : Bytes → List Char) (source : Pid → Bytes) (s : State Pid)

/-- The digest of a publisher's complete copy. -/
def Expected (h : List Char) : Prop := ∃ p ∈ s.complete, h = sha256 (source p)

/-- What a name can hold. -/
def Named : Name Pid → Inode Pid → Prop
  | .destination, i => ∃ p ∈ s.complete, i = .tmp p
  | .digest, i => ∃ p ∈ s.digested, i = .tmpDigest p
  | .tmp p, i => i = .tmp p
  | .tmpDigest p, i => i = .tmpDigest p
  | .copy c, i => i = .copy c

def PublisherOk (p : Pid) : Publisher → Prop
  | .start | .copying => p ∉ s.complete ∧ p ∉ s.digested
  | .copied | .privateMode => p ∈ s.complete ∧ p ∉ s.digested
  | .hashed h | .writing h => p ∈ s.complete ∧ p ∉ s.digested ∧ h = sha256 (source p)
  | .written _ | .renamed => p ∈ s.complete ∧ p ∈ s.digested
  | .cleaning _ _ | .returned | .crashed => True

/-- The copier has its answer, and leaves its destination alone. -/
def Copier.answered : Copier Pid → Bool
  | .returnedTrue _ | .returnedFalse _ _ => true
  | _ => false

def CopierOk (c : Pid) : Copier Pid → Prop
  | .reading i => ∃ p ∈ s.digested, i = .tmpDigest p
  | .expecting h | .opened h _ | .copying h _ | .copied h => Expected sha256 source s h
  | .returnedTrue h => Expected sha256 source s h ∧ s.dir (.copy c) = some (.copy c) ∧ sha256 (s.content (.copy c)) = h
  | .returnedFalse _ removed => removed = true → s.dir (.copy c) = none
  | .start | .mismatch | .caught _ | .crashed => True

/-- A name leads to a file of its own kind, with what its writer has written. -/
structure Inv : Prop where
  names : ∀ n i, s.dir n = some i → Named s n i
  complete : ∀ p ∈ s.complete, s.content (.tmp p) = source p
  digested : ∀ p ∈ s.digested, p ∈ s.complete ∧ s.content (.tmpDigest p) = digestLine (sha256 (source p))
  publisher : ∀ p, PublisherOk sha256 source s p (s.publisher p)
  copier : ∀ c, CopierOk sha256 source s c (s.copier c)

/-- Someone is still writing to the file. -/
def Writable : Inode Pid → Prop
  | .tmp p => p ∉ s.complete
  | .tmpDigest p => p ∉ s.digested
  | .copy c => (s.copier c).answered = false

end

omit [DecidableEq Pid] in
theorem Initial.inv (h : Initial s) : Inv sha256 source s where
  names n i hi := by
    obtain ⟨c, rfl, rfl⟩ := h.dir n i hi
    rfl
  complete p hp := by simp [h.complete] at hp
  digested p hp := by simp [h.digested] at hp
  publisher p := by
    rw [h.publisher p]
    simp [PublisherOk, h.complete, h.digested]
  copier c := by
    rw [h.copier c]
    trivial

variable {n : Name Pid}

omit [DecidableEq Pid] in
theorem Named.mono {i : Inode Pid} (h : Named s n i) (hcomplete : s.complete ⊆ s'.complete)
    (hdigested : s.digested ⊆ s'.digested) : Named s' n i := by
  cases n with
  | destination =>
    obtain ⟨p, hp, rfl⟩ := h
    exact ⟨p, hcomplete hp, rfl⟩
  | digest =>
    obtain ⟨p, hp, rfl⟩ := h
    exact ⟨p, hdigested hp, rfl⟩
  | tmp p => exact h
  | tmpDigest p => exact h
  | copy c => exact h

variable {pc : Publisher} {p : Pid}

omit [DecidableEq Pid] in
theorem PublisherOk.congr (h : PublisherOk sha256 source s p pc)
    (hcomplete : p ∈ s'.complete ↔ p ∈ s.complete) (hdigested : p ∈ s'.digested ↔ p ∈ s.digested) :
    PublisherOk sha256 source s' p pc := by
  cases pc <;> simp only [PublisherOk, hcomplete, hdigested] at h ⊢ <;> exact h

/-- One publisher has moved. -/
theorem publisher_update (hs : s'.publisher = update s.publisher p pc)
    (hp : PublisherOk sha256 source s' p pc) (hother : ∀ q, q ≠ p → PublisherOk sha256 source s' q (s.publisher q)) (q : Pid) :
    PublisherOk sha256 source s' q (s'.publisher q) := by
  rw [hs]
  by_cases hq : q = p
  · subst hq
    rw [update_self]
    exact hp
  · rw [update_of_ne hq]
    exact hother q hq

variable {c : Pid}

omit [DecidableEq Pid] in
theorem CopierOk.mono {pc : Copier Pid} (h : CopierOk sha256 source s c pc) (hcomplete : s.complete ⊆ s'.complete)
    (hdigested : s.digested ⊆ s'.digested) (hown : pc.answered = false ∨
      s'.dir (.copy c) = s.dir (.copy c) ∧ s'.content (.copy c) = s.content (.copy c)) : CopierOk sha256 source s' c pc := by
  have expected {h : List Char} : Expected sha256 source s h → Expected sha256 source s' h := fun ⟨p, hp, hh⟩ => ⟨p, hcomplete hp, hh⟩
  cases pc with
  | reading i =>
    obtain ⟨p, hp, rfl⟩ := h
    exact ⟨p, hdigested hp, rfl⟩
  | expecting h' => exact expected h
  | opened h' i => exact expected h
  | copying h' i => exact expected h
  | copied h' => exact expected h
  | returnedTrue h' =>
    obtain hown | ⟨hdir, hcontent⟩ := hown
    · cases hown
    · obtain ⟨hex, hd, hs⟩ := h
      exact ⟨expected hex, hdir.trans hd, by rw [hcontent, hs]⟩
  | returnedFalse started removed =>
    obtain hown | ⟨hdir, -⟩ := hown
    · cases hown
    · exact fun hremoved => hdir.trans (h hremoved)
  | start => trivial
  | mismatch => trivial
  | caught started => trivial
  | crashed => trivial

/-! ### What the parts of a step leave -/

namespace Inv

theorem setPublisher (hi : Inv sha256 source s) (hpc : PublisherOk sha256 source s p pc) :
    Inv sha256 source (s.setPublisher p pc) where
  names := hi.names
  complete := hi.complete
  digested := hi.digested
  publisher := publisher_update rfl (hpc.congr Iff.rfl Iff.rfl) fun q _ => (hi.publisher q).congr Iff.rfl Iff.rfl
  copier := hi.copier

theorem setCopier {pc : Copier Pid} (hi : Inv sha256 source s) (hpc : CopierOk sha256 source s c pc) :
    Inv sha256 source (s.setCopier c pc) where
  names := hi.names
  complete := hi.complete
  digested := hi.digested
  publisher := hi.publisher
  copier d := by
    change CopierOk sha256 source _ d (update s.copier c pc d)
    by_cases hd : d = c
    · subst hd
      rw [update_self]
      exact hpc.mono (fun _ => id) (fun _ => id) (.inr ⟨rfl, rfl⟩)
    · rw [update_of_ne hd]
      exact (hi.copier d).mono (fun _ => id) (fun _ => id) (.inr ⟨rfl, rfl⟩)

theorem setChecker {pc : Checker Pid} (hi : Inv sha256 source s) : Inv sha256 source (s.setChecker c pc) :=
  ⟨hi.names, hi.complete, hi.digested, hi.publisher, hi.copier⟩

theorem link {o : Option (Inode Pid)} (hi : Inv sha256 source s) (ho : ∀ i, o = some i → Named s n i)
    (hcopy : ∀ c, n = .copy c → (s.copier c).answered = false) : Inv sha256 source (s.link n o) where
  names m i hm := by
    by_cases hn : m = n
    · subst hn
      exact ho i (by simpa [State.link] using hm)
    · exact hi.names m i (by simpa [State.link, update_of_ne hn] using hm)
  complete := hi.complete
  digested := hi.digested
  publisher := hi.publisher
  copier c := by
    refine (hi.copier c).mono (fun _ => id) (fun _ => id) ?_
    by_cases hn : .copy c = n
    · exact .inl (hcopy c hn.symm)
    · exact .inr ⟨update_of_ne hn _ _, rfl⟩

theorem unlink (hi : Inv sha256 source s) (hcopy : ∀ c, n = .copy c → (s.copier c).answered = false) :
    Inv sha256 source (s.link n none) :=
  hi.link (fun i h => by cases h) hcopy

theorem fill {i : Inode Pid} {b : Bytes} (hi : Inv sha256 source s) (hw : Writable s i) : Inv sha256 source (s.fill i b) where
  names := hi.names
  complete p hp := by
    have hne : Inode.tmp p ≠ i := by
      rintro rfl
      exact hw hp
    exact (update_of_ne hne _ _).trans (hi.complete p hp)
  digested p hp := by
    have hne : Inode.tmpDigest p ≠ i := by
      rintro rfl
      exact hw hp
    exact ⟨(hi.digested p hp).1, (update_of_ne hne _ _).trans (hi.digested p hp).2⟩
  publisher := hi.publisher
  copier c := by
    refine (hi.copier c).mono (fun _ => id) (fun _ => id) ?_
    by_cases hn : .copy c = i
    · subst hn
      exact .inl hw
    · exact .inr ⟨rfl, update_of_ne hn _ _⟩

end Inv

/-! ### Steps -/

theorem Publish.inv (h : Publish sha256 source s p s') (hi : Inv sha256 source s) : Inv sha256 source s' := by
  have hp := hi.publisher p
  have no_copy {n : Name Pid} (hn : ∀ c, n ≠ .copy c) (c : Pid) (hc : n = .copy c) : (s.copier c).answered = false := absurd hc (hn c)
  cases h with
  | create hpc =>
    rw [hpc] at hp
    have hlink : Inv sha256 source (s.link (.tmp p) (some (.tmp p))) :=
      hi.link (fun i h => (Option.some.inj h).symm) (no_copy (by simp))
    exact (hlink.fill (i := .tmp p) hp.1).setPublisher hp
  | copyChunk n hpc =>
    rw [hpc] at hp
    exact hi.fill (i := .tmp p) hp.1
  | copied hpc hfull =>
    rw [hpc] at hp
    refine ⟨fun n i hn => (hi.names n i hn).mono (Set.subset_insert p _) (fun _ => id), ?_, fun q hq => ?_, ?_, fun c => ?_⟩
    · exact Set.forall_mem_insert.mpr ⟨hfull, hi.complete⟩
    · exact ⟨Set.mem_insert_of_mem p (hi.digested q hq).1, (hi.digested q hq).2⟩
    · exact publisher_update rfl ⟨Set.mem_insert p _, hp.2⟩ fun q hq => (hi.publisher q).congr (by simp [hq]) Iff.rfl
    · exact (hi.copier c).mono (Set.subset_insert p _) (fun _ => id) (.inr ⟨rfl, rfl⟩)
  | chmod hpc =>
    rw [hpc] at hp
    exact hi.setPublisher hp
  | hash hpc hdir =>
    rw [hpc] at hp
    cases hi.names _ _ hdir
    exact hi.setPublisher ⟨hp.1, hp.2, by rw [hi.complete p hp.1]⟩
  | createDigest hpc =>
    rw [hpc] at hp
    have hlink : Inv sha256 source (s.link (.tmpDigest p) (some (.tmpDigest p))) :=
      hi.link (fun i h => (Option.some.inj h).symm) (no_copy (by simp))
    exact (hlink.fill (i := .tmpDigest p) hp.2.1).setPublisher hp
  | writeChunk n hpc =>
    rw [hpc] at hp
    exact hi.fill (i := .tmpDigest p) hp.2.1
  | written hpc hfull =>
    rw [hpc] at hp
    obtain ⟨hcomplete, -, rfl⟩ := hp
    refine ⟨fun n i hn => (hi.names n i hn).mono (fun _ => id) (Set.subset_insert p _), hi.complete, ?_, ?_, fun c => ?_⟩
    · exact Set.forall_mem_insert.mpr ⟨⟨hcomplete, hfull⟩, hi.digested⟩
    · exact publisher_update rfl ⟨hcomplete, Set.mem_insert p _⟩ fun q hq => (hi.publisher q).congr Iff.rfl (by simp [hq])
    · exact (hi.copier c).mono (fun _ => id) (Set.subset_insert p _) (.inr ⟨rfl, rfl⟩)
  | renameData hpc _ =>
    rw [hpc] at hp
    have hlink : Inv sha256 source (s.link .destination (s.dir (.tmp p))) :=
      hi.link (fun i h => ⟨p, hp.1, hi.names _ i h⟩) (no_copy (by simp))
    exact (hlink.unlink (no_copy (by simp))).setPublisher hp
  | renameDigest hpc _ =>
    rw [hpc] at hp
    have hlink : Inv sha256 source (s.link .digest (s.dir (.tmpDigest p))) :=
      hi.link (fun i h => ⟨p, hp.2, hi.names _ i h⟩) (no_copy (by simp))
    exact (hlink.unlink (no_copy (by simp))).setPublisher trivial
  | fail _ => exact hi.setPublisher trivial
  | rmTmp _ => exact (hi.unlink (no_copy (by simp))).setPublisher trivial
  | rmTmpDigest _ => exact (hi.unlink (no_copy (by simp))).setPublisher trivial
  | rmTmpFailed _ => exact hi.setPublisher trivial
  | rmTmpDigestFailed _ => exact hi.setPublisher trivial
  | finish _ => exact hi.setPublisher trivial
  | crash => exact hi.setPublisher trivial

theorem Copy.inv (hdigest : ∀ b, isDigest (sha256 b) = true) (h : Copy sha256 s c s') (hi : Inv sha256 source s) :
    Inv sha256 source s' := by
  have hc := hi.copier c
  have own {pc : Copier Pid} (hpc : s.copier c = pc) (hans : pc.answered = false) (d : Pid)
      (hd : Name.copy c = .copy d) : (s.copier d).answered = false := by
    cases hd
    rw [hpc, hans]
  cases h with
  | openDigest hpc hdir => exact hi.setCopier (hi.names _ _ hdir)
  | noDigest hpc _ => exact hi.setCopier trivial
  | @readDigest i h hpc hread =>
    rw [hpc] at hc
    obtain ⟨p, hp, rfl⟩ := hc
    obtain ⟨hcomplete, hline⟩ := hi.digested p hp
    rw [hline, expected_digestLine (hdigest _)] at hread
    exact hi.setCopier ⟨p, hcomplete, (Option.some.inj hread).symm⟩
  | badDigest hpc _ => exact hi.setCopier fun h => by cases h
  | openData hpc hdir =>
    rw [hpc] at hc
    exact hi.setCopier hc
  | noData hpc _ => exact hi.setCopier trivial
  | create hpc =>
    have hlink : Inv sha256 source (s.link (.copy c) (some (.copy c))) :=
      hi.link (fun i h => (Option.some.inj h).symm) (own hpc rfl)
    rw [hpc] at hc
    exact (hlink.fill (i := .copy c) (own hpc rfl c rfl)).setCopier hc
  | copyChunk n hpc => exact hi.fill (i := .copy c) (own hpc rfl c rfl)
  | copied hpc _ =>
    rw [hpc] at hc
    exact hi.setCopier hc
  | valid hpc hdir hsha =>
    rw [hpc] at hc
    cases hi.names _ _ hdir
    exact hi.setCopier ⟨hc, hdir, hsha⟩
  | invalid hpc _ _ => exact hi.setCopier trivial
  | rmInvalid hpc => exact (hi.unlink (own hpc rfl)).setCopier fun _ => update_self ..
  | rmInvalidFailed _ => exact hi.setCopier fun h => by cases h
  | fail _ => exact hi.setCopier trivial
  | rmCaught hpc => exact (hi.unlink (own hpc rfl)).setCopier fun _ => update_self ..
  | rmCaughtFailed _ => exact hi.setCopier fun h => by cases h
  | crash => exact hi.setCopier trivial

theorem Check.inv (h : Check sha256 s c s') (hi : Inv sha256 source s) : Inv sha256 source s' := by
  cases h <;> exact hi.setChecker

theorem Step.inv (hdigest : ∀ b, isDigest (sha256 b) = true) (h : Step sha256 source s s') (hi : Inv sha256 source s) :
    Inv sha256 source s' := by
  cases h with
  | publish p h => exact h.inv hi
  | copy c h => exact h.inv hdigest hi
  | check c h => exact h.inv hi
  | pruneData => exact hi.unlink (by simp)
  | pruneDigest => exact hi.unlink (by simp)

theorem Reachable.inv (hdigest : ∀ b, isDigest (sha256 b) = true) (h : Reachable sha256 source s) : Inv sha256 source s := by
  obtain ⟨s₀, h₀, hrun⟩ := h
  induction hrun with
  | refl => exact h₀.inv
  | tail _ hstep ih => exact hstep.inv hdigest ih

/-! ### What a copier gets -/

private def abc : Bytes := ascii ['a', 'b', 'c']

private def abcDigest : List Char := "ba7816bf8f01cfea414140de5dae2223b00361a396177a9cb410ff61f20015ad".toList

private def emptyDigest : List Char := "e3b0c44298fc1c149afbf4c8996fb92427ae41e4649b934ca495991b7852b855".toList

private def sampleDigest (b : Bytes) : List Char := if b = abc then abcDigest else emptyDigest

private def idle : State ℕ := ⟨fun _ => none, fun _ => [], fun _ => .start, fun _ => .start, fun _ => .start, ∅, ∅⟩

private theorem isDigest_sampleDigest (b : Bytes) : isDigest (sampleDigest b) = true := by
  unfold sampleDigest
  split <;> decide +kernel

private theorem eq_abc_of_sampleDigest {b : Bytes} (h : sampleDigest b = sampleDigest abc) : b = abc := by
  by_contra hb
  rw [sampleDigest, if_neg hb] at h
  revert h
  decide +kernel

/-- One publisher has published, and one copier has made its destination. -/
private theorem copying_abc :
    ∃ s, Reachable sampleDigest (fun _ : ℕ => abc) s ∧ s.copier 7 = .copying abcDigest (.tmp 3) ∧
      s.dir (.copy 7) = some (.copy 7) ∧ s.content (.copy 7) = [] ∧ s.content (.tmp 3) = abc := by
  have published : Relation.ReflTransGen (Step sampleDigest fun _ : ℕ => abc) idle _ :=
    .tail (.tail (.tail (.tail (.tail (.tail (.tail (.tail (.tail (.tail .refl
      (.publish 3 (.create rfl))) (.publish 3 (.copyChunk 3 rfl))) (.publish 3 (.copied rfl rfl)))
      (.publish 3 (.chmod rfl))) (.publish 3 (.hash rfl rfl))) (.publish 3 (.createDigest rfl)))
      (.publish 3 (.writeChunk 65 rfl))) (.publish 3 (.written rfl rfl)))
      (.publish 3 (.renameData rfl (by decide)))) (.publish 3 (.renameDigest rfl (by decide)))
  have copying := published |>.tail (.copy 7 (.openDigest rfl rfl)) |>.tail (.copy 7 (.readDigest (h := abcDigest) rfl (by decide +kernel)))
    |>.tail (.copy 7 (.openData rfl rfl)) |>.tail (.copy 7 (.create rfl))
  exact ⟨_, ⟨idle, ⟨fun _ => rfl, fun _ => rfl, fun _ => rfl, fun _ _ h => (by cases h), rfl, rfl⟩, copying⟩, rfl, rfl, rfl, rfl⟩

private theorem setCopier_copier (s : State Pid) (c : Pid) (pc : Copier Pid) : (s.setCopier c pc).copier c = pc :=
  update_self ..

private theorem Reachable.copy (h : Reachable sha256 source s) (hs : Copy sha256 s c s') :
    Reachable sha256 source s' := by
  obtain ⟨s₀, h₀, hrun⟩ := h
  exact ⟨s₀, h₀, hrun.tail (.copy c hs)⟩

end BuildCache
