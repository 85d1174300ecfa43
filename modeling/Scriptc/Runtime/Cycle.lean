import Scriptc.Lib.Graph
import Scriptc.Lib.Loop

/-!
# The cycle collector of the C runtime

Objects are counted. An object that can be part of a cycle carries a header, and a release that
leaves it alive buffers it as a candidate (purple). A pass walks what the candidates reach in the
generations it collects: it takes every edge it walks off the counts (gray), puts the edges back
below every object that is still referred to (black), and frees the others (white).

An object has traced edges, to children with a header, and others; edges to `NULL` and to
immortal objects count nowhere and are left out. The references held outside of the heap (by
stacks, by the runtime's own buffers, by a teardown under way) are part of the state. The pass is
modelled apart from the counters that decide when one is due: any pass may run at any time.
-/

namespace Scriptc.Runtime

open Function

abbrev Id := ℕ

/-- `SCR_CYC_BLACK` and the others. -/
inductive Color where
  | black | purple | gray | white | doomed
  deriving DecidableEq, Repr

/-- The generations. -/
inductive Gen where
  | nursery | mature
  deriving DecidableEq, Repr

/-- `g > limit`. -/
def Gen.above : Gen → Gen → Bool
  | .mature, .nursery => true
  | _, _ => false

/-- The objects with their headers, and the collector's vectors. -/
structure Heap where
  objs : List Id
  rc : Id → ℕ
  /-- The object has a cycle header; color, generation and buffering are those of headers. -/
  headered : Id → Bool
  color : Id → Color
  gen : Id → Gen
  buffered : Id → Bool
  /-- What `trace` visits. -/
  traced : Id → List Id
  /-- What only the teardown releases. -/
  untraced : Id → List Id
  /-- `scr_roots`. -/
  roots : Gen → List Id
  /-- `scr_promote`. -/
  promote : List Id
  /-- `scr_white`. -/
  white : List Id
  nextId : ℕ
  /-- The references held outside of the heap. -/
  outside : List Id

/-- A heap without objects. -/
def Heap.empty : Heap where
  objs := []
  rc := fun _ => 0
  headered := fun _ => false
  color := fun _ => .black
  gen := fun _ => .nursery
  buffered := fun _ => false
  traced := fun _ => []
  untraced := fun _ => []
  roots := fun _ => []
  promote := []
  white := []
  nextId := 0
  outside := []

namespace Heap

variable (h : Heap) (x : Id) (limit : Gen)

/-- Every edge out of an object. -/
def edges : List Id := h.traced x ++ h.untraced x

def inc : Heap := { h with rc := update h.rc x (h.rc x + 1) }

def dec : Heap := { h with rc := update h.rc x (h.rc x - 1) }

def paint (c : Color) : Heap := { h with color := update h.color x c }

/-- The block goes. -/
def free : Heap :=
  { h with objs := h.objs.erase x, traced := update h.traced x [], untraced := update h.untraced x [] }

/-! ### Candidates -/

/-- The last entry moves into the hole. -/
def swapRemove (l : List Id) (x : Id) : List Id := (l.set (l.idxOf x) (l.getLastD x)).dropLast

/-- `scr_cyc_on_dead`. -/
def onDead : Heap :=
  if h.buffered x then
    { h with
      roots := update h.roots (h.gen x) (swapRemove (h.roots (h.gen x)) x)
      buffered := update h.buffered x false }
  else h

/-- Into the buffer of its generation. -/
def buffer : Heap :=
  if h.buffered x then h
  else
    { h with
      roots := update h.roots (h.gen x) (h.roots (h.gen x) ++ [x])
      buffered := update h.buffered x true }

/-- `scr_cyc_on_release`. Objects without a header have no such hook. -/
def onRelease : Heap := if h.headered x then (h.paint x .purple).buffer x else h

/-- `scr_cyc_mark_live`, the retain hook. -/
def markLive : Heap := if h.headered x then h.paint x .black else h

/-- One release: the last one tears the object down, which releases its children. -/
def releaseStep : List Id × Heap → Option (List Id × Heap)
  | ([], _) => none
  | (x :: rest, h) =>
    if h.rc x = 1 then some (h.edges x ++ rest, (h.onDead x).free x) else some (rest, (h.dec x).onRelease x)

/-- Releases in order, with all that goes with them. -/
def releaseAll (pending : List Id) (h : Heap) : Heap :=
  (Loop.run releaseStep (pending.length + (h.objs.flatMap h.edges).length) (pending, h)).2

/-! ### Trial deletion -/

/-- The children a phase visits: `SCR_CYC_SKIP` leaves the others out. -/
def kids : List Id := (h.traced x).filter fun c => !(h.gen c).above limit

/-- Enough turns for a walk that starts with the given visits. -/
def turns (work : List Id) : ℕ := work.length + (h.objs.flatMap h.traced).length

/-- `scr_mg_visit`. -/
def markGrayStep (limit : Gen) : List Id × Heap → Option (List Id × Heap)
  | ([], _) => none
  | (c :: rest, h) =>
    let h := h.dec c
    if h.color c = .gray then some (rest, h) else some (h.kids c limit ++ rest, h.paint c .gray)

/-- `scr_mark_gray`. -/
def markGray : Heap :=
  if h.color x = .gray then h
  else (Loop.run (markGrayStep limit) (h.turns (h.kids x limit)) (h.kids x limit, h.paint x .gray)).2

/-- The first half of `scr_scan_black`: the object survives, and is to be promoted. -/
def blacken : Heap :=
  let h := h.paint x .black
  if h.gen x = .nursery then { h with promote := h.promote ++ [x] } else h

/-- `scr_sb_visit`. -/
def scanBlackStep (limit : Gen) : List Id × Heap → Option (List Id × Heap)
  | ([], _) => none
  | (c :: rest, h) =>
    let h := h.inc c
    if h.color c = .black then some (rest, h) else some (h.kids c limit ++ rest, h.blacken c)

/-- `scr_scan_black`. -/
def scanBlack : Heap := (Loop.run (scanBlackStep limit) (h.turns (h.kids x limit)) (h.kids x limit, h.blacken x)).2

/-- `scr_scan`, with the calls still to come. -/
def scanStep (limit : Gen) : List Id × Heap → Option (List Id × Heap)
  | ([], _) => none
  | (x :: rest, h) =>
    if h.color x ≠ .gray then some (rest, h)
    else if 0 < h.rc x then some (rest, h.scanBlack x limit)
    else some (h.kids x limit ++ rest, h.paint x .white)

def scan : Heap := (Loop.run (scanStep limit) (h.turns [x]) ([x], h)).2

/-- A call of `scr_collect_white`, and what it does after the trace of the children. -/
inductive Gather where
  | enter (x : Id)
  | leave (x : Id)
  deriving DecidableEq, Repr

/-- `scr_collect_white`, with the calls still to come. -/
def gatherStep (limit : Gen) : List Gather × Heap → Option (List Gather × Heap)
  | ([], _) => none
  | (.enter x :: rest, h) =>
    if h.color x ≠ .white || h.buffered x then some (rest, h)
    else some ((h.kids x limit).map .enter ++ .leave x :: rest, h.paint x .doomed)
  | (.leave x :: rest, h) => some (rest, { h with white := h.white ++ [x] })

def collectWhite : Heap :=
  (Loop.run (gatherStep limit) (h.turns [x] + h.objs.length) ([.enter x], h)).2

/-! ### The pass -/

/-- The buffers at or below the limit. -/
def due : List Id := h.roots .nursery ++ if limit = .mature then h.roots .mature else []

/-- `markRoots`: the buffers are drained, and the purple ones are the candidates. -/
def drain : Heap :=
  { h with
    buffered := fun x => if (h.due limit).contains x then false else h.buffered x
    roots := fun g => if g.above limit then h.roots g else [] }

def cands : List Id := (h.due limit).filter fun x => h.color x = .purple

/-- `scr_xg_pin_visit` over the white set: the skipped edges, each of which gets a pin. -/
def crossing : List Id :=
  if limit = .mature then [] else h.white.flatMap fun w => (h.traced w).filter fun c => (h.gen c).above limit

/-- The survivors graduate. -/
def graduate : Heap :=
  { h with gen := fun x => if h.promote.contains x then .mature else h.gen x, promote := [] }

/-- A restricted pass hands a surviving candidate back. -/
def handBack : Heap := if h.color x = .doomed then h else (h.paint x .purple).buffer x

/-- `free_fn`: the untraced children are released, and the block goes. -/
def freeFn : Heap := releaseAll (h.untraced x) (h.free x)

/-- The pin goes, then the edge. -/
def settle : Heap := releaseAll [x] (h.dec x)

/-- The walks of a pass, from the candidates to the white set. -/
def trial (cands : List Id) : Heap :=
  let h := cands.foldl (fun h x => h.markGray x limit) h
  let h := cands.foldl (fun h x => h.scan x limit) h
  cands.foldl (fun h x => h.collectWhite x limit) { h with white := [] }

/-- `scr_cyc_pass`: the heap after it, and the size of the white set. What the crossing edges free
besides is counted by a restricted pass only, and no caller reads that count. -/
def cycPass : Heap × ℕ :=
  let cands := h.cands limit
  let h := (h.drain limit).trial limit cands
  let pins := h.crossing limit
  let h := (pins.foldl inc h).graduate
  let h := if limit = .mature then h else cands.foldl handBack h
  let white := h.white
  let h := white.foldl freeFn h
  (pins.foldl settle { h with white := [] }, white.length)

/-- Some candidate is buffered. -/
def anyBuffered : Bool := !(h.roots .nursery).isEmpty || !(h.roots .mature).isEmpty

/-- `scr_collect_cycles`, for at most `n` passes. -/
def collectLoop : ℕ → Heap → Heap
  | 0, h => h
  | n + 1, h =>
    let r := h.cycPass .mature
    if r.2 ≠ 0 && r.1.anyBuffered then collectLoop n r.1 else r.1

/-- `scr_collect_cycles`: every repeat has freed something. -/
def collectCycles : Heap := collectLoop (h.objs.length + 1) h

/-! ### What the program does -/

/-- `scr_cyc_alloc`, or a plain allocation: the caller holds the one reference. -/
def alloc (header : Bool) : Heap :=
  { h with
    objs := h.nextId :: h.objs
    rc := update h.rc h.nextId 1
    headered := update h.headered h.nextId header
    color := update h.color h.nextId .black
    gen := update h.gen h.nextId .nursery
    buffered := update h.buffered h.nextId false
    traced := update h.traced h.nextId []
    untraced := update h.untraced h.nextId []
    nextId := h.nextId + 1
    outside := h.nextId :: h.outside }

/-- A retain: one more reference outside. -/
def retain : Heap := { (h.inc x).markLive x with outside := x :: h.outside }

/-- A release of a reference held outside. An object that goes leaves its children to the teardown,
which releases them one by one. -/
def release : Heap :=
  if h.rc x = 1 then { (h.onDead x).free x with outside := h.edges x ++ h.outside.erase x }
  else { (h.dec x).onRelease x with outside := h.outside.erase x }

/-- A store: references move between the fields of an object and the outside. An overwritten one is
unlinked here and released afterwards. -/
def store (traced untraced rest : List Id) : Heap :=
  { h with
    traced := update h.traced x traced
    untraced := update h.untraced x untraced
    outside := rest }

end Heap

end Scriptc.Runtime
