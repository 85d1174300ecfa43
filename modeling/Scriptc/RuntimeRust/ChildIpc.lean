import Scriptc.Lib.Bytes
import Scriptc.Lib.Chunks

/-!
# The channel to a child process

`child_ipc.rs`: the program sends messages over a socket to a process it forked, or to the one that
forked it. A thread of its own, the worker, owns the socket. It takes commands from one queue,
writes each message as a frame (four bytes of length, then the payload) to the socket, which does
not block, reads frames from it, and puts what happened on a second queue, which the event loop
dispatches. Both queues are unbounded and in order.

A step of the channel is a call of the program, a step of the worker, the dispatch of one event, or
something the peer or the socket does. The number of bytes a write takes, whether it would block,
what a read brings, and the order in which a `HashMap` gives out its values are not known, and any
choice is a step. Callbacks are known by the number of their send. Listeners of messages are left
out: the messages that were dispatched are listed.
-/

namespace Scriptc.RuntimeRust.Ipc

/-! ### Frames -/

/-- `u32::to_be_bytes` -/
def beBytes (n : ℕ) : Bytes := (Bytes.leBytes 4 n).reverse

def beNat (bs : Bytes) : ℕ := Bytes.leNat bs.reverse

def childIpcFrame (payload : Bytes) : Bytes := beBytes payload.length ++ payload

/-- The payloads of the whole frames at the front, and what is left: the loop of the worker over its
buffer. -/
def takeFrames (incoming : Bytes) : List Bytes × Bytes :=
  if _h4 : incoming.length < 4 then ([], incoming)
  else
    let length := beNat (incoming.take 4)
    if _h : incoming.length < 4 + length then ([], incoming)
    else
      let rest := takeFrames (incoming.drop (4 + length))
      ((incoming.drop 4).take length :: rest.1, rest.2)
termination_by incoming.length
decreasing_by
  rw [List.length_drop]
  omega

/-- A read. -/
def receive (incoming chunk : Bytes) : List Bytes × Bytes := takeFrames (incoming ++ chunk)

/-! ### The channel -/

inductive Command where
  | send (id : ℕ) (payload : Bytes)
  | disconnect
  deriving DecidableEq

/-- What the threads report. -/
inductive Event where
  | sent (id : ℕ) (success : Bool)
  | message (payload : Bytes)
  | disconnected
  deriving DecidableEq

/-- Where the worker is. Commands that came before the peer did wait in a list; only sends do. -/
inductive Worker where
  | listening (pending : List (ℕ × Bytes))
  | idle (pending : List (ℕ × Bytes))
  /-- In `write_all`, with the bytes that are not written yet. -/
  | writing (id : ℕ) (payload rest : Bytes) (pending : List (ℕ × Bytes))
  | ended
  deriving DecidableEq

/-- The other process: not connected yet, connected, or gone. -/
inductive Peer where
  | waiting
  | connected
  | closed
  deriving DecidableEq

/-- A job for the next tick. -/
inductive Job where
  /-- The callback of a send that was refused. -/
  | refusal
  | listeners (ls : List ℕ)
  deriving DecidableEq

/-- A channel with its threads, and what became of the messages. -/
structure Channel where
  connected : Bool
  /-- The field `open` of the source. -/
  isOpen : Bool
  sender : Bool
  nextSendId : ℕ
  sendCallbacks : List ℕ
  disconnectListeners : List ℕ
  nextListener : ℕ
  commands : List Command
  events : List Event
  worker : Worker
  incoming : Bytes
  peer : Peer
  /-- The bytes the socket took. -/
  wire : Bytes
  ticks : List Job
  /-- The sends that returned true. -/
  accepted : List (ℕ × Bytes)
  /-- Those of them that have a callback. -/
  asked : List ℕ
  /-- Whether a send returned false. -/
  refused : Bool
  /-- Whether the program disconnected. -/
  parted : Bool
  /-- The sends that are written as a whole. -/
  written : List (ℕ × Bytes)
  /-- The callbacks that were invoked, and whether without an error. -/
  invoked : List (ℕ × Bool)
  /-- The disconnect listeners that were invoked. -/
  listened : List ℕ
  messages : List Bytes
  deriving DecidableEq

/-- A channel to a child that is not connected yet, or to the parent that is. -/
def Channel.new (worker : Worker) (peer : Peer) : Channel where
  connected := true
  isOpen := true
  sender := true
  nextSendId := 1
  sendCallbacks := []
  disconnectListeners := []
  nextListener := 0
  commands := []
  events := []
  worker := worker
  incoming := []
  peer := peer
  wire := []
  ticks := []
  accepted := []
  asked := []
  refused := false
  parted := false
  written := []
  invoked := []
  listened := []
  messages := []

/-! ### The program -/

def childIpcSendInner (c : Channel) (payload : Bytes) (callback : Bool) : Channel :=
  if c.connected = false then
    { c with ticks := if callback then c.ticks ++ [.refusal] else c.ticks, refused := true }
  else
    let id := c.nextSendId
    let callbacks := if callback then c.sendCallbacks ++ [id] else c.sendCallbacks
    -- the queue of commands is there as long as the worker is
    if c.sender = true ∧ c.worker ≠ .ended then
      { c with
        nextSendId := id + 1
        sendCallbacks := callbacks
        commands := c.commands ++ [.send id payload]
        accepted := c.accepted ++ [(id, payload)]
        asked := if callback then c.asked ++ [id] else c.asked }
    else { c with nextSendId := id + 1, sendCallbacks := callbacks, connected := false, refused := true }

def childIpcDisconnectInner (c : Channel) : Channel :=
  if c.connected = false then c
  else
    { c with
      connected := false
      parted := true
      commands := if c.sender = true ∧ c.worker ≠ .ended then c.commands ++ [.disconnect] else c.commands
      disconnectListeners := []
      ticks := if c.disconnectListeners ≠ [] then c.ticks ++ [.listeners c.disconnectListeners] else c.ticks }

def childIpcOnDisconnectInner (c : Channel) : Channel :=
  { c with disconnectListeners := c.disconnectListeners ++ [c.nextListener], nextListener := c.nextListener + 1 }

/-- One event. The callbacks that are left at the end are invoked in some order. -/
def childIpcDispatch (c : Channel) (order : List ℕ) : Event → Channel
  | .sent id success =>
    if id ∈ c.sendCallbacks then
      { c with sendCallbacks := c.sendCallbacks.erase id, invoked := c.invoked ++ [(id, success)] }
    else c
  | .message payload => { c with messages := c.messages ++ [payload] }
  | .disconnected =>
    if c.isOpen = false then c
    else
      { c with
        connected := false
        isOpen := false
        sender := false
        sendCallbacks := []
        invoked := c.invoked ++ order.map (·, false)
        disconnectListeners := []
        listened := c.listened ++ c.disconnectListeners }

/-- A job of the next tick runs. -/
def runTick (c : Channel) : Job → Channel
  | .refusal => c
  | .listeners ls => { c with listened := c.listened ++ ls }

/-! ### The worker -/

/-- The worker reports the end and is gone. -/
def endWorker (c : Channel) (last : List Event) : Channel :=
  { c with worker := .ended, events := c.events ++ last ++ [.disconnected] }

/-- A payload whose length is no `u32` is thrown out of the worker's thread, which ends it. -/
def startWrite (c : Channel) (id : ℕ) (payload : Bytes) (pending : List (ℕ × Bytes)) : Channel :=
  if payload.length < 2 ^ 32 then { c with worker := .writing id payload (childIpcFrame payload) pending }
  else { c with worker := .ended }

/-- The socket took some bytes. -/
def wrote (c : Channel) (n id : ℕ) (payload rest : Bytes) (pending : List (ℕ × Bytes)) : Channel :=
  if rest.drop n = [] then
    { c with
      wire := c.wire ++ rest.take n
      worker := .idle pending
      written := c.written ++ [(id, payload)]
      events := c.events ++ [.sent id true] }
  else { c with wire := c.wire ++ rest.take n, worker := .writing id payload (rest.drop n) pending }

/-- Bytes came in. -/
def gotBytes (c : Channel) (chunk : Bytes) : Channel :=
  { c with
    incoming := (receive c.incoming chunk).2
    events := c.events ++ (receive c.incoming chunk).1.map .message }

/-! ### Runs -/

/-- What the program, the loop, the threads or the peer do. -/
inductive Act where
  | send (payload : Bytes) (callback : Bool)
  | disconnect
  | onDisconnect
  | dispatch (order : List ℕ)
  | tick
  | accept
  | acceptError
  | recv
  | write (n : ℕ)
  | wouldBlock
  | writeError
  | read (chunk : Bytes)
  | readEnd
  | peerCloses
  deriving DecidableEq

/-- A step of the channel. Reads and writes fail only when the peer is gone, but a write may also find
the socket full. -/
inductive Step : Channel → Act → Channel → Prop where
  | send {c : Channel} (payload : Bytes) (callback : Bool) :
    Step c (.send payload callback) (childIpcSendInner c payload callback)
  | disconnect {c : Channel} : Step c .disconnect (childIpcDisconnectInner c)
  | onDisconnect {c : Channel} : Step c .onDisconnect (childIpcOnDisconnectInner c)
  | dispatch {c : Channel} {e : Event} {es : List Event} {order : List ℕ} (h : c.events = e :: es)
    (horder : order.Perm c.sendCallbacks) :
    Step c (.dispatch order) (childIpcDispatch { c with events := es } order e)
  | tick {c : Channel} {job : Job} {jobs : List Job} (h : c.ticks = job :: jobs) :
    Step c .tick (runTick { c with ticks := jobs } job)
  | accept {c : Channel} {pending : List (ℕ × Bytes)} (h : c.worker = .listening pending) :
    Step c .accept { c with worker := .idle pending, peer := .connected }
  | acceptError {c : Channel} {pending : List (ℕ × Bytes)} (h : c.worker = .listening pending) :
    Step c .acceptError (endWorker c [])
  | recvListening {c : Channel} {pending : List (ℕ × Bytes)} {id : ℕ} {payload : Bytes} {cs : List Command}
    (h : c.worker = .listening pending) (hc : c.commands = .send id payload :: cs) :
    Step c .recv { c with commands := cs, worker := .listening (pending ++ [(id, payload)]) }
  | recvDisconnect {c : Channel} {pending : List (ℕ × Bytes)} {cs : List Command}
    (h : c.worker = .listening pending ∨ c.worker = .idle []) (hc : c.commands = .disconnect :: cs) :
    Step c .recv (endWorker { c with commands := cs } [])
  | recvPending {c : Channel} {id : ℕ} {payload : Bytes} {pending : List (ℕ × Bytes)}
    (h : c.worker = .idle ((id, payload) :: pending)) : Step c .recv (startWrite c id payload pending)
  | recvSend {c : Channel} {id : ℕ} {payload : Bytes} {cs : List Command} (h : c.worker = .idle [])
    (hc : c.commands = .send id payload :: cs) : Step c .recv (startWrite { c with commands := cs } id payload [])
  | write {c : Channel} {n id : ℕ} {payload rest : Bytes} {pending : List (ℕ × Bytes)} (hn : 0 < n)
    (h : c.worker = .writing id payload rest pending) : Step c (.write n) (wrote c n id payload rest pending)
  | wouldBlock {c : Channel} {id : ℕ} {payload rest : Bytes} {pending : List (ℕ × Bytes)}
    (h : c.worker = .writing id payload rest pending) : Step c .wouldBlock (endWorker c [.sent id false])
  | writeError {c : Channel} {id : ℕ} {payload rest : Bytes} {pending : List (ℕ × Bytes)}
    (h : c.worker = .writing id payload rest pending) (hp : c.peer = .closed) :
    Step c .writeError (endWorker c [.sent id false])
  | read {c : Channel} {pending : List (ℕ × Bytes)} (h : c.worker = .idle pending) (chunk : Bytes) :
    Step c (.read chunk) (gotBytes c chunk)
  | readEnd {c : Channel} {pending : List (ℕ × Bytes)} (h : c.worker = .idle pending) (hp : c.peer = .closed) :
    Step c .readEnd (endWorker c [])
  | peerCloses {c : Channel} (h : c.peer = .connected) : Step c .peerCloses { c with peer := .closed }

/-- A run whose steps all meet a condition on the step and the state before it. -/
inductive Run (Cond : Channel → Act → Prop) (c : Channel) : List Act → Channel → Prop where
  | nil : Run Cond c [] c
  | snoc {acts : List Act} {a : Act} {c' c'' : Channel} (h : Run Cond c acts c') (hs : Step c' a c'')
    (ha : Cond c' a) : Run Cond c (acts ++ [a]) c''

/-- A channel starts with a child that has to connect, or with a stream to the parent. -/
inductive Starts : Channel → Prop where
  | fork : Starts (.new (.listening []) .waiting)
  | process : Starts (.new (.idle []) .connected)

end Scriptc.RuntimeRust.Ipc
