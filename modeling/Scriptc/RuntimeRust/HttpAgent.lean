import Mathlib.Algebra.Order.Floor.Semiring
import Mathlib.Data.Rat.Floor
import Mathlib.Logic.Relation

/-!
# The HTTP agent

`http_agent_client_request_impl`, `http_agent_client_done` and `http_agent_destroy` of
`http_agent.rs`, with the calls of `http_client.rs` that start and end connections: which
requests an agent lets through, which wait, and which is started when another is done.

An agent is for plain or for TLS requests. A plain request is connected when it is let through
or promoted; a TLS request when it is ended. A request is known by the order in which it was
made. The log of starts is a history: nothing reads it. Listeners of a close that use the agent again
while it destroys its TLS requests are not modelled.
-/

namespace HttpAgent

/-- An `f64`. -/
inductive Number where
  | nan
  | negInf
  | finite (q : ℚ)
  | posInf

/-- How many requests the admission lets through: `floor(max(q, 0))`, or any number. -/
def Number.cap : Number → Option ℕ
  | .finite q => some ⌊max q 0⌋₊
  | _ => none

/-- A request with what became of it. -/
structure Request where
  name : String
  destroyed : Bool
  sent : Bool
  /-- The connection has been started. -/
  started : Bool
  /-- The close has been dispatched. -/
  finished : Bool
  /-- The request knows its agent. -/
  attached : Bool

/-- A request in the pool, queued or at work. -/
structure Entry where
  name : String
  request : ℕ
  queued : Bool

/-- An agent with its pool and its requests. -/
structure State where
  secure : Bool
  maxSockets : Number
  destroyed : Bool
  entries : List Entry
  requests : ℕ → Request
  next : ℕ
  /-- The requests started, the latest first, with the limits then in force. -/
  log : List (ℕ × Number)

namespace State

variable (s : State)

def active (name : String) : ℕ := s.entries.countP fun entry => !entry.queued && entry.name == name

/-- The admission: a request of the name has to wait. -/
def full (name : String) : Bool :=
  match s.maxSockets.cap with
  | some k => decide (k ≤ s.active name)
  | none => false

/-- The promotion: no request of the name is let through. -/
def blocked (name : String) : Bool :=
  match s.maxSockets with
  | .nan => true
  | .negInf => true
  | .finite q => decide (q ≤ s.active name)
  | .posInf => false

def setRequest (id : ℕ) (r : Request) : State := { s with requests := Function.update s.requests id r }

/-- `net_socket_start_connect`, and the start of a TLS exchange. -/
def start (id : ℕ) : State :=
  if (s.requests id).destroyed || (s.requests id).started then s
  else { s.setRequest id { s.requests id with started := true } with log := (id, s.maxSockets) :: s.log }

def clientRequest (name : String) : State :=
  let queued := s.full name
  let made : State :=
    { s.setRequest s.next ⟨name, false, false, false, false, true⟩ with
      next := s.next + 1
      entries := s.entries ++ [⟨name, s.next, queued⟩] }
  if queued || s.secure then made else made.start s.next

/-- The first queued request of the name, no longer queued. -/
def promote (name : String) : List Entry → Option (ℕ × List Entry)
  | [] => none
  | entry :: entries =>
    if entry.queued && entry.name == name then some (entry.request, { entry with queued := false } :: entries)
    else (promote name entries).map fun (id, entries) => (id, entry :: entries)

/-- The entry of the request is gone. -/
def forget (id : ℕ) : State := { s with entries := s.entries.filter fun entry => entry.request ≠ id }

def clientDone (id : ℕ) : State :=
  match s.entries.find? fun entry => entry.request = id with
  | none => s
  | some entry =>
    let left := s.forget id
    if left.destroyed || left.blocked entry.name then left
    else
      match promote entry.name left.entries with
      | none => left
      | some (id', entries) =>
        let promoted : State := { left with entries := entries }
        if promoted.secure then promoted else promoted.start id'

def dispatchClose (id : ℕ) : State :=
  let closed := s.setRequest id { s.requests id with destroyed := true, finished := true, attached := false }
  if (s.requests id).attached then closed.clientDone id else closed

def clientEnd (id : ℕ) : State :=
  if (s.requests id).sent || (s.requests id).destroyed then s
  else
    let sent := s.setRequest id { s.requests id with sent := true }
    if s.secure then sent.start id else sent

def clientDestroy (id : ℕ) : State :=
  let marked := s.setRequest id { s.requests id with destroyed := true }
  if s.secure && !(s.requests id).destroyed then marked.dispatchClose id else marked

/-- The requests of an agent that is destroyed, one after the other. -/
def destroyAll : List ℕ → State → State
  | [], s => s
  | id :: ids, s => destroyAll ids ((s.setRequest id { s.requests id with attached := false }).clientDestroy id)

def agentDestroy : State :=
  { destroyAll (s.entries.map (·.request)) { s with destroyed := true } with entries := [] }

end State

/-- What the program does, or the network. -/
inductive Event where
  | request (name : String)
  | end_ (id : ℕ)
  | destroy (id : ℕ)
  /-- The socket has closed, or the TLS exchange is complete. -/
  | closed (id : ℕ)
  | setMaxSockets (value : Number)
  | destroyAgent

/-- What can happen: calls on requests that have been made, and closes of connections. -/
def Enabled (s : State) : Event → Prop
  | .end_ id | .destroy id => id < s.next
  | .closed id => id < s.next ∧ (s.requests id).finished = false ∧
      if s.secure then (s.requests id).started = true ∧ (s.requests id).destroyed = false
      else (s.requests id).started = true ∨ (s.requests id).destroyed = true
  | _ => True

def step (s : State) : Event → State
  | .request name => s.clientRequest name
  | .end_ id => s.clientEnd id
  | .destroy id => s.clientDestroy id
  | .closed id => s.dispatchClose id
  | .setMaxSockets value => { s with maxSockets := value }
  | .destroyAgent => s.agentDestroy

/-- What `http_agent_new` makes of its argument. -/
def Number.limit : Number → Number
  | .finite q => if 0 ≤ q then .finite q else .posInf
  | _ => .posInf

/-- `http_agent_new`. -/
def initial (secure : Bool) (maxSockets : Number) : State :=
  ⟨secure, maxSockets.limit, false, [], fun _ => ⟨"", false, false, false, false, false⟩, 0, []⟩

/-- The connection of the request has been started and is not finished. -/
def State.live (s : State) (name : String) (p : ℕ × Number) : Bool :=
  (s.requests p.1).name == name && !(s.requests p.1).finished

/-! ### The condition on a step -/

/-- The request of an entry that is removed: its name, and what the promotion then sees. -/
def DoneFine (s : State) (id : ℕ) : Prop :=
  ∀ entry, s.entries.find? (fun entry => entry.request = id) = some entry → s.destroyed = false →
    ∀ id' entries, State.promote entry.name (s.forget id).entries = some (id', entries) →
      (s.forget id).blocked entry.name = (s.forget id).full entry.name ∧
        ((s.forget id).blocked entry.name = false → s.secure = false ∧ (s.requests id').destroyed = false)

/-- The steps that the agent accounts for rightly. -/
def Fine (s : State) : Event → Prop
  -- the agent is not destroyed, and a request that is let through overtakes none that waits
  | .request name => s.destroyed = false ∧ (s.full name = false → ∀ entry ∈ s.entries, entry.name = name → entry.queued = false)
  -- a TLS request is ended when the limit allows it, and after those made before it
  | .end_ id => s.secure = true → (s.requests id).sent = false → (s.requests id).destroyed = false →
      (∀ entry ∈ s.entries, entry.request = id → entry.queued = false) ∧
        (∀ k, s.maxSockets.cap = some k → s.log.countP (s.live (s.requests id).name) < k) ∧
        ∀ p ∈ s.log, (s.requests p.1).name = (s.requests id).name → p.1 < id
  -- the promotion rounds as the admission does, and the oldest that waits can be started
  | .destroy id => s.secure = true → (s.requests id).destroyed = false → (s.requests id).attached = true → DoneFine s id
  | .closed id => (s.requests id).attached = true → DoneFine s id
  | .setMaxSockets _ => True
  | .destroyAgent => True

end HttpAgent
