import Mathlib.Algebra.Order.Floor.Ring
import Mathlib.Data.Rat.Floor

/-!
# Effect queues

The queues of `effect_state.rs`. An operation changes the queue before it resumes a fiber, so what the
resumed fiber does comes after it, and the operations of all fibers are one after the other. A fiber
that has to wait is the operation it waits in, and operations are numbers.
-/

namespace Scriptc.RuntimeRust.Effect

/-- A capacity is a number of JavaScript, and need not be whole. -/
inductive Capacity where
  | unbounded
  | bounded (limit : ℚ)
  deriving DecidableEq

/-- Whether one more item is stored next to those that are. -/
def Capacity.room (c : Capacity) (stored : ℕ) : Bool :=
  match c with
  | .unbounded => true
  | .bounded limit => (stored : ℚ) < limit

inductive Strategy where
  | suspending
  | dropping
  | sliding
  deriving DecidableEq

variable {V : Type}

/-- What an operation ends with. -/
inductive Outcome (V : Type) where
  | item (value : V)
  | answer (accepted : Bool)
  | interrupt
  deriving DecidableEq

/-- An item and the offer it came with. -/
structure Item (V : Type) where
  value : V
  offer : ℕ
  deriving DecidableEq

/-- A queue with the fibers that wait for it. -/
structure QueueState (V : Type) where
  items : List (Item V)
  capacity : Capacity
  strategy : Strategy
  /-- The fibers that wait to take. -/
  takers : List ℕ
  /-- The offers that wait for room. -/
  offerers : List (Item V)
  shutdown : Bool
  /-- The items in the order in which they were accepted. -/
  accepted : List (Item V)
  /-- Those that left the queue, with the take that got them; the others were evicted. -/
  removed : List (Item V × Option ℕ)
  deriving DecidableEq

/-- `queue_new` -/
def QueueState.new (capacity : Capacity) (strategy : Strategy) : QueueState V where
  items := []
  capacity := capacity
  strategy := strategy
  takers := []
  offerers := []
  shutdown := false
  accepted := []
  removed := []

/-- The queue after an operation, what the operation ends with at once, and the fibers it resumes. -/
structure Stepped (V : Type) where
  queue : QueueState V
  outcome : Option (Outcome V)
  wake : List (ℕ × Outcome V)
  deriving DecidableEq

/-- `queue_step_inner` without a value. -/
def queueTake (s : QueueState V) (waiter : ℕ) : Stepped V :=
  if s.shutdown then ⟨s, some .interrupt, []⟩
  else
    match s.items, s.offerers with
    | item :: items, offered :: offerers =>
      ⟨{ s with
          items := items ++ [offered]
          offerers := offerers
          accepted := s.accepted ++ [offered]
          removed := s.removed ++ [(item, some waiter)] },
        some (.item item.value), [(offered.offer, .answer true)]⟩
    | item :: items, [] =>
      ⟨{ s with items := items, removed := s.removed ++ [(item, some waiter)] }, some (.item item.value), []⟩
    | [], offered :: offerers =>
      ⟨{ s with
          offerers := offerers
          accepted := s.accepted ++ [offered]
          removed := s.removed ++ [(offered, some waiter)] },
        some (.item offered.value), [(offered.offer, .answer true)]⟩
    | [], [] => ⟨{ s with takers := s.takers ++ [waiter] }, none, []⟩

/-- `queue_step_inner` with a value. -/
def queueOffer (s : QueueState V) (item : Item V) : Stepped V :=
  if s.shutdown then ⟨s, some (.answer false), []⟩
  else
    match s.takers with
    | taker :: takers =>
      ⟨{ s with takers := takers, accepted := s.accepted ++ [item], removed := s.removed ++ [(item, some taker)] },
        some (.answer true), [(taker, .item item.value)]⟩
    | [] =>
      if s.capacity.room s.items.length then
        ⟨{ s with items := s.items ++ [item], accepted := s.accepted ++ [item] }, some (.answer true), []⟩
      else
        match s.strategy with
        | .dropping => ⟨s, some (.answer false), []⟩
        | .sliding =>
          ⟨{ s with
              items := s.items.tail ++ [item]
              accepted := s.accepted ++ [item]
              removed := s.removed ++ s.items.head?.toList.map fun oldest => (oldest, none) },
            some (.answer true), []⟩
        | .suspending => ⟨{ s with offerers := s.offerers ++ [item] }, none, []⟩

/-- `queue_close`, which `effect_queue_shutdown` resumes the fibers of. -/
def queueClose (s : QueueState V) : Stepped V :=
  ⟨{ s with shutdown := true, items := [], takers := [], offerers := [] }, none,
    s.takers.map (·, .interrupt) ++ s.offerers.map fun offered => (offered.offer, .answer false)⟩

/-! ### Runs -/

/-- A queue with the operations on it. -/
structure Fibers (V : Type) where
  queue : QueueState V
  /-- The operations, with what they offer. -/
  issued : List (ℕ × Option V)
  /-- The fibers that are being resumed. -/
  waking : List (ℕ × Outcome V)
  /-- What operations ended with. -/
  ended : List (ℕ × Outcome V)
  deriving DecidableEq

def Fibers.new (capacity : Capacity) (strategy : Strategy) : Fibers V where
  queue := .new capacity strategy
  issued := []
  waking := []
  ended := []

/-- An operation with what it does at once. -/
def Fibers.operate (s : Fibers V) (waiter : ℕ) (offers : Option V) (r : Stepped V) : Fibers V where
  queue := r.queue
  issued := s.issued ++ [(waiter, offers)]
  waking := s.waking ++ r.wake
  ended := s.ended ++ r.outcome.toList.map (waiter, ·)

inductive Step : Fibers V → Fibers V → Prop where
  | take {s : Fibers V} (waiter : ℕ) (hw : waiter ∉ s.issued.map Prod.fst) :
    Step s (s.operate waiter none (queueTake s.queue waiter))
  | offer {s : Fibers V} (waiter : ℕ) (value : V) (hw : waiter ∉ s.issued.map Prod.fst) :
    Step s (s.operate waiter (some value) (queueOffer s.queue ⟨value, waiter⟩))
  | shutdown {s : Fibers V} :
    Step s { s with queue := (queueClose s.queue).queue, waking := s.waking ++ (queueClose s.queue).wake }
  | resume {s : Fibers V} (before after : List (ℕ × Outcome V)) (fiber : ℕ × Outcome V)
    (hw : s.waking = before ++ fiber :: after) :
    Step s { s with waking := before ++ after, ended := s.ended ++ [fiber] }

inductive Run (s : Fibers V) : Fibers V → Prop where
  | nil : Run s s
  | snoc {s' s'' : Fibers V} (h : Run s s') (hs : Step s' s'') : Run s s''

end Scriptc.RuntimeRust.Effect
