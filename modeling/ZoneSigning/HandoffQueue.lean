import ZoneSigning.Failure

/-!
The queue through which workers hand signing jobs over. Producers wait while it is full, consumers
while it is empty. A sleeper looks again only when it is woken, so each operation says whom it
wakes: consumers are woken when enough items are queued, or by a kick; a producer is woken for each
item that is taken.
-/
namespace ZoneSigning

/-- How many sleepers an operation wakes. -/
inductive Wake where
  | nobody
  | one
  | everyone
deriving DecidableEq, Repr, Inhabited

/-- Whom an operation wakes. -/
structure Wakeups where
  consumers : Wake := .nobody
  producers : Wake := .nobody
deriving DecidableEq, Repr, Inhabited

def Wakeups.all : Wakeups := ⟨.everyone, .everyone⟩

/-- Why the queue refuses an item. -/
inductive QueueError where
  | closed
deriving DecidableEq, Repr

def QueueError.failure : QueueError → Failure
  | closed => .closed

def QueueError.message (e : QueueError) : String := e.failure.describe ""

/-- A bounded queue that can be closed. -/
structure HandoffQueue (α : Type) where
  capacity : Nat
  threshold : Nat
  items : List α := []
  closed : Bool := false
deriving DecidableEq, Repr, Inhabited

namespace HandoffQueue

variable {α : Type}

/-- A queue without items. At least one item fits in, and the threshold lies between one and the
capacity. -/
def ofLimits (capacity threshold : Nat) : HandoffQueue α :=
  { capacity := max capacity 1
    threshold := max 1 (min threshold (max capacity 1)) }

def size (q : HandoffQueue α) : Nat := q.items.length

def isFull (q : HandoffQueue α) : Bool := q.capacity ≤ q.size && !q.closed

def isBare (q : HandoffQueue α) (exit : Bool) : Bool := q.items.isEmpty && !q.closed && !exit

/-- Append an item, unless the queue is closed. The queue is not full. -/
def push (q : HandoffQueue α) (a : α) : Except QueueError (HandoffQueue α × Wakeups) :=
  if q.closed then .error .closed
  else
    let q := { q with items := q.items ++ [a] }
    .ok (q, { consumers := if q.threshold ≤ q.size then .everyone else .nobody })

/-- Take the oldest item, whether the queue is closed or not. -/
def tryPop (q : HandoffQueue α) : Option α × HandoffQueue α × Wakeups :=
  match q.items with
  | [] => (none, q, {})
  | a :: rest => (some a, { q with items := rest }, { producers := .one })

/-- Take the oldest item, unless the queue is closed or the consumer is to exit. -/
def pop (q : HandoffQueue α) (exit : Bool) : Option α × HandoffQueue α × Wakeups :=
  if exit || q.closed then (none, q, {}) else q.tryPop

def kick (q : HandoffQueue α) : Wakeups :=
  { consumers := if q.items.isEmpty then .nobody else .everyone }

def close (q : HandoffQueue α) : HandoffQueue α × Wakeups := ({ q with closed := true }, .all)

def drain (q : HandoffQueue α) : List α × HandoffQueue α × Wakeups :=
  (q.items, { q with items := [] }, { producers := .everyone })

end HandoffQueue

/-- What a thread wants of a queue. -/
inductive Visit (α : Type) where
  | push (a : α)
  | pop
deriving DecidableEq, Repr

/-- What a thread has got of a queue. -/
inductive Departure (α : Type) where
  | pushed (answer : Except QueueError Unit)
  | popped (item : Option α)
deriving Repr

namespace Visit

variable {α : Type}

/-- Let a thread look at the queue. It gets an answer, or nothing if it has to sleep. -/
def attempt (v : Visit α) (exit : Bool) (q : HandoffQueue α) :
    Option (Departure α × HandoffQueue α × Wakeups) :=
  match v with
  | push a =>
    if q.isFull then none
    else
      match q.push a with
      | .ok (q, wakes) => some (.pushed (.ok ()), q, wakes)
      | .error e => some (.pushed (.error e), q, {})
  | pop =>
    if q.isBare exit then none
    else
      let (item, q, wakes) := q.pop exit
      some (.popped item, q, wakes)

/-- Whether the wake-ups reach a thread that sleeps alone on this side of the queue. -/
def isWokenBy (v : Visit α) (wakes : Wakeups) : Bool :=
  match v with
  | push _ => wakes.producers != .nobody
  | pop => wakes.consumers != .nobody

end Visit

end ZoneSigning
