import ZoneSigning.HandoffQueue
import ZoneSigning.Step
import ZoneSigning.ZoneList

/-!
Workers and drudgers. A worker takes a task, does its step while it holds the zone, hands the task
back, and may tell the engine. Drudgers make the signatures that workers hand over. What a thread
does between two of its waits is cut into sections, each of which touches one shared thing at a
time; `Pool.stepWorker` and `Pool.stepDrudger` do one section.
-/
namespace ZoneSigning

/-- What others tell the engine. -/
inductive Signal where
  | reload
  | shutdown
  | workerIdle
deriving DecidableEq, Repr

/-- Those a worker calls during a step. They may change what surrounds the engine, and the adapter
may change the zone's state. -/
structure Collaborators (σ : Type) where
  loadConfig : Zone → σ → Except StepError ConfigStatus × σ
  read : Zone → σ → Except StepError ReadStatus × ZoneState × σ
  write : Zone → σ → Except StepError Unit × ZoneState × σ
  sign : SignJob → σ → Except StepError Unit × σ

/-- A job on the hand-off queue. -/
structure Handoff where
  job : SignJob
  owner : Nat
deriving DecidableEq, Repr, Inhabited

/-- Where a worker is in its step. -/
inductive Stage where
  | consulting
  | signing (batch : Batch) (left : List SignJob)
  | awaiting (batch : Batch)
  | publishing (batch : Batch)
  | settling (outcome : Outcome)
deriving DecidableEq, Repr

/-- What a worker is doing. -/
inductive WorkerPhase where
  | idle
  | holding (task : Task)
  | stepping (task : Task) (stage : Stage)
  | reporting (drained : Bool)
  | off
deriving DecidableEq, Repr, Inhabited

/-- The two kinds of threads. -/
inductive ThreadRole where
  | worker
  | drudger
deriving DecidableEq, Repr

def ThreadRole.text : ThreadRole → String
  | worker => "worker"
  | drudger => "drudger"

/-- The name of the thread with this index. Names count from one. -/
def ThreadRole.threadName (r : ThreadRole) (index : Nat) : String := s!"{r.text}[{index + 1}]"

/-- A thread that does steps. -/
structure Worker where
  phase : WorkerPhase := .off
  /-- The jobs of the present batch. -/
  tally : JobTally := {}
  exit : Bool := false
  idle : IdleBackoff
deriving DecidableEq, Repr

def Worker.current (x : Worker) : Option Task :=
  match x.phase with
  | .holding t => some t
  | .stepping t _ => some t
  | _ => none

/-- What a drudger is doing. -/
inductive DrudgerPhase where
  | idle
  | holding (handoff : Handoff)
  | reporting (owner : Nat) (signed : Bool)
  | off
deriving DecidableEq, Repr, Inhabited

/-- A thread that makes signatures. -/
structure Drudger where
  phase : DrudgerPhase := .off
  exit : Bool := false
deriving DecidableEq, Repr, Inhabited

/-- Why the pool cannot start. -/
inductive PoolError where
  | noWorkers
  | alreadyStarted
deriving DecidableEq, Repr

namespace PoolError

def failure (_ : PoolError) : Failure := .poolConfig

def detail : PoolError → String
  | noWorkers => "at least one worker thread is required"
  | alreadyStarted => "pool already started"

def message (e : PoolError) : String := e.failure.describe e.detail

end PoolError

/-- What the pool has done so far. -/
structure PoolCounters where
  performed : Nat := 0
  failed : Nat := 0
  signatures : Nat := 0
  signaturesFailed : Nat := 0
deriving DecidableEq, Repr, Inhabited

namespace PoolCounters

def step (c : PoolCounters) (performed : Bool) : PoolCounters :=
  if performed then { c with performed := c.performed + 1 } else { c with failed := c.failed + 1 }

def signature (c : PoolCounters) (made : Bool) : PoolCounters :=
  if made then { c with signatures := c.signatures + 1 }
  else { c with signaturesFailed := c.signaturesFailed + 1 }

end PoolCounters

/-- The pool, and all that its threads share. -/
structure Pool (σ : Type) where
  around : σ
  now : Nat
  maxBackoff : Nat
  schedule : Schedule := {}
  queue : HandoffQueue Handoff
  zones : ZoneList := {}
  retired : List Zone := []
  workers : List Worker
  drudgers : List Drudger
  counters : PoolCounters := {}
  started : Bool := false
  reloading : Bool := false
  /-- What the engine has been told and has not looked at, oldest first. -/
  signals : List Signal := []

namespace Pool

variable {σ : Type}

def ofLimits (around : σ) (now workers drudgers maxBackoff capacity threshold : Nat) : Pool σ where
  around := around
  now := now
  maxBackoff := maxBackoff
  queue := .ofLimits capacity threshold
  workers := List.replicate workers { idle := .ofLimit maxBackoff }
  drudgers := List.replicate drudgers {}

def start (p : Pool σ) : Except PoolError (Pool σ) :=
  if p.workers.isEmpty then .error .noWorkers
  else if p.started then .error .alreadyStarted
  else
    .ok { p with
      started := true
      workers := p.workers.map fun x => { x with phase := .idle }
      drudgers := p.drudgers.map fun x => { x with phase := .idle } }

/-- The record of a zone that a task was made for: the listed one, or one that has left the list. -/
def zone? (p : Pool σ) (t : Task) : Option Zone :=
  match p.zones.get? t.zone with
  | some z => if z.record = t.record then some z else p.retired.find? (·.record == t.record)
  | none => p.retired.find? (·.record == t.record)

def setState (p : Pool σ) (z : Zone) (s : ZoneState) : Pool σ :=
  let z' := { z with state := s }
  if (p.zones.get? z.key).any (·.record == z.record) then { p with zones := p.zones.put z' }
  else { p with retired := p.retired.map fun r => if r.record = z.record then z' else r }

def setWorker (p : Pool σ) (w : Nat) (x : Worker) : Pool σ :=
  { p with workers := p.workers.set w x }

def goTo (p : Pool σ) (w : Nat) (phase : WorkerPhase) : Pool σ :=
  { p with workers := p.workers.modify w fun x => { x with phase := phase } }

def report (p : Pool σ) (w : Nat) (signed : Bool) : Pool σ :=
  { p with workers := p.workers.modify w fun x => { x with tally := x.tally.report signed } }

def signsInline (p : Pool σ) : Bool := p.drudgers.isEmpty

def take (p : Pool σ) (w : Nat) (x : Worker) : Option (Pool σ) :=
  match p.schedule.look x.exit p.now x.idle with
  | (.take t, s, idle) =>
    some ({ p with schedule := s }.setWorker w { x with phase := .holding t, idle := idle })
  | (.leave, s, idle) =>
    some ({ p with schedule := s }.setWorker w { x with phase := .off, idle := idle })
  | (.sleep _, _, _) => none

def begin (p : Pool σ) (w : Nat) (t : Task) (z : Zone) : Pool σ :=
  match t.what with
  | .configure | .write => p.goTo w (.stepping t .consulting)
  | .read =>
    p.goTo w (.stepping t (if z.state.config.isSome then .consulting
      else .settling (.advance .configure 0)))
  | .sign =>
    match z.state.batch z.key with
    | .error first => p.goTo w (.stepping t (.settling (.advance first 0)))
    | .ok batch =>
      { p with workers := p.workers.modify w fun x =>
        { x with
          phase := .stepping t (.signing batch batch.jobs)
          tally := { appointed := batch.jobs.length } } }

def consult (c : Collaborators σ) (p : Pool σ) (w : Nat) (t : Task) (z : Zone) : Pool σ :=
  match t.what with
  | .configure =>
    let (answer, around) := c.loadConfig z p.around
    let (outcome, s) := z.state.configured answer
    ({ p with around := around }.setState z s).goTo w (.stepping t (.settling outcome))
  | .read =>
    let (answer, s, around) := c.read z p.around
    ({ p with around := around }.setState z s).goTo w
      (.stepping t (.settling (ZoneState.afterRead answer)))
  | .write | .sign =>
    let (answer, s, around) := c.write z p.around
    let (outcome, s) := s.published s.db.inboundSerial z.state.resignSecs answer
    ({ p with around := around }.setState z s).goTo w (.stepping t (.settling outcome))

def signInline (c : Collaborators σ) (p : Pool σ) (w : Nat) (t : Task) (batch : Batch)
    (job : SignJob) (left : List SignJob) : Pool σ :=
  let (answer, around) := c.sign job p.around
  let made := answer.isOk
  ({ p with around := around, counters := p.counters.signature made }.report w made).goTo w
    (.stepping t (.signing batch left))

/-- Hand the next signature over; nothing while the queue is full. -/
def handOver (p : Pool σ) (w : Nat) (t : Task) (batch : Batch) (job : SignJob)
    (left : List SignJob) : Option (Pool σ) :=
  if p.queue.isFull then none
  else
    match p.queue.push ⟨job, w⟩ with
    | .ok (queue, _) => some ({ p with queue := queue }.goTo w (.stepping t (.signing batch left)))
    | .error .closed => some (p.goTo w (.stepping t (.settling (.retry .shutdown))))

/-- Count the signatures of a batch, and go on to publish the zone if all have been made. -/
def collect (p : Pool σ) (w : Nat) (t : Task) (batch : Batch) (tally : JobTally) (z : Zone) :
    Pool σ :=
  (p.setState z (z.state.counted tally)).goTo w
    (.stepping t (match ZoneState.signed? tally with
      | some outcome => .settling outcome
      | none => .publishing batch))

/-- Wait for the drudgers; nothing while jobs are outstanding. -/
def await (p : Pool σ) (w : Nat) (x : Worker) (t : Task) (batch : Batch) (z : Zone) :
    Option (Pool σ) :=
  if !x.tally.isOutstanding then some (p.collect w t batch x.tally z)
  else if x.exit || p.queue.closed then
    some (p.goTo w (.stepping t (.settling (.retry .shutdown))))
  else none

def publish (c : Collaborators σ) (p : Pool σ) (w : Nat) (t : Task) (batch : Batch) (z : Zone) :
    Pool σ :=
  let (answer, s, around) := c.write z p.around
  let (outcome, s) := s.published (some batch.serial) batch.resignSecs answer
  ({ p with around := around }.setState z s).goTo w (.stepping t (.settling outcome))

/-- Hand a task back, or drop it if its zone has been removed meanwhile. -/
def settle (p : Pool σ) (w : Nat) (t : Task) (outcome : Outcome) (z : Zone) : Pool σ :=
  if z.status = .removed then
    { p with schedule := (p.schedule.release t.zone).2 }.goTo w (.reporting true)
  else
    { p with
      schedule := outcome.settle t p.now p.maxBackoff p.schedule
      counters := p.counters.step outcome.isPerformed }.goTo w (.reporting false)

/-- Tell the engine of a step if it has to know. -/
def tell (p : Pool σ) (w : Nat) (drained : Bool) : Pool σ :=
  let p := if drained || p.reloading then { p with signals := p.signals ++ [.workerIdle] } else p
  p.goTo w .idle

def stepStage (c : Collaborators σ) (p : Pool σ) (w : Nat) (x : Worker) (t : Task) (z : Zone) :
    Stage → Option (Pool σ)
  | .consulting => some (p.consult c w t z)
  | .signing batch [] =>
    -- Nothing is handed over for no names, so that nothing is to be waited for or counted.
    if batch.jobs.isEmpty then some (p.collect w t batch {} z)
    else if p.signsInline then some (p.collect w t batch x.tally z)
    -- Only now are the drudgers woken, should the jobs be fewer than the threshold.
    else some (p.goTo w (.stepping t (.awaiting batch)))
  | .signing batch (job :: left) =>
    if p.signsInline then some (p.signInline c w t batch job left)
    else p.handOver w t batch job left
  | .awaiting batch => p.await w x t batch z
  | .publishing batch => some (p.publish c w t batch z)
  | .settling outcome => some (p.settle w t outcome z)

/-- Let a worker do one section. Nothing if it has to wait. -/
def stepWorker (c : Collaborators σ) (p : Pool σ) (w : Nat) : Option (Pool σ) :=
  match p.workers[w]? with
  | none => none
  | some x =>
    match x.phase with
    | .idle => p.take w x
    | .holding t => (p.zone? t).map (p.begin w t)
    | .stepping t stage => (p.zone? t).bind fun z => p.stepStage c w x t z stage
    | .reporting drained => some (p.tell w drained)
    | .off => none

def stepDrudger (c : Collaborators σ) (p : Pool σ) (d : Nat) : Option (Pool σ) :=
  match p.drudgers[d]? with
  | none => none
  | some x =>
    let goTo (p : Pool σ) (phase : DrudgerPhase) : Pool σ :=
      { p with drudgers := p.drudgers.set d { x with phase := phase } }
    match x.phase with
    | .idle =>
      if p.queue.isBare x.exit then none
      else
        match p.queue.pop x.exit with
        | (some handoff, queue, _) => some (goTo { p with queue := queue } (.holding handoff))
        | (none, _, _) => some (goTo p .off)
    | .holding handoff =>
      let (answer, around) := c.sign handoff.job p.around
      let made := answer.isOk
      some (goTo { p with around := around, counters := p.counters.signature made }
        (.reporting handoff.owner made))
    | .reporting owner signed => some (goTo (p.report owner signed) .idle)
    | .off => none

/-- A call that a worker is about to make to a collaborator. -/
structure Call where
  zone : Zone
  what : TaskKind

def call? (p : Pool σ) (w : Nat) : Option Call :=
  match p.workers[w]? with
  | some { phase := .stepping t .consulting, .. } => (p.zone? t).map (⟨·, t.what⟩)
  | some { phase := .stepping t (.publishing _), .. } => (p.zone? t).map (⟨·, .write⟩)
  | _ => none

/-- The first of `n` threads that can do a section, after it has done that. -/
def firstOf (n : Nat) (step : Nat → Option (Pool σ)) : Option (Pool σ) :=
  (List.range n).findSome? step

/-- Let some thread do a section, a worker if one can. Before a call to a collaborator, `meanwhile`
is what others do during it. Nothing if every thread has to wait. -/
def stepAny (c : Collaborators σ) (meanwhile : Call → Pool σ → Pool σ) (p : Pool σ) :
    Option (Pool σ) :=
  let work (w : Nat) : Option (Pool σ) :=
    ((p.call? w).elim p (meanwhile · p)).stepWorker c w
  (firstOf p.workers.length work).or (firstOf p.drudgers.length (p.stepDrudger c))

/-- Let the threads do at most `fuel` sections, until every one of them has to wait. -/
def run (c : Collaborators σ) (meanwhile : Call → Pool σ → Pool σ) : Nat → Pool σ → Pool σ
  | 0, p => p
  | fuel + 1, p =>
    match p.stepAny c meanwhile with
    | some p => p.run c meanwhile fuel
    | none => p

def dismissDrudgers (p : Pool σ) : Pool σ :=
  { p with
    queue := p.queue.close.1
    drudgers := p.drudgers.map fun x => { x with exit := true } }

def dismissWorkers (p : Pool σ) : Pool σ :=
  { p with workers := p.workers.map fun x => { x with exit := true } }

/-- Let the drudgers go, and then the workers. A pool that has not been started stays as it is. -/
def shutdown (c : Collaborators σ) (fuel : Nat) (p : Pool σ) : Pool σ :=
  if !p.started then p
  else
    let still (_ : Call) (p : Pool σ) := p
    (p.dismissDrudgers.run c still fuel).dismissWorkers.run c still fuel

end Pool

end ZoneSigning
