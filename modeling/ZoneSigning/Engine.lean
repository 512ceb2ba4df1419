import ZoneSigning.EngineConfig
import ZoneSigning.Pool

/-!
The engine: it keeps the list of zones in step with the inventory, gives every zone a task, takes
requests, and lets the pool work. A pass reads the inventory and acts on every zone; in between,
zones that have been removed are evicted as soon as their task is gone.
-/
namespace ZoneSigning

/-- What surrounds an engine has files in it. -/
class HasFiles (σ : Type) where
  files : σ → FileStore
  withFiles : σ → FileStore → σ

inductive Lifecycle where
  | run
  | reloadRequested
  | shutdownRequested
deriving DecidableEq, Repr, Inhabited

def Lifecycle.text : Lifecycle → String
  | run => "run"
  | reloadRequested => "reload_requested"
  | shutdownRequested => "shutdown_requested"

/-- Why an engine cannot start. -/
inductive EngineError where
  | config (value : EngineConfig.Invalid)
  | socket (path : Path) (error : FileError)
  | zoneList (error : ZoneListError)
  | pool (error : PoolError)
deriving DecidableEq, Repr

namespace EngineError

def failure : EngineError → Failure
  | config _ => .config
  | socket .. => .setup
  | zoneList e => e.failure
  | pool e => e.failure

def detail : EngineError → String
  | config value => value.message
  | socket path e => s!"command socket {path.text}: {e.message}"
  | zoneList e => e.detail
  | pool e => e.detail

def message (e : EngineError) : String := e.failure.describe e.detail

end EngineError

/-- The clock that the engine waits by counts fewer seconds than this. -/
def clockEnd : Nat := 9223372036854775808

structure Engine (σ : Type) where
  config : EngineConfig
  pool : Pool σ
  lifecycle : Lifecycle := .run
  socket : Option Path := none

namespace Engine

variable {σ : Type}

def ofConfig (config : EngineConfig) (processors now : Nat) (around : σ) :
    Except EngineError (Engine σ) :=
  match config.invalid? with
  | some value => .error (.config value)
  | none =>
    .ok {
      config := config
      pool := .ofLimits around now (config.workers.getD (max processors 1)) config.drudgers
        config.maxBackoff config.queueCapacity config.queueThreshold }

def scheduleConfigure (now : Nat) (z : Zone) (s : Schedule) : Schedule :=
  (s.schedule { zone := z.key, record := z.record, what := .configure, due := now }).2

/-- Act on what reconciliation has made of a zone: a removed zone loses its waiting task, an updated
zone loads its configuration now, and any other zone gets a task if it has none. -/
def reconcileTask (now : Nat) (s : Schedule) (z : Zone) : Schedule :=
  match z.status with
  | .removed => (s.unscheduleZone z.key).2
  | .updated =>
    match s.reschedule z.key .configure now with
    | (.ok (), s) => s
    | (.error e, s) => if e.failure = .notFound then scheduleConfigure now z s else s
  | .added | .ok => if s.hasTask z.key then s else scheduleConfigure now z s

def evictDrained (p : Pool σ) : Pool σ :=
  let (evicted, zones) := p.zones.evict fun z => p.schedule.hasTask z.key
  { p with
    zones := zones
    retired := p.retired ++ evicted
    reloading := !zones.removed.isEmpty }

/-- Do one pass at the time `now`. If the inventory cannot be read, everything stays as it is. -/
def pass [HasFiles σ] (e : Engine σ) (now : Nat) :
    Except ZoneListError ZoneListUpdate × Engine σ :=
  match e.pool.zones.updateFrom (HasFiles.files e.pool.around) e.config.zonelist with
  | .error err => (.error err, e)
  | .ok (update, zones) =>
    let p := { e.pool with
      zones := zones
      schedule := zones.all.foldl (reconcileTask now) e.pool.schedule }
    let p := evictDrained p
    (.ok update, { e with pool := { p with zones := p.zones.takeCounts.2.settle } })

/-- Act on the zone of this name, unless it is about to be evicted. -/
def withLiveZone {α : Type} (e : Engine σ) (name : String)
    (act : Zone → Except ScheduleError α × Engine σ) : Except ScheduleError α × Engine σ :=
  match e.pool.zones.find? name with
  | none => (.error (.unknownZone name), e)
  | some z => if z.status = .removed then (.error (.zoneLeaving name), e) else act z

def withSchedule (e : Engine σ) (s : Schedule) : Engine σ :=
  { e with pool := { e.pool with schedule := s } }

def flushZone (e : Engine σ) (name : String) : Except ScheduleError Unit × Engine σ :=
  e.withLiveZone name fun z =>
    let (answer, s) := e.pool.schedule.flushZone z.key
    (answer, e.withSchedule s)

def flushAll (e : Engine σ) : Nat × Engine σ :=
  let (n, s) := e.pool.schedule.flushAll
  (n, e.withSchedule s)

/-- Move the task of a zone to reading now, or give the zone such a task. Tells whether the task
still has to be flushed. -/
def moveToRead (now : Nat) (z : Zone) (s : Schedule) : Except ScheduleError Bool × Schedule :=
  match s.reschedule z.key .read now with
  | (.ok (), s) => (.ok true, s)
  | (.error e, s) =>
    if e.failure = .notFound then
      match s.schedule
          { zone := z.key, record := z.record, what := .read, due := now, flush := true } with
      | (.ok (), s) => (.ok false, s)
      | (.error refusal, s) => (.error refusal.reason, s)
    else (.error e, s)

/-- Flush a task that has just been moved. That it is gone meanwhile does not matter. -/
def flushMoved (z : Zone) (s : Schedule) : Except ScheduleError Unit × Schedule :=
  match s.flushZone z.key with
  | (.ok (), s) => (.ok (), s)
  | (.error e, s) => if e.failure = .notFound then (.ok (), s) else (.error e, s)

def signZone (e : Engine σ) (name : String) : Except ScheduleError Unit × Engine σ :=
  e.withLiveZone name fun z =>
    match moveToRead e.pool.now z e.pool.schedule with
    | (.error err, s) => (.error err, e.withSchedule s)
    | (.ok false, s) => (.ok (), e.withSchedule s)
    | (.ok true, s) =>
      let (answer, s) := flushMoved z s
      (answer, e.withSchedule s)

/-- When the next pass is due by the clock, if nobody asks for one before. Nothing if the clock does
not go so far; then the engine cannot go on. -/
def deadline? (e : Engine σ) (clock : Nat) : Option Nat :=
  let due := clock + e.config.maxSleep
  if due < clockEnd then some due else none

def signal (e : Engine σ) (s : Signal) : Engine σ :=
  { e with pool := { e.pool with signals := e.pool.signals ++ [s] } }

def requestReload (e : Engine σ) : Engine σ :=
  { e with lifecycle := .reloadRequested }.signal .reload

def requestShutdown (e : Engine σ) : Engine σ :=
  { e with lifecycle := .shutdownRequested }.signal .shutdown

/-- How many sections the threads do at most between two looks at the signals. -/
def patience : Nat := 1000000

def work (c : Collaborators σ) (e : Engine σ) : Engine σ :=
  { e with pool := e.pool.run c (fun _ p => p) patience }

/-- Take up one signal. Tells whether the engine goes on. -/
def heed [HasFiles σ] (e : Engine σ) : Signal → Bool × Engine σ
  | .reload => (true, ({ e with lifecycle := .run }.pass e.pool.now).2)
  | .workerIdle => (true, { e with pool := evictDrained e.pool })
  | .shutdown => (false, e)

/-- Let the pool work and take up signals, at most `fuel` of them, until there are none left or the
engine is to stop. Tells whether the engine goes on. -/
def serve [HasFiles σ] (c : Collaborators σ) : Nat → Engine σ → Bool × Engine σ
  | 0, e => (true, e)
  | fuel + 1, e =>
    let e := e.work c
    match e.pool.signals with
    | [] => (true, e)
    | s :: rest =>
      match ({ e with pool := { e.pool with signals := rest } }).heed s with
      | (true, e) => e.serve c fuel
      | (false, e) => (false, e)

def closeSocket [HasFiles σ] (e : Engine σ) : Engine σ :=
  match e.socket with
  | none => e
  | some path =>
    let files := HasFiles.files e.pool.around
    let files := match files.remove path with
      | .ok files => files
      | .error _ => files
    { e with
      socket := none
      pool := { e.pool with around := HasFiles.withFiles e.pool.around files } }

def drainQueue (e : Engine σ) : Engine σ :=
  { e with pool := { e.pool with queue := e.pool.queue.drain.2.1 } }

def clearSchedule (e : Engine σ) : Engine σ := e.withSchedule e.pool.schedule.clear.2

def clearZones (e : Engine σ) : Engine σ :=
  { e with pool := { e.pool with
    zones := e.pool.zones.cleared
    retired := e.pool.retired ++ e.pool.zones.all } }

def shutdown [HasFiles σ] (c : Collaborators σ) (e : Engine σ) : Engine σ :=
  let e := { e with lifecycle := .shutdownRequested }.closeSocket
  let e := { e with pool := e.pool.shutdown c patience }
  e.drainQueue.clearSchedule.clearZones

def openSocket [HasFiles σ] (e : Engine σ) : Except EngineError Unit × Engine σ :=
  match e.config.commandSocket with
  | none => (.ok (), e)
  | some path =>
    let (answer, files) := (HasFiles.files e.pool.around).bindSocket path
    let e := { e with pool := { e.pool with around := HasFiles.withFiles e.pool.around files } }
    match answer with
    | .error err => (.error (.socket path err), e)
    | .ok () => (.ok (), { e with socket := some path })

/-- Do the first pass, start the threads and start listening. Where that fails, the engine is given
as it is then. -/
def start [HasFiles σ] (e : Engine σ) : Except EngineError Unit × Engine σ :=
  match e.pass e.pool.now with
  | (.error err, e) => (.error (.zoneList err), e)
  | (.ok _, e) =>
    match e.pool.start with
    | .error err => (.error (.pool err), e)
    | .ok pool => { e with pool := pool }.openSocket

end Engine

end ZoneSigning
