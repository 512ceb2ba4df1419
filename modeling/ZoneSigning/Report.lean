import ZoneSigning.Command
import ZoneSigning.Engine
import ZoneSigning.Response
import ZoneSigning.Task.Info

/-!
What the engine shows of itself, and carrying out commands.
-/
namespace ZoneSigning

/-- A zone as listings show it. -/
structure ZoneInfo where
  name : String
  dnsClass : DnsClass
  status : ZoneStatus
  policy : String
  inboundSerial : Option Nat
  outboundSerial : Option Nat
  signatures : Nat
  task : Option TaskInfo
  inFlight : Bool
deriving DecidableEq, Repr, Inhabited

def ZoneInfo.toJson (z : ZoneInfo) : Json :=
  .object [
    ("name", .text z.name),
    ("class", .text z.dnsClass.text),
    ("status", .text z.status.text),
    ("policy", .text z.policy),
    ("inbound_serial", .ofOption .nat z.inboundSerial),
    ("outbound_serial", .ofOption .nat z.outboundSerial),
    ("signatures", .nat z.signatures),
    ("task", .ofOption TaskInfo.toJson z.task),
    ("in_flight", .bool z.inFlight)]

def Zone.info (z : Zone) (s : Schedule) : ZoneInfo where
  name := z.name
  dnsClass := z.key.dnsClass
  status := z.status
  policy := z.state.policy
  inboundSerial := z.state.db.inboundSerial
  outboundSerial := z.state.db.outboundSerial
  signatures := z.state.db.signatures
  task := (s.get? z.key).map Task.info
  inFlight := s.isInFlight z.key

namespace Pool

variable {σ : Type}

def statistics (p : Pool σ) : Json :=
  .object [
    ("worker_count", .nat p.workers.length),
    ("drudger_count", .nat p.drudgers.length),
    ("tasks_performed", .nat p.counters.performed),
    ("tasks_failed", .nat p.counters.failed),
    ("signatures", .nat p.counters.signatures),
    ("signatures_failed", .nat p.counters.signaturesFailed)]

def running (p : Pool σ) : List (String × TaskInfo) :=
  p.workers.zipIdx.filterMap fun (x, w) =>
    x.current.map fun t => (ThreadRole.worker.threadName w, t.info)

end Pool

namespace Engine

variable {σ : Type}

def listZones (e : Engine σ) : List ZoneInfo :=
  e.pool.zones.all.map (·.info e.pool.schedule)

/-- The waiting tasks in order, and those that workers are at, as a document. -/
def listTasks (e : Engine σ) : Json :=
  .object [
    ("scheduled", .array (e.pool.schedule.waiting.map fun t => t.info.toJson)),
    ("running", .array (e.pool.running.map fun (worker, task) =>
      .object [("worker", .text worker), ("task", task.toJson)]))]

def statistics (e : Engine σ) : Json :=
  .object [
    ("state", .text e.lifecycle.text),
    ("zones", .nat e.pool.zones.size),
    ("scheduled", .nat e.pool.schedule.size),
    ("queued_jobs", .nat e.pool.queue.size),
    ("pool", e.pool.statistics)]

def execute (e : Engine σ) : Command → Response × Engine σ
  | .help => (.ofData (.array (Command.usage.map .text)), e)
  | .zones => (.ofData (.array (e.listZones.map ZoneInfo.toJson)), e)
  | .queue => (.ofData e.listTasks, e)
  | .flush none =>
    let (n, e) := e.flushAll
    (.success s!"{n} tasks flushed", e)
  | .flush (some zone) =>
    match e.flushZone zone with
    | (.ok (), e) => (.success s!"zone {zone} flushed", e)
    | (.error err, e) => (.failure err.message, e)
  | .sign zone =>
    match e.signZone zone with
    | (.ok (), e) => (.success s!"zone {zone} scheduled for immediate re-sign", e)
    | (.error err, e) => (.failure err.message, e)
  | .reload => (.success "reload requested", e.requestReload)
  | .stop => (.success "shutdown requested", e.requestShutdown)
  | .stats => (.ofData e.statistics, e)

def executeLine (e : Engine σ) (line : String) : Response × Engine σ :=
  match Command.parse line with
  | .ok command => e.execute command
  | .error fault => (.failure fault.message, e)

def maxRequest : Nat := 4096

/-- The first line of a request. Nothing if it is not UTF-8. -/
def requestLine? (request : ByteArray) : Option String :=
  let bytes := (request.toList.take maxRequest)
  let line := bytes.takeWhile (· != 10)
  let taken := if line.length < bytes.length then line ++ [10] else line
  String.fromUTF8? ⟨taken.toArray⟩

def answer (e : Engine σ) (request : ByteArray) : Option Response × Engine σ :=
  match requestLine? request with
  | none => (none, e)
  | some line =>
    let (response, e) := e.executeLine (Text.trim line)
    (some response, e)

end Engine

end ZoneSigning
