import ZoneSigning.Inventory
import ZoneSigning.Task

/-!
The engine's configuration: its document, the limits that it has to keep, and loading it. Relative
paths in it start from the configuration's own directory.
-/
namespace ZoneSigning

/-- The configuration of the engine. -/
structure EngineConfig where
  zonelist : Path := ⟨""⟩
  /-- The number of workers; if it is not given, one for each processor. -/
  workers : Option Nat := none
  /-- The number of drudgers. Without any, workers sign by themselves. -/
  drudgers : Nat := 0
  /-- The longest backoff, in seconds. -/
  maxBackoff : Nat := 3600
  queueCapacity : Nat := 1000
  queueThreshold : Nat := 1
  /-- The longest time between two passes over the inventory, in seconds. -/
  maxSleep : Nat := 3600
  commandSocket : Option Path := none
deriving DecidableEq, Repr, Inhabited

namespace EngineConfig

inductive Invalid where
  | zonelist
  | workers
  | maxBackoff
  | queueCapacity
  | queueThreshold
  | maxSleep
deriving DecidableEq, Repr

def Invalid.message : Invalid → String
  | zonelist => "zonelist must be set"
  | workers => "worker_threads must be greater than 0"
  | maxBackoff => s!"max_backoff_secs must be at least {firstBackoff}"
  | queueCapacity => "queue_capacity must be greater than 0"
  | queueThreshold => "queue_threshold must be between 1 and queue_capacity"
  | maxSleep => "max_sleep_secs must be greater than 0"

/-- The first value that is wrong, if there is one. -/
def invalid? (c : EngineConfig) : Option Invalid :=
  if c.zonelist.isEmpty then some .zonelist
  else if c.workers = some 0 then some .workers
  else if c.maxBackoff < firstBackoff then some .maxBackoff
  else if c.queueCapacity = 0 then some .queueCapacity
  else if c.queueThreshold = 0 ∨ c.queueCapacity < c.queueThreshold then some .queueThreshold
  else if c.maxSleep = 0 then some .maxSleep
  else none

/-- Why a configuration cannot be loaded. -/
inductive LoadError where
  | file (path : Path) (error : FileError)
  | document
  | invalid (value : Invalid)
deriving DecidableEq, Repr

def LoadError.message : LoadError → String
  | file path e => s!"{path.text}: {e.message}"
  | document => "parse error"
  | invalid value => value.message

def fields : List String :=
  ["zonelist", "worker_threads", "drudger_threads", "max_backoff_secs", "queue_capacity",
    "queue_threshold", "max_sleep_secs", "command_socket"]

def ofJson? (j : Json) : Option EngineConfig := do
  let r ← j.record? fields true
  let fallback : EngineConfig := {}
  let number := Json.natUpTo? Text.maxLong
  return {
    zonelist := ← r.defaulted "zonelist" fallback.zonelist Path.ofJson?
    workers := ← r.defaulted "worker_threads" none fun j => (number j).map some
    drudgers := ← r.defaulted "drudger_threads" fallback.drudgers number
    maxBackoff := ← r.defaulted "max_backoff_secs" fallback.maxBackoff number
    queueCapacity := ← r.defaulted "queue_capacity" fallback.queueCapacity number
    queueThreshold := ← r.defaulted "queue_threshold" fallback.queueThreshold number
    maxSleep := ← r.defaulted "max_sleep_secs" fallback.maxSleep number
    commandSocket := ← r.defaulted "command_socket" none (Json.nullable Path.ofJson?) }

def toJson (c : EngineConfig) : Json :=
  .object [
    ("zonelist", .text c.zonelist.text),
    ("worker_threads", .ofOption .nat c.workers),
    ("drudger_threads", .nat c.drudgers),
    ("max_backoff_secs", .nat c.maxBackoff),
    ("queue_capacity", .nat c.queueCapacity),
    ("queue_threshold", .nat c.queueThreshold),
    ("max_sleep_secs", .nat c.maxSleep),
    ("command_socket", .ofOption (fun p => .text p.text) c.commandSocket)]

def parse (text : String) : Except LoadError EngineConfig :=
  match (Json.parse? text).bind ofJson? with
  | none => .error .document
  | some c =>
    match c.invalid? with
    | some value => .error (.invalid value)
    | none => .ok c

def resolved (c : EngineConfig) (base : Path) : EngineConfig :=
  { c with
    zonelist := base.within c.zonelist
    commandSocket := c.commandSocket.map base.within }

def load (files : FileStore) (path : Path) : Except LoadError EngineConfig := do
  let text ← (files.readText path).mapError (.file path)
  let c ← parse text
  match path.parent? with
  | some base => return c.resolved base
  | none => return c

end EngineConfig

end ZoneSigning
