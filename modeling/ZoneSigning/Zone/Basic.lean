import ZoneSigning.Path
import ZoneSigning.Zone.Key

/-!
Zones: what the inventory says of them, what is loaded for them, and what has been done with them.
-/
namespace ZoneSigning

/-- A time of modification, in nanoseconds since the epoch. -/
abbrev FileTime := Nat

/-- How a zone stands to the inventory. -/
inductive ZoneStatus where
  /-- Unchanged since the last reconciliation. -/
  | ok
  /-- Admitted by the last reconciliation. -/
  | added
  /-- Changed by the last reconciliation. -/
  | updated
  /-- Absent from the inventory, to be evicted when it has no task left. -/
  | removed
deriving DecidableEq, Repr, Inhabited

namespace ZoneStatus

def text : ZoneStatus → String
  | ok => "ok"
  | added => "added"
  | updated => "updated"
  | removed => "removed"

def parse? : String → Option ZoneStatus
  | "ok" => some ok
  | "added" => some added
  | "updated" => some updated
  | "removed" => some removed
  | _ => none

def settled : ZoneStatus → ZoneStatus
  | removed => removed
  | _ => ok

end ZoneStatus

/-- Where the content of a zone comes from or goes to. -/
structure Endpoint where
  kind : String := "file"
  path : Path := ⟨""⟩
deriving DecidableEq, Repr, Inhabited

/-- Whether two endpoints are of one kind and name one path. -/
def Endpoint.agrees (a b : Endpoint) : Bool := a.kind == b.kind && a.path.agrees b.path

/-- A signing key in the key store. -/
structure SigningKey where
  locator : String
  algorithm : Nat
  flags : Nat := 256
deriving DecidableEq, Repr, Inhabited

/-- How a zone is signed. -/
structure SigningConfig where
  /-- Seconds from one signing to the next. -/
  resignSecs : Nat := 60
  /-- Seconds for which a signature is valid. -/
  validitySecs : Nat := 14 * 24 * 3600
  keys : List SigningKey := []
  /-- When the source of the configuration was last modified. -/
  modified : Option FileTime := none
deriving DecidableEq, Repr, Inhabited

/-- What is known of a zone's content. -/
structure NameDb where
  names : OrderedSet String := ∅
  /-- The serial of the content last read. -/
  inboundSerial : Option Nat := none
  /-- The serial of the output last written. -/
  outboundSerial : Option Nat := none
  /-- When the input that the content was read from had been modified. -/
  lastRead : Option FileTime := none
  /-- How many signatures have been made. -/
  signatures : Nat := 0
deriving Inhabited

def NameDb.hasContent (db : NameDb) : Bool := db.inboundSerial.isSome

/-- What changes about a zone. -/
structure ZoneState where
  status : ZoneStatus := .ok
  policy : String := ""
  configPath : Path := ⟨""⟩
  input : Endpoint := { kind := "" }
  output : Endpoint := { kind := "" }
  config : Option SigningConfig := none
  db : NameDb := {}
  defaultTtl : Nat := 0
deriving Inhabited

/-- One record of a zone. A zone that leaves the inventory and comes back after its eviction gets
a new record under its old key. -/
structure Zone where
  key : ZoneKey
  record : Nat
  state : ZoneState
deriving Inhabited

namespace Zone

def name (z : Zone) : String := z.key.name

def apex (z : Zone) : String := apexOf z.key.name
where
  /-- A name with exactly one dot at its end. -/
  apexOf (name : String) : String :=
    String.ofList (Text.dropEnd (· == '.') name.toList ++ ['.'])

def status (z : Zone) : ZoneStatus := z.state.status

def withStatus (z : Zone) (s : ZoneStatus) : Zone :=
  { z with state := { z.state with status := s } }

end Zone

end ZoneSigning
