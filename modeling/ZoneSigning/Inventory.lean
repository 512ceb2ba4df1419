import ZoneSigning.Failure
import ZoneSigning.FileStore
import ZoneSigning.Json.Reader
import ZoneSigning.Json.Record

/-!
The inventory: the document that lists the zones to be kept signed. It is an array of entries, or an
object with such an array. Relative paths in it start from the inventory's own directory.
-/
namespace ZoneSigning

/-- What the inventory says of one zone. -/
structure ZoneEntry where
  name : String
  dnsClass : DnsClass := .internet
  policy : String := ""
  configPath : Path
  input : Endpoint
  output : Endpoint
deriving DecidableEq, Repr, Inhabited

/-- Why the list of zones cannot be brought up to date. -/
inductive ZoneListError where
  | file (error : FileError)
  | document
  | unnamed (entry : Nat)
deriving DecidableEq, Repr

namespace ZoneListError

def failure : ZoneListError → Failure
  | file _ => .inventoryFile
  | _ => .inventoryText

def detail : ZoneListError → String
  | file e => e.message
  | document => "invalid document"
  | unnamed entry => s!"zone entry {entry} has no name"

def message (e : ZoneListError) : String := e.failure.describe e.detail

end ZoneListError

def Path.ofJson? (j : Json) : Option Path := (Json.text? j).map Path.mk

namespace Endpoint

def ofJson? (j : Json) : Option Endpoint := do
  let r ← j.record? ["kind", "uri"] false
  return {
    kind := ← r.defaulted "kind" "file" Json.text?
    path := ← r.required "uri" Path.ofJson? }

def toJson (e : Endpoint) : Json :=
  .object [("kind", .text e.kind), ("uri", .text e.path.text)]

end Endpoint

/-- A path of the inventory, seen from the inventory's directory. An empty path stays empty. -/
def Path.resolved (base p : Path) : Path := if p.isEmpty then p else base.within p

namespace ZoneEntry

def key (e : ZoneEntry) : ZoneKey := .of e.name e.dnsClass

def ofJson? (j : Json) : Option ZoneEntry := do
  let r ← j.record? ["name", "class", "policy", "signconf", "input", "output"] false
  return {
    name := ← r.required "name" Json.text?
    dnsClass := ← r.defaulted "class" .internet fun j => (Json.text? j).bind DnsClass.parse?
    policy := ← r.defaulted "policy" "" Json.text?
    configPath := ← r.required "signconf" Path.ofJson?
    input := ← r.required "input" Endpoint.ofJson?
    output := ← r.required "output" Endpoint.ofJson? }

def toJson (e : ZoneEntry) : Json :=
  .object [
    ("name", .text e.name),
    ("class", .text e.dnsClass.text),
    ("policy", .text e.policy),
    ("signconf", .text e.configPath.text),
    ("input", e.input.toJson),
    ("output", e.output.toJson)]

def isNamed (e : ZoneEntry) : Bool := Text.trimBlank e.name.toList != []

def resolved (e : ZoneEntry) (base : Path) : ZoneEntry :=
  { e with
    configPath := base.resolved e.configPath
    input := { e.input with path := base.resolved e.input.path }
    output := { e.output with path := base.resolved e.output.path } }

end ZoneEntry

namespace Inventory

def ofJson? (j : Json) : Option (List ZoneEntry) :=
  if !j.isReadable then none
  else
    match j with
    | .array _ => Json.array? ZoneEntry.ofJson? j
    | .object _ => do
      let r ← j.record? ["zones"] false
      r.required "zones" (Json.array? ZoneEntry.ofJson?)
    | _ => none

def parse (text : String) : Except ZoneListError (List ZoneEntry) :=
  match (Json.parse? text).bind ofJson? with
  | none => .error .document
  | some entries =>
    match entries.findIdx? (!·.isNamed) with
    | some i => .error (.unnamed i)
    | none => .ok entries

def read (files : FileStore) (path : Path) : Except ZoneListError (List ZoneEntry) := do
  let text ← (files.readText path).mapError .file
  let entries ← parse text
  match path.parent? with
  | some base => return entries.map (·.resolved base)
  | none => return entries

end Inventory

end ZoneSigning
