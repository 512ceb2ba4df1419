import ZoneSigning.Json.Record
import ZoneSigning.Task

/-!
What listings say of a task, and its form as a JSON document.
-/
namespace ZoneSigning

/-- A task as listings show it. -/
structure TaskInfo where
  zone : String
  dnsClass : DnsClass
  what : TaskKind
  due : Nat
  interrupt : Option TaskKind
  halted : Option TaskKind
  haltedDue : Option Nat
  backoff : Nat
  flush : Bool
deriving DecidableEq, Repr, Inhabited

/-- What listings show of a task. The due time of a halted step goes with the step. -/
def Task.info (t : Task) : TaskInfo where
  zone := t.zone.name
  dnsClass := t.zone.dnsClass
  what := t.what
  due := t.due
  interrupt := t.interrupt
  halted := t.halted
  haltedDue := t.halted.map fun _ => t.haltedDue
  backoff := t.backoff
  flush := t.flush

def TaskKind.toJson (k : TaskKind) : Json := .text k.word

/-- Read a kind: its word, or an object whose one member has the word as its key and no value. -/
def TaskKind.ofJson? : Json → Option TaskKind
  | .text s => ofWord? s
  | .object [(s, .null)] => ofWord? s
  | _ => none

def DnsClass.ofJson? (j : Json) : Option DnsClass := (Json.text? j).bind DnsClass.parse?

namespace TaskInfo

def fields : List String :=
  ["zone", "class", "what", "when", "interrupt", "halted", "halted_when", "backoff", "flush"]

def toJson (t : TaskInfo) : Json :=
  .object [
    ("zone", .text t.zone),
    ("class", .text t.dnsClass.text),
    ("what", t.what.toJson),
    ("when", .nat t.due),
    ("interrupt", .ofOption TaskKind.toJson t.interrupt),
    ("halted", .ofOption TaskKind.toJson t.halted),
    ("halted_when", .ofOption .nat t.haltedDue),
    ("backoff", .nat t.backoff),
    ("flush", .bool t.flush)]

def ofJson? (j : Json) : Option TaskInfo := do
  let r ← j.record? fields false
  let time := Json.natUpTo? maxTime
  return {
    zone := ← r.required "zone" Json.text?
    dnsClass := ← r.required "class" DnsClass.ofJson?
    what := ← r.required "what" TaskKind.ofJson?
    due := ← r.required "when" time
    interrupt := ← r.optional "interrupt" TaskKind.ofJson?
    halted := ← r.optional "halted" TaskKind.ofJson?
    haltedDue := ← r.optional "halted_when" time
    backoff := ← r.required "backoff" time
    flush := ← r.required "flush" Json.bool? }

end TaskInfo

end ZoneSigning
