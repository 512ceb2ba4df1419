import ZoneSigning.Zone.Key

/-!
The text of a zone: one record a line, comments behind semicolons. Only what signing needs is read
from it: the owner names, the serial of the SOA record and the default TTL. A line that starts with
a blank has the owner of the line before it.
-/
namespace ZoneSigning

/-- What is read from the text of a zone. -/
structure ZoneText where
  names : OrderedSet String := ∅
  serial : Option Nat := none
  defaultTtl : Option Nat := none
deriving Inhabited

namespace ZoneText

inductive Fault where
  | badTtl (text : String)
  | noOwner
  | noSerial
  | badSerial (text : String)
deriving DecidableEq, Repr

/-- A fault and the number of the line that has it. -/
structure ReadError where
  line : Nat
  fault : Fault
deriving DecidableEq, Repr

def Fault.message : Fault → String
  | badTtl s => s!"bad $TTL `{s}`"
  | noOwner => "record without owner"
  | noSerial => "SOA without serial"
  | badSerial s => s!"bad SOA serial `{s}`"

def ReadError.message (e : ReadError) : String := s!"line {e.line}: {e.fault.message}"

/-- The canonical form of an owner name in the zone `zone`: `@` is the zone itself, and a name
without a dot at its end is below the zone. -/
def qualify (zone owner : String) : String :=
  if owner = "@" then zone
  else if owner.toList.getLast? = some '.' || zone = "." then normalizeName owner
  else normalizeName (owner ++ "." ++ zone)

def withoutComment (line : List Char) : List Char := line.takeWhile (· != ';')

/-- The words of a line, without the parentheses that stand alone. -/
def tokens (line : List Char) : List (List Char) :=
  (Text.splitWords line).filter fun t => t != ['('] && t != [')']

/-- What is known after some lines: what they hold, and whose records come next. -/
structure Reading where
  found : ZoneText := {}
  owner : Option String := none
deriving Inhabited

/-- Read a line that starts with a dollar sign. Only the default TTL counts. -/
def readDirective (r : Reading) (words : List (List Char)) : Except Fault Reading :=
  match words with
  | ['$', 'T', 'T', 'L'] :: ttl :: _ =>
    match Text.readNumeral Text.maxWord ttl with
    | some n => .ok { r with found := { r.found with defaultTtl := some n } }
    | none => .error (.badTtl (String.ofList ttl))
  | _ => .ok r

def isSoa (word : List Char) : Bool := word.map Char.toUpper == ['S', 'O', 'A']

/-- Read what follows the owner of a record. Only the serial of an SOA record counts. -/
def readData (found : ZoneText) (words : List (List Char)) : Except Fault ZoneText :=
  match words.dropWhile (!isSoa ·) with
  | [] => .ok found
  | _ :: data =>
    match data[2]? with
    | none => .error .noSerial
    | some serial =>
      match Text.readNumeral Text.maxWord serial with
      | some n => .ok { found with serial := some n }
      | none => .error (.badSerial (String.ofList serial))

def readLine (zone : String) (r : Reading) (raw : List Char) : Except Fault Reading :=
  let line := withoutComment raw
  match Text.splitWords line, line with
  | [], _ | _, [] => .ok r
  | _, first :: _ =>
    let words := tokens line
    if first = '$' then readDirective r words
    else
      let (owner, words) :=
        if Text.isBlank first then (r.owner, words)
        else (words.head?.map fun w => qualify zone (String.ofList w), words.tail)
      match owner with
      | none => .error .noOwner
      | some name =>
        match readData { r.found with names := OrderedSet.add r.found.names name } words with
        | .ok found => .ok ⟨found, some name⟩
        | .error e => .error e

def readLines (zone : String) (n : Nat) (r : Reading) : List (List Char) → Except ReadError Reading
  | [] => .ok r
  | line :: rest =>
    match readLine zone r line with
    | .ok r => readLines zone (n + 1) r rest
    | .error fault => .error ⟨n, fault⟩

def read (zone : String) (s : String) : Except ReadError ZoneText :=
  match readLines zone 1 {} (s.toList.splitOn '\n') with
  | .ok r => .ok r.found
  | .error e => .error e

def absolute (name : String) : String := if name = "." then name else name ++ "."

/-- Write a zone's names with its default TTL, below a comment that gives the apex and the
serial. -/
def render (apex : String) (serial ttl : Nat) (names : OrderedSet String) : String :=
  s!"; {apex} signed, serial {serial}\n$TTL {ttl}\n" ++
    String.join (names.members.map fun name => absolute name ++ "\n")

end ZoneText

end ZoneSigning
