import ZoneSigning.StepError

/-!
Reading a zone from its input file, and writing it to its output file. The output is written beside
its place first and then moved there, so that a reader never sees half of it.
-/
namespace ZoneSigning

/-- Whether there was anything new to read. -/
inductive ReadStatus where
  | fresh
  | unchanged
deriving DecidableEq, Repr

def Endpoint.filePath (e : Endpoint) : Except AdapterFault Path :=
  if e.kind ≠ "file" then .error (.unsupportedKind e.kind)
  else if e.path.isEmpty then .error .emptyPath
  else .ok e.path

namespace ZoneState

def isReadAt (s : ZoneState) (time : FileTime) : Bool :=
  s.db.hasContent && s.db.lastRead == some time

/-- The serial that follows on the last one read; after the largest comes zero. -/
def nextSerial (s : ZoneState) : Nat :=
  match s.db.inboundSerial with
  | some serial => (serial + 1) % (Text.maxWord + 1)
  | none => 1

def withContent (s : ZoneState) (content : ZoneText) (time : FileTime) : ZoneState :=
  { s with
    defaultTtl := content.defaultTtl.getD s.defaultTtl
    db := { s.db with
      names := content.names
      inboundSerial := some (content.serial.getD s.nextSerial)
      lastRead := some time } }

/-- Read a zone's input, unless it was read when it was last modified. -/
def readInput (s : ZoneState) (zone : ZoneKey) (files : FileStore) :
    Except AdapterFault (ReadStatus × ZoneState) := do
  let path ← s.input.filePath
  let time ← (files.modified path).mapError (.file path)
  if s.isReadAt time then return (.unchanged, s)
  let text ← (files.readText path).mapError (.file path)
  let content ← (ZoneText.read zone.name text).mapError .zoneText
  if !content.names.contains zone.name then throw (.noApex path)
  return (.fresh, s.withContent content time)

def rendered (s : ZoneState) (zone : Zone) : Except AdapterFault (Path × String) := do
  let path ← s.output.filePath
  match s.db.inboundSerial with
  | none => throw .notRead
  | some serial => return (path, ZoneText.render zone.apex serial s.defaultTtl s.db.names)

end ZoneState

namespace Path

/-- Where an output is written before it is moved to its place. -/
def draft (p : Path) : Path := p.withExtension "tmp"

end Path

namespace FileStore

def writeDraft (fs : FileStore) (path : Path) (text : String) :
    Except AdapterFault FileStore :=
  (fs.write path.draft (.text text)).mapError (.file path)

def publish (fs : FileStore) (path : Path) : Except AdapterFault FileStore :=
  (fs.rename path.draft path).mapError (.file path)

/-- Write a zone's output. The files after it are given also where it fails. -/
def writeOutput (fs : FileStore) (zone : Zone) (s : ZoneState) :
    Except AdapterFault Unit × FileStore :=
  match s.rendered zone with
  | .error e => (.error e, fs)
  | .ok (path, text) =>
    match fs.writeDraft path text with
    | .error e => (.error e, fs)
    | .ok fs =>
      match fs.publish path with
      | .error e => (.error e, fs)
      | .ok fs => (.ok (), fs)

end FileStore

end ZoneSigning
