import ZoneSigning.FileCollaborators
import ZoneSigning.FileStore.Snapshot
import ZoneSigning.Options
import ZoneSigning.Report
import Std.Time.DateTime.Timestamp

/-!
The command line. The engine keeps the zones below the working directory signed, and takes commands
from the standard input, one a line; each is answered by a line on the standard output. It runs
until it is told to stop or the input ends.
-/
namespace ZoneSigning.CommandLine

def configVariable : String := "ZONE_SIGNING_CONFIG"

def second : Nat := 1000000000

def clock : IO FileTime := do
  return (← Std.Time.Timestamp.now).toNanosecondsSinceUnixEpoch.val.toNat

/-- The files below the working directory. What cannot be read is left out. -/
def snapshot : IO FileStore := do
  let home ← IO.currentDir
  let mut nodes := #[]
  for path in ← home.walkDir do
    let .ok data ← path.metadata.toBaseIO | continue
    let time := data.modified.sec.toNat * second + data.modified.nsec.toNat
    let location := Location.ofText path.toString
    match data.type with
    | .dir => nodes := nodes.push (location, FileNode.directory time)
    | .file =>
      let .ok bytes ← (IO.FS.readBinFile path).toBaseIO | continue
      nodes := nodes.push (location, .file (.ofBytes bytes) time)
    | _ => continue
  return .ofNodes (Location.ofText home.toString) (← clock) nodes.toList

/-- Change the files. A file is written beside its place first, and then moved there. -/
def carryOut : FileChange → IO Unit
  | .remove location => IO.FS.removeFile location.text
  | .makeDirectory location => IO.FS.createDirAll location.text
  | .write location body => do
    let draft := Path.draft ⟨location.text⟩
    IO.FS.writeBinFile draft.text body.bytes
    IO.FS.rename draft.text location.text

/-- Do something with the engine, which sees the files and the time as they are now, and carry out
what it has changed. -/
def act {α : Type} (e : Engine FileWorld) (f : Engine FileWorld → α × Engine FileWorld) :
    IO (α × Engine FileWorld) := do
  let before ← snapshot
  let now := (← clock) / second
  let (a, e) := f { e with pool := { e.pool with
    now := now
    around := { e.pool.around with files := before } } }
  e.pool.around.files.changesSince before |>.forM carryOut
  return (a, e)

def hasWork (e : Engine FileWorld) : IO Bool := do
  let now := (← clock) / second
  return !e.pool.signals.isEmpty || (e.pool.schedule.next now).1.isSome

def patience : Nat := 1000

def waitingClock : IO Nat := do
  return (← IO.monoMsNow) / 1000

/-- Serve until the engine is told to stop, the input ends, or a deadline is beyond the clock, and shut
the engine down. -/
def serve (e : Engine FileWorld) : IO UInt32 := do
  let input ← IO.getStdin
  let output ← IO.getStdout
  let mut e := e
  let mut pending ← IO.asTask input.getLine
  let mut nextPass := e.deadline? (← waitingClock)
  let mut running := nextPass.isSome
  while running do
    let now ← waitingClock
    if nextPass.any (· ≤ now) then
      e := e.signal .reload
      nextPass := e.deadline? now
    if ← IO.hasFinished pending then
      let line ← IO.ofExcept pending.get
      if line.isEmpty then
        e := e.requestShutdown
      else
        let (response, e') ← act e (·.executeLine (Text.trim line))
        e := e'
        output.putStr response.line
        output.flush
        pending ← IO.asTask input.getLine
    if ← hasWork e then
      let (goesOn, e') ← act e (·.serve fileCollaborators patience)
      e := e'
      running := goesOn && nextPass.isSome
    else IO.sleep 200
  discard <| act e fun e => ((), e.shutdown fileCollaborators)
  if nextPass.isSome then
    return 0
  IO.eprintln "overflow when adding duration to instant"
  return 101

def run (o : Options) : IO UInt32 := do
  let fallback ← IO.getEnv configVariable
  match o.config.or (fallback.map Path.mk) with
  | none =>
    IO.eprintln s!"no configuration file given (use --config or {configVariable})"
    return 1
  | some path =>
    let files ← snapshot
    match EngineConfig.load files path with
    | .error e =>
      IO.eprintln s!"loading {path.text}: {e.message}"
      return 1
    | .ok config =>
      match Engine.ofConfig (o.applyTo config) 1 ((← clock) / second) { files := files } with
      | .error e =>
        IO.eprintln e.message
        return 1
      | .ok e =>
        match ← act e (·.start) with
        | (.error e, _) =>
          IO.eprintln e.message
          return 1
        | (.ok (), e) => serve e

end ZoneSigning.CommandLine

/-- Keep the zones of a configuration signed. -/
def main (args : List String) : IO UInt32 := do
  match ZoneSigning.Options.parse args with
  | .error fault =>
    IO.eprintln fault.message
    return 2
  | .ok options => ZoneSigning.CommandLine.run options
