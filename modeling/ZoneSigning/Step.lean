import ZoneSigning.Schedule
import ZoneSigning.Signer
import ZoneSigning.Zone.Config
import ZoneSigning.Zone.Files

/-!
One step of a zone: what it needs, which collaborator it calls, and what follows from the answer.
The functions here say what a step decides; who calls the collaborators, and when, is left open.
-/
namespace ZoneSigning

/-- What a step decides. -/
inductive Outcome where
  /-- The step has succeeded; go on to another kind after some seconds. -/
  | advance (next : TaskKind) (delay : Nat)
  /-- The step has changed nothing; go back to a halted step, or else on to another kind. -/
  | resume (next : TaskKind)
  /-- The step has failed; try it again later. -/
  | retry (error : StepError)
  /-- The step has failed; drop the task until the next pass. -/
  | fatal (error : StepError)
deriving DecidableEq, Repr

/-- The names of a zone that are to be signed in one step, and when the zone is signed again. -/
structure Batch where
  jobs : List SignJob
  serial : Nat
  resignSecs : Nat
deriving DecidableEq, Repr, Inhabited

namespace ZoneState

def afterUnchanged (s : ZoneState) : TaskKind := if s.db.hasContent then .sign else .read

/-- What the answer of the configuration loader leads to. A zone that has a configuration keeps it
when loading fails. -/
def configured (s : ZoneState) (answer : Except StepError ConfigStatus) : Outcome × ZoneState :=
  match answer with
  | .ok (.reloaded config) => (.advance .read 0, { s with config := some config })
  | .ok .unchanged =>
    if s.config.isSome then (.resume s.afterUnchanged, s)
    else (.fatal (.config .noneLoaded), s)
  | .error e => if s.config.isSome then (.resume s.afterUnchanged, s) else (.fatal e, s)

def afterRead (answer : Except StepError ReadStatus) : Outcome :=
  match answer with
  | .ok _ => .advance .sign 0
  | .error e => .retry e

/-- The signatures that the zone needs now, or the kind of step that has to come first. -/
def batch (s : ZoneState) (zone : ZoneKey) : Except TaskKind Batch :=
  match s.config, s.db.inboundSerial with
  | none, _ => .error .configure
  | some _, none => .error .read
  | some config, some serial =>
    .ok {
      jobs := s.db.names.members.map fun owner => ⟨zone.name, owner, serial, config.validitySecs⟩
      serial := serial
      resignSecs := config.resignSecs }

def counted (s : ZoneState) (tally : JobTally) : ZoneState :=
  { s with db := { s.db with signatures := s.db.signatures + tally.completed } }

/-- What the signatures lead to: nothing is published unless all have been made. -/
def signed? (tally : JobTally) : Option Outcome :=
  if tally.failed > 0 then some (.retry (.signer (.someFailed tally.failed tally.appointed)))
  else none

def published (s : ZoneState) (serial : Option Nat) (resignSecs : Nat)
    (answer : Except StepError Unit) : Outcome × ZoneState :=
  match answer with
  | .ok () =>
    (.advance .sign resignSecs, { s with db := { s.db with outboundSerial := serial } })
  | .error e => (.retry e, s)

/-- When the zone is signed again after its content has been written as it is. -/
def resignSecs (s : ZoneState) : Nat := (s.config.map (·.resignSecs)).getD 60

end ZoneState

namespace Outcome

def isPerformed : Outcome → Bool
  | advance .. | resume .. => true
  | retry .. | fatal .. => false

/-- What becomes of the task when it comes back at the time `now`; nothing if it is dropped. -/
def transition? (o : Outcome) (now maxBackoff : Nat) : Option (Task → Task) :=
  match o with
  | advance next delay => some fun t => t.succeed next (addTime now delay) now
  | resume next => some fun t => t.resume next now now
  | retry _ => some fun t => t.fail now maxBackoff
  | fatal _ => none

def settle (o : Outcome) (t : Task) (now maxBackoff : Nat) (s : Schedule) : Schedule :=
  match o.transition? now maxBackoff with
  | some f => (s.resubmit t f).2
  | none => (s.release t.zone).2

end Outcome

end ZoneSigning
