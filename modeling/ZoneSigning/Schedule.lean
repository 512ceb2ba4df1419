import ZoneSigning.Failure
import ZoneSigning.OrderedMap
import ZoneSigning.Task

/-!
The schedule: the tasks that wait for a worker, in the order of their keys, and the zones whose task
a worker has taken. A zone owns at most one task, waiting or taken. What is asked of a zone while
its task is taken is recorded, and given to the task when it comes back.

Each operation answers and gives the schedule after it, also where it fails.
-/
namespace ZoneSigning

/-- Why the schedule refuses something. -/
inductive ScheduleError where
  | duplicate (task : Task)
  | zoneBusy (zone : ZoneKey)
  | noTaskAt (key : TaskKey)
  | noTaskOf (zone : ZoneKey)
  | unknownZone (name : String)
  | zoneLeaving (name : String)
deriving DecidableEq, Repr

namespace ScheduleError

def failure : ScheduleError → Failure
  | duplicate _ => .duplicate
  | zoneBusy _ => .zoneBusy
  | _ => .notFound

def detail : ScheduleError → String
  | duplicate t => t.text
  | zoneBusy z => z.name
  | noTaskAt k => s!"[{k.what.text}] zone {k.zone} at {k.due}"
  | noTaskOf z => z.name
  | unknownZone name => s!"zone {name}"
  | zoneLeaving name => s!"zone {name} is being removed"

def message (e : ScheduleError) : String := e.failure.describe e.detail

end ScheduleError

/-- A task that was not accepted. -/
structure Refusal where
  reason : ScheduleError
  task : Task
deriving DecidableEq, Repr

/-- What has been asked of a zone while its task was taken. -/
structure Pending where
  interrupt : Option TaskKind := none
  interruptDue : Nat := 0
  flush : Bool := false
deriving DecidableEq, Repr, Inhabited

def Pending.fold (p : Pending) (t : Task) : Task :=
  let t := { t with flush := t.flush || p.flush }
  match p.interrupt with
  | some kind => { t with interrupt := some kind, interruptDue := p.interruptDue }
  | none => t

/-- The tasks that wait and the zones whose task is taken. -/
structure Schedule where
  /-- The tasks that wait, by their keys. -/
  tasks : OrderedMap TaskKey Task := ∅
  /-- The key of each zone's waiting task. -/
  byZone : OrderedMap ZoneKey TaskKey := ∅
  /-- The zones whose task is taken, with what has been asked of them since. -/
  inFlight : OrderedMap ZoneKey Pending := ∅
  /-- How many waiting tasks are flushed. -/
  flushCount : Nat := 0
deriving Inhabited

namespace Schedule

def size (s : Schedule) : Nat := s.tasks.size

def isEmpty (s : Schedule) : Bool := s.tasks.isEmpty

def waiting (s : Schedule) : List Task := s.tasks.values

def isScheduled (s : Schedule) (zone : ZoneKey) : Bool := s.byZone.contains zone

def isInFlight (s : Schedule) (zone : ZoneKey) : Bool := s.inFlight.contains zone

def hasTask (s : Schedule) (zone : ZoneKey) : Bool := s.isScheduled zone || s.isInFlight zone

def get? (s : Schedule) (zone : ZoneKey) : Option Task := (s.byZone.get? zone).bind s.tasks.get?

def schedule (s : Schedule) (t : Task) : Except Refusal Unit × Schedule :=
  if s.tasks.contains t.key then (.error ⟨.duplicate t, t⟩, s)
  else if s.hasTask t.zone then (.error ⟨.zoneBusy t.zone, t⟩, s)
  else
    (.ok (), { s with
      tasks := s.tasks.insert t.key t
      byZone := s.byZone.insert t.zone t.key
      flushCount := if t.flush then s.flushCount + 1 else s.flushCount })

/-- Remove the waiting task with this key; it is no longer flushed. -/
def unschedule (s : Schedule) (key : TaskKey) : Except ScheduleError Task × Schedule :=
  match s.tasks.get? key with
  | none => (.error (.noTaskAt key), s)
  | some t =>
    (.ok { t with flush := false }, { s with
      tasks := s.tasks.erase key
      byZone := s.byZone.erase t.zone
      flushCount := if t.flush then s.flushCount - 1 else s.flushCount })

def unscheduleZone (s : Schedule) (zone : ZoneKey) : Except ScheduleError Task × Schedule :=
  match s.byZone.get? zone with
  | none => (.error (.noTaskOf zone), s)
  | some key => s.unschedule key

def amend (s : Schedule) (zone : ZoneKey) (change : Task → Task) :
    Except ScheduleError Unit × Schedule :=
  match s.unscheduleZone zone with
  | (.error e, s) => (.error e, s)
  | (.ok t, s) =>
    match s.schedule (change t) with
    | (.error refusal, s) => (.error refusal.reason, s)
    | (.ok (), s) => (.ok (), s)

def record (s : Schedule) (zone : ZoneKey) (change : Pending → Pending) :
    Except ScheduleError Unit × Schedule :=
  match s.inFlight.get? zone with
  | none => (.error (.noTaskOf zone), s)
  | some p => (.ok (), { s with inFlight := s.inFlight.insert zone (change p) })

/-- Move the zone's task to another kind and due time, or record that as a request if the task is
taken. -/
def reschedule (s : Schedule) (zone : ZoneKey) (what : TaskKind) (due : Nat) :
    Except ScheduleError Unit × Schedule :=
  if s.isScheduled zone then s.amend zone (·.retarget what due)
  else s.record zone fun p => { p with interrupt := some what, interruptDue := due }

def flushZone (s : Schedule) (zone : ZoneKey) : Except ScheduleError Unit × Schedule :=
  if s.isScheduled zone then s.amend zone ({ · with flush := true })
  else s.record zone ({ · with flush := true })

def flushAll (s : Schedule) : Nat × Schedule :=
  (s.waiting.countP (!·.flush), { s with
    tasks := s.tasks.mapValues fun _ t => { t with flush := true }
    flushCount := s.size })

/-- The task that goes next: the first one that is flushed, or else the first one. A count of
flushed tasks where there is none is set right. -/
def peek (s : Schedule) : Option Task × Schedule :=
  if s.flushCount > 0 then
    match s.waiting.find? (·.flush) with
    | some t => (some t, s)
    | none => (s.waiting.head?, { s with flushCount := 0 })
  else (s.waiting.head?, s)

def next (s : Schedule) (now : Nat) : Option Task × Schedule :=
  match s.peek with
  | (none, s) => (none, s)
  | (some t, s) =>
    if !t.flush && now < t.due then (none, s)
    else
      match s.unschedule t.key with
      | (.error _, s) => (none, s)
      | (.ok t, s) => (some t, { s with inFlight := s.inFlight.insert t.zone {} })

def release (s : Schedule) (zone : ZoneKey) : Option Pending × Schedule :=
  (s.inFlight.get? zone, { s with inFlight := s.inFlight.erase zone })

/-- Let a taken task wait again. It gets what has been asked of it, and then goes through the
transition. -/
def resubmit (s : Schedule) (t : Task) (transition : Task → Task) :
    Except Refusal Unit × Schedule :=
  let (pending, s) := s.release t.zone
  s.schedule (transition (pending.elim t (Pending.fold · t)))

def clear (s : Schedule) : Nat × Schedule := (s.size, {})

end Schedule

/-- How long an idle worker sleeps: longer each time, up to a limit. -/
structure IdleBackoff where
  current : Nat
  limit : Nat
deriving DecidableEq, Repr

namespace IdleBackoff

/-- The sleeps of a worker that starts. A limit of zero counts as one second. -/
def ofLimit (limit : Nat) : IdleBackoff := ⟨min firstBackoff (max limit 1), max limit 1⟩

def nextTimeout (b : IdleBackoff) : Nat × IdleBackoff :=
  (b.current, { b with current := min (min (2 * b.current) maxTime) b.limit })

def reset (b : IdleBackoff) : IdleBackoff := { b with current := min firstBackoff b.limit }

end IdleBackoff

/-- What a worker that looks for work finds. -/
inductive Lookout where
  | leave
  | take (task : Task)
  | sleep (seconds : Nat)
deriving DecidableEq, Repr

/-- Look for work once. A worker sleeps until the next task is due, or, when no task waits, as
long as its idle backoff says. -/
def Schedule.look (s : Schedule) (exit : Bool) (now : Nat) (idle : IdleBackoff) :
    Lookout × Schedule × IdleBackoff :=
  if exit then (.leave, s, idle)
  else
    match s.next now with
    | (some t, s) => (.take t, s, idle.reset)
    | (none, s) =>
      match s.peek with
      | (some t, s) => (.sleep (max (t.due - now) 1), s, idle)
      | (none, s) => let (seconds, idle) := idle.nextTimeout; (.sleep seconds, s, idle)

end ZoneSigning
