import ZoneSigning.FileCollaborators

/-!
A running engine between two sections of its threads. The workers and the drudgers go on section by
section, as the pool has it. Whoever does a pass, evicts zones or serves a request holds the list of
zones all along, but goes on in sections too, each of which looks at one zone or touches the
schedule once; between two of them the workers may do anything. Everything is atomic only in
sections. A worker is not kept from a zone that another thread looks at, so that more orders are
possible here than with locks on the zones.
-/
namespace ZoneSigning

inductive ZoneRequest where
  | flush
  | sign
deriving DecidableEq, Repr

/-- What the holder of the list of zones has still to do. -/
inductive Errand where
  | none
  /-- A pass: the inventory has been modified at `time`, and is to be read. -/
  | reading (now : Nat) (time : FileTime)
  /-- A pass: some of the listed zones are still to be reconciled with the fresh list. -/
  | merging (now : Nat) (time : FileTime) (fresh : ZoneList) (counts : MergeCounts)
      (left : List ZoneKey)
  /-- A pass: some of the listed zones are still to be acted on. -/
  | acting (now : Nat) (left : List ZoneKey)
  /-- A pass: the status of a zone has been looked at. -/
  | judged (now : Nat) (z : Zone) (left : List ZoneKey)
  /-- A pass: a zone has been found without a task. -/
  | lacking (now : Nat) (z : Zone) (left : List ZoneKey)
  /-- Some of the zones are still to be tried for eviction, and some are going to be evicted. -/
  | evicting (inPass : Bool) (doomed left : List ZoneKey)
  /-- A zone has been found removed, and may be evicted if it has no task. -/
  | leaving (inPass : Bool) (key : ZoneKey) (doomed left : List ZoneKey)
  /-- A pass: some of the zones are still to be settled. -/
  | settling (left : List ZoneKey)
  /-- A request for a zone that is not about to be evicted. -/
  | serving (request : ZoneRequest) (now : Nat) (z : Zone)
  /-- A request to sign a zone, which has been found without a task. -/
  | admitting (now : Nat) (z : Zone)
  /-- A request to sign a zone, whose task has been moved. -/
  | flushing (z : Zone)

def Errand.inPass : Errand → Bool
  | none | serving .. | admitting .. | flushing .. => false
  | evicting inPass .. | leaving inPass .. => inPass
  | reading .. | merging .. | acting .. | judged .. | lacking .. | settling .. => true

/-- What belongs to the end of an engine. -/
inductive Closing where
  | request
  | tellDrudgers
  | closeQueue
  /-- Only once the queue is closed. -/
  | tellWorkers
  | drainQueue
  | clearSchedule
  | clearZones
deriving DecidableEq, Repr

/-- One section of some thread, or something that happens around the engine. -/
inductive Move (σ : Type) where
  | worker (index : Nat)
  | drudger (index : Nat)
  | proceed
  | pass
  | heed
  | request (what : ZoneRequest) (name : String)
  | flushAll
  | reload
  | start
  /-- The clock is set to any time. -/
  | tick (now : Nat)
  /-- What surrounds the engine changes in any way. -/
  | happen (around : σ)
  | closing (what : Closing)

namespace Move

def isClosing {σ : Type} : Move σ → Bool
  | closing _ => true
  | _ => false

end Move

/-- An engine between two sections. -/
structure Moment (σ : Type) where
  engine : Engine σ
  errand : Errand := .none

namespace ZoneList

def alter (l : ZoneList) (key : ZoneKey) (f : Zone → Zone) : ZoneList :=
  { l with zones := l.zones.mapValues fun k z => if k = key then f z else z }

def countKept (fresh : ZoneList) (counts : MergeCounts) (key : ZoneKey) (z : Zone) : MergeCounts :=
  { counts with
    updated := counts.updated + if (fresh.get? key).any z.isUpdatedBy then 1 else 0
    removed := counts.removed +
      if (fresh.get? key).isNone && z.status != .removed then 1 else 0 }

/-- Add the zones that only the fresh list knows, when all others have been reconciled. -/
def addNew (l fresh : ZoneList) (counts : MergeCounts) (time : FileTime) : ZoneList where
  zones := (l.admitted fresh).foldl (fun zs z => zs.insert z.key (z.withStatus .added)) l.zones
  modified := some time
  counts := { counts with added := (l.admitted fresh).length }
  made := fresh.made

end ZoneList

def Pool.evict {σ : Type} (p : Pool σ) (doomed : List ZoneKey) : Pool σ :=
  let zones := { p.zones with zones := p.zones.zones.filter fun k _ => k ∉ doomed }
  { p with
    zones := zones
    retired := p.retired ++ (p.zones.zones.filter fun k _ => k ∈ doomed).values
    reloading := !zones.removed.isEmpty }

namespace Moment

variable {σ : Type}

def pool (m : Moment σ) : Pool σ := m.engine.pool

def withPool (m : Moment σ) (p : Pool σ) : Moment σ := { m with engine := { m.engine with pool := p } }

def withSchedule (m : Moment σ) (s : Schedule) : Moment σ :=
  { m with engine := m.engine.withSchedule s }

def withZones (m : Moment σ) (l : ZoneList) : Moment σ := m.withPool { m.pool with zones := l }

def turn (m : Moment σ) (e : Errand) : Moment σ := { m with errand := e }

def keys (m : Moment σ) : List ZoneKey := m.pool.zones.zones.keys

/-- Begin a pass: find out whether the inventory has been modified. -/
def beginPass [HasFiles σ] (m : Moment σ) (now : Nat) : Moment σ :=
  match (HasFiles.files m.pool.around).modified m.engine.config.zonelist with
  | .error _ => m
  | .ok time =>
    if m.pool.zones.modified.any (time ≤ ·) then m.turn (.acting now m.keys)
    else m.turn (.reading now time)

def readInventory [HasFiles σ] (m : Moment σ) (now : Nat) (time : FileTime) : Moment σ :=
  match Inventory.read (HasFiles.files m.pool.around) m.engine.config.zonelist with
  | .error _ => m.turn .none
  | .ok entries =>
    m.turn (.merging now time (.ofEntries m.pool.zones.made entries) {} m.keys)

/-- Reconcile one zone, or add the new ones if all are reconciled. -/
def merge (m : Moment σ) (now : Nat) (time : FileTime) (fresh : ZoneList) (counts : MergeCounts) :
    List ZoneKey → Moment σ
  | [] =>
    let m := m.withZones (m.pool.zones.addNew fresh counts time)
    m.turn (.acting now m.keys)
  | key :: left =>
    let counts := (m.pool.zones.get? key).elim counts (ZoneList.countKept fresh counts key)
    (m.withZones (m.pool.zones.alter key (fresh.keep key))).turn
      (.merging now time fresh counts left)

/-- Look at the status of one zone, or go on to evictions if all are acted on. -/
def act (m : Moment σ) (now : Nat) : List ZoneKey → Moment σ
  | [] => m.turn (.evicting true [] m.keys)
  | key :: left =>
    match m.pool.zones.get? key with
    | none => m.turn (.acting now left)
    | some z => m.turn (.judged now z left)

def judge (m : Moment σ) (now : Nat) (z : Zone) (left : List ZoneKey) : Moment σ :=
  match z.status with
  | .removed => (m.withSchedule (m.pool.schedule.unscheduleZone z.key).2).turn (.acting now left)
  | .updated =>
    match m.pool.schedule.reschedule z.key .configure now with
    | (.ok (), s) => (m.withSchedule s).turn (.acting now left)
    | (.error e, s) =>
      (m.withSchedule s).turn (if e.failure = .notFound then .lacking now z left else .acting now left)
  | .added | .ok =>
    m.turn (if m.pool.schedule.hasTask z.key then .acting now left else .lacking now z left)

/-- Look at the status of one zone, or evict those found without a task if all are looked at. -/
def tryEvict (m : Moment σ) (inPass : Bool) (doomed : List ZoneKey) : List ZoneKey → Moment σ
  | [] =>
    let m := m.withPool (m.pool.evict doomed)
    if inPass then (m.withZones m.pool.zones.takeCounts.2).turn (.settling m.keys) else m.turn .none
  | key :: left =>
    match m.pool.zones.get? key with
    | none => m.turn (.evicting inPass doomed left)
    | some z =>
      m.turn (if z.status = .removed then .leaving inPass key doomed left
        else .evicting inPass doomed left)

def settle (m : Moment σ) : List ZoneKey → Moment σ
  | [] => m.turn .none
  | key :: left =>
    (m.withZones (m.pool.zones.alter key fun z => z.withStatus z.status.settled)).turn
      (.settling left)

/-- Find the zone of a request, and look at its status. -/
def receive (m : Moment σ) (what : ZoneRequest) (name : String) : Moment σ :=
  match m.pool.zones.find? name with
  | none => m
  | some z => if z.status = .removed then m else m.turn (.serving what m.pool.now z)

def serve (m : Moment σ) (now : Nat) (z : Zone) : ZoneRequest → Moment σ
  | .flush => (m.withSchedule (m.pool.schedule.flushZone z.key).2).turn .none
  | .sign =>
    match m.pool.schedule.reschedule z.key .read now with
    | (.ok (), s) => (m.withSchedule s).turn (.flushing z)
    | (.error e, s) =>
      (m.withSchedule s).turn (if e.failure = .notFound then .admitting now z else .none)

def signingTask (now : Nat) (z : Zone) : Task :=
  { zone := z.key, record := z.record, what := .read, due := now, flush := true }

def proceed [HasFiles σ] (m : Moment σ) : Option (Moment σ) :=
  match m.errand with
  | .none => none
  | .reading now time => some (m.readInventory now time)
  | .merging now time fresh counts left => some (m.merge now time fresh counts left)
  | .acting now left => some (m.act now left)
  | .judged now z left => some (m.judge now z left)
  | .lacking now z left =>
    some ((m.withSchedule (Engine.scheduleConfigure now z m.pool.schedule)).turn (.acting now left))
  | .evicting inPass doomed left => some (m.tryEvict inPass doomed left)
  | .leaving inPass key doomed left =>
    some (m.turn (.evicting inPass (if m.pool.schedule.hasTask key then doomed else key :: doomed)
      left))
  | .settling left => some (m.settle left)
  | .serving what now z => some (m.serve now z what)
  | .admitting now z =>
    some ((m.withSchedule (m.pool.schedule.schedule (signingTask now z)).2).turn .none)
  | .flushing z => some ((m.withSchedule (m.pool.schedule.flushZone z.key).2).turn .none)

/-- Let somebody take the list of zones, if nobody holds it. -/
def seize (m : Moment σ) (f : Moment σ → Moment σ) : Option (Moment σ) :=
  match m.errand with
  | .none => some (f m)
  | _ => none

/-- Take up a signal that has been removed from those that wait. -/
def heed [HasFiles σ] (m : Moment σ) : Signal → Moment σ
  | .reload => { m with engine := { m.engine with lifecycle := .run } }.beginPass m.pool.now
  | .workerIdle => m.turn (.evicting false [] m.keys)
  | .shutdown => m

/-- Do a part of the end of the engine. The engine does not wait for its threads without end, so that
they may still be running when everything is forgotten. -/
def close (m : Moment σ) : Closing → Option (Moment σ)
  | .request => some { m with engine := m.engine.requestShutdown }
  | .tellDrudgers =>
    some (m.withPool { m.pool with drudgers := m.pool.drudgers.map fun x => { x with exit := true } })
  | .closeQueue => some (m.withPool { m.pool with queue := m.pool.queue.close.1 })
  | .tellWorkers => if m.pool.queue.closed then some (m.withPool m.pool.dismissWorkers) else none
  | .drainQueue => some { m with engine := m.engine.drainQueue }
  | .clearSchedule => some { m with engine := m.engine.clearSchedule }
  | .clearZones => m.seize fun m => { m with engine := m.engine.clearZones }

/-- The moment after a move; nothing if the move has to wait. -/
def step [HasFiles σ] (c : Collaborators σ) (m : Moment σ) : Move σ → Option (Moment σ)
  | .worker w => (m.pool.stepWorker c w).map m.withPool
  | .drudger d => (m.pool.stepDrudger c d).map m.withPool
  | .proceed => m.proceed
  | .pass => m.seize fun m => m.beginPass m.pool.now
  | .heed =>
    match m.pool.signals with
    | [] => none
    | s :: rest => m.seize fun m => (m.withPool { m.pool with signals := rest }).heed s
  | .request what name => m.seize (·.receive what name)
  | .flushAll => some (m.withSchedule m.pool.schedule.flushAll.2)
  | .reload => some { m with engine := m.engine.requestReload }
  | .start => m.pool.start.toOption.map m.withPool
  | .tick now => some (m.withPool { m.pool with now := now })
  | .happen around => some (m.withPool { m.pool with around := around })
  | .closing what => m.close what

section Inversion

variable {c : Collaborators σ} {m m' : Moment σ}

/-- The list of zones can only be taken while nobody holds it. -/
theorem seize_eq_some {f : Moment σ → Moment σ} (h : m.seize f = some m') :
    m.errand = .none ∧ m' = f m := by
  unfold seize at h
  cases he : m.errand <;> simp only [he, Option.some.injEq, reduceCtorEq] at h
  exact ⟨rfl, h.symm⟩

variable (m) in
/-- A pass reads the inventory, or acts on the zones at once. -/
theorem beginPass_cases [HasFiles σ] (now : Nat) : m.beginPass now = m ∨
    (∃ time, m.beginPass now = m.turn (.reading now time)) ∨
    m.beginPass now = m.turn (.acting now m.keys) := by
  unfold beginPass
  split
  · exact .inl rfl
  · next time _ =>
    split
    · exact .inr (.inr rfl)
    · exact .inr (.inl ⟨time, rfl⟩)

variable (m) in
/-- A request is only served for a zone that has not been removed. -/
theorem receive_cases (what : ZoneRequest) (name : String) : m.receive what name = m ∨
    ∃ z, m.pool.zones.find? name = some z ∧ z.status ≠ .removed ∧
      m.receive what name = m.turn (.serving what m.pool.now z) := by
  unfold receive
  split
  · exact .inl rfl
  · next z hz =>
    split
    · exact .inl rfl
    · next hlive => exact .inr ⟨z, hz, hlive, rfl⟩

/-- The threads start as those of the pool do, and nothing else changes. -/
theorem start_eq_some [HasFiles σ] (h : m.step c .start = some m') :
    ∃ p', m.pool.start = .ok p' ∧ m' = m.withPool p' := by
  obtain ⟨p', hp, rfl⟩ := Option.map_eq_some_iff.mp h
  cases hstart : m.pool.start with
  | error e =>
    rw [hstart] at hp
    cases hp
  | ok q =>
    rw [hstart] at hp
    cases hp
    exact ⟨_, rfl, rfl⟩

/-- What the holder of the list makes of a moment in one section, with what it has found. -/
inductive Proceeded [HasFiles σ] (m : Moment σ) : Moment σ → Prop
  -- A pass reads the inventory, and reconciles the listed zones with it.
  | unread {now time e} (he : m.errand = .reading now time)
      (hread : Inventory.read (HasFiles.files m.pool.around) m.engine.config.zonelist = .error e) :
      Proceeded m (m.turn .none)
  | read {now time entries} (he : m.errand = .reading now time)
      (hread : Inventory.read (HasFiles.files m.pool.around) m.engine.config.zonelist =
        .ok entries) :
      Proceeded m
        (m.turn (.merging now time (.ofEntries m.pool.zones.made entries) {} m.keys))
  | keep {now time fresh counts key left}
      (he : m.errand = .merging now time fresh counts (key :: left)) :
      Proceeded m ((m.withZones (m.pool.zones.alter key (fresh.keep key))).turn
        (.merging now time fresh
          ((m.pool.zones.get? key).elim counts (ZoneList.countKept fresh counts key)) left))
  | addNew {now time fresh counts} (he : m.errand = .merging now time fresh counts []) :
      Proceeded m ((m.withZones (m.pool.zones.addNew fresh counts time)).turn
        (.acting now (m.pool.zones.addNew fresh counts time).zones.keys))
  -- It acts on the status of every listed zone.
  | look {now key left z} (he : m.errand = .acting now (key :: left))
      (hz : m.pool.zones.get? key = some z) : Proceeded m (m.turn (.judged now z left))
  | miss {now key left} (he : m.errand = .acting now (key :: left))
      (hz : m.pool.zones.get? key = none) : Proceeded m (m.turn (.acting now left))
  | actedOn {now} (he : m.errand = .acting now []) :
      Proceeded m (m.turn (.evicting true [] m.keys))
  | drop {now z left} (he : m.errand = .judged now z left) (hremoved : z.status = .removed) :
      Proceeded m
        ((m.withSchedule (m.pool.schedule.unscheduleZone z.key).2).turn (.acting now left))
  | ask {now z left} (he : m.errand = .judged now z left) (hupdated : z.status = .updated)
      (hfound : ∀ e, (m.pool.schedule.reschedule z.key .configure now).1 = .error e →
        e.failure ≠ .notFound) :
      Proceeded m ((m.withSchedule (m.pool.schedule.reschedule z.key .configure now).2).turn
        (.acting now left))
  | askInVain {now z left e} (he : m.errand = .judged now z left) (hupdated : z.status = .updated)
      (hask : (m.pool.schedule.reschedule z.key .configure now).1 = .error e)
      (hmissing : e.failure = .notFound) :
      Proceeded m ((m.withSchedule (m.pool.schedule.reschedule z.key .configure now).2).turn
        (.lacking now z left))
  | content {now z left} (he : m.errand = .judged now z left)
      (hstatus : z.status = .added ∨ z.status = .ok) (htask : m.pool.schedule.hasTask z.key) :
      Proceeded m (m.turn (.acting now left))
  | lack {now z left} (he : m.errand = .judged now z left)
      (hstatus : z.status = .added ∨ z.status = .ok) (htask : ¬ m.pool.schedule.hasTask z.key) :
      Proceeded m (m.turn (.lacking now z left))
  | give {now z left} (he : m.errand = .lacking now z left) :
      Proceeded m
        ((m.withSchedule (Engine.scheduleConfigure now z m.pool.schedule)).turn (.acting now left))
  -- Zones that have been removed and have no task are evicted.
  | skip {inPass doomed key left} (he : m.errand = .evicting inPass doomed (key :: left))
      (hz : ∀ z, m.pool.zones.get? key = some z → z.status ≠ .removed) :
      Proceeded m (m.turn (.evicting inPass doomed left))
  | suspect {inPass doomed key left z} (he : m.errand = .evicting inPass doomed (key :: left))
      (hz : m.pool.zones.get? key = some z) (hremoved : z.status = .removed) :
      Proceeded m (m.turn (.leaving inPass key doomed left))
  | evict {doomed} (he : m.errand = .evicting false doomed []) :
      Proceeded m ((m.withPool (m.pool.evict doomed)).turn .none)
  | evictInPass {doomed} (he : m.errand = .evicting true doomed []) :
      Proceeded m ((m.withPool
          { m.pool.evict doomed with zones := (m.pool.evict doomed).zones.takeCounts.2 }).turn
        (.settling (m.pool.evict doomed).zones.zones.keys))
  | spare {inPass key doomed left} (he : m.errand = .leaving inPass key doomed left)
      (htask : m.pool.schedule.hasTask key) : Proceeded m (m.turn (.evicting inPass doomed left))
  | doom {inPass key doomed left} (he : m.errand = .leaving inPass key doomed left)
      (htask : ¬ m.pool.schedule.hasTask key) :
      Proceeded m (m.turn (.evicting inPass (key :: doomed) left))
  -- A pass settles the zones that it leaves listed.
  | settle {key left} (he : m.errand = .settling (key :: left)) :
      Proceeded m
        ((m.withZones (m.pool.zones.alter key fun z => z.withStatus z.status.settled)).turn
          (.settling left))
  | settled (he : m.errand = .settling []) : Proceeded m (m.turn .none)
  -- A request is served.
  | flush {now z} (he : m.errand = .serving .flush now z) :
      Proceeded m ((m.withSchedule (m.pool.schedule.flushZone z.key).2).turn .none)
  | askRead {now z} (he : m.errand = .serving .sign now z)
      (hask : (m.pool.schedule.reschedule z.key .read now).1 = .ok ()) :
      Proceeded m
        ((m.withSchedule (m.pool.schedule.reschedule z.key .read now).2).turn (.flushing z))
  | refuse {now z e} (he : m.errand = .serving .sign now z)
      (hask : (m.pool.schedule.reschedule z.key .read now).1 = .error e)
      (hfound : e.failure ≠ .notFound) :
      Proceeded m ((m.withSchedule (m.pool.schedule.reschedule z.key .read now).2).turn .none)
  | askReadInVain {now z e} (he : m.errand = .serving .sign now z)
      (hask : (m.pool.schedule.reschedule z.key .read now).1 = .error e)
      (hmissing : e.failure = .notFound) :
      Proceeded m
        ((m.withSchedule (m.pool.schedule.reschedule z.key .read now).2).turn (.admitting now z))
  | grant {now z} (he : m.errand = .admitting now z) :
      Proceeded m ((m.withSchedule (m.pool.schedule.schedule (signingTask now z)).2).turn .none)
  | flushMoved {z} (he : m.errand = .flushing z) :
      Proceeded m ((m.withSchedule (m.pool.schedule.flushZone z.key).2).turn .none)

/-- What a part of the end makes of a moment, with the guards that it has passed. -/
inductive Closed (m : Moment σ) : Closing → Moment σ → Prop
  | request : Closed m .request { m with engine := m.engine.requestShutdown }
  | tellDrudgers : Closed m .tellDrudgers (m.withPool
      { m.pool with drudgers := m.pool.drudgers.map fun x => { x with exit := true } })
  | closeQueue : Closed m .closeQueue (m.withPool { m.pool with queue := m.pool.queue.close.1 })
  | tellWorkers (hclosed : m.pool.queue.closed) :
      Closed m .tellWorkers (m.withPool m.pool.dismissWorkers)
  | drainQueue : Closed m .drainQueue { m with engine := m.engine.drainQueue }
  | clearSchedule : Closed m .clearSchedule { m with engine := m.engine.clearSchedule }
  | clearZones (hfree : m.errand = .none) :
      Closed m .clearZones { m with engine := m.engine.clearZones }

/-- A part of the end does one of the things that `Moment.Closed` has. -/
theorem closed_of_close {what : Closing} (hclose : m.close what = some m') : m.Closed what m' := by
  cases what with
  | tellWorkers =>
    simp only [close, Option.ite_none_right_eq_some, Option.some.injEq] at hclose
    obtain ⟨hclosed, rfl⟩ := hclose
    exact .tellWorkers hclosed
  | clearZones =>
    simp only [close] at hclose
    obtain ⟨hfree, rfl⟩ := seize_eq_some hclose
    exact .clearZones hfree
  | _ =>
    cases hclose
    constructor

private theorem proceeded_judge [HasFiles σ] {now : Nat} {z : Zone} {left : List ZoneKey}
    (he : m.errand = .judged now z left) : m.Proceeded (m.judge now z left) := by
  have hlive (hstatus : z.status = .added ∨ z.status = .ok) : m.Proceeded (m.turn
      (if m.pool.schedule.hasTask z.key then .acting now left else .lacking now z left)) := by
    split
    · next htask => exact .content he hstatus htask
    · next htask => exact .lack he hstatus htask
  cases hstatus : z.status <;> simp only [judge, hstatus]
  case removed => exact .drop he hstatus
  case updated =>
    have hask := Proceeded.ask he hstatus
    have hvain {e} := Proceeded.askInVain (e := e) he hstatus
    rcases hr : m.pool.schedule.reschedule z.key .configure now with ⟨⟨e⟩ | ⟨⟩, s⟩ <;>
      rw [hr] at hask hvain <;> dsimp only
    · split
      · next hmissing => exact hvain rfl hmissing
      · next hfound => exact hask fun _ he' => Except.error.inj he' ▸ hfound
    · exact hask nofun
  case added => exact hlive (.inl hstatus)
  case ok => exact hlive (.inr hstatus)

private theorem proceeded_serve [HasFiles σ] {now : Nat} {z : Zone} {what : ZoneRequest}
    (he : m.errand = .serving what now z) : m.Proceeded (m.serve now z what) := by
  cases what with
  | flush => exact .flush he
  | sign =>
    have hask := Proceeded.askRead he
    have hrefuse {e} := Proceeded.refuse (e := e) he
    have hvain {e} := Proceeded.askReadInVain (e := e) he
    simp only [serve]
    rcases hr : m.pool.schedule.reschedule z.key .read now with ⟨⟨e⟩ | ⟨⟩, s⟩ <;>
      rw [hr] at hask hrefuse hvain <;> dsimp only
    · split
      · next hmissing => exact hvain rfl hmissing
      · next hfound => exact hrefuse rfl hfound
    · exact hask rfl

private theorem proceeded_tryEvict [HasFiles σ] {inPass : Bool} {doomed left : List ZoneKey}
    (he : m.errand = .evicting inPass doomed left) :
    m.Proceeded (m.tryEvict inPass doomed left) := by
  cases left with
  | nil =>
    cases inPass with
    | false => exact .evict he
    | true => exact .evictInPass he
  | cons key left =>
    unfold tryEvict
    dsimp only
    split
    · next hz => exact .skip he fun z hz' => by simp [hz] at hz'
    · next z hz =>
      split
      · next hremoved => exact .suspect he hz hremoved
      · next hlive =>
        refine .skip he fun z' hz' => ?_
        obtain rfl := Option.some.inj (hz.symm.trans hz')
        exact hlive

/-- A section of the holder of the list is one of those that `Moment.Proceeded` has. -/
theorem proceeded_of_proceed [HasFiles σ] (hproceed : m.proceed = some m') : m.Proceeded m' := by
  unfold proceed at hproceed
  cases he : m.errand <;> simp only [he, Option.some.injEq, reduceCtorEq] at hproceed <;>
    subst hproceed
  case reading now time =>
    unfold readInventory
    split
    · next hread => exact .unread he hread
    · next hread => exact .read he hread
  case merging left =>
    cases left with
    | nil => exact .addNew he
    | cons key left => exact .keep he
  case acting now left =>
    cases left with
    | nil => exact .actedOn he
    | cons key left =>
      unfold act
      dsimp only
      split
      · next hz => exact .miss he hz
      · next hz => exact .look he hz
  case judged => exact proceeded_judge he
  case lacking => exact .give he
  case evicting => exact proceeded_tryEvict he
  case leaving =>
    split
    · next htask => exact .spare he htask
    · next htask => exact .doom he htask
  case settling left =>
    cases left with
    | nil => exact .settled he
    | cons key left => exact .settle he
  case serving => exact proceeded_serve he
  case admitting => exact .grant he
  case flushing => exact .flushMoved he

/-- What a move makes of a moment, with the guards that it has passed. -/
inductive Moved [HasFiles σ] (c : Collaborators σ) (m : Moment σ) : Move σ → Moment σ → Prop
  | worker {w : Nat} {p : Pool σ} (hstep : m.pool.stepWorker c w = some p) :
      Moved c m (.worker w) (m.withPool p)
  | drudger {d : Nat} {p : Pool σ} (hstep : m.pool.stepDrudger c d = some p) :
      Moved c m (.drudger d) (m.withPool p)
  | start {p : Pool σ} (hstart : m.pool.start = .ok p) : Moved c m .start (m.withPool p)
  | proceed {m' : Moment σ} (hproceed : m.proceed = some m') : Moved c m .proceed m'
  | pass (hfree : m.errand = .none) : Moved c m .pass (m.beginPass m.pool.now)
  | heed {s : Signal} {rest : List Signal} (hfree : m.errand = .none)
      (hsignals : m.pool.signals = s :: rest) :
      Moved c m .heed ((m.withPool { m.pool with signals := rest }).heed s)
  | request {what : ZoneRequest} {name : String} (hfree : m.errand = .none) :
      Moved c m (.request what name) (m.receive what name)
  | flushAll : Moved c m .flushAll (m.withSchedule m.pool.schedule.flushAll.2)
  | reload : Moved c m .reload { m with engine := m.engine.requestReload }
  | tick (now : Nat) : Moved c m (.tick now) (m.withPool { m.pool with now := now })
  | happen (around : σ) : Moved c m (.happen around) (m.withPool { m.pool with around := around })
  | closing {what : Closing} {m' : Moment σ} (hclose : m.Closed what m') :
      Moved c m (.closing what) m'

/-- A move is one of those that `Moment.Moved` has. -/
theorem moved_of_step [HasFiles σ] {move : Move σ} (hstep : m.step c move = some m') :
    m.Moved c move m' := by
  cases move with
  | worker w =>
    obtain ⟨p, hp, rfl⟩ := Option.map_eq_some_iff.mp hstep
    exact .worker hp
  | drudger d =>
    obtain ⟨p, hp, rfl⟩ := Option.map_eq_some_iff.mp hstep
    exact .drudger hp
  | start =>
    obtain ⟨p, hp, rfl⟩ := start_eq_some hstep
    exact .start hp
  | proceed => exact .proceed hstep
  | pass =>
    simp only [step] at hstep
    obtain ⟨hfree, rfl⟩ := seize_eq_some hstep
    exact .pass hfree
  | heed =>
    simp only [step] at hstep
    split at hstep
    · cases hstep
    · next s rest hsignals =>
      obtain ⟨hfree, rfl⟩ := seize_eq_some hstep
      exact .heed hfree hsignals
  | request what name =>
    simp only [step] at hstep
    obtain ⟨hfree, rfl⟩ := seize_eq_some hstep
    exact .request hfree
  | flushAll =>
    cases hstep
    exact .flushAll
  | reload =>
    cases hstep
    exact .reload
  | tick now =>
    cases hstep
    exact .tick now
  | happen around =>
    cases hstep
    exact .happen around
  | closing what => exact .closing (closed_of_close hstep)

end Inversion

/-- An engine that has just been made, wherever it is going to listen. -/
def Initial (m : Moment σ) : Prop :=
  (∃ config processors now around e, Engine.ofConfig config processors now around = .ok e ∧
    m.engine = { e with socket := m.engine.socket }) ∧ m.errand = .none

/-- The pool of an engine that has just been made has just been made too. -/
theorem Initial.pool_eq {m : Moment σ} (h : m.Initial) :
    ∃ around now workers drudgers maxBackoff capacity threshold,
      m.pool = .ofLimits around now workers drudgers maxBackoff capacity threshold := by
  obtain ⟨⟨config, processors, now, around, e, hengine, hm⟩, -⟩ := h
  unfold Engine.ofConfig at hengine
  split at hengine
  · cases hengine
  · have hpool : m.pool = e.pool := by rw [pool, hm]
    rw [hpool, ← Except.ok.inj hengine]
    exact ⟨_, _, _, _, _, _, _, rfl⟩

/-- The moments that an engine can come to before its end begins. -/
inductive Reachable [HasFiles σ] (c : Collaborators σ) : Moment σ → Prop where
  | initial {m : Moment σ} : m.Initial → Reachable c m
  | step {m m' : Moment σ} {move : Move σ} : Reachable c m → move.isClosing = false →
      m.step c move = some m' → Reachable c m'

def follow [HasFiles σ] (c : Collaborators σ) (m : Moment σ) (moves : List (Move σ)) :
    Option (Moment σ) :=
  moves.foldlM (·.step c ·) m

/-- Moves that do not belong to the end lead from moments that can be reached to such moments. -/
theorem Reachable.follow [HasFiles σ] {c : Collaborators σ} {m m' : Moment σ}
    {moves : List (Move σ)} (h : Reachable c m) (hmoves : ∀ move ∈ moves, move.isClosing = false)
    (hfollow : m.follow c moves = some m') : Reachable c m' := by
  induction moves generalizing m with
  | nil =>
    cases hfollow
    exact h
  | cons move moves ih =>
    obtain ⟨n, hstep, hrest⟩ := Option.bind_eq_some_iff.mp hfollow
    have hn := h.step (hmoves move List.mem_cons_self) hstep
    exact ih hn (fun move hmem => hmoves move (List.mem_cons_of_mem _ hmem)) hrest

def oneZoneFiles : FileStore where
  nodes := OrderedMap.ofList [
    (["z"], .file (.text (
      "[\x7b\"name\":\"a\",\"signconf\":\"c\",\"input\":\x7b\"uri\":\"i\"\x7d," ++
        "\"output\":\x7b\"uri\":\"o\"\x7d\x7d]")) 1),
    (["c"], .file (.text "\x7b\x7d") 1),
    (["i"], .file (.text "@ SOA n r 7\n") 1)]
  clock := 2

/-- An engine for these files that has just been made, with one worker and one drudger. -/
def oneZone : Moment FileWorld where
  engine := {
    config := { zonelist := ⟨"z"⟩, workers := some 1, drudgers := 1 }
    pool := .ofLimits { files := oneZoneFiles } 7 1 1 3600 1000 1 }

/-- The engine for one zone has just been made. -/
theorem oneZone_initial : oneZone.Initial :=
  ⟨⟨oneZone.engine.config, 1, 7, { files := oneZoneFiles }, oneZone.engine, rfl, rfl⟩, rfl⟩

def firstPass : List (Move FileWorld) := [.start, .pass] ++ List.replicate 10 .proceed

end Moment

end ZoneSigning
