import ZoneSigning.Zone.Key

/-!
Tasks. A zone moves through `configure`, `read`, `sign`, `sign` and so on. A task can be interrupted
by a request for another kind of work; the step that the request displaces is halted, and a
configure step that finds nothing new resumes it. A failed step is tried again after a backoff that
doubles. Times are seconds since the epoch and stop at `maxTime`.
-/
namespace ZoneSigning

def maxTime : Nat := Text.maxLong

def addTime (a b : Nat) : Nat := min (a + b) maxTime

/-- The backoff after a first failure, in seconds, and the first sleep of an idle worker. -/
def firstBackoff : Nat := 60

/-- Kinds of work, in the order in which a zone goes through them. -/
inductive TaskKind where
  | configure
  | read
  | sign
  | write
deriving DecidableEq, Repr, Inhabited

namespace TaskKind

def text : TaskKind → String
  | configure => "configure"
  | read => "read"
  | sign => "sign"
  | write => "write"

def word : TaskKind → String
  | configure => "conf"
  | read => "read"
  | sign => "sign"
  | write => "write"

def ofWord? : String → Option TaskKind
  | "conf" => some configure
  | "read" => some read
  | "sign" => some sign
  | "write" => some write
  | _ => none

/-- Read a kind in any case and with blanks around it. -/
def parse? (s : String) : Option TaskKind :=
  match Text.lower (Text.trim s) with
  | "conf" | "configure" => some configure
  | "read" => some read
  | "sign" => some sign
  | "write" => some write
  | _ => none

def refusal (s : String) : String := s!"unknown task kind `{Text.lower (Text.trim s)}`"

def rank : TaskKind → Nat
  | configure => 0
  | read => 1
  | sign => 2
  | write => 3

/-- Kinds of one rank are one kind. -/
theorem rank_injective {a b : TaskKind} (h : a.rank = b.rank) : a = b := by
  cases a <;> cases b <;> simp_all [rank]

end TaskKind

/-- The identity of a task in the schedule: due time, then kind, then zone. -/
structure TaskKey where
  due : Nat
  what : TaskKind
  zone : String
  dnsClass : DnsClass
deriving DecidableEq, Repr, Inhabited

namespace TaskKey

private def whatRank (k : TaskKey) : Nat := k.what.rank
private def classRank (k : TaskKey) : Nat := k.dnsClass.code

private def order : TaskKey → TaskKey → Ordering :=
  compareLex (compareOn TaskKey.due) (compareLex (compareOn whatRank)
    (compareLex (compareOn TaskKey.zone) (compareOn classRank)))

instance : Ord TaskKey := ⟨order⟩

instance : Std.TransOrd TaskKey :=
  inferInstanceAs (Std.TransCmp (compareLex (compareOn TaskKey.due) (compareLex (compareOn whatRank)
    (compareLex (compareOn TaskKey.zone) (compareOn classRank)))))

instance : Std.LawfulEqOrd TaskKey where
  eq_of_compare {a b} h := by
    obtain ⟨hd, h⟩ := Ordering.then_eq_eq.mp h
    obtain ⟨hw, h⟩ := Ordering.then_eq_eq.mp h
    obtain ⟨hz, hc⟩ := Ordering.then_eq_eq.mp h
    obtain ⟨da, wa, za, ⟨ca⟩⟩ := a
    obtain ⟨db, wb, zb, ⟨cb⟩⟩ := b
    have hd : da = db := Std.LawfulEqOrd.eq_of_compare (α := Nat) hd
    have hw : wa = wb := TaskKind.rank_injective (Std.LawfulEqOrd.eq_of_compare (α := Nat) hw)
    have hz : za = zb := Std.LawfulEqOrd.eq_of_compare (α := String) hz
    have hc : ca = cb := Std.LawfulEqOrd.eq_of_compare (α := Nat) hc
    rw [hd, hw, hz, hc]

end TaskKey

/-- What is due next for a zone. -/
structure Task where
  zone : ZoneKey
  /-- The record of the zone that the task was made for. -/
  record : Nat := 0
  what : TaskKind
  due : Nat
  /-- A kind of work asked for while a step was under way. -/
  interrupt : Option TaskKind := none
  /-- When that work was asked to be due. -/
  interruptDue : Nat := 0
  /-- The kind of work that a request has displaced. -/
  halted : Option TaskKind := none
  /-- When that work was due. -/
  haltedDue : Nat := 0
  /-- The backoff of the last failure, zero after a success. -/
  backoff : Nat := 0
  /-- Whether the task goes before all that are ordered by time. -/
  flush : Bool := false
deriving DecidableEq, Repr, Inhabited

namespace Task

def key (t : Task) : TaskKey := ⟨t.due, t.what, t.zone.name, t.zone.dnsClass⟩

def text (t : Task) : String :=
  s!"[{t.what.text}] zone {t.zone.name} at {t.due}" ++ if t.flush then " (flush)" else ""

/-- Let a pending request come before the step `next` that is due at `due`. Nothing if no request
is pending. A request for that very step only moves it. -/
def takeInterrupt? (t : Task) (next : TaskKind) (due now : Nat) : Option Task :=
  t.interrupt.map fun kind =>
    let t := { t with interrupt := none, what := kind, due := max t.interruptDue now }
    if kind = next then { t with halted := none }
    else { t with halted := some next, haltedDue := due }

/-- A step has succeeded: go on to `next` at `due`, and forget a halted step, unless a request is
pending. -/
def succeed (t : Task) (next : TaskKind) (due now : Nat) : Task :=
  let t := { t with backoff := 0 }
  (t.takeInterrupt? next due now).getD { t with halted := none, what := next, due := due }

/-- A step has changed nothing: go back to a halted step, or else on to `next` at `due`, unless a
request is pending. -/
def resume (t : Task) (next : TaskKind) (due now : Nat) : Task :=
  let t := { t with backoff := 0 }
  (t.takeInterrupt? next due now).getD <|
    match t.halted with
    | some kind => { t with halted := none, what := kind, due := t.haltedDue }
    | none => { t with what := next, due := due }

def nextBackoff (backoff maxBackoff : Nat) : Nat :=
  min (if backoff = 0 then firstBackoff else min (2 * backoff) maxTime) maxBackoff

def fail (t : Task) (now maxBackoff : Nat) : Task :=
  let t := { t with backoff := nextBackoff t.backoff maxBackoff }
  let retry := addTime now t.backoff
  (t.takeInterrupt? t.what retry now).getD { t with due := retry }

/-- Move a task to another kind and due time. A kind that is displaced is halted, unless one
already is. -/
def retarget (t : Task) (what : TaskKind) (due : Nat) : Task :=
  if what ≠ t.what ∧ t.halted = none then
    { t with halted := some t.what, haltedDue := t.due, what := what, due := due }
  else { t with what := what, due := due }

end Task

end ZoneSigning
