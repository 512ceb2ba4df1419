import ZoneSigning.Proofs.ParkedSteps
import ZoneSigning.Proofs.TaskLives

/-!
Work that is displaced. A request for another kind of work halts the step that was to come next; this
step keeps the time at which it was due, however often the task is moved afterwards, and comes back
at this time when a later step has changed nothing.
-/
namespace ZoneSigning

open Schedule (Op)

/-- When work of kind `k`, due at `due`, was due just before moves displaced it. The moves that come
first may only move it. -/
def displacedDue? (k : TaskKind) (due : Nat) : List (TaskKind × Nat) → Option Nat
  | [] => none
  | (what, whatDue) :: moves => if what = k then displacedDue? k whatDue moves else some due

namespace Task

variable {t : Task} {z : ZoneKey} {k what : TaskKind} {due now : Nat} {op : Op}

/-- The task has halted a step of kind `k` that was due at `due`. -/
def Parks (t : Task) (k : TaskKind) (due : Nat) : Prop := t.halted = some k ∧ t.haltedDue = due

private theorem parks_alter (h : t.Parks k due) (op : Op) : (op.alter z t).Parks k due := by
  rcases hop : op.moves? z with _ | ⟨what, whatDue⟩
  · obtain ⟨flush, he⟩ := Op.alter_of_still hop t
    rw [he]
    exact h
  · have hsome : ¬(what ≠ t.what ∧ t.halted = none) := by simp [h.1]
    rw [Op.alter_of_move hop, retarget, if_neg hsome]
    exact h

private theorem parks_foldl (h : t.Parks k due) (ops : List Op) :
    (ops.foldl (Op.alter z) t).Parks k due := by
  induction ops generalizing t with
  | nil => exact h
  | cons op ops ih => exact ih (parks_alter h op)

/-- The first move to another kind halts the task's work at the time at which it is due then. -/
theorem parks_displaced {ops : List Op} (hh : t.halted = none)
    (hdue : displacedDue? t.what t.due (ops.filterMap (Op.moves? z)) = some due) :
    (ops.foldl (Op.alter z) t).Parks t.what due := by
  induction ops generalizing t with
  | nil => cases hdue
  | cons op ops ih =>
    rcases hop : op.moves? z with _ | ⟨what, whatDue⟩
    · obtain ⟨flush, he⟩ := Op.alter_of_still hop t
      rw [List.filterMap_cons_none hop] at hdue
      rw [List.foldl_cons, he]
      exact ih (t := { t with flush := flush }) hh hdue
    · rw [List.filterMap_cons_some hop, displacedDue?] at hdue
      rw [List.foldl_cons, Op.alter_of_move hop, retarget]
      split at hdue
      · next hwhat =>
        rw [if_neg fun h => h.1 hwhat]
        have hmoved := ih (t := { t with flush := false, what := what, due := whatDue }) hh
        rw [hwhat] at hmoved ⊢
        exact hmoved hdue
      · next hwhat =>
        obtain rfl := Option.some.inj hdue
        rw [if_pos ⟨hwhat, hh⟩]
        exact parks_foldl ⟨rfl, rfl⟩ ops

private theorem resume_of_parks (h : t.Parks k due) (hi : t.interrupt = none) (next : TaskKind)
    (nextDue : Nat) : t.resume next nextDue now =
      { t with backoff := 0, interrupt := none, halted := none, what := k, due := due } := by
  obtain ⟨hh, rfl⟩ := h
  rw [resume_of_none hi hh, hi]

/-- A request that comes in while a step is under way halts the step that is to follow. -/
theorem succeed_of_some {asked : Nat} (hi : t.interrupt = some k ∧ t.interruptDue = asked)
    (hne : k ≠ what) : t.succeed what due now =
      { t with
        backoff := 0, interrupt := none, what := k, due := max asked now
        halted := some what, haltedDue := due } := by
  obtain ⟨hi, rfl⟩ := hi
  simp [succeed, takeInterrupt?, hi, hne]

end Task

namespace Schedule

variable {s : Schedule} {z : ZoneKey} {t : Task} {k : TaskKind} {due : Nat}

/-- A halted step that nothing has been asked for comes back at its time when the task has changed
nothing. -/
theorem Round.resumes (r : s.Round z) (h : s.Consistent) (ht : s.get? z = some t)
    (hparks : (r.ahead.foldl (Op.alter z) t).Parks k due) (hquiet : r.asked.interrupt = none)
    (next : TaskKind) (nextDue now : Nat) :
    r.Returns (·.resume next nextDue now)
      { r.asked with backoff := 0, interrupt := none, halted := none, what := k, due := due } := by
  have hasked : r.asked.Parks k due := by
    rw [asked, r.task_eq h ht]
    exact hparks
  have hback := r.returns h (f := (·.resume next nextDue now)) fun t ht =>
    (t.sameOrigin_resume next nextDue now).1.trans ht
  rwa [Task.resume_of_parks hasked hquiet] at hback

/-- Displaced work comes back at its original time, whatever step the task would go on to otherwise.
The task waits, and may be moved any number of times before a worker takes it. If it has halted nothing
at first, and nothing is asked for while it is taken, then a step that changes nothing brings back the
work that the first move to another kind displaced, at the time at which it was due then. The same is
so of a step that follows on a success while another kind of work has been asked for: this kind comes
first, and the next step that changes nothing brings back the one that was to follow, at its time,
however often the task is moved until then. -/
theorem displaced_work_comes_back {before : List Op} (r : (run before).Round z) (next : TaskKind)
    (nextDue now : Nat) :
    (∀ {t due}, (run before).get? z = some t → t.halted = none →
      displacedDue? t.what t.due (r.ahead.filterMap (Op.moves? z)) = some due →
      r.asked.interrupt = none →
      r.Returns (·.resume next nextDue now)
        { r.asked with
          backoff := 0, interrupt := none, halted := none, what := t.what, due := due }) ∧
    ∀ {k asked}, Op.lastMove? z r.during = some (k, asked) → k ≠ next →
      r.Returns (·.succeed next nextDue now)
        { r.asked with
          backoff := 0, interrupt := none, what := k, due := max asked now
          halted := some next, haltedDue := nextDue } ∧
      ∀ r' : (r.back (·.succeed next nextDue now)).Round z, r'.asked.interrupt = none →
        ∀ (otherwise : TaskKind) (otherwiseDue later : Nat),
          r'.Returns (·.resume otherwise otherwiseDue later)
            { r'.asked with
              backoff := 0, interrupt := none, halted := none, what := next, due := nextDue } := by
  have hbefore := consistent_run before
  constructor
  · intro t due ht hh hdue hquiet
    exact r.resumes hbefore ht (Task.parks_displaced hh hdue) hquiet next nextDue now
  · intro k asked hmove hne
    have hback := r.returns hbefore (f := (·.succeed next nextDue now)) fun t ht =>
      (t.sameOrigin_succeed next nextDue now).1.trans ht
    rw [Task.succeed_of_some (r.interrupt_asked hmove) hne] at hback
    refine ⟨hback, fun r' hquiet otherwise otherwiseDue later => ?_⟩
    exact r'.resumes (r.consistent_back hbefore _) hback.scheduled (Task.parks_foldl ⟨rfl, rfl⟩ _)
      hquiet otherwise otherwiseDue later

def toSign : Task := { zone := ⟨.internet, "a"⟩, what := .sign, due := 3600 }

def displacedTwice : (run [.schedule toSign]).Round toSign.zone where
  ahead := [.reschedule toSign.zone .sign 1800, .reschedule toSign.zone .configure 20, .flushAll,
    .reschedule toSign.zone .read 30]
  now := 30
  task := { toSign with what := .read, due := 30, halted := some .sign, haltedDue := 1800 }
  during := [.flushZone toSign.zone]
  waits := by decide
  taken := by decide
  own := rfl
  leaves := by simp [Op.Leaves]

def displacedOnce : (run [.schedule toSign]).Round toSign.zone where
  ahead := []
  now := 3600
  task := toSign
  during := [.reschedule toSign.zone .read 10, .reschedule toSign.zone .configure 20]
  waits := by decide
  taken := by decide
  own := rfl
  leaves := by simp [Op.Leaves]

/-- The zone has been signed and is to be configured, but is moved once more, to be read. -/
def movedAgain : (displacedOnce.back (·.succeed .sign 7200 3610)).Round toSign.zone where
  ahead := [.reschedule toSign.zone .read 3605]
  now := 3620
  task :=
    { toSign with
      what := .read, due := 3605, interruptDue := 20, halted := some .sign, haltedDue := 7200 }
  during := []
  waits := by decide
  taken := by decide
  own := rfl
  leaves := nofun

/-- The signing of a zone comes back after the zone has been configured and read. -/
theorem displaced_work_comes_back_signing :
    displacedTwice.Returns (·.resume .configure 0 40)
      { toSign with due := 1800, haltedDue := 1800, flush := true } ∧
    movedAgain.Returns (·.resume .configure 0 3630)
      { toSign with due := 7200, interruptDue := 20, haltedDue := 7200 } := by
  have hdue : displacedDue? .sign 3600 (displacedTwice.ahead.filterMap (Op.moves? toSign.zone)) =
      some 1800 := by decide
  have hmove : Op.lastMove? toSign.zone displacedOnce.during = some (.configure, 20) := by decide
  have hfirst := (displaced_work_comes_back displacedTwice .configure 0 40).1 (t := toSign)
    (by decide) rfl hdue (by decide)
  have hsecond := (displaced_work_comes_back displacedOnce .sign 7200 3610).2 hmove (by decide)
  exact ⟨hfirst, hsecond.2 movedAgain (by decide) .configure 0 3630⟩

end Schedule

end ZoneSigning
