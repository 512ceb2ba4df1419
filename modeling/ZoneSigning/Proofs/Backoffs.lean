import Mathlib.Algebra.Group.Nat.Defs
import ZoneSigning.Proofs.TaskLives

/-!
Backoffs. Each failure in a row doubles the backoff of a task, up to a limit; a success ends the row.
Nothing that is done with the schedule in between makes a difference.
-/
namespace ZoneSigning

def backoffAfter (maxBackoff : Nat) : Nat → Nat
  | 0 => 0
  | n + 1 => min (firstBackoff * 2 ^ n) maxBackoff

/-- A backoff never exceeds the longest one. -/
theorem backoffAfter_le (maxBackoff n : Nat) : backoffAfter maxBackoff n ≤ maxBackoff := by
  cases n with
  | zero => exact Nat.zero_le maxBackoff
  | succ n => exact Nat.min_le_right _ _

/-- Once a step has failed, the backoff is at least the first one. -/
theorem firstBackoff_le_backoffAfter {maxBackoff : Nat} (hmax : firstBackoff ≤ maxBackoff)
    (n : Nat) : firstBackoff ≤ backoffAfter maxBackoff (n + 1) :=
  Nat.le_min.mpr ⟨Nat.le_mul_of_pos_right _ (Nat.two_pow_pos n), hmax⟩

/-- After one failure the backoff is the first one. -/
theorem backoffAfter_one {maxBackoff : Nat} (hmax : firstBackoff ≤ maxBackoff) :
    backoffAfter maxBackoff 1 = firstBackoff := Nat.min_eq_left hmax

/-- What happens to a task that someone has in hand. -/
inductive Turn where
  | fail (now : Nat)
  | succeed (next : TaskKind) (due now : Nat)
  | resume (next : TaskKind) (due now : Nat)
  | request (what : TaskKind) (due : Nat)

namespace Turn

def apply (maxBackoff : Nat) (t : Task) : Turn → Task
  | fail now => t.fail now maxBackoff
  | succeed next due now => t.succeed next due now
  | resume next due now => t.resume next due now
  | request what due => { t with interrupt := some what, interruptDue := due }

/-- How many failures there have been in a row, when there had been `n`. -/
def count (n : Nat) : Turn → Nat
  | fail _ => n + 1
  | succeed .. | resume .. => 0
  | request .. => n

end Turn

/-- The task `u` is what a failure at `now` makes of the task `t`, with the backoff `b`. -/
structure Task.Retries (t u : Task) (b now : Nat) : Prop where
  backoff : u.backoff = b
  /-- The step is tried again after the backoff, and what is halted stays so. -/
  undisturbed : t.interrupt = none → u.what = t.what ∧ u.due = min (now + b) maxTime ∧
    u.halted = t.halted ∧ u.haltedDue = t.haltedDue
  /-- Another kind of work comes first, and the retry is halted. -/
  displaced : ∀ {k}, t.interrupt = some k → k ≠ t.what → u.what = k ∧
    u.due = max t.interruptDue now ∧ u.halted = some t.what ∧ u.haltedDue = min (now + b) maxTime
  /-- The same kind of work takes the place of the retry. -/
  replaced : t.interrupt = some t.what → u.what = t.what ∧ u.due = max t.interruptDue now ∧
    u.halted = none

namespace Task

variable {t : Task} {maxBackoff n : Nat}

private theorem retries_fail (t : Task) (now maxBackoff : Nat) :
    t.Retries (t.fail now maxBackoff) (nextBackoff t.backoff maxBackoff) now := by
  rcases hi : t.interrupt with _ | k
  · simp only [fail, takeInterrupt?, hi, Option.map_none, Option.getD_none]
    exact ⟨rfl, fun _ => ⟨rfl, rfl, rfl, rfl⟩, by simp [hi], by simp [hi]⟩
  · simp only [fail, takeInterrupt?, hi, Option.map_some, Option.getD_some]
    by_cases hk : k = t.what
    · rw [if_pos hk]
      refine ⟨rfl, by simp [hi], ?_, fun _ => ⟨hk, rfl, rfl⟩⟩
      rintro _ hj hne
      exact absurd (Option.some.inj (hj.symm.trans hi) ▸ hk) hne
    · rw [if_neg hk]
      refine ⟨rfl, by simp [hi], ?_, fun hj => absurd (Option.some.inj (hi.symm.trans hj)) hk⟩
      rintro _ hj -
      exact ⟨Option.some.inj (hi.symm.trans hj), rfl, rfl, rfl⟩

private theorem nextBackoff_of_pos {b : Nat} (hb : b ≠ 0) (hmax : maxBackoff ≤ maxTime) :
    nextBackoff b maxBackoff = min (2 * b) maxBackoff := by
  rw [nextBackoff, if_neg hb]
  omega

/-- The doubling is cut off at the latest time there is, but the limit is no later. -/
theorem nextBackoff_backoffAfter (hmax : maxBackoff ≤ maxTime) (n : Nat) :
    nextBackoff (backoffAfter maxBackoff n) maxBackoff = backoffAfter maxBackoff (n + 1) := by
  rcases Nat.eq_zero_or_pos maxBackoff with rfl | hpos
  · simp only [nextBackoff, backoffAfter, Nat.min_zero]
  cases n with
  | zero => rfl
  | succ n =>
    have hdouble : firstBackoff * 2 ^ (n + 1) = 2 * (firstBackoff * 2 ^ n) := by
      rw [Nat.pow_succ', Nat.mul_left_comm]
    have hfirst : 0 < firstBackoff * 2 ^ n := Nat.mul_pos (by decide) (Nat.two_pow_pos n)
    have hne : backoffAfter maxBackoff (n + 1) ≠ 0 :=
      Nat.pos_iff_ne_zero.mp (Nat.lt_min.mpr ⟨hfirst, hpos⟩)
    rw [nextBackoff_of_pos hne hmax]
    simp only [backoffAfter, hdouble]
    omega

/-- One more failure takes a task from one backoff to the next, and has it tried again after that.
-/
theorem fail_backoffAfter (hmax : maxBackoff ≤ maxTime) (ht : t.backoff = backoffAfter maxBackoff n)
    (now : Nat) : t.Retries (t.fail now maxBackoff) (backoffAfter maxBackoff (n + 1)) now := by
  rw [← nextBackoff_backoffAfter hmax, ← ht]
  exact t.retries_fail now maxBackoff

private theorem backoff_takeInterrupt {u v : Task} {b : Nat} (hu : u.backoff = b) (hv : v.backoff = b)
    (next : TaskKind) (due now : Nat) : ((v.takeInterrupt? next due now).getD u).backoff = b := by
  cases hi : v.interrupt with
  | none => rwa [getD_takeInterrupt_of_none hi]
  | some kind => rwa [getD_takeInterrupt_of_some hi]

private theorem backoff_turn (hmax : maxBackoff ≤ maxTime) (ht : t.backoff = backoffAfter maxBackoff n)
    (turn : Turn) : (turn.apply maxBackoff t).backoff = backoffAfter maxBackoff (turn.count n) := by
  cases turn with
  | fail now => exact (fail_backoffAfter hmax ht now).backoff
  | succeed next due now =>
    unfold Turn.apply succeed
    exact backoff_takeInterrupt (b := 0) rfl rfl next due now
  | resume next due now =>
    refine backoff_takeInterrupt ?_ rfl next due now
    dsimp only
    split <;> rfl
  | request what due => exact ht

private theorem backoff_turns (hmax : maxBackoff ≤ maxTime) (ht : t.backoff = backoffAfter maxBackoff n)
    (turns : List Turn) : (turns.foldl (Turn.apply maxBackoff) t).backoff =
      backoffAfter maxBackoff (turns.foldl Turn.count n) := by
  induction turns generalizing t n with
  | nil => exact ht
  | cons turn turns ih => exact ih (backoff_turn hmax ht turn)

private theorem backoff_retarget (t : Task) (what : TaskKind) (due : Nat) :
    (t.retarget what due).backoff = t.backoff := by
  unfold retarget
  split <;> rfl

private theorem backoff_alter (z : ZoneKey) (t : Task) (op : Schedule.Op) :
    (op.alter z t).backoff = t.backoff := by
  rcases hop : op.moves? z with _ | ⟨what, due⟩
  · obtain ⟨flush, he⟩ := Schedule.Op.alter_of_still hop t
    rw [he]
  · rw [Schedule.Op.alter_of_move hop]
    exact backoff_retarget _ what due

private theorem zone_turn (turn : Turn) (t : Task) :
    (turn.apply maxBackoff t).zone = t.zone := by
  cases turn with
  | fail now => exact (t.sameOrigin_fail now maxBackoff).1
  | succeed next due now => exact (t.sameOrigin_succeed next due now).1
  | resume next due now => exact (t.sameOrigin_resume next due now).1
  | request what due => rfl

private theorem zone_turns (turns : List Turn) (t : Task) :
    (turns.foldl (Turn.apply maxBackoff) t).zone = t.zone := by
  induction turns generalizing t with
  | nil => rfl
  | cons turn turns ih => exact (ih _).trans (zone_turn turn t)

end Task

namespace Schedule

/-- The life of a task of a zone, with one limit to its backoff: the schedule, the task if someone has
it in hand, and how many failures there have been in a row. A task in hand goes through any turns, and
anything may be done with the schedule meanwhile; a task that waits is moved, flushed, taken or
removed, or goes on waiting. -/
inductive Life (maxBackoff : Nat) (z : ZoneKey) : Schedule → Option Task → Nat → Prop
  | made (before : List Op) (record : Nat) (what : TaskKind) (due : Nat) :
      Life maxBackoff z (run before) (some { zone := z, record, what, due }) 0
  | turn {s t n} (turn : Turn) : Life maxBackoff z s (some t) n →
      Life maxBackoff z s (some (turn.apply maxBackoff t)) (turn.count n)
  | meanwhile {s t n} (op : Op) : Life maxBackoff z s (some t) n →
      Life maxBackoff z (op.apply s) (some t) n
  | scheduled {s t n} : Life maxBackoff z s (some t) n → (s.schedule t).1 = .ok () →
      Life maxBackoff z (s.schedule t).2 none n
  | resubmitted {s t n} (turns : List Turn) : Life maxBackoff z s (some t) n →
      s.isScheduled z = false →
      Life maxBackoff z (s.resubmit t (turns.foldl (Turn.apply maxBackoff))).2 none
        (turns.foldl Turn.count n)
  | waits {s n} (op : Op) : Life maxBackoff z s none n → (op.apply s).isScheduled z →
      Life maxBackoff z (op.apply s) none n
  | taken {s t n} (now : Nat) : Life maxBackoff z s none n → (s.next now).1 = some t → t.zone = z →
      Life maxBackoff z (s.next now).2 (some t) n
  | removed {s t n} : Life maxBackoff z s none n → (s.unscheduleZone z).1 = .ok t →
      Life maxBackoff z (s.unscheduleZone z).2 (some t) n

namespace Life

variable {maxBackoff n : Nat} {z : ZoneKey} {s : Schedule} {held : Option Task} {t : Task}

/-- The schedules in the life of a task are consistent. -/
theorem consistent (h : Life maxBackoff z s held n) : s.Consistent := by
  induction h with
  | made before record what due => exact consistent_run before
  | turn turn _ ih => exact ih
  | meanwhile op _ ih => exact ih.apply op
  | @scheduled s t _ _ _ ih => exact ih.schedule t
  | @resubmitted s t _ turns _ _ ih => exact ih.resubmit t _
  | waits op _ _ ih => exact ih.apply op
  | taken now _ _ _ ih => exact ih.next now
  | removed _ _ ih => exact ih.unscheduleZone z

private theorem backoff_returned (s : Schedule) (t : Task) :
    ((s.inFlight.get? t.zone).elim t (Pending.fold · t)).backoff = t.backoff := by
  rcases s.inFlight.get? t.zone with _ | ⟨_ | k, due, flush⟩ <;> rfl

private theorem current (hmax : maxBackoff ≤ maxTime) (h : Life maxBackoff z s held n) :
    ∃ t, held.or (s.get? z) = some t ∧ t.zone = z ∧ t.backoff = backoffAfter maxBackoff n := by
  induction h with
  | made before record what due => exact ⟨_, rfl, rfl, rfl⟩
  | turn turn _ ih =>
    obtain ⟨_, ⟨⟩, hzone, ht⟩ := ih
    exact ⟨_, rfl, (Task.zone_turn turn _).trans hzone, Task.backoff_turn hmax ht turn⟩
  | meanwhile op _ ih => exact ih
  | @scheduled s t n hlife hok ih =>
    obtain ⟨_, ⟨⟩, rfl, ht⟩ := ih
    have hwaits := hlife.consistent.standing_schedule hok
    exact ⟨_, (hlife.consistent.schedule _).get?_of_standing hwaits, rfl, ht⟩
  | @resubmitted s t n turns hlife hz ih =>
    obtain ⟨_, ⟨⟩, rfl, ht⟩ := ih
    have hkeeps : t.zone.Keeps (turns.foldl (Turn.apply maxBackoff)) :=
      fun u hu => (Task.zone_turns turns u).trans hu
    have hwaits := (hlife.consistent.resubmit_of_not_isScheduled hz hkeeps).2
    refine ⟨_, (hlife.consistent.resubmit t _).get?_of_standing hwaits,
      Consistent.zone_returned hkeeps, ?_⟩
    exact Task.backoff_turns hmax ((backoff_returned s t).trans ht) turns
  | waits op hlife hz ih =>
    obtain ⟨t, hget, -, ht⟩ := ih
    have hafter := hlife.consistent.apply op
    have hgot := hafter.get?_of_standing
      (hlife.consistent.standing_apply (standing_of_get? hget) hz)
    exact ⟨_, hgot, (hafter.get?_eq_some_iff.mp hgot).2, (Task.backoff_alter z t op).trans ht⟩
  | taken now hlife htaken hz ih =>
    obtain ⟨t, hget, -, ht⟩ := ih
    obtain ⟨u, hu, rfl, -⟩ := hlife.consistent.sets_next (Prod.ext htaken rfl)
    rw [hz, standing_of_get? hget] at hu
    cases hu
    exact ⟨_, rfl, hz, ht⟩
  | removed hlife hok ih =>
    obtain ⟨t, hget, hz, ht⟩ := ih
    rw [hlife.consistent.fst_unscheduleZone, standing_of_get? hget] at hok
    cases hok
    exact ⟨_, rfl, hz, ht⟩

end Life

/-- The backoff of a task doubles with each failure in a row, from the first backoff up to the limit,
and is zero when the last step has not failed. That is so through the whole life of the task, whatever
is asked of it and wherever it is: moving, flushing, taking and removing it and handing it back make
no difference. A task in hand that fails next, there or as it is handed back, keeps its kind of work
and what it has halted, and is due after its backoff; another kind of work that has been asked for
comes first and halts this retry; and the same kind takes its place. -/
theorem failures_double_backoff {maxBackoff n : Nat} (hmax : maxBackoff ≤ maxTime) {z : ZoneKey}
    {s : Schedule} {held : Option Task} (h : Life maxBackoff z s held n) :
    ∃ t, held.or (s.get? z) = some t ∧ t.backoff = backoffAfter maxBackoff n ∧
      ∀ now, t.Retries (t.fail now maxBackoff) (backoffAfter maxBackoff (n + 1)) now ∧
        (held = some t → s.isScheduled z = false →
          (s.resubmit t (·.fail now maxBackoff)).1 = .ok () ∧
          ∃ u, (s.resubmit t (·.fail now maxBackoff)).2.get? z = some u ∧
            (s.returned t id).Retries u (backoffAfter maxBackoff (n + 1)) now) := by
  obtain ⟨t, hcurrent, rfl, ht⟩ := h.current hmax
  refine ⟨t, hcurrent, ht, fun now => ⟨Task.fail_backoffAfter hmax ht now, fun _ hz => ?_⟩⟩
  have hkeeps : t.zone.Keeps (·.fail now maxBackoff) :=
    fun u hu => (u.sameOrigin_fail now maxBackoff).1.trans hu
  obtain ⟨hok, hback⟩ := h.consistent.resubmit_of_not_isScheduled hz hkeeps
  refine ⟨hok, _, (h.consistent.resubmit t _).get?_of_standing hback, ?_⟩
  exact Task.fail_backoffAfter hmax ((Life.backoff_returned s t).trans ht) now

def newTask : Task := { zone := ⟨.internet, "a"⟩, what := .sign, due := 0 }

def failedOnce : Schedule :=
  run [.schedule newTask, .next 0, .reschedule newTask.zone .read 50,
    .resubmit newTask (·.fail 10 100), .flushAll, .next 50]

def retried : Task :=
  { newTask with
    what := .read, due := 50, interruptDue := 50, halted := some .sign, haltedDue := 70, backoff := 60 }

private theorem life_failedOnce : Life 100 newTask.zone failedOnce (some retried) 1 := by
  have hmade : Life 100 newTask.zone {} (some newTask) 0 := .made [] 0 .sign 0
  have hscheduled := hmade.scheduled rfl
  have htaken := hscheduled.taken (t := newTask) 0 (by decide) rfl
  have hasked := htaken.meanwhile (.reschedule newTask.zone .read 50)
  have hfailed := (hasked.resubmitted [.fail 10] (by decide)).waits .flushAll (by decide)
  exact hfailed.taken (t := retried) 50 (by decide) rfl

/-- A second failure in a row, where the longest backoff cuts the doubled one off. -/
theorem failures_double_backoff_again :
    100 ≤ maxTime ∧ Life 100 newTask.zone failedOnce (some retried) 1 ∧
      failedOnce.isScheduled newTask.zone = false ∧
      (failedOnce.resubmit retried (·.fail 60 100)).1 = .ok () ∧
      ∃ u, (failedOnce.resubmit retried (·.fail 60 100)).2.get? newTask.zone = some u ∧
        u.backoff = 100 ∧ u.what = .read ∧ u.due = 160 := by
  have hmax : 100 ≤ maxTime := by decide
  have hidle : failedOnce.isScheduled newTask.zone = false := by decide
  obtain ⟨t, ht, -, hfails⟩ := failures_double_backoff hmax life_failedOnce
  obtain rfl := Option.some.inj ht
  obtain ⟨hok, u, hu, hretries⟩ := (hfails 60).2 rfl hidle
  obtain ⟨hwhat, hdue, -⟩ := hretries.undisturbed (by decide)
  exact ⟨hmax, life_failedOnce, hidle, hok, u, hu, hretries.backoff, hwhat, hdue⟩

end Schedule

end ZoneSigning
