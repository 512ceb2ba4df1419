import ZoneSigning.Proofs.ScheduleOperations

/-!
Schedules as callers can make them: from the empty one, by any operations in any order. All of them
are consistent, and so no zone ever has two tasks.
-/
namespace ZoneSigning.Schedule

/-- The operations on a schedule that change it, or that may. -/
inductive Op where
  | schedule (task : Task)
  | unschedule (key : TaskKey)
  | unscheduleZone (zone : ZoneKey)
  | reschedule (zone : ZoneKey) (what : TaskKind) (due : Nat)
  | flushZone (zone : ZoneKey)
  | flushAll
  | peek
  | next (now : Nat)
  | release (zone : ZoneKey)
  /-- The transition may be anything, also one that makes another zone's task of the task. -/
  | resubmit (task : Task) (transition : Task → Task)
  | clear

namespace Op

def apply (s : Schedule) : Op → Schedule
  | schedule t => (s.schedule t).2
  | unschedule k => (s.unschedule k).2
  | unscheduleZone z => (s.unscheduleZone z).2
  | reschedule z what due => (s.reschedule z what due).2
  | flushZone z => (s.flushZone z).2
  | flushAll => s.flushAll.2
  | peek => s.peek.2
  | next now => (s.next now).2
  | release z => (s.release z).2
  | resubmit t transition => (s.resubmit t transition).2
  | clear => s.clear.2

end Op

def run (ops : List Op) : Schedule := ops.foldl Op.apply {}

/-- The empty schedule is consistent. -/
theorem consistent_empty : ({} : Schedule).Consistent where
  keyed := by
    intro k t ht
    cases ht
  indexed := by
    intro z k
    constructor
    · intro hk
      cases hk
    · rintro ⟨t, ht, _⟩
      cases ht
  apart := by
    intro z hz
    cases hz
  counted := rfl

/-- Every operation keeps a schedule consistent. -/
theorem Consistent.apply {s : Schedule} (h : s.Consistent) (op : Op) : (op.apply s).Consistent := by
  cases op with
  | schedule t => exact h.schedule t
  | unschedule k => exact h.unschedule k
  | unscheduleZone z => exact h.unscheduleZone z
  | reschedule z what due => exact h.ask (Task.zone_retarget what due) _ z
  | flushZone z => exact h.ask Task.zone_flushed _ z
  | flushAll => exact h.flushAll
  | peek =>
    change s.peek.2.Consistent
    rw [h.peek_snd]
    exact h
  | next now => exact h.next now
  | release z => exact h.release z
  | resubmit t transition => exact h.resubmit t transition
  | clear => exact consistent_empty

/-- A consistent schedule stays so through any operations. -/
theorem Consistent.foldl {s : Schedule} (h : s.Consistent) (ops : List Op) :
    (ops.foldl Op.apply s).Consistent := by
  induction ops generalizing s with
  | nil => exact h
  | cons op ops ih => exact ih (h.apply op)

/-- Every schedule that can be reached is consistent. -/
theorem consistent_run (ops : List Op) : (run ops).Consistent := consistent_empty.foldl ops

/-- Whatever has been done with a schedule, its four parts agree: tasks are stored under their own
keys, the index finds exactly the zones' waiting tasks, no zone has a waiting and a taken task, and
the count of flushed tasks is right. So each zone owns at most one task, and looking for the next
task finds a flushed one whenever the count says that there is one, and changes nothing. -/
theorem parts_agree (ops : List Op) :
    (run ops).Consistent ∧
      ((run ops).waiting.map Task.zone).Nodup ∧
      (∀ t ∈ (run ops).waiting, (run ops).isInFlight t.zone = false) ∧
      (0 < (run ops).flushCount → ∃ t, (run ops).waiting.find? (·.flush) = some t) ∧
      (run ops).peek.2 = run ops := by
  have h := consistent_run ops
  exact ⟨h, h.zones_nodup, fun t ht => h.not_isInFlight ht, h.find?_flush, h.peek_snd⟩

end ZoneSigning.Schedule
