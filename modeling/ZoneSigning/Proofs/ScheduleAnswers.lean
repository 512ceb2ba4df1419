import ZoneSigning.Proofs.ScheduleRuns
import ZoneSigning.Proofs.Standings

/-!
What the operations on a schedule answer. What an operation on the task of one zone answers, and
what it makes of what the schedule has for this zone, depends only on what the schedule has for it.
-/
namespace ZoneSigning

namespace Standing

def admission (t : Task) : Standing → Except Refusal Unit
  | free => .ok ()
  | waiting u =>
    .error ⟨if u.due = t.due ∧ u.what = t.what then .duplicate t else .zoneBusy t.zone, t⟩
  | taken _ => .error ⟨.zoneBusy t.zone, t⟩

def removalAt (k : TaskKey) : Standing → Except ScheduleError Task
  | waiting t => if t.key = k then .ok { t with flush := false } else .error (.noTaskAt k)
  | free | taken _ => .error (.noTaskAt k)

def removal (z : ZoneKey) : Standing → Except ScheduleError Task
  | waiting t => .ok { t with flush := false }
  | free | taken _ => .error (.noTaskOf z)

def hearing (z : ZoneKey) : Standing → Except ScheduleError Unit
  | waiting _ | taken _ => .ok ()
  | free => .error (.noTaskOf z)

def requests? : Standing → Option Pending
  | taken p => some p
  | free | waiting _ => none

def droppedAt (k : TaskKey) : Standing → Standing
  | waiting t => if t.key = k then free else waiting t
  | free => free
  | taken p => taken p

def released : Standing → Standing
  | waiting t => waiting t
  | free | taken _ => free

def returned (t : Task) (f : Task → Task) (x : Standing) : Task :=
  f (x.requests?.elim t (Pending.fold · t))

end Standing

def TaskKey.owner (k : TaskKey) : ZoneKey := ⟨k.dnsClass, k.zone⟩

/-- A task of the zone stays one. -/
def ZoneKey.Keeps (z : ZoneKey) (f : Task → Task) : Prop := ∀ t, t.zone = z → (f t).zone = z

namespace Schedule

/-- A task of this kind waits for the same zone and the same time. -/
def HasTwin (s : Schedule) (t : Task) : Prop :=
  ∃ u ∈ s.waiting, u.zone = t.zone ∧ u.due = t.due ∧ u.what = t.what

/-- What an operation answers. -/
inductive Answer where
  | admitted (answer : Except Refusal Unit)
  | removed (answer : Except ScheduleError Task)
  | heard (answer : Except ScheduleError Unit)
  | found (task : Option Task)
  | released (requests : Option Pending)
  | counted (n : Nat)
deriving Repr

namespace Op

def perform (s : Schedule) : Op → Answer × Schedule
  | schedule t => (s.schedule t).map .admitted id
  | unschedule k => (s.unschedule k).map .removed id
  | unscheduleZone z => (s.unscheduleZone z).map .removed id
  | reschedule z what due => (s.reschedule z what due).map .heard id
  | flushZone z => (s.flushZone z).map .heard id
  | flushAll => s.flushAll.map .counted id
  | peek => s.peek.map .found id
  | next now => (s.next now).map .found id
  | release z => (s.release z).map .released id
  | resubmit t transition => (s.resubmit t transition).map .admitted id
  | clear => s.clear.map .counted id

@[simp] theorem snd_perform (s : Schedule) (op : Op) : (op.perform s).2 = op.apply s := by
  cases op <;> rfl

/-- The operation is one on the task of the zone, and makes no other zone's task of it. -/
def Concerns (z : ZoneKey) : Op → Prop
  | schedule t => t.zone = z
  | unschedule k => k.owner = z
  | unscheduleZone y => y = z
  | reschedule y _ _ => y = z
  | flushZone y => y = z
  | release y => y = z
  | resubmit t transition => t.zone = z ∧ z.Keeps transition
  | flushAll | peek | next _ | clear => False

end Op

namespace Consistent

variable {s : Schedule} {t : Task} {z : ZoneKey} {k : TaskKey}

/-- The key of a task is in use exactly if the task has a twin. -/
theorem contains_key_iff (h : s.Consistent) : s.tasks.contains t.key ↔ s.HasTwin t := by
  rw [OrderedMap.contains_iff]
  constructor
  · rintro ⟨u, hu⟩
    have hkey : u.key = t.key := h.keyed hu
    exact ⟨u, mem_waiting.mpr ⟨_, hu⟩, zone_eq_of_key_eq hkey, congrArg TaskKey.due hkey,
      congrArg TaskKey.what hkey⟩
  · rintro ⟨u, hu, hzone, hdue, hwhat⟩
    have hkey : u.key = t.key := by simp only [Task.key, hzone, hdue, hwhat]
    exact ⟨u, hkey ▸ h.tasks_get?_key hu⟩

/-- The answer to a task that is to wait is told by what there is for its zone. -/
theorem fst_schedule (h : s.Consistent) (t : Task) :
    (s.schedule t).1 = (s.standing t.zone).admission t := by
  rw [h.schedule_eq]
  rcases h.standing_cases t.zone with ⟨u, hu, hzone, he⟩ | ⟨p, hs, hp, he⟩ | ⟨hfree, he⟩ <;> rw [he]
  · have hhas : s.hasTask t.zone := by simp [hasTask, h.isScheduled_iff.mpr ⟨u, hu, hzone⟩]
    have hkey : s.tasks.contains t.key ↔ u.due = t.due ∧ u.what = t.what := by
      rw [h.contains_key_iff]
      constructor
      · rintro ⟨v, hv, hvz, hsame⟩
        exact h.eq_of_zone_eq hv hu (hvz.trans hzone.symm) ▸ hsame
      · exact fun hsame => ⟨u, hu, hzone, hsame⟩
    simp only [hhas, if_true, hkey, Standing.admission]
  · have hhas : s.hasTask t.zone := by simp [hasTask, isInFlight, OrderedMap.contains, hp]
    have hkey : s.tasks.contains t.key = false := by
      rw [Bool.eq_false_iff, ne_eq, h.contains_key_iff]
      rintro ⟨v, hv, hvz, -⟩
      simp [h.isScheduled_iff.mpr ⟨v, hv, hvz⟩] at hs
    simp [hhas, hkey, Standing.admission]
  · simp [hfree, Standing.admission]

/-- The answer to the removal of a zone's task is told by what there is for the zone. -/
theorem fst_unscheduleZone (h : s.Consistent) (z : ZoneKey) :
    (s.unscheduleZone z).1 = (s.standing z).removal z := by
  rcases h.standing_cases z with ⟨t, ht, rfl, he⟩ | ⟨p, hs, -, he⟩ | ⟨hfree, he⟩ <;> rw [he]
  · rw [h.unscheduleZone_eq ht]
    rfl
  · rw [unscheduleZone_of_not_isScheduled hs]
    rfl
  · rw [unscheduleZone_of_not_isScheduled (Bool.or_eq_false_iff.mp hfree).1]
    rfl

/-- Either the zone's waiting task has this key and is removed, or nothing happens. -/
theorem unschedule_cases (h : s.Consistent) (k : TaskKey) :
    (∃ t ∈ s.waiting, t.key = k ∧ s.unschedule k = (.ok { t with flush := false }, s.without t)) ∨
    (∀ t ∈ s.waiting, t.key ≠ k) ∧ s.unschedule k = (.error (.noTaskAt k), s) := by
  cases hk : s.tasks.get? k with
  | some t =>
    have ht : t ∈ s.waiting := mem_waiting.mpr ⟨k, hk⟩
    exact .inl ⟨t, ht, h.keyed hk, h.keyed hk ▸ h.unschedule_eq ht⟩
  | none =>
    refine .inr ⟨fun t ht hkey => ?_, by simp only [Schedule.unschedule, hk]⟩
    rw [← hkey, h.tasks_get?_key ht] at hk
    cases hk

/-- The answer to the removal of the task with a key is told by what there is for its zone. -/
theorem fst_unschedule (h : s.Consistent) (k : TaskKey) :
    (s.unschedule k).1 = (s.standing k.owner).removalAt k := by
  rcases h.unschedule_cases k with ⟨t, ht, rfl, he⟩ | ⟨hnot, he⟩ <;> rw [he]
  · have hx : s.standing t.key.owner = .waiting t := h.standing_of_mem ht
    simp [hx, Standing.removalAt]
  · rcases h.standing_cases k.owner with ⟨t, ht, -, hx⟩ | ⟨p, -, -, hx⟩ | ⟨-, hx⟩ <;> rw [hx]
    · simp [Standing.removalAt, hnot t ht]
    · rfl
    · rfl

/-- The answer to something that is asked of a zone is told by what there is for the zone. -/
theorem fst_ask (h : s.Consistent) {f : Task → Task} (hf : ∀ t, (f t).zone = t.zone)
    (note : Pending → Pending) (z : ZoneKey) : (s.ask z f note).1 = (s.standing z).hearing z := by
  rcases h.ask_cases hf note z with ⟨t, ht, rfl, he⟩ | ⟨p, hs, hp, he⟩ | ⟨hfree, he⟩ <;> rw [he]
  · rw [h.standing_of_mem ht]
    rfl
  · rw [standing_of_taken hs hp]
    rfl
  · rw [standing_of_free hfree]
    rfl

/-- To release a zone gives what has been asked of its taken task. -/
theorem fst_release (h : s.Consistent) (z : ZoneKey) :
    (s.release z).1 = (s.standing z).requests? := by
  have hget : (s.release z).1 = s.inFlight.get? z := rfl
  rw [hget]
  rcases h.standing_cases z with ⟨t, ht, rfl, he⟩ | ⟨p, -, hp, he⟩ | ⟨hfree, he⟩ <;> rw [he]
  · exact OrderedMap.contains_eq_false_iff.mp (h.not_isInFlight ht)
  · exact hp
  · exact OrderedMap.contains_eq_false_iff.mp (Bool.or_eq_false_iff.mp hfree).2

/-- What a task comes back as depends on what there is for its zone. -/
theorem returned_eq (h : s.Consistent) (t : Task) (f : Task → Task) :
    s.returned t f = (s.standing t.zone).returned t f := by
  rw [Standing.returned, ← h.fst_release]
  rfl

/-- A task that its transition keeps in its zone comes back to it. -/
theorem zone_returned {f : Task → Task} (hf : t.zone.Keeps f) : (s.returned t f).zone = t.zone := by
  apply hf
  cases s.inFlight.get? t.zone with
  | none => rfl
  | some p => exact (Task.sameOrigin_fold p t).1

/-- To remove the task with a key changes only what there is for its zone. -/
theorem sets_unschedule (h : s.Consistent) (k : TaskKey) :
    s.Sets (s.unschedule k).2 k.owner ((s.standing k.owner).droppedAt k) := by
  rcases h.unschedule_cases k with ⟨t, ht, rfl, he⟩ | ⟨hnot, he⟩ <;> rw [he]
  · have hx : s.standing t.key.owner = .waiting t := h.standing_of_mem ht
    simp only [hx, Standing.droppedAt, if_true]
    exact h.sets_without ht
  · have hx : (s.standing k.owner).droppedAt k = s.standing k.owner := by
      rcases h.standing_cases k.owner with ⟨t, ht, -, hx⟩ | ⟨p, -, -, hx⟩ | ⟨-, hx⟩ <;> rw [hx]
      · simp [Standing.droppedAt, hnot t ht]
      · rfl
      · rfl
    rw [hx]
    exact h.sets_self

/-- A zone whose task is not taken is not changed by releasing it. -/
theorem release_of_not_isInFlight {s : Schedule} (hz : s.isInFlight z = false) :
    (s.release z).2 = s := by
  have hsame : s.inFlight.erase z = s.inFlight := by
    refine OrderedMap.ext_get? fun y => ?_
    by_cases hy : y = z
    · rw [hy, OrderedMap.get?_erase_self, OrderedMap.contains_eq_false_iff.mp hz]
    · rw [OrderedMap.get?_erase_of_ne _ hy]
  simp only [release, hsame]

/-- To release a zone changes only what there is for this zone. -/
theorem sets_released (h : s.Consistent) (z : ZoneKey) :
    s.Sets (s.release z).2 z (s.standing z).released := by
  have hidle (hz : s.isInFlight z = false) (hx : (s.standing z).released = s.standing z) :
      s.Sets (s.release z).2 z (s.standing z).released := by
    rw [release_of_not_isInFlight hz, hx]
    exact h.sets_self
  rcases h.standing_cases z with ⟨t, ht, rfl, he⟩ | ⟨p, -, -, he⟩ | ⟨hfree, he⟩
  · exact hidle (h.not_isInFlight ht) (by rw [he]; rfl)
  · rw [he]
    exact h.sets_release he
  · exact hidle (Bool.or_eq_false_iff.mp hfree).2 (by rw [he]; rfl)

/-- A task that comes back to its zone is let in, and given what has been asked of it, as what there
is for the zone says; and nothing changes for other zones. -/
theorem resubmit_keeping (h : s.Consistent) {f : Task → Task} (hf : t.zone.Keeps f) :
    (s.resubmit t f).1 = (s.standing t.zone).released.admission ((s.standing t.zone).returned t f) ∧
      s.Sets (s.resubmit t f).2 t.zone
        ((s.standing t.zone).released.given ((s.standing t.zone).returned t f)) := by
  have hreleased := h.sets_released t.zone
  have hsets := hreleased.consistent.sets_schedule (s.returned t f)
  have hanswer := hreleased.consistent.fst_schedule (s.returned t f)
  rw [zone_returned hf, hreleased.self] at hsets hanswer
  rw [← h.returned_eq, resubmit_eq]
  exact ⟨hanswer, hreleased.trans hsets⟩

end Consistent

end Schedule

end ZoneSigning
