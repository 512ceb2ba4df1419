import ZoneSigning.Proofs.ScheduleAnswers

/-!
An operation that fails does nothing. Several operations take a task out of the schedule and put it
back, and could be refused when they put it back. In a schedule that can be reached they are not, as
the zone of the task owns no other one. The exception is a taken task that has become another zone's
when it comes back: it is not taken any more, whether the schedule lets it in or not.
-/
namespace ZoneSigning.Schedule

/-- The zone owns a task, which waits or is taken. -/
def Owns (s : Schedule) (z : ZoneKey) : Prop :=
  (∃ t ∈ s.waiting, t.zone = z) ∨ ∃ p, s.inFlight.get? z = some p

def Answer.isError : Answer → Bool
  | admitted answer => !answer.isOk
  | removed answer => !answer.isOk
  | heard answer => !answer.isOk
  | found _ | released _ | counted _ => false

namespace Op

/-- The operation makes another zone's task of a taken one that comes back. -/
def LeadsAstray (s : Schedule) : Op → Prop
  | resubmit t transition => s.isInFlight t.zone ∧ (s.returned t transition).zone ≠ t.zone
  | _ => False

def LeavesTasks : Op → Prop
  | peek | next _ | reschedule .. | flushZone _ | flushAll => True
  | schedule _ | unschedule _ | unscheduleZone _ | release _ | resubmit .. | clear => False

end Op

/-- Which operations on the schedule succeed, and that the others do nothing, unless they lead a task
astray. -/
structure FailsCleanly (s : Schedule) : Prop where
  schedule_ok_iff : ∀ t, (s.schedule t).1 = .ok () ↔ ¬ s.Owns t.zone
  /-- A task that is refused comes back as it is. -/
  refusal : ∀ {t r}, (s.schedule t).1 = .error r → r.task = t ∧
    (s.HasTwin t ∧ r.reason = .duplicate t ∨ ¬ s.HasTwin t ∧ r.reason = .zoneBusy t.zone)
  reschedule_ok_iff : ∀ z what due, (s.reschedule z what due).1 = .ok () ↔ s.Owns z
  flushZone_ok_iff : ∀ z, (s.flushZone z).1 = .ok () ↔ s.Owns z
  /-- What is taken out of the schedule fits in again, whatever has become of it. -/
  readmits : ∀ {z t s'}, s.unscheduleZone z = (.ok t, s') →
    ∀ u, u.zone = z → (s'.schedule u).1 = .ok ()
  mem_reschedule : ∀ t ∈ s.waiting, ∀ what due,
    ({ t with flush := false } : Task).retarget what due ∈ (s.reschedule t.zone what due).2.waiting
  mem_flushZone : ∀ t ∈ s.waiting, { t with flush := true } ∈ (s.flushZone t.zone).2.waiting
  resubmit_ok : ∀ {t f}, s.isInFlight t.zone → (s.returned t f).zone = t.zone →
    (s.resubmit t f).1 = .ok ()
  unchanged_iff : ∀ {op : Op}, (op.perform s).1.isError →
    ((op.perform s).2 = s ↔ ¬ op.LeadsAstray s)
  /-- A task that comes back and is refused is not taken any more, and nothing else has happened. -/
  released : ∀ {t f r}, (s.resubmit t f).1 = .error r → (s.resubmit t f).2 = (s.release t.zone).2
  owns_iff : ∀ {op : Op}, op.LeavesTasks → ∀ z, (op.perform s).2.Owns z ↔ s.Owns z

namespace Consistent

variable {s s' : Schedule} {t u : Task} {z : ZoneKey} {f : Task → Task} {r : Refusal} {p : Pending}

private theorem hasTask_iff_owns (h : s.Consistent) (z : ZoneKey) : s.hasTask z ↔ s.Owns z := by
  rw [hasTask, Bool.or_eq_true, h.isScheduled_iff]
  exact or_congr_right OrderedMap.contains_iff

private theorem schedule_ok_iff_not_owns (h : s.Consistent) (t : Task) :
    (s.schedule t).1 = .ok () ↔ ¬ s.Owns t.zone := by
  rw [← h.hasTask_iff_owns, h.schedule_eq]
  by_cases hz : s.hasTask t.zone
  · simp [hz]
  · simp [hz]

private theorem schedule_snd_of_error (h : s.Consistent) (hr : (s.schedule t).1 = .error r) :
    (s.schedule t).2 = s := by
  rw [h.schedule_eq] at hr ⊢
  split at hr
  · next hz => rw [if_pos hz]
  · cases hr

private theorem refusal_of_schedule (h : s.Consistent) (hr : (s.schedule t).1 = .error r) :
    r.task = t ∧
      (s.HasTwin t ∧ r.reason = .duplicate t ∨ ¬ s.HasTwin t ∧ r.reason = .zoneBusy t.zone) := by
  rw [h.schedule_eq] at hr
  split at hr
  · cases hr
    refine ⟨rfl, ?_⟩
    by_cases hkey : s.tasks.contains t.key
    · exact .inl ⟨h.contains_key_iff.mp hkey, if_pos hkey⟩
    · exact .inr ⟨mt h.contains_key_iff.mpr hkey, if_neg hkey⟩
  · cases hr

private theorem ask_ok_iff_owns (h : s.Consistent) (hf : ∀ t, (f t).zone = t.zone)
    (note : Pending → Pending) (z : ZoneKey) : (s.ask z f note).1 = .ok () ↔ s.Owns z :=
  (h.ask_ok_iff hf note z).trans (h.hasTask_iff_owns z)

private theorem mem_ask (h : s.Consistent) (hf : ∀ t, (f t).zone = t.zone)
    (note : Pending → Pending) (ht : t ∈ s.waiting) :
    f { t with flush := false } ∈ (s.ask t.zone f note).2.waiting := by
  rcases h.ask_cases hf note t.zone with ⟨u, hu, hzone, he⟩ | ⟨p, hs, -, -⟩ | ⟨hfree, -⟩
  · obtain rfl := h.eq_of_zone_eq hu ht hzone
    rw [he]
    have hzone : (f { u with flush := false }).zone = u.zone := hf _
    exact (h.mem_replace hu hzone).mpr (.inl rfl)
  · rw [h.isScheduled_iff.mpr ⟨t, ht, rfl⟩] at hs
    cases hs
  · simp [hasTask, h.isScheduled_iff.mpr ⟨t, ht, rfl⟩] at hfree

private theorem ask_snd_of_error (h : s.Consistent) (hf : ∀ t, (f t).zone = t.zone)
    {note : Pending → Pending} (herror : (s.ask z f note).1 ≠ .ok ()) : (s.ask z f note).2 = s := by
  rcases h.ask_cases hf note z with ⟨t, -, -, he⟩ | ⟨p, -, -, he⟩ | ⟨-, he⟩
  · exact absurd (congrArg Prod.fst he) herror
  · exact absurd (congrArg Prod.fst he) herror
  · exact congrArg Prod.snd he

private theorem unschedule_snd_of_error (h : s.Consistent) {k : TaskKey}
    (herror : (s.unschedule k).1.isOk = false) : (s.unschedule k).2 = s := by
  rcases h.unschedule_cases k with ⟨t, -, -, he⟩ | ⟨-, he⟩ <;> rw [he] at herror ⊢
  cases herror

private theorem unscheduleZone_snd_of_error (h : s.Consistent)
    (herror : (s.unscheduleZone z).1.isOk = false) : (s.unscheduleZone z).2 = s := by
  obtain hz | ⟨t, ht, rfl⟩ := h.scheduled_cases z
  · rw [unscheduleZone_of_not_isScheduled hz]
  · rw [h.unscheduleZone_eq ht] at herror
    cases herror

private theorem readmits_of_unscheduleZone (h : s.Consistent)
    (hout : s.unscheduleZone z = (.ok t, s')) (hu : u.zone = z) : (s'.schedule u).1 = .ok () := by
  obtain hz | ⟨t, ht, rfl⟩ := h.scheduled_cases z
  · rw [unscheduleZone_of_not_isScheduled hz] at hout
    cases hout
  · rw [h.unscheduleZone_eq ht] at hout
    cases hout
    have hfree : (s.without t).hasTask u.zone = false := by
      simp [hasTask, hu, isScheduled_without, h.not_isInFlight ht]
    rw [(h.without ht).schedule_of_free hfree]

private theorem resubmit_snd_of_error (h : s.Consistent) (hr : (s.resubmit t f).1 = .error r) :
    (s.resubmit t f).2 = (s.release t.zone).2 :=
  (h.release t.zone).schedule_snd_of_error hr

private theorem release_snd_eq_self_iff (z : ZoneKey) :
    (s.release z).2 = s ↔ s.isInFlight z = false := by
  constructor
  · intro hsame
    rw [← hsame, isInFlight_release]
    simp
  · exact release_of_not_isInFlight

private theorem resubmit_snd_eq_self_iff (h : s.Consistent) (hr : (s.resubmit t f).1 = .error r) :
    (s.resubmit t f).2 = s ↔ ¬ (s.isInFlight t.zone ∧ (s.returned t f).zone ≠ t.zone) := by
  rw [h.resubmit_snd_of_error hr, release_snd_eq_self_iff, ← Bool.not_eq_true]
  refine not_congr ⟨fun htaken => ⟨htaken, fun hkeeps => ?_⟩, And.left⟩
  rw [h.resubmit_of_isInFlight htaken hkeeps] at hr
  cases hr

private theorem exists_error {ε α : Type} {x : Except ε α} (h : (!x.isOk) = true) :
    ∃ e, x = .error e := by
  cases x with
  | ok a => cases h
  | error e => exact ⟨e, rfl⟩

private theorem perform_snd_eq_self_iff (h : s.Consistent) {op : Op}
    (herror : (op.perform s).1.isError) : (op.perform s).2 = s ↔ ¬ op.LeadsAstray s := by
  cases op with
  | schedule t =>
    obtain ⟨r, hr⟩ := exists_error herror
    exact iff_of_true (h.schedule_snd_of_error hr) id
  | resubmit t f =>
    obtain ⟨r, hr⟩ := exists_error herror
    exact h.resubmit_snd_eq_self_iff hr
  | unschedule k => exact iff_of_true (h.unschedule_snd_of_error ((Bool.not_eq_true' _).mp herror)) id
  | unscheduleZone z =>
    exact iff_of_true (h.unscheduleZone_snd_of_error ((Bool.not_eq_true' _).mp herror)) id
  | reschedule z what due =>
    obtain ⟨e, he⟩ := exists_error herror
    exact iff_of_true (h.ask_snd_of_error (Task.zone_retarget what due) (he ▸ nofun)) id
  | flushZone z =>
    obtain ⟨e, he⟩ := exists_error herror
    exact iff_of_true (h.ask_snd_of_error Task.zone_flushed (he ▸ nofun)) id
  | flushAll | peek | next | release | clear => cases herror

private theorem hasTask_perform (h : s.Consistent) {op : Op} (hop : op.LeavesTasks) (z : ZoneKey) :
    (op.perform s).2.hasTask z = s.hasTask z := by
  rw [Op.snd_perform]
  cases op with
  | peek => exact congrArg (hasTask · z) h.peek_snd
  | next now =>
    rcases h.next_cases now with he | ⟨t, ht, -, he⟩ <;> rw [Op.apply, he]
    exact h.hasTask_take ht z
  | reschedule y what due => exact (h.samePlaces_reschedule y what due).hasTask z
  | flushZone y => exact (h.samePlaces_flushZone y).hasTask z
  | flushAll => rfl
  | schedule | unschedule | unscheduleZone | release | resubmit | clear => exact hop.elim

private theorem failsCleanly (h : s.Consistent) : s.FailsCleanly where
  schedule_ok_iff := h.schedule_ok_iff_not_owns
  refusal := h.refusal_of_schedule
  reschedule_ok_iff z what due := h.ask_ok_iff_owns (Task.zone_retarget what due) _ z
  flushZone_ok_iff z := h.ask_ok_iff_owns Task.zone_flushed _ z
  readmits hout _ hu := h.readmits_of_unscheduleZone hout hu
  mem_reschedule _ ht what due := h.mem_ask (Task.zone_retarget what due) _ ht
  mem_flushZone _ ht := h.mem_ask Task.zone_flushed _ ht
  resubmit_ok htaken hkeeps := by rw [h.resubmit_of_isInFlight htaken hkeeps]
  unchanged_iff := h.perform_snd_eq_self_iff
  released := h.resubmit_snd_of_error
  owns_iff := by
    intro op hop z
    have hafter : (op.perform s).2.Consistent := by
      rw [Op.snd_perform]
      exact h.apply op
    rw [← h.hasTask_iff_owns, ← hafter.hasTask_iff_owns, h.hasTask_perform hop]

end Consistent

/-- Whatever has been done with a schedule, an operation on it that fails does nothing, unless it has
made another zone's task of a taken one, which then only is not taken any more. A task is let in
exactly if its zone owns none, and one that is refused comes back with the reason. Moving and
flushing the task of a zone succeed exactly if the zone owns one, and never lose it; a taken task
that comes back to its zone is never refused. What only looks for tasks, takes, moves or flushes
them leaves every zone its task. -/
theorem failures_do_nothing_unless_astray (ops : List Op) : (run ops).FailsCleanly :=
  (consistent_run ops).failsCleanly

def configuring (z : ZoneKey) : Task := { zone := z, what := .configure, due := 0 }

/-- The task of zone `a` is taken, and that of zone `b` waits. -/
def oneTaken : Schedule :=
  run [.schedule (configuring ⟨.internet, "a"⟩), .schedule (configuring ⟨.internet, "b"⟩), .next 0]

def comesBackAsOther : Op :=
  .resubmit (configuring ⟨.internet, "a"⟩) ({ · with zone := ⟨.internet, "b"⟩ })

/-- A task that has become another zone's is refused when it comes back, and the schedule has changed:
its zone does not own a task any more. -/
theorem refused_astray_task_not_in_flight :
    (comesBackAsOther.perform oneTaken).1.isError = true ∧
      oneTaken.isInFlight ⟨.internet, "a"⟩ = true ∧
      (comesBackAsOther.perform oneTaken).2.hasTask ⟨.internet, "a"⟩ = false ∧
      ¬ ∀ (ops : List Op) (op : Op), (op.perform (run ops)).1.isError →
        (op.perform (run ops)).2 = run ops := by
  refine ⟨rfl, rfl, rfl, fun hall => ?_⟩
  have hsame : (comesBackAsOther.perform oneTaken).2 = oneTaken := hall _ _ rfl
  cases congrArg (hasTask · ⟨.internet, "a"⟩) hsame

end ZoneSigning.Schedule
