import ZoneSigning.Proofs.ScheduleConsistency
import ZoneSigning.Proofs.TaskTransitions

/-!
What the operations of a consistent schedule do. Each one adds a task, takes one out, puts one in
the place of another, or changes what is recorded for a taken task; and each keeps the schedule
consistent. Tasks are only identified by their zones here, not by the keys they are stored under.
-/
namespace ZoneSigning.Schedule

def taken (s : Schedule) (z : ZoneKey) : Schedule := { s with inFlight := s.inFlight.insert z {} }

def noted (s : Schedule) (z : ZoneKey) (p : Pending) : Schedule :=
  { s with inFlight := s.inFlight.insert z p }

def returned (s : Schedule) (t : Task) (transition : Task → Task) : Task :=
  transition ((s.inFlight.get? t.zone).elim t (Pending.fold · t))

@[simp] theorem isScheduled_taken (s : Schedule) (y z : ZoneKey) :
    (s.taken y).isScheduled z = s.isScheduled z := rfl

@[simp] theorem isScheduled_noted (s : Schedule) (y z : ZoneKey) (p : Pending) :
    (s.noted y p).isScheduled z = s.isScheduled z := rfl

@[simp] theorem isScheduled_release (s : Schedule) (y z : ZoneKey) :
    (s.release y).2.isScheduled z = s.isScheduled z := rfl

@[simp] theorem waiting_release (s : Schedule) (z : ZoneKey) :
    (s.release z).2.waiting = s.waiting := rfl

/-- A zone for which requests are recorded counts as one whose task is taken. -/
theorem isInFlight_noted (s : Schedule) (y z : ZoneKey) (p : Pending) :
    (s.noted y p).isInFlight z = (z = y || s.isInFlight z) := by
  by_cases hz : z = y
  · simp [isInFlight, OrderedMap.contains, noted, hz]
  · simp [isInFlight, OrderedMap.contains, noted, hz, OrderedMap.get?_insert_of_ne]

/-- A zone that is marked counts as one whose task is taken. -/
theorem isInFlight_taken (s : Schedule) (y z : ZoneKey) :
    (s.taken y).isInFlight z = (z = y || s.isInFlight z) :=
  s.isInFlight_noted y z {}

/-- A zone that has been released has no taken task. -/
theorem isInFlight_release (s : Schedule) (y z : ZoneKey) :
    (s.release y).2.isInFlight z = (z ≠ y && s.isInFlight z) := by
  by_cases hz : z = y
  · simp [isInFlight, OrderedMap.contains, release, hz]
  · simp [isInFlight, OrderedMap.contains, release, hz, OrderedMap.get?_erase_of_ne]

private theorem hasTask_release_of_ne {s : Schedule} {y z : ZoneKey} (h : z ≠ y) :
    (s.release y).2.hasTask z = s.hasTask z := by
  simp [hasTask, isInFlight_release, h]

/-- The task of a zone cannot be removed if none waits. -/
theorem unscheduleZone_of_not_isScheduled {s : Schedule} {z : ZoneKey}
    (hz : s.isScheduled z = false) : s.unscheduleZone z = (.error (.noTaskOf z), s) := by
  simp [unscheduleZone, OrderedMap.contains_eq_false_iff.mp hz]

/-- A request is recorded for a zone whose task is taken. -/
theorem record_of_isInFlight {s : Schedule} {z : ZoneKey} {p : Pending}
    (hp : s.inFlight.get? z = some p) (change : Pending → Pending) :
    s.record z change = (.ok (), s.noted z (change p)) := by
  simp [record, hp, noted]

private theorem record_of_not_isInFlight {s : Schedule} {z : ZoneKey} (hz : s.isInFlight z = false)
    (change : Pending → Pending) : s.record z change = (.error (.noTaskOf z), s) := by
  simp [record, OrderedMap.contains_eq_false_iff.mp hz]

namespace Consistent

variable {s : Schedule} {t u : Task} {z : ZoneKey} {k : TaskKey}

/-- With a task added, that one waits and those that have waited. -/
theorem mem_added (h : s.Consistent) (hz : s.isScheduled t.zone = false) :
    u ∈ (s.added t).waiting ↔ u = t ∨ u ∈ s.waiting := by
  rw [(h.waiting_added hz).mem_iff, List.mem_cons]

/-- Without a task, those wait that have waited but for that one. -/
theorem mem_without (h : s.Consistent) (ht : t ∈ s.waiting) :
    u ∈ (s.without t).waiting ↔ u ∈ s.waiting ∧ u ≠ t := by
  have hnot : t ∉ (s.without t).waiting := by
    intro hmem
    have hsched := (h.without ht).isScheduled_iff.mpr ⟨t, hmem, rfl⟩
    simp [isScheduled_without] at hsched
  rw [(h.waiting_without ht).mem_iff, List.mem_cons]
  constructor
  · intro hu
    exact ⟨.inr hu, fun heq => hnot (heq ▸ hu)⟩
  · rintro ⟨hu | hu, hne⟩
    · exact absurd hu hne
    · exact hu

/-- A consistent schedule stays so when a zone without a waiting task is marked. -/
protected theorem taken (h : s.Consistent) (hz : s.isScheduled z = false) :
    (s.taken z).Consistent where
  keyed := h.keyed
  indexed := h.indexed
  counted := h.counted
  apart := by
    intro y hy
    rw [isScheduled_taken] at hy
    rw [isInFlight_taken, Bool.or_eq_true, decide_eq_true_iff]
    rintro (rfl | hfl)
    · simp [hz] at hy
    · exact h.apart hy hfl

/-- A consistent schedule stays so when requests are recorded for a zone whose task is taken. -/
protected theorem noted (h : s.Consistent) (hz : s.isInFlight z) (p : Pending) :
    (s.noted z p).Consistent where
  keyed := h.keyed
  indexed := h.indexed
  counted := h.counted
  apart := by
    intro y hy
    rw [isScheduled_noted] at hy
    rw [isInFlight_noted, Bool.or_eq_true, decide_eq_true_iff]
    rintro (rfl | hfl)
    · exact h.apart hy hz
    · exact h.apart hy hfl

/-- A consistent schedule stays so when a zone is released. -/
protected theorem release (h : s.Consistent) (z : ZoneKey) : (s.release z).2.Consistent where
  keyed := h.keyed
  indexed := h.indexed
  counted := h.counted
  apart := by
    intro y hy
    rw [isInFlight_release, Bool.and_eq_true]
    exact fun hfl => h.apart hy hfl.2

/-- A task is accepted exactly if its zone owns none. -/
theorem schedule_eq (h : s.Consistent) (t : Task) :
    s.schedule t =
      if s.hasTask t.zone then
        (.error ⟨if s.tasks.contains t.key then .duplicate t else .zoneBusy t.zone, t⟩, s)
      else (.ok (), s.added t) := by
  unfold Schedule.schedule
  by_cases hk : s.tasks.contains t.key
  · obtain ⟨u, hu⟩ := OrderedMap.contains_iff.mp hk
    have hzone : u.zone = t.zone := zone_eq_of_key_eq (h.keyed hu)
    have hs : s.isScheduled t.zone := h.isScheduled_iff.mpr ⟨u, mem_waiting.mpr ⟨_, hu⟩, hzone⟩
    simp [hk, hasTask, hs]
  · simp only [hk, Bool.false_eq_true, if_false]
    rfl

/-- A task of a zone that owns none is added. -/
theorem schedule_of_free (h : s.Consistent) (hz : s.hasTask t.zone = false) :
    s.schedule t = (.ok (), s.added t) := by
  simp [h.schedule_eq, hz]

/-- Whether a task is accepted or not, its zone owns one afterwards. -/
theorem hasTask_schedule (h : s.Consistent) (t : Task) (z : ZoneKey) :
    (s.schedule t).2.hasTask z = (z = t.zone || s.hasTask z) := by
  rw [h.schedule_eq]
  split
  · next hz =>
    by_cases hzt : z = t.zone
    · simp [hzt, hz]
    · simp [hzt]
  · simp [hasTask, isScheduled_added, Bool.or_assoc]

/-- To let a task wait leaves it as it is which tasks are taken. -/
theorem isInFlight_schedule (h : s.Consistent) (t : Task) (z : ZoneKey) :
    (s.schedule t).2.isInFlight z = s.isInFlight z := by
  rw [h.schedule_eq]
  split <;> rfl

/-- A consistent schedule stays so when a task is to wait, let in or not. -/
protected theorem schedule (h : s.Consistent) (t : Task) : (s.schedule t).2.Consistent := by
  rw [h.schedule_eq]
  split
  · exact h
  · next hz => exact h.added (Bool.eq_false_iff.mpr hz)

/-- A waiting task that is removed by its key is not flushed any more. -/
theorem unschedule_eq (h : s.Consistent) (ht : t ∈ s.waiting) :
    s.unschedule t.key = (.ok { t with flush := false }, s.without t) := by
  simp [Schedule.unschedule, h.tasks_get?_key ht, Schedule.without]

/-- A consistent schedule stays so when the task with a key is removed. -/
protected theorem unschedule (h : s.Consistent) (k : TaskKey) :
    (s.unschedule k).2.Consistent := by
  cases hk : s.tasks.get? k with
  | none => simpa [Schedule.unschedule, hk] using h
  | some t =>
    have ht : t ∈ s.waiting := mem_waiting.mpr ⟨k, hk⟩
    rw [← h.keyed hk, h.unschedule_eq ht]
    exact h.without ht

/-- A waiting task that is removed by its zone is not flushed any more. -/
theorem unscheduleZone_eq (h : s.Consistent) (ht : t ∈ s.waiting) :
    s.unscheduleZone t.zone = (.ok { t with flush := false }, s.without t) := by
  simp [Schedule.unscheduleZone, h.byZone_get? ht, h.unschedule_eq ht]

/-- A zone either has no waiting task, or one that can be named. -/
theorem scheduled_cases (h : s.Consistent) (z : ZoneKey) :
    s.isScheduled z = false ∨ ∃ t ∈ s.waiting, t.zone = z := by
  cases hz : s.isScheduled z with
  | false => exact .inl rfl
  | true => exact .inr (h.isScheduled_iff.mp hz)

/-- A consistent schedule stays so when the task of a zone is removed. -/
protected theorem unscheduleZone (h : s.Consistent) (z : ZoneKey) :
    (s.unscheduleZone z).2.Consistent := by
  obtain hz | ⟨t, ht, rfl⟩ := h.scheduled_cases z
  · rw [unscheduleZone_of_not_isScheduled hz]
    exact h
  · rw [h.unscheduleZone_eq ht]
    exact h.without ht

private theorem hasTask_without (h : s.Consistent) (ht : t ∈ s.waiting) (hu : u.zone = t.zone) :
    (s.without t).hasTask u.zone = false := by
  simp [hasTask, isScheduled_without, hu, h.not_isInFlight ht]

/-- A task that is taken out to be changed always comes back. -/
theorem amend_eq (h : s.Consistent) (ht : t ∈ s.waiting) {f : Task → Task}
    (hf : (f { t with flush := false }).zone = t.zone) :
    s.amend t.zone f = (.ok (), (s.without t).added (f { t with flush := false })) := by
  simp only [Schedule.amend, h.unscheduleZone_eq ht,
    (h.without ht).schedule_of_free (h.hasTask_without ht hf)]

/-- A consistent schedule stays so when a waiting task gives way to another one of its zone. -/
protected theorem replace (h : s.Consistent) (ht : t ∈ s.waiting) (hu : u.zone = t.zone) :
    ((s.without t).added u).Consistent :=
  (h.without ht).added (h.hasTask_without ht hu)

private theorem isScheduled_replace (h : s.Consistent) (ht : t ∈ s.waiting) (hu : u.zone = t.zone)
    (z : ZoneKey) : ((s.without t).added u).isScheduled z = s.isScheduled z := by
  rw [isScheduled_added, isScheduled_without, hu]
  by_cases hz : z = t.zone
  · simp [hz, h.isScheduled_iff.mpr ⟨t, ht, rfl⟩]
  · simp [hz]

/-- With a task replaced, the new one waits and all that have waited but for the old one. -/
theorem mem_replace (h : s.Consistent) (ht : t ∈ s.waiting) (hu : u.zone = t.zone) {v : Task} :
    v ∈ ((s.without t).added u).waiting ↔ v = u ∨ v ∈ s.waiting ∧ v ≠ t := by
  have hfree := (Bool.or_eq_false_iff.mp (h.hasTask_without ht hu)).1
  rw [(h.without ht).mem_added hfree, h.mem_without ht]

end Consistent

/-- Ask something of a zone's task: change the task if it waits, or else the record of the requests
if it is taken. -/
def ask (s : Schedule) (z : ZoneKey) (f : Task → Task) (note : Pending → Pending) :
    Except ScheduleError Unit × Schedule :=
  if s.isScheduled z then s.amend z f else s.record z note

private theorem reschedule_eq_ask (s : Schedule) (z : ZoneKey) (what : TaskKind) (due : Nat) :
    s.reschedule z what due =
      s.ask z (·.retarget what due) fun p =>
        { p with interrupt := some what, interruptDue := due } := rfl

namespace Consistent

variable {s : Schedule} {t u : Task} {z : ZoneKey} {k : TaskKey}
variable {f : Task → Task}

/-- What is asked of a zone reaches its task, wherever that is; it fails only if there is none. -/
theorem ask_cases (h : s.Consistent) (hf : ∀ t, (f t).zone = t.zone)
    (note : Pending → Pending) (z : ZoneKey) :
    (∃ t ∈ s.waiting, t.zone = z ∧
      s.ask z f note = (.ok (), (s.without t).added (f { t with flush := false }))) ∨
    (∃ p, s.isScheduled z = false ∧ s.inFlight.get? z = some p ∧
      s.ask z f note = (.ok (), s.noted z (note p))) ∨
    s.hasTask z = false ∧ s.ask z f note = (.error (.noTaskOf z), s) := by
  obtain hz | ⟨t, ht, rfl⟩ := h.scheduled_cases z
  · right
    have hask : s.ask z f note = s.record z note := by simp [ask, hz]
    rw [hask]
    cases hp : s.inFlight.get? z with
    | some p => exact .inl ⟨p, hz, rfl, record_of_isInFlight hp note⟩
    | none =>
      have hfl : s.isInFlight z = false := OrderedMap.contains_eq_false_iff.mpr hp
      exact .inr ⟨by simp [hasTask, hz, hfl], record_of_not_isInFlight hfl note⟩
  · left
    refine ⟨t, ht, rfl, ?_⟩
    have hask : s.ask t.zone f note = s.amend t.zone f := by
      simp [ask, h.isScheduled_iff.mpr ⟨t, ht, rfl⟩]
    rw [hask]
    exact h.amend_eq ht (hf _)

/-- A task that is moved waits elsewhere, or the move is recorded as it is taken, or there is none.
-/
theorem reschedule_cases (h : s.Consistent) (z : ZoneKey) (what : TaskKind) (due : Nat) :
    (∃ t ∈ s.waiting, t.zone = z ∧ s.reschedule z what due =
      (.ok (), (s.without t).added (({ t with flush := false } : Task).retarget what due))) ∨
    (∃ p, s.isScheduled z = false ∧ s.inFlight.get? z = some p ∧ s.reschedule z what due =
      (.ok (), s.noted z { p with interrupt := some what, interruptDue := due })) ∨
    s.hasTask z = false ∧ s.reschedule z what due = (.error (.noTaskOf z), s) := by
  rw [reschedule_eq_ask]
  exact h.ask_cases (Task.zone_retarget what due) _ z

private theorem isInFlight_of_get? {p : Pending} (hp : s.inFlight.get? z = some p) :
    s.isInFlight z :=
  OrderedMap.contains_iff.mpr ⟨p, hp⟩

/-- A consistent schedule stays so when something is asked of a zone. -/
protected theorem ask (h : s.Consistent) (hf : ∀ t, (f t).zone = t.zone)
    (note : Pending → Pending) (z : ZoneKey) :
    (s.ask z f note).2.Consistent := by
  rcases h.ask_cases hf note z with
    ⟨t, ht, rfl, he⟩ | ⟨p, hz, hp, he⟩ | ⟨hz, he⟩ <;> rw [he]
  · exact h.replace ht (hf _)
  · exact h.noted (isInFlight_of_get? hp) _
  · exact h

private theorem isScheduled_ask (h : s.Consistent) (hf : ∀ t, (f t).zone = t.zone)
    (note : Pending → Pending) (y z : ZoneKey) : (s.ask y f note).2.isScheduled z = s.isScheduled z := by
  rcases h.ask_cases hf note y with
    ⟨t, ht, rfl, he⟩ | ⟨p, hz, hp, he⟩ | ⟨hz, he⟩ <;> rw [he]
  · exact h.isScheduled_replace ht (hf { t with flush := false }) z
  · rfl

private theorem isInFlight_ask (h : s.Consistent) (hf : ∀ t, (f t).zone = t.zone)
    (note : Pending → Pending) (y z : ZoneKey) : (s.ask y f note).2.isInFlight z = s.isInFlight z := by
  rcases h.ask_cases hf note y with
    ⟨t, ht, rfl, he⟩ | ⟨p, hz, hp, he⟩ | ⟨hz, he⟩ <;> rw [he]
  · rfl
  · by_cases hzy : z = y
    · simp [isInFlight_noted, hzy, isInFlight_of_get? hp]
    · simp [isInFlight_noted, hzy]

/-- Asking succeeds exactly if the zone owns a task. -/
theorem ask_ok_iff (h : s.Consistent) (hf : ∀ t, (f t).zone = t.zone)
    (note : Pending → Pending) (z : ZoneKey) :
    (s.ask z f note).1 = .ok () ↔ s.hasTask z := by
  rcases h.ask_cases hf note z with
    ⟨t, ht, rfl, he⟩ | ⟨p, hz, hp, he⟩ | ⟨hz, he⟩ <;> rw [he]
  · simp [hasTask, h.isScheduled_iff.mpr ⟨t, ht, rfl⟩]
  · simp [hasTask, isInFlight_of_get? hp]
  · simp [hz]

end Consistent

/-- Every zone's task waits, or is taken, just as before. -/
structure SamePlaces (s s' : Schedule) : Prop where
  isScheduled : ∀ z, s'.isScheduled z = s.isScheduled z
  isInFlight : ∀ z, s'.isInFlight z = s.isInFlight z

/-- Zones own tasks in the same way where all tasks are in the same places. -/
theorem SamePlaces.hasTask {s s' : Schedule} (h : s.SamePlaces s') (z : ZoneKey) :
    s'.hasTask z = s.hasTask z := by
  rw [Schedule.hasTask, h.isScheduled, h.isInFlight, Schedule.hasTask]

namespace Consistent

variable {s : Schedule} {t u : Task} {z : ZoneKey} {k : TaskKey}

/-- To move a task leaves it waiting or taken as it is. -/
theorem samePlaces_reschedule (h : s.Consistent) (z : ZoneKey) (what : TaskKind) (due : Nat) :
    s.SamePlaces (s.reschedule z what due).2 := by
  have hzone := Task.zone_retarget what due
  exact ⟨h.isScheduled_ask hzone _ z, h.isInFlight_ask hzone _ z⟩

/-- To flush a task leaves it waiting or taken as it is. -/
theorem samePlaces_flushZone (h : s.Consistent) (z : ZoneKey) : s.SamePlaces (s.flushZone z).2 := by
  exact ⟨h.isScheduled_ask Task.zone_flushed _ z, h.isInFlight_ask Task.zone_flushed _ z⟩

private theorem tasks_get?_flushAll (k : TaskKey) :
    s.flushAll.2.tasks.get? k = (s.tasks.get? k).map ({ · with flush := true }) :=
  OrderedMap.get?_mapValues _ _ _

/-- When all tasks are flushed, the same ones wait, in the same order. -/
theorem waiting_flushAll (s : Schedule) :
    s.flushAll.2.waiting = s.waiting.map ({ · with flush := true }) :=
  OrderedMap.values_mapValues _ _

/-- A consistent schedule stays so when all tasks are flushed. -/
protected theorem flushAll (h : s.Consistent) : s.flushAll.2.Consistent where
  keyed := by
    intro k t ht
    rw [tasks_get?_flushAll, Option.map_eq_some_iff] at ht
    obtain ⟨u, hu, rfl⟩ := ht
    have hk : u.key = k := h.keyed hu
    exact hk
  indexed := by
    intro z k
    rw [tasks_get?_flushAll]
    refine h.indexed.trans ⟨?_, ?_⟩
    · rintro ⟨t, ht, hz⟩
      exact ⟨{ t with flush := true }, by rw [ht]; rfl, hz⟩
    · rintro ⟨t, ht, hz⟩
      obtain ⟨u, hu, rfl⟩ := Option.map_eq_some_iff.mp ht
      exact ⟨u, hu, hz⟩
  apart := h.apart
  counted := by
    have hall : s.flushAll.2.waiting.countP (·.flush) = s.flushAll.2.waiting.length := by
      rw [List.countP_eq_length, waiting_flushAll]
      simp
    rw [hall, waiting_flushAll, List.length_map]
    simp [Schedule.flushAll, Schedule.size, Schedule.waiting, OrderedMap.size, OrderedMap.values]

/-- If the count is positive, there is a flushed task to be found. -/
theorem find?_flush (h : s.Consistent) (hc : 0 < s.flushCount) :
    ∃ t, s.waiting.find? (·.flush) = some t := by
  rw [h.counted, List.countP_pos_iff] at hc
  exact Option.isSome_iff_exists.mp (List.find?_isSome.mpr hc)

/-- Looking at the next task changes nothing. -/
theorem peek_snd (h : s.Consistent) : s.peek.2 = s := by
  unfold Schedule.peek
  split
  · next hc =>
    obtain ⟨t, ht⟩ := h.find?_flush hc
    rw [ht]
  · rfl

/-- The task that goes next is a waiting one. -/
theorem mem_of_peek (h : s.Consistent) (hp : s.peek.1 = some t) : t ∈ s.waiting := by
  unfold Schedule.peek at hp
  split at hp
  · next hc =>
    obtain ⟨u, hu⟩ := h.find?_flush hc
    rw [hu] at hp
    cases hp
    exact List.mem_of_find?_eq_some hu
  · exact List.mem_of_head? hp

/-- The task that goes next is taken exactly if it is flushed or due. -/
theorem next_of_peek (h : s.Consistent) (hp : s.peek.1 = some t) (now : Nat) :
    (t.flush = false ∧ now < t.due) ∧ s.next now = (none, s) ∨ (t.flush ∨ t.due ≤ now) ∧
      s.next now = (some { t with flush := false }, (s.without t).taken t.zone) := by
  have hpeek : s.peek = (some t, s) := Prod.ext hp h.peek_snd
  simp only [Schedule.next, hpeek, h.unschedule_eq (h.mem_of_peek hp)]
  split
  · next hnot => exact .inl ⟨by simpa using hnot, rfl⟩
  · next hready =>
    refine .inr ⟨?_, rfl⟩
    cases hf : t.flush with
    | true => exact .inl rfl
    | false => exact .inr (by simpa [hf] using hready)

/-- If no task goes next, none is taken. -/
theorem next_of_peek_none (h : s.Consistent) (hp : s.peek.1 = none) (now : Nat) :
    s.next now = (none, s) := by
  have hpeek : s.peek = (none, s) := Prod.ext hp h.peek_snd
  simp only [Schedule.next, hpeek]

/-- Taking a task moves one from those that wait to those that are taken. -/
theorem next_cases (h : s.Consistent) (now : Nat) :
    s.next now = (none, s) ∨ ∃ t ∈ s.waiting, (t.flush ∨ t.due ≤ now) ∧
      s.next now = (some { t with flush := false }, (s.without t).taken t.zone) := by
  cases hp : s.peek.1 with
  | none => exact .inl (h.next_of_peek_none hp now)
  | some t =>
    rcases h.next_of_peek hp now with ⟨-, he⟩ | ⟨hready, he⟩
    · exact .inl he
    · exact .inr ⟨t, h.mem_of_peek hp, hready, he⟩

/-- A consistent schedule stays so when a waiting task is taken. -/
protected theorem take (h : s.Consistent) (ht : t ∈ s.waiting) :
    ((s.without t).taken t.zone).Consistent :=
  (h.without ht).taken (by simp [isScheduled_without])

/-- To take a task leaves every zone its task. -/
theorem hasTask_take (h : s.Consistent) (ht : t ∈ s.waiting) (z : ZoneKey) :
    ((s.without t).taken t.zone).hasTask z = s.hasTask z := by
  by_cases hz : z = t.zone
  · simp [hasTask, isInFlight_taken, hz, h.isScheduled_iff.mpr ⟨t, ht, rfl⟩]
  · simp [hasTask, isScheduled_without, isInFlight_taken, hz]

/-- A consistent schedule stays so when somebody looks for a task to take. -/
protected theorem next (h : s.Consistent) (now : Nat) : (s.next now).2.Consistent := by
  rcases h.next_cases now with he | ⟨t, ht, _, he⟩ <;> rw [he]
  · exact h
  · exact h.take ht

/-- To hand a task back is to release its zone and let the task wait as what it has become. -/
theorem resubmit_eq (s : Schedule) (t : Task) (f : Task → Task) :
    s.resubmit t f = (s.release t.zone).2.schedule (s.returned t f) := rfl

/-- A consistent schedule stays so when a task is handed back, let in or not. -/
protected theorem resubmit (h : s.Consistent) (t : Task) (f : Task → Task) :
    (s.resubmit t f).2.Consistent :=
  (h.release t.zone).schedule _

/-- A task whose zone is marked as taken is never refused when it comes back. -/
theorem resubmit_of_isInFlight (h : s.Consistent) (hz : s.isInFlight t.zone) {f : Task → Task}
    (hf : (s.returned t f).zone = t.zone) :
    s.resubmit t f = (.ok (), (s.release t.zone).2.added (s.returned t f)) := by
  have hs : s.isScheduled t.zone = false := Bool.eq_false_iff.mpr fun hs => h.apart hs hz
  rw [resubmit_eq, (h.release t.zone).schedule_of_free]
  simp [hasTask, isInFlight_release, hf, hs]

end Consistent

end ZoneSigning.Schedule

namespace ZoneSigning.Outcome

variable {o : Outcome} {t : Task} {now maxBackoff : Nat} {f : Task → Task} {s : Schedule}

/-- A task that comes back after a step is still made for its zone. -/
theorem sameOrigin_returned (h : o.transition? now maxBackoff = some f) (s : Schedule) (t : Task) :
    (s.returned t f).SameOrigin t := by
  unfold Schedule.returned
  cases s.inFlight.get? t.zone with
  | none => exact sameOrigin_transition h t
  | some p =>
    obtain ⟨hz, hr⟩ := sameOrigin_transition h (p.fold t)
    obtain ⟨hz', hr'⟩ := Task.sameOrigin_fold p t
    exact ⟨hz.trans hz', hr.trans hr'⟩

/-- A task that is taken always comes back, unless its step has failed for good. -/
theorem resubmit_eq (hs : s.Consistent) (hz : s.isInFlight t.zone)
    (h : o.transition? now maxBackoff = some f) :
    s.resubmit t f = (.ok (), (s.release t.zone).2.added (s.returned t f)) :=
  hs.resubmit_of_isInFlight hz (sameOrigin_returned h s t).1

/-- A task that comes back waits with all those that have waited. -/
theorem mem_resubmit (hs : s.Consistent) (hz : s.isInFlight t.zone)
    (h : o.transition? now maxBackoff = some f) {u : Task} :
    u ∈ (s.resubmit t f).2.waiting ↔ u = s.returned t f ∨ u ∈ s.waiting := by
  have hfree : (s.release t.zone).2.isScheduled (s.returned t f).zone = false := by
    rw [(sameOrigin_returned h s t).1, Schedule.isScheduled_release]
    exact Bool.eq_false_iff.mpr fun hsched => hs.apart hsched hz
  rw [resubmit_eq hs hz h, (hs.release t.zone).mem_added hfree, Schedule.waiting_release]

/-- To release a zone leaves all other zones their tasks. -/
theorem hasTask_release {z : ZoneKey} (t : Task) (hz : s.hasTask z) :
    (s.release t.zone).2.hasTask z ∨ t.zone = z := by
  by_cases hzt : z = t.zone
  · exact .inr hzt.symm
  · rw [Schedule.hasTask_release_of_ne hzt]
    exact .inl hz

/-- Handing a task back leaves every zone its task, unless the step has failed for good. -/
theorem hasTask_settle (hs : s.Consistent) (o : Outcome) (t : Task) (now maxBackoff : Nat)
    {z : ZoneKey} (hz : s.hasTask z) :
    (o.settle t now maxBackoff s).hasTask z ∨ t.zone = z ∧ ∃ e, o = .fatal e := by
  unfold settle
  split
  · next f hf =>
    rw [Schedule.Consistent.resubmit_eq, (hs.release t.zone).hasTask_schedule,
      (sameOrigin_returned hf s t).1, Bool.or_eq_true, decide_eq_true_iff]
    exact .inl ((hasTask_release t hz).symm.imp_left Eq.symm)
  · cases o with
    | fatal e => exact (hasTask_release t hz).imp_right fun hzt => ⟨hzt, e, rfl⟩
    | _ => contradiction

/-- A consistent schedule stays so when a worker hands a task back or drops it. -/
theorem settle_consistent (hs : s.Consistent) (o : Outcome) (t : Task) (now maxBackoff : Nat) :
    (o.settle t now maxBackoff s).Consistent := by
  unfold settle
  split
  · exact hs.resubmit t _
  · exact hs.release t.zone

/-- When a worker hands a task back or drops it, only the mark of its zone is gone. -/
theorem isInFlight_settle (hs : s.Consistent) (hz : s.isInFlight t.zone) (o : Outcome)
    (now maxBackoff : Nat) (z : ZoneKey) :
    (o.settle t now maxBackoff s).isInFlight z = (z ≠ t.zone && s.isInFlight z) := by
  unfold settle
  split
  · next f hf => rw [resubmit_eq hs hz hf, Schedule.isInFlight_added, Schedule.isInFlight_release]
  · exact s.isInFlight_release t.zone z

end ZoneSigning.Outcome
