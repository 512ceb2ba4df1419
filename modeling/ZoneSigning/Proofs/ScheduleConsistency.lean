import ZoneSigning.Proofs.OrderedMap
import ZoneSigning.Schedule

/-!
The schedule keeps a map of tasks, an index by zone, a record of taken tasks and a count. Here is
what ties the four together, and what each operation does once they are tied: it is described by
the waiting task of each zone and by the requests recorded for each taken one.
-/
namespace ZoneSigning.Schedule

/-- The four parts of a schedule agree. -/
structure Consistent (s : Schedule) : Prop where
  /-- Every task is stored under its own present key. -/
  keyed : ∀ {k t}, s.tasks.get? k = some t → t.key = k
  /-- The index finds a key for a zone exactly if a task of the zone is stored there. -/
  indexed : ∀ {z k}, s.byZone.get? z = some k ↔ ∃ t, s.tasks.get? k = some t ∧ t.zone = z
  /-- No zone has a waiting task and a taken one. -/
  apart : ∀ {z}, s.isScheduled z → ¬ s.isInFlight z
  /-- The count is the number of flushed tasks that wait. -/
  counted : s.flushCount = s.waiting.countP (·.flush)

/-- Tasks with one key are tasks of one zone. -/
theorem zone_eq_of_key_eq {t u : Task} (h : t.key = u.key) : t.zone = u.zone := by
  obtain ⟨⟨c, n⟩, _⟩ := t
  obtain ⟨⟨c', n'⟩, _⟩ := u
  simp_all [Task.key]

def added (s : Schedule) (t : Task) : Schedule :=
  { s with
    tasks := s.tasks.insert t.key t
    byZone := s.byZone.insert t.zone t.key
    flushCount := if t.flush then s.flushCount + 1 else s.flushCount }

def without (s : Schedule) (t : Task) : Schedule :=
  { s with
    tasks := s.tasks.erase t.key
    byZone := s.byZone.erase t.zone
    flushCount := if t.flush then s.flushCount - 1 else s.flushCount }

@[simp] theorem isInFlight_added (s : Schedule) (t : Task) (z : ZoneKey) :
    (s.added t).isInFlight z = s.isInFlight z := rfl

@[simp] theorem isInFlight_without (s : Schedule) (t : Task) (z : ZoneKey) :
    (s.without t).isInFlight z = s.isInFlight z := rfl

/-- With a task added, its zone has a waiting one. -/
theorem isScheduled_added (s : Schedule) (t : Task) (z : ZoneKey) :
    (s.added t).isScheduled z = (z = t.zone || s.isScheduled z) := by
  by_cases hz : z = t.zone
  · simp [isScheduled, OrderedMap.contains, added, hz]
  · simp [isScheduled, OrderedMap.contains, added, hz, OrderedMap.get?_insert_of_ne]

/-- With a task removed, its zone has no waiting one. -/
theorem isScheduled_without (s : Schedule) (t : Task) (z : ZoneKey) :
    (s.without t).isScheduled z = (z ≠ t.zone && s.isScheduled z) := by
  by_cases hz : z = t.zone
  · simp [isScheduled, OrderedMap.contains, without, hz]
  · simp [isScheduled, OrderedMap.contains, without, hz, OrderedMap.get?_erase_of_ne]

/-- The waiting tasks are those held at some key. -/
theorem mem_waiting {s : Schedule} {t : Task} : t ∈ s.waiting ↔ ∃ k, s.tasks.get? k = some t :=
  OrderedMap.mem_values

namespace Consistent

variable {s : Schedule} {t u : Task} {z : ZoneKey} {k : TaskKey}

/-- A waiting task is held at its own key. -/
theorem tasks_get?_key (h : s.Consistent) (ht : t ∈ s.waiting) : s.tasks.get? t.key = some t := by
  obtain ⟨k, hk⟩ := mem_waiting.mp ht
  rw [h.keyed hk]
  exact hk

/-- The key of a waiting task is noted for its zone. -/
theorem byZone_get? (h : s.Consistent) (ht : t ∈ s.waiting) : s.byZone.get? t.zone = some t.key :=
  h.indexed.mpr ⟨t, h.tasks_get?_key ht, rfl⟩

/-- A zone has at most one waiting task. -/
theorem eq_of_zone_eq (h : s.Consistent) (ht : t ∈ s.waiting) (hu : u ∈ s.waiting)
    (hz : t.zone = u.zone) : t = u := by
  have hkey : t.key = u.key := by
    have htk := h.byZone_get? ht
    rw [hz, h.byZone_get? hu] at htk
    exact (Option.some.inj htk).symm
  have htask := h.tasks_get?_key ht
  rw [hkey, h.tasks_get?_key hu] at htask
  exact (Option.some.inj htask).symm

/-- The waiting tasks are tasks of different zones. -/
theorem zones_nodup (h : s.Consistent) : (s.waiting.map Task.zone).Nodup := by
  simp only [waiting, OrderedMap.values, List.map_map, List.Nodup, List.pairwise_map]
  refine List.Pairwise.imp_of_mem ?_ s.tasks.ascending
  intro a b ha hb hlt hz
  have hmem {e : TaskKey × Task} (he : e ∈ s.tasks.toList) : s.tasks.get? e.1 = some e.2 :=
    OrderedMap.get?_eq_some_iff.mpr he
  have htask : a.2 = b.2 :=
    h.eq_of_zone_eq (mem_waiting.mpr ⟨_, hmem ha⟩) (mem_waiting.mpr ⟨_, hmem hb⟩) hz
  have hkey : a.1 = b.1 := by rw [← h.keyed (hmem ha), ← h.keyed (hmem hb), htask]
  simp [hkey] at hlt

/-- The task found for a zone is the waiting one that is made for it. -/
theorem get?_eq_some_iff (h : s.Consistent) : s.get? z = some t ↔ t ∈ s.waiting ∧ t.zone = z := by
  constructor
  · intro hget
    obtain ⟨k, hk, ht⟩ := Option.bind_eq_some_iff.mp hget
    obtain ⟨u, hu, huz⟩ := h.indexed.mp hk
    obtain rfl : u = t := Option.some.inj (hu.symm.trans ht)
    exact ⟨mem_waiting.mpr ⟨k, ht⟩, huz⟩
  · rintro ⟨ht, rfl⟩
    simp [Schedule.get?, h.byZone_get? ht, h.tasks_get?_key ht]

/-- A zone is said to have a waiting task exactly if there is one. -/
theorem isScheduled_iff (h : s.Consistent) : s.isScheduled z ↔ ∃ t ∈ s.waiting, t.zone = z := by
  constructor
  · intro hz
    obtain ⟨k, hk⟩ := OrderedMap.contains_iff.mp hz
    obtain ⟨t, ht, htz⟩ := h.indexed.mp hk
    exact ⟨t, mem_waiting.mpr ⟨k, ht⟩, htz⟩
  · rintro ⟨t, ht, rfl⟩
    exact OrderedMap.contains_iff.mpr ⟨t.key, h.byZone_get? ht⟩

/-- The zone of a waiting task has no taken one. -/
theorem not_isInFlight (h : s.Consistent) (ht : t ∈ s.waiting) : s.isInFlight t.zone = false :=
  Bool.eq_false_iff.mpr (h.apart (h.isScheduled_iff.mpr ⟨t, ht, rfl⟩))

private theorem tasks_get?_eq_none (h : s.Consistent) (hz : s.isScheduled t.zone = false) :
    s.tasks.get? t.key = none := by
  cases hk : s.tasks.get? t.key with
  | none => rfl
  | some u =>
    have hzone : u.zone = t.zone := zone_eq_of_key_eq (h.keyed hk)
    have hs := h.isScheduled_iff.mpr ⟨u, mem_waiting.mpr ⟨_, hk⟩, hzone⟩
    simp [hz] at hs

/-- An added task waits with all that have waited. -/
theorem waiting_added (h : s.Consistent) (hz : s.isScheduled t.zone = false) :
    (s.added t).waiting.Perm (t :: s.waiting) :=
  OrderedMap.values_insert_perm t (h.tasks_get?_eq_none hz)

/-- Without a task all others wait. -/
theorem waiting_without (h : s.Consistent) (ht : t ∈ s.waiting) :
    s.waiting.Perm (t :: (s.without t).waiting) :=
  OrderedMap.values_erase_perm (h.tasks_get?_key ht)

/-- A consistent schedule stays so when a task of a zone that owns none is added. -/
protected theorem added (h : s.Consistent) (hz : s.hasTask t.zone = false) :
    (s.added t).Consistent := by
  obtain ⟨hs, hf⟩ := Bool.or_eq_false_iff.mp hz
  constructor
  case keyed =>
    intro k u hu
    simp only [Schedule.added, OrderedMap.get?_insert, Std.LawfulEqOrd.compare_eq_iff_eq] at hu
    split at hu
    · next hk => rw [← Option.some.inj hu, hk]
    · exact h.keyed hu
  case indexed =>
    intro z k
    by_cases hzt : z = t.zone
    · subst hzt
      simp only [Schedule.added, OrderedMap.get?_insert_self, Option.some.injEq]
      constructor
      · rintro rfl
        exact ⟨t, OrderedMap.get?_insert_self .., rfl⟩
      · rintro ⟨u, hu, huz⟩
        by_cases hk : k = t.key
        · exact hk.symm
        · rw [OrderedMap.get?_insert_of_ne _ _ hk] at hu
          have hsched := h.isScheduled_iff.mpr ⟨u, mem_waiting.mpr ⟨k, hu⟩, huz⟩
          simp [hs] at hsched
    · simp only [Schedule.added, OrderedMap.get?_insert_of_ne _ _ hzt, h.indexed]
      by_cases hk : k = t.key
      · subst hk
        simp [h.tasks_get?_eq_none hs, Ne.symm hzt]
      · rw [OrderedMap.get?_insert_of_ne _ _ hk]
  case apart =>
    intro z hz
    rw [isScheduled_added, Bool.or_eq_true, decide_eq_true_iff] at hz
    rw [isInFlight_added]
    rcases hz with rfl | hz
    · simp [hf]
    · exact h.apart hz
  case counted =>
    rw [(h.waiting_added hs).countP_eq]
    simp only [Schedule.added, List.countP_cons, ← h.counted]
    split <;> rfl

/-- A consistent schedule stays so without one of its waiting tasks. -/
protected theorem without (h : s.Consistent) (ht : t ∈ s.waiting) : (s.without t).Consistent := by
  constructor
  case keyed =>
    intro k u hu
    simp only [Schedule.without, OrderedMap.get?_erase] at hu
    split at hu
    · cases hu
    · exact h.keyed hu
  case indexed =>
    intro z k
    by_cases hzt : z = t.zone
    · subst hzt
      simp only [Schedule.without, OrderedMap.get?_erase_self, reduceCtorEq, false_iff]
      rintro ⟨u, hu, huz⟩
      have hk : k ≠ t.key := by
        rintro rfl
        simp at hu
      rw [OrderedMap.get?_erase_of_ne _ hk] at hu
      have hut := h.eq_of_zone_eq (mem_waiting.mpr ⟨k, hu⟩) ht huz
      exact hk (hut ▸ (h.keyed hu).symm)
    · simp only [Schedule.without, OrderedMap.get?_erase_of_ne _ hzt, h.indexed]
      by_cases hk : k = t.key
      · subst hk
        simp [h.tasks_get?_key ht, Ne.symm hzt]
      · rw [OrderedMap.get?_erase_of_ne _ hk]
  case apart =>
    intro z hz
    rw [isScheduled_without, Bool.and_eq_true] at hz
    exact h.apart hz.2
  case counted =>
    have hcount := h.counted
    rw [(h.waiting_without ht).countP_eq, List.countP_cons] at hcount
    change (if t.flush then s.flushCount - 1 else s.flushCount) = _
    rw [hcount]
    split <;> simp

end Consistent

end ZoneSigning.Schedule
