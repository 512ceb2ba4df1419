import ZoneSigning.Proofs.KeyOrder
import ZoneSigning.Proofs.ScheduleRuns

/-!
The order in which tasks are taken. Waiting tasks stand in the order of their keys. The first flushed
one goes next, or the first one at all if none is flushed, and a task that is neither flushed nor due
stays. Taking tasks for as long as there are any to take gives the flushed ones and then the due ones.
-/
namespace ZoneSigning

def Task.IsReady (t : Task) (now : Nat) : Prop := t.flush ∨ t.due ≤ now

private theorem TaskKey.Precedes.due_le {a b : TaskKey} (h : a.Precedes b) : a.due ≤ b.due := by
  rcases h with h | ⟨h, -⟩
  · exact Nat.le_of_lt h
  · exact Nat.le_of_eq h

namespace Schedule

variable {s s' : Schedule} {t u : Task} {now : Nat}

/-- The waiting task that goes next. -/
structure Foremost (s : Schedule) (t : Task) : Prop where
  waits : t ∈ s.waiting
  /-- A task that is not flushed goes only where none is flushed. -/
  unflushed : t.flush = false → ∀ u ∈ s.waiting, u.flush = false
  /-- Of the flushed tasks, or of all if none is flushed, it is the first one. -/
  precedes : ∀ u ∈ s.waiting, u.flush = t.flush → u ≠ t → t.key.Precedes u.key

/-- The task that goes next, with the waiting tasks that stand before and behind it. -/
structure Leads (s : Schedule) (before : List Task) (t : Task) (behind : List Task) : Prop where
  waiting : s.waiting = before ++ t :: behind
  skipped : ∀ u ∈ before, u.flush = false
  unflushed : t.flush = false → before = [] ∧ ∀ u ∈ behind, u.flush = false

/-- One task less waits, and its zone is one whose task is taken, with nothing asked of it yet. -/
structure Takes (s : Schedule) (t : Task) (s' : Schedule) : Prop where
  waiting : s'.waiting = s.waiting.erase t
  inFlight : ∀ z, s'.inFlight.get? z = if z = t.zone then some {} else s.inFlight.get? z

namespace Consistent

/-- Tasks wait in the order of their keys. -/
theorem waiting_ascending (h : s.Consistent) :
    s.waiting.Pairwise fun t u => t.key.Precedes u.key := by
  simp only [waiting, OrderedMap.values, List.pairwise_map]
  refine List.Pairwise.imp_of_mem ?_ s.tasks.ascending
  intro a b ha hb hlt
  have hkey {e : TaskKey × Task} (he : e ∈ s.tasks.toList) : e.2.key = e.1 :=
    h.keyed (OrderedMap.get?_eq_some_iff.mpr he)
  rw [hkey ha, hkey hb]
  exact TaskKey.compare_eq_lt_iff.mp hlt

private theorem waiting_nodup (h : s.Consistent) : s.waiting.Nodup :=
  List.Pairwise.of_map Task.zone (fun _ _ hne he => hne (congrArg Task.zone he)) h.zones_nodup

/-- The other tasks keep their order when a task is removed. -/
theorem waiting_without_eq (h : s.Consistent) (ht : t ∈ s.waiting) :
    (s.without t).waiting = s.waiting.erase t := by
  rw [h.waiting_nodup.erase_eq_filter]
  simp only [waiting, without, OrderedMap.values, OrderedMap.erase, OrderedMap.drop, List.filter_map]
  congr 1
  refine List.filter_congr fun e he => ?_
  have hget : s.tasks.get? e.1 = some e.2 := OrderedMap.get?_eq_some_iff.mpr he
  have hsame : t.key = e.1 ↔ e.2 = t := by
    constructor
    · intro hkey
      rw [← hkey, h.tasks_get?_key ht] at hget
      exact (Option.some.inj hget).symm
    · rintro rfl
      exact h.keyed hget
  rw [Bool.eq_iff_iff]
  simp [hsame]

/-- To mark the zone of a waiting task as taken, and remove the task, takes it. -/
theorem takes (h : s.Consistent) (ht : t ∈ s.waiting) :
    s.Takes t ((s.without t).taken t.zone) where
  waiting := h.waiting_without_eq ht
  inFlight z := by
    change (s.inFlight.insert t.zone {}).get? z = _
    simp [OrderedMap.get?_insert]

/-- Looking at the next task finds the one that goes next. -/
theorem peek_cases (h : s.Consistent) :
    s.peek.1 = none ∧ s.waiting = [] ∨
      ∃ before t behind, s.peek.1 = some t ∧ s.Leads before t behind := by
  unfold Schedule.peek
  split
  · next hc =>
    obtain ⟨t, ht⟩ := h.find?_flush hc
    obtain ⟨hflush, before, behind, hwaiting, hbefore⟩ := List.find?_eq_some_iff_append.mp ht
    rw [ht]
    refine .inr ⟨before, t, behind, rfl, hwaiting, fun u hu => by simpa using hbefore u hu, ?_⟩
    intro hnot
    cases hflush.symm.trans hnot
  · next hc =>
    have hnone : ∀ u ∈ s.waiting, u.flush = false := by
      have hcount := h.counted
      rw [Nat.eq_zero_of_not_pos hc, eq_comm, List.countP_eq_zero] at hcount
      exact fun u hu => Bool.eq_false_iff.mpr (hcount u hu)
    cases hwaiting : s.waiting with
    | nil => exact .inl ⟨rfl, rfl⟩
    | cons t behind =>
      rw [hwaiting] at hnone
      exact .inr ⟨[], t, behind, rfl, hwaiting, nofun, fun _ =>
        ⟨rfl, fun u hu => hnone u (List.mem_cons_of_mem _ hu)⟩⟩

/-- Either no task is ready and nothing happens, or the task that goes next is ready and taken. -/
theorem next_choice (h : s.Consistent) (now : Nat) :
    s.next now = (none, s) ∧ (∀ u ∈ s.waiting, ¬ u.IsReady now) ∨
    ∃ before t behind, s.next now = (some { t with flush := false }, (s.without t).taken t.zone) ∧
      t.IsReady now ∧ s.Leads before t behind := by
  rcases h.peek_cases with ⟨hp, hnil⟩ | ⟨before, t, behind, hp, hleads⟩
  · rw [hnil]
    exact .inl ⟨h.next_of_peek_none hp now, nofun⟩
  · rcases h.next_of_peek hp now with ⟨⟨hflush, hdue⟩, he⟩ | ⟨hready, he⟩
    · -- The first task of all is not due yet, and the others are due after it.
      obtain ⟨rfl, hbehind⟩ := hleads.unflushed hflush
      have hlater := h.waiting_ascending
      rw [hleads.waiting, List.nil_append, List.pairwise_cons] at hlater
      refine .inl ⟨he, fun u hu => ?_⟩
      rw [hleads.waiting, List.nil_append, List.mem_cons] at hu
      rcases hu with rfl | hu
      · simp [Task.IsReady, hflush, hdue]
      · have hle : t.due ≤ u.due := (hlater.1 u hu).due_le
        simp [Task.IsReady, hbehind u hu, Nat.lt_of_lt_of_le hdue hle]
    · exact .inr ⟨before, t, behind, he, hready, hleads⟩

/-- A task that leads all others is the one that goes next. -/
theorem foremost (h : s.Consistent) {before behind : List Task} (hleads : s.Leads before t behind) :
    s.Foremost t := by
  have hmem {u : Task} (hu : u ∈ s.waiting) : u ∈ before ∨ u = t ∨ u ∈ behind := by
    rwa [hleads.waiting, List.mem_append, List.mem_cons] at hu
  constructor
  case waits => exact hleads.waiting ▸ List.mem_append_right _ List.mem_cons_self
  case unflushed =>
    intro hflush u hu
    rcases hmem hu with hu | rfl | hu
    · exact hleads.skipped u hu
    · exact hflush
    · exact (hleads.unflushed hflush).2 u hu
  case precedes =>
    intro u hu hsame hne
    rcases hmem hu with hu | rfl | hu
    · have hflush : t.flush = false := hsame.symm.trans (hleads.skipped u hu)
      rw [(hleads.unflushed hflush).1] at hu
      cases hu
    · exact absurd rfl hne
    · have hasc := h.waiting_ascending
      rw [hleads.waiting, List.pairwise_append, List.pairwise_cons] at hasc
      exact hasc.2.1.1 u hu

end Consistent

private theorem tasks_peek (s : Schedule) : s.peek.2.tasks = s.tasks := by
  unfold peek
  split
  · split <;> rfl
  · rfl

/-- Each task that is taken leaves one task less that waits, so that taking tasks comes to an end. -/
theorem size_next (h : s.next now = (some t, s')) : s'.size < s.size := by
  unfold next at h
  have htasks := s.tasks_peek
  generalize s.peek = looked at h htasks
  obtain ⟨found, p⟩ := looked
  cases found with
  | none => cases h
  | some u =>
    dsimp only at h htasks
    split at h
    · cases h
    · unfold unschedule at h
      cases hk : p.tasks.get? u.key with
      | none =>
        rw [hk] at h
        cases h
      | some v =>
        rw [hk] at h
        cases h
        have hlength := (OrderedMap.values_erase_perm hk).length_eq
        simp only [OrderedMap.values, List.length_map, List.length_cons] at hlength
        simp only [size, OrderedMap.size, ← htasks, hlength, Nat.lt_succ_self]

def drain (s : Schedule) (now : Nat) : List Task × Schedule :=
  match _h : s.next now with
  | (none, s') => ([], s')
  | (some t, s') => (t :: (s'.drain now).1, (s'.drain now).2)
termination_by s.size
decreasing_by all_goals exact size_next _h

/-- What taking all that is ready gives, and what it leaves. -/
structure Drains (s : Schedule) (now : Nat) (ts : List Task) (s' : Schedule) : Prop where
  /-- First the flushed tasks, then those that are due, each in the order of their keys. -/
  given : ts = (s.waiting.filter (·.flush)).map ({ · with flush := false }) ++
    s.waiting.filter fun t => !t.flush && t.due ≤ now
  /-- The tasks that are not due yet stay. -/
  waiting : s'.waiting = s.waiting.filter fun t => !t.flush && now < t.due
  /-- The zones of the tasks that are given are those whose task is taken now. -/
  inFlight : ∀ z, s'.inFlight.get? z =
    if z ∈ ts.map Task.zone then some {} else s.inFlight.get? z
  /-- There is nothing more to take. -/
  done : s'.next now = (none, s')

/-- Where no task is ready, nothing is given and everything stays. -/
theorem drains_nothing (hnext : s.next now = (none, s)) (hnot : ∀ u ∈ s.waiting, ¬ u.IsReady now) :
    s.Drains now [] s := by
  have hlate {u : Task} (hu : u ∈ s.waiting) : u.flush = false ∧ now < u.due := by
    simpa [Task.IsReady] using hnot u hu
  have hflushed : s.waiting.filter (·.flush) = [] :=
    List.filter_eq_nil_iff.mpr fun u hu => by simp [hlate hu]
  have hdue : (s.waiting.filter fun t => !t.flush && t.due ≤ now) = [] :=
    List.filter_eq_nil_iff.mpr fun u hu => by simp [hlate hu]
  constructor
  case given => rw [hflushed, hdue, List.map_nil, List.append_nil]
  case waiting => exact (List.filter_eq_self.mpr fun u hu => by simp [hlate hu]).symm
  case inFlight => simp
  case done => exact hnext

/-- The task that goes next comes before all that are given after it. -/
theorem Takes.drains {ts : List Task} {before behind : List Task} {s'' : Schedule}
    (h : s.Takes t s') (hready : t.IsReady now) (hleads : s.Leads before t behind)
    (hnot : t ∉ before) (hdrains : s'.Drains now ts s'') :
    s.Drains now ({ t with flush := false } :: ts) s'' := by
  have hleft : s'.waiting = before ++ behind := by
    rw [h.waiting, hleads.waiting, List.erase_append_right _ hnot, List.erase_cons_head]
  have hnone {us : List Task} (hus : ∀ u ∈ us, u.flush = false) : us.filter (·.flush) = [] :=
    List.filter_eq_nil_iff.mpr fun u hu => by simp [hus u hu]
  constructor
  case given =>
    rw [hdrains.given, hleft, hleads.waiting]
    cases hflush : t.flush with
    | true => simp [hflush, hnone hleads.skipped]
    | false =>
      obtain ⟨rfl, hbehind⟩ := hleads.unflushed hflush
      have hdue : t.due ≤ now := hready.resolve_left (by simp [hflush])
      have hsame : { t with flush := false } = t := by rw [← hflush]
      simp [hflush, hnone hbehind, hdue, hsame]
  case waiting =>
    have hout : (!t.flush && decide (now < t.due)) = false := by
      rcases hready with hflush | hdue
      · simp [hflush]
      · simp [Nat.not_lt.mpr hdue]
    rw [hdrains.waiting, hleft, hleads.waiting]
    simp [hout]
  case inFlight =>
    intro z
    rw [hdrains.inFlight, h.inFlight]
    by_cases hz : z = t.zone
    · simp [hz]
    · simp [hz]
  case done => exact hdrains.done

private theorem Consistent.drains (h : s.Consistent) (now : Nat) :
    s.Drains now (s.drain now).1 (s.drain now).2 := by
  -- The recursion is on how many tasks wait; each task that is taken leaves a consistent schedule.
  fun_induction drain s now with
  | case1 s s' hnext =>
    obtain ⟨he, hnot⟩ | ⟨_, _, _, he, _⟩ := h.next_choice now
    · obtain rfl : s = s' := congrArg Prod.snd (he.symm.trans hnext)
      exact drains_nothing he hnot
    · cases he.symm.trans hnext
  | case2 s t s' hnext ih =>
    obtain ⟨he, _⟩ | ⟨before, u, behind, he, hready, hleads⟩ := h.next_choice now
    · cases he.symm.trans hnext
    · cases he.symm.trans hnext
      have hu := (h.foremost hleads).waits
      have hnot : u ∉ before := by
        have hnodup := h.waiting_nodup
        rw [hleads.waiting, List.nodup_append] at hnodup
        exact fun hmem => hnodup.2.2 u hmem u List.mem_cons_self rfl
      exact (h.takes hu).drains hready hleads hnot (ih (h.take hu))

/-- Whatever has been done with a schedule, tasks are taken in the order of their keys, the flushed
ones first. A call finds nothing, and changes nothing, exactly if no waiting task is flushed or due;
otherwise it takes the one that goes next, as it is but no longer flushed. Calls that go on until one
finds nothing come to an end. They give every flushed task and then every task that is due, and leave
those that are not. -/
theorem taken_in_order (ops : List Op) (now : Nat) :
    ((run ops).waiting.Pairwise fun t u => t.key.Precedes u.key) ∧
    (((run ops).next now).1 = none ↔ ∀ t ∈ (run ops).waiting, ¬ t.IsReady now) ∧
    (((run ops).next now).1 = none → ((run ops).next now).2 = run ops) ∧
    (∀ taken, ((run ops).next now).1 = some taken → ∃ t, (run ops).Foremost t ∧ t.IsReady now ∧
      taken = { t with flush := false } ∧ (run ops).Takes t ((run ops).next now).2) ∧
    (run ops).Drains now ((run ops).drain now).1 ((run ops).drain now).2 := by
  have h := consistent_run ops
  refine ⟨h.waiting_ascending, ?_⟩
  obtain ⟨he, hnot⟩ | ⟨before, t, behind, he, hready, hleads⟩ := h.next_choice now
  · have hdrains := h.drains now
    rw [he]
    exact ⟨⟨fun _ => hnot, fun _ => rfl⟩, fun _ => rfl, nofun, hdrains⟩
  · have hfore := h.foremost hleads
    have hdrains := h.drains now
    rw [he]
    refine ⟨⟨nofun, fun hall => absurd hready (hall t hfore.waits)⟩, nofun, ?_, hdrains⟩
    rintro _ ⟨rfl⟩
    exact ⟨t, hfore, hready, rfl, h.takes hfore.waits⟩

end Schedule

end ZoneSigning
