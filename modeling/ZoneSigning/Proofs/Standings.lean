import ZoneSigning.Proofs.ScheduleOperations

/-!
What the schedule has for one zone: no task, one that waits, or one that is taken, with what has been
asked of it. Each operation on the task of a zone changes what there is for this zone only. A
consistent schedule is determined by what it has for all the zones.
-/
namespace ZoneSigning

/-- What the schedule has for a zone. -/
inductive Standing where
  | free
  | waiting (t : Task)
  | taken (p : Pending)
deriving DecidableEq, Repr

namespace Standing

def asked (f : Task → Task) (note : Pending → Pending) : Standing → Standing
  | free => free
  | waiting t => waiting (f { t with flush := false })
  | taken p => taken (note p)

def moved (what : TaskKind) (due : Nat) : Standing → Standing :=
  asked (·.retarget what due) fun p => { p with interrupt := some what, interruptDue := due }

def flushed : Standing → Standing :=
  asked ({ · with flush := true }) ({ · with flush := true })

def given (t : Task) : Standing → Standing
  | free => waiting t
  | x => x

def dropped : Standing → Standing
  | waiting _ => free
  | x => x

def allFlushed : Standing → Standing
  | waiting t => waiting { t with flush := true }
  | x => x

end Standing

namespace Schedule

def standing (s : Schedule) (k : ZoneKey) : Standing :=
  (s.get? k).elim ((s.inFlight.get? k).elim .free .taken) .waiting

/-- The schedule `s'` has `x` for one zone, and what `s` has for all others. -/
structure Sets (s s' : Schedule) (z : ZoneKey) (x : Standing) : Prop where
  consistent : s'.Consistent
  self : s'.standing z = x
  other : ∀ {k}, k ≠ z → s'.standing k = s.standing k

variable {s s' : Schedule} {t : Task} {p : Pending} {z k : ZoneKey} {x y : Standing}

/-- What is set last for a zone counts. -/
theorem Sets.trans {s'' : Schedule} (h : s.Sets s' z x) (h' : s'.Sets s'' z y) :
    s.Sets s'' z y :=
  ⟨h'.consistent, h'.self, fun hk => (h'.other hk).trans (h.other hk)⟩

/-- What has been set for one zone is there, and for all others there is what there was. -/
theorem Sets.standing_eq (h : s.Sets s' z x) (k : ZoneKey) :
    s'.standing k = if k = z then x else s.standing k := by
  split
  · next hk => rw [hk, h.self]
  · next hk => exact h.other hk

private theorem get?_eq_none (h : s.isScheduled k = false) : s.get? k = none := by
  rw [get?, OrderedMap.contains_eq_false_iff.mp h]
  rfl

/-- For a zone whose task is taken there is that task's record. -/
theorem standing_of_taken (h : s.isScheduled k = false) (hp : s.inFlight.get? k = some p) :
    s.standing k = .taken p := by
  simp [standing, get?_eq_none h, hp]

/-- For a zone that owns no task there is nothing. -/
theorem standing_of_free (h : s.hasTask k = false) : s.standing k = .free := by
  obtain ⟨hs, hf⟩ := Bool.or_eq_false_iff.mp h
  simp [standing, get?_eq_none hs, OrderedMap.contains_eq_false_iff.mp hf]

namespace Consistent

/-- For the zone of a waiting task there is this task. -/
theorem standing_of_mem (h : s.Consistent) (ht : t ∈ s.waiting) : s.standing t.zone = .waiting t := by
  simp [standing, h.get?_eq_some_iff.mpr ⟨ht, rfl⟩]

/-- A zone has a waiting task, or a taken one, or none. -/
theorem standing_cases (h : s.Consistent) (k : ZoneKey) :
    (∃ t ∈ s.waiting, t.zone = k ∧ s.standing k = .waiting t) ∨
    (∃ p, s.isScheduled k = false ∧ s.inFlight.get? k = some p ∧ s.standing k = .taken p) ∨
    s.hasTask k = false ∧ s.standing k = .free := by
  obtain hk | ⟨t, ht, rfl⟩ := h.scheduled_cases k
  · right
    cases hp : s.inFlight.get? k with
    | some p => exact .inl ⟨p, hk, rfl, standing_of_taken hk hp⟩
    | none =>
      have hfree : s.hasTask k = false :=
        Bool.or_eq_false_iff.mpr ⟨hk, OrderedMap.contains_eq_false_iff.mpr hp⟩
      exact .inr ⟨hfree, standing_of_free hfree⟩
  · exact .inl ⟨t, ht, rfl, h.standing_of_mem ht⟩

/-- A waiting task that there is for a zone is found there. -/
theorem get?_of_standing (h : s.Consistent) (hx : s.standing k = .waiting t) : s.get? k = some t := by
  rcases h.standing_cases k with ⟨u, hu, rfl, he⟩ | ⟨p, -, -, he⟩ | ⟨-, he⟩ <;> rw [hx] at he <;>
    cases he
  exact h.get?_eq_some_iff.mpr ⟨hu, rfl⟩

/-- A zone for which there is a taken task has a mark, and no waiting task. -/
theorem inFlight_of_standing (h : s.Consistent) (hx : s.standing k = .taken p) :
    s.isScheduled k = false ∧ s.inFlight.get? k = some p := by
  rcases h.standing_cases k with ⟨u, -, -, he⟩ | ⟨q, hk, hq, he⟩ | ⟨-, he⟩ <;> rw [hx] at he <;>
    cases he
  exact ⟨hk, hq⟩

/-- A zone for which there is nothing owns no task. -/
theorem hasTask_of_standing (h : s.Consistent) (hx : s.standing k = .free) : s.hasTask k = false := by
  rcases h.standing_cases k with ⟨u, -, -, he⟩ | ⟨q, -, -, he⟩ | ⟨hk, -⟩
  · rw [hx] at he
    cases he
  · rw [hx] at he
    cases he
  · exact hk

/-- A zone is marked exactly if there is a taken task for it. -/
theorem isInFlight_iff_standing (h : s.Consistent) :
    s.isInFlight k ↔ ∃ p, s.standing k = .taken p := by
  constructor
  · intro hk
    obtain ⟨p, hp⟩ := OrderedMap.contains_iff.mp hk
    exact ⟨p, standing_of_taken (Bool.eq_false_iff.mpr fun hs => h.apart hs hk) hp⟩
  · rintro ⟨p, hp⟩
    exact OrderedMap.contains_iff.mpr ⟨p, (h.inFlight_of_standing hp).2⟩

/-- What the schedule has for a zone is all that there is to know of the zone. -/
theorem get?_congr (h : s.Consistent) (h' : s'.Consistent) (hx : s'.standing k = s.standing k) :
    s'.get? k = s.get? k ∧ s'.inFlight.get? k = s.inFlight.get? k := by
  rcases h.standing_cases k with ⟨t, ht, rfl, he⟩ | ⟨p, hk, hp, he⟩ | ⟨hk, he⟩ <;> rw [he] at hx
  · have hget := h'.get?_of_standing hx
    have ht' := h'.get?_eq_some_iff.mp hget
    have hnone {s : Schedule} (h : s.Consistent) (ht : t ∈ s.waiting) :
        s.inFlight.get? t.zone = none :=
      OrderedMap.contains_eq_false_iff.mp (h.not_isInFlight ht)
    exact ⟨hget.trans (h.get?_eq_some_iff.mpr ⟨ht, rfl⟩).symm,
      (hnone h' ht'.1).trans (hnone h ht).symm⟩
  · obtain ⟨hk', hp'⟩ := h'.inFlight_of_standing hx
    exact ⟨(get?_eq_none hk').trans (get?_eq_none hk).symm, hp'.trans hp.symm⟩
  · have hnone {s : Schedule} (hk : s.hasTask k = false) :
        s.get? k = none ∧ s.inFlight.get? k = none := by
      obtain ⟨hs, hf⟩ := Bool.or_eq_false_iff.mp hk
      exact ⟨get?_eq_none hs, OrderedMap.contains_eq_false_iff.mp hf⟩
    obtain ⟨hget, hfl⟩ := hnone hk
    obtain ⟨hget', hfl'⟩ := hnone (h'.hasTask_of_standing hx)
    exact ⟨hget'.trans hget.symm, hfl'.trans hfl.symm⟩

private theorem standing_congr (h : s.Consistent) (h' : s'.Consistent)
    (hwaiting : ∀ {t}, t.zone = k → (t ∈ s'.waiting ↔ t ∈ s.waiting))
    (hfl : s'.inFlight.get? k = s.inFlight.get? k) : s'.standing k = s.standing k := by
  have hget : s'.get? k = s.get? k := by
    refine Option.ext fun t => ?_
    rw [h'.get?_eq_some_iff, h.get?_eq_some_iff]
    exact and_congr_left hwaiting
  rw [standing, standing, hget, hfl]

/-- To do nothing leaves for a zone what there is. -/
protected theorem sets_self (h : s.Consistent) : s.Sets s k (s.standing k) where
  consistent := h
  self := rfl
  other _ := rfl

/-- To add a task sets it for its zone. -/
theorem sets_added (h : s.Consistent) (hz : s.hasTask t.zone = false) :
    s.Sets (s.added t) t.zone (.waiting t) := by
  have hs := (Bool.or_eq_false_iff.mp hz).1
  refine ⟨h.added hz, (h.added hz).standing_of_mem ((h.mem_added hs).mpr (.inl rfl)), ?_⟩
  intro k hk
  refine h.standing_congr (h.added hz) (fun {u} hu => ?_) rfl
  rw [h.mem_added hs, or_iff_right]
  rintro rfl
  exact hk hu.symm

/-- To remove a task leaves nothing for its zone. -/
theorem sets_without (h : s.Consistent) (ht : t ∈ s.waiting) :
    s.Sets (s.without t) t.zone .free := by
  refine ⟨h.without ht, standing_of_free ?_, ?_⟩
  · simp [hasTask, isScheduled_without, h.not_isInFlight ht]
  · intro k hk
    refine h.standing_congr (h.without ht) (fun {u} hu => ?_) rfl
    rw [h.mem_without ht, and_iff_left]
    rintro rfl
    exact hk hu.symm

/-- To record requests sets them for the zone. -/
theorem sets_noted (h : s.Consistent) (hz : s.isScheduled z = false)
    (hf : s.isInFlight z) (p : Pending) : s.Sets (s.noted z p) z (.taken p) := by
  refine ⟨h.noted hf p, standing_of_taken hz (OrderedMap.get?_insert_self ..), ?_⟩
  intro k hk
  exact h.standing_congr (h.noted hf p) (fun _ => .rfl) (OrderedMap.get?_insert_of_ne _ _ hk)

private theorem sets_taken (h : s.Consistent) (hz : s.isScheduled z = false) :
    s.Sets (s.taken z) z (.taken {}) := by
  refine ⟨h.taken hz, standing_of_taken hz (OrderedMap.get?_insert_self ..), ?_⟩
  intro k hk
  exact h.standing_congr (h.taken hz) (fun _ => .rfl) (OrderedMap.get?_insert_of_ne _ _ hk)

/-- To release a zone leaves nothing for it. -/
theorem sets_release (h : s.Consistent) (hp : s.standing z = .taken p) :
    s.Sets (s.release z).2 z .free := by
  have hs := (h.inFlight_of_standing hp).1
  refine ⟨h.release z, standing_of_free ?_, ?_⟩
  · simp [hasTask, isInFlight_release, hs]
  · intro k hk
    exact h.standing_congr (h.release z) (fun _ => .rfl) (OrderedMap.get?_erase_of_ne _ hk)

/-- To replace a task sets the new one for its zone. -/
theorem sets_replace (h : s.Consistent) {u : Task} (ht : t ∈ s.waiting)
    (hu : u.zone = t.zone) : s.Sets ((s.without t).added u) t.zone (.waiting u) := by
  have hwithout := h.sets_without ht
  have hfree : (s.without t).hasTask u.zone = false := by
    rw [hu]
    exact hwithout.consistent.hasTask_of_standing hwithout.self
  have hadded := hwithout.consistent.sets_added hfree
  rw [hu] at hadded
  exact hwithout.trans hadded

private theorem sets_ask (h : s.Consistent) {f : Task → Task} (hf : ∀ t, (f t).zone = t.zone)
    (note : Pending → Pending) (z : ZoneKey) :
    s.Sets (s.ask z f note).2 z ((s.standing z).asked f note) := by
  rcases h.ask_cases hf note z with ⟨t, ht, rfl, he⟩ | ⟨p, hs, hp, he⟩ | ⟨hfree, he⟩ <;> rw [he]
  · rw [h.standing_of_mem ht]
    exact h.sets_replace ht (hf _)
  · rw [standing_of_taken hs hp]
    exact h.sets_noted hs (OrderedMap.contains_iff.mpr ⟨p, hp⟩) _
  · have hself := h.sets_self (k := z)
    rwa [standing_of_free hfree] at hself ⊢

/-- To move the task of a zone changes only what there is for this zone. -/
theorem sets_reschedule (h : s.Consistent) (z : ZoneKey) (what : TaskKind) (due : Nat) :
    s.Sets (s.reschedule z what due).2 z ((s.standing z).moved what due) :=
  h.sets_ask (Task.zone_retarget what due) _ z

/-- Only a zone with a task can have it moved. -/
theorem standing_ne_free (h : s.Consistent) {what : TaskKind} {due : Nat}
    (hok : (s.reschedule z what due).1.isOk) : s.standing z ≠ .free := by
  intro hfree
  rcases h.reschedule_cases z what due with ⟨t, ht, rfl, -⟩ | ⟨p, hs, hp, -⟩ | ⟨-, he⟩
  · cases (h.standing_of_mem ht).symm.trans hfree
  · cases (standing_of_taken hs hp).symm.trans hfree
  · rw [he] at hok
    cases hok

/-- To flush the task of a zone changes only what there is for this zone. -/
theorem sets_flushZone (h : s.Consistent) (z : ZoneKey) :
    s.Sets (s.flushZone z).2 z (s.standing z).flushed :=
  h.sets_ask Task.zone_flushed _ z

/-- To let a task wait changes only what there is for its zone. -/
theorem sets_schedule (h : s.Consistent) (t : Task) :
    s.Sets (s.schedule t).2 t.zone ((s.standing t.zone).given t) := by
  have hbusy (hk : s.hasTask t.zone) (hx : (s.standing t.zone).given t = s.standing t.zone) :
      s.Sets (s.schedule t).2 t.zone ((s.standing t.zone).given t) := by
    rw [h.schedule_eq, if_pos hk, hx]
    exact h.sets_self
  rcases h.standing_cases t.zone with ⟨u, hu, hz, he⟩ | ⟨p, -, hp, he⟩ | ⟨hfree, he⟩
  · exact hbusy (Bool.or_eq_true_iff.mpr (.inl (h.isScheduled_iff.mpr ⟨u, hu, hz⟩))) (by rw [he]; rfl)
  · exact hbusy (Bool.or_eq_true_iff.mpr (.inr (OrderedMap.contains_iff.mpr ⟨p, hp⟩)))
      (by rw [he]; rfl)
  · rw [h.schedule_of_free hfree, he]
    exact h.sets_added hfree

/-- Only a zone without a task can get one. -/
theorem standing_eq_free (h : s.Consistent) (hok : (s.schedule t).1.isOk) :
    s.standing t.zone = .free := by
  rw [h.schedule_eq] at hok
  split at hok
  · cases hok
  · next hfree => exact standing_of_free (Bool.eq_false_iff.mpr hfree)

/-- To remove the task of a zone changes only what there is for this zone. -/
theorem sets_unscheduleZone (h : s.Consistent) (z : ZoneKey) :
    s.Sets (s.unscheduleZone z).2 z (s.standing z).dropped := by
  have hidle (hs : s.isScheduled z = false) (hx : (s.standing z).dropped = s.standing z) :
      s.Sets (s.unscheduleZone z).2 z (s.standing z).dropped := by
    rw [unscheduleZone_of_not_isScheduled hs, hx]
    exact h.sets_self
  rcases h.standing_cases z with ⟨t, ht, rfl, he⟩ | ⟨p, hs, -, he⟩ | ⟨hfree, he⟩
  · rw [h.unscheduleZone_eq ht, he]
    exact h.sets_without ht
  · exact hidle hs (by rw [he]; rfl)
  · exact hidle (Bool.or_eq_false_iff.mp hfree).1 (by rw [he]; rfl)

/-- To flush all tasks does so for every zone that has a waiting one. -/
theorem standing_flushAll (h : s.Consistent) (k : ZoneKey) :
    s.flushAll.2.standing k = (s.standing k).allFlushed := by
  rcases h.standing_cases k with ⟨t, ht, rfl, he⟩ | ⟨p, hs, hp, he⟩ | ⟨hfree, he⟩ <;> rw [he]
  · refine h.flushAll.standing_of_mem (t := { t with flush := true }) ?_
    rw [waiting_flushAll]
    exact List.mem_map_of_mem ht
  · exact standing_of_taken (s := s.flushAll.2) hs hp
  · exact standing_of_free (s := s.flushAll.2) hfree

/-- The task that a worker takes has waited. -/
theorem sets_next (h : s.Consistent) {now : Nat} (hnext : s.next now = (some t, s')) :
    ∃ u, s.standing t.zone = .waiting u ∧ t = { u with flush := false } ∧
      s.Sets s' t.zone (.taken {}) := by
  rcases h.next_cases now with he | ⟨u, hu, -, he⟩ <;> rw [hnext] at he
  · cases congrArg Prod.fst he
  · obtain ⟨ht, rfl⟩ := Prod.mk.inj he
    obtain rfl := Option.some.inj ht
    refine ⟨u, h.standing_of_mem hu, rfl, (h.sets_without hu).trans ?_⟩
    exact (h.without hu).sets_taken (by simp [isScheduled_without])

end Consistent

end Schedule

end ZoneSigning
