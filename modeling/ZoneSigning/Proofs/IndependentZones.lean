import ZoneSigning.Proofs.ScheduleAnswers

/-!
Zones do not get in each other's way, although the schedule keeps the tasks of all of them in one
map by time, with one count of those that are flushed. An operation on the task of a zone sees, and
changes, only what the schedule has for this zone. As a schedule is determined by what it has for the
zones, operations on different zones can be done in any order.
-/
namespace ZoneSigning.Schedule

variable {s s' : Schedule} {t : Task} {y z : ZoneKey} {k : TaskKey}

namespace Consistent

private theorem tasks_get?_eq_some_iff (h : s.Consistent) :
    s.tasks.get? k = some t ↔ t ∈ s.waiting ∧ t.key = k := by
  constructor
  · intro hk
    exact ⟨mem_waiting.mpr ⟨k, hk⟩, h.keyed hk⟩
  · rintro ⟨ht, rfl⟩
    exact h.tasks_get?_key ht

/-- Two schedules that have the same for every zone are the same schedule. -/
theorem ext_standing (h : s.Consistent) (h' : s'.Consistent)
    (hx : ∀ z, s'.standing z = s.standing z) : s' = s := by
  have hwaiting (t : Task) : t ∈ s'.waiting ↔ t ∈ s.waiting := by
    have hget := (h.get?_congr h' (hx t.zone)).1
    have hmem : s.get? t.zone = some t ↔ t ∈ s.waiting := by simp [h.get?_eq_some_iff]
    have hmem' : s'.get? t.zone = some t ↔ t ∈ s'.waiting := by simp [h'.get?_eq_some_iff]
    rw [← hmem, ← hmem', hget]
  have htasks : s'.tasks = s.tasks := by
    apply OrderedMap.ext_get?
    intro k
    apply Option.ext
    intro t
    rw [h'.tasks_get?_eq_some_iff, h.tasks_get?_eq_some_iff, hwaiting]
  have hbyZone : s'.byZone = s.byZone := by
    apply OrderedMap.ext_get?
    intro z
    apply Option.ext
    intro k
    rw [h'.indexed, h.indexed, htasks]
  have hinFlight : s'.inFlight = s.inFlight :=
    OrderedMap.ext_get? fun z => (h.get?_congr h' (hx z)).2
  have hcount : s'.flushCount = s.flushCount := by
    rw [h'.counted, h.counted, waiting, waiting, htasks]
  cases s
  cases s'
  simp_all only

end Consistent

namespace Op

variable {op a b : Op} {answer answer' : Standing → Answer} {make make' : Standing → Standing}

/-- The operation sees, and changes, only what the schedule has for the zone. -/
structure ActsBy (op : Op) (z : ZoneKey) (answer : Standing → Answer) (make : Standing → Standing) :
    Prop where
  answers : ∀ {s : Schedule}, s.Consistent → (op.perform s).1 = answer (s.standing z)
  sets : ∀ {s : Schedule}, s.Consistent → s.Sets (op.apply s) z (make (s.standing z))

private theorem Concerns.actsBy (h : op.Concerns z) : ∃ answer make, op.ActsBy z answer make := by
  cases op with
  | schedule t =>
    obtain rfl := h
    refine ⟨fun x => .admitted (x.admission t), (·.given t), ?_, ?_⟩
    · exact fun hs => congrArg Answer.admitted (hs.fst_schedule t)
    · exact fun hs => hs.sets_schedule t
  | unschedule k =>
    obtain rfl := h
    refine ⟨fun x => .removed (x.removalAt k), (·.droppedAt k), ?_, ?_⟩
    · exact fun hs => congrArg Answer.removed (hs.fst_unschedule k)
    · exact fun hs => hs.sets_unschedule k
  | unscheduleZone y =>
    obtain rfl := h
    refine ⟨fun x => .removed (x.removal y), (·.dropped), ?_, ?_⟩
    · exact fun hs => congrArg Answer.removed (hs.fst_unscheduleZone y)
    · exact fun hs => hs.sets_unscheduleZone y
  | reschedule y what due =>
    obtain rfl := h
    refine ⟨fun x => .heard (x.hearing y), (·.moved what due), ?_, ?_⟩
    · exact fun hs => congrArg Answer.heard (hs.fst_ask (Task.zone_retarget what due) _ y)
    · exact fun hs => hs.sets_reschedule y what due
  | flushZone y =>
    obtain rfl := h
    refine ⟨fun x => .heard (x.hearing y), (·.flushed), ?_, ?_⟩
    · exact fun hs => congrArg Answer.heard (hs.fst_ask Task.zone_flushed _ y)
    · exact fun hs => hs.sets_flushZone y
  | release y =>
    obtain rfl := h
    refine ⟨fun x => .released x.requests?, (·.released), ?_, ?_⟩
    · exact fun hs => congrArg Answer.released (hs.fst_release y)
    · exact fun hs => hs.sets_released y
  | resubmit t f =>
    obtain ⟨rfl, hf⟩ := h
    refine ⟨fun x => .admitted (x.released.admission (x.returned t f)),
      fun x => x.released.given (x.returned t f), ?_, ?_⟩
    · exact fun hs => congrArg Answer.admitted (hs.resubmit_keeping hf).1
    · exact fun hs => (hs.resubmit_keeping hf).2
  | flushAll | peek | next | clear => exact h.elim

/-- What is done for another zone makes no difference to the answer. -/
theorem ActsBy.answer_after (hb : b.ActsBy z answer make) (ha : a.ActsBy y answer' make')
    (hne : y ≠ z) (h : s.Consistent) : (b.perform (a.apply s)).1 = (b.perform s).1 := by
  have hset := ha.sets h
  rw [hb.answers hset.consistent, hb.answers h, hset.other hne.symm]

private theorem ActsBy.apply_comm (ha : a.ActsBy y answer make) (hb : b.ActsBy z answer' make')
    (hne : y ≠ z) (h : s.Consistent) : b.apply (a.apply s) = a.apply (b.apply s) := by
  have hsa := ha.sets h
  have hsb := hb.sets h
  have hab := hb.sets hsa.consistent
  have hba := ha.sets hsb.consistent
  apply hba.consistent.ext_standing hab.consistent
  intro x
  rw [hab.standing_eq, hsa.other hne.symm, hba.standing_eq, hsb.other hne]
  by_cases hy : x = y
  · have hz : x ≠ z := hy ▸ hne
    rw [if_neg hz, if_pos hy, hsa.standing_eq, if_pos hy]
  · rw [if_neg hy, hsa.standing_eq, if_neg hy, hsb.standing_eq]

/-- An operation on the task of a zone can be put off until all is done for other zones. -/
theorem Concerns.foldl_comm {ops : List Op} (hop : op.Concerns z)
    (hops : ∀ a ∈ ops, ∃ y, y ≠ z ∧ a.Concerns y) (h : s.Consistent) :
    ops.foldl apply (op.apply s) = op.apply (ops.foldl apply s) := by
  induction ops generalizing s with
  | nil => rfl
  | cons a ops ih =>
    obtain ⟨y, hne, ha⟩ := hops a List.mem_cons_self
    obtain ⟨_, _, hop'⟩ := hop.actsBy
    obtain ⟨_, _, ha'⟩ := ha.actsBy
    rw [List.foldl_cons, List.foldl_cons, hop'.apply_comm ha' hne.symm h]
    exact ih (fun b hb => hops b (List.mem_cons_of_mem a hb)) (h.apply a)

/-- What is done for one zone can be done before all that is done for others. -/
theorem foldl_gather {ops : List (ZoneKey × Op)} (hops : ∀ p ∈ ops, p.2.Concerns p.1)
    (z : ZoneKey) (h : s.Consistent) :
    ((ops.filter (·.1 = z) ++ ops.filter (·.1 ≠ z)).map Prod.snd).foldl apply s =
      (ops.map Prod.snd).foldl apply s := by
  induction ops generalizing s with
  | nil => rfl
  | cons p ops ih =>
    have hp := hops p List.mem_cons_self
    have ih := ih (fun q hq => hops q (List.mem_cons_of_mem p hq)) (h.apply p.2)
    rw [List.map_cons, List.foldl_cons, ← ih]
    by_cases hz : p.1 = z
    · simp [hz]
    · have hothers : ∀ a ∈ (ops.filter (·.1 = z)).map Prod.snd, ∃ y, y ≠ p.1 ∧ a.Concerns y := by
        intro a ha
        obtain ⟨q, hq, rfl⟩ := List.mem_map.mp ha
        obtain ⟨hq, hqz⟩ := List.mem_filter.mp hq
        have hqz : q.1 = z := of_decide_eq_true hqz
        exact ⟨q.1, hqz ▸ Ne.symm hz, hops q (List.mem_cons_of_mem p hq)⟩
      simp [hz, hp.foldl_comm hothers h]

end Op

/-- Zones are independent, also two that have one name and differ in their class. Of two operations
on the tasks of different zones, each answers what it would answer without the other, and the
schedule after both is the same in either order, whatever has been done before. -/
theorem zones_are_independent (ops : List Op) {a b : Op} (ha : a.Concerns y) (hb : b.Concerns z)
    (hne : y ≠ z) :
    (b.perform (a.perform (run ops)).2).1 = (b.perform (run ops)).1 ∧
      (a.perform (b.perform (run ops)).2).1 = (a.perform (run ops)).1 ∧
      (b.perform (a.perform (run ops)).2).2 = (a.perform (b.perform (run ops)).2).2 := by
  have hrun := consistent_run ops
  obtain ⟨_, _, ha⟩ := ha.actsBy
  obtain ⟨_, _, hb⟩ := hb.actsBy
  simp only [Op.snd_perform]
  exact ⟨hb.answer_after ha hne hrun, ha.answer_after hb hne.symm hrun, ha.apply_comm hb hne hrun⟩

/-- The task of a zone comes back while the one of another class is moved. -/
theorem zones_are_independent_classes :
    let t : Task := { zone := ⟨.internet, "a"⟩, what := .read, due := 3 }
    let a : Op := .resubmit t (·.succeed .sign 5 5)
    let b : Op := .reschedule ⟨.chaos, "a"⟩ .read 5
    let s := run [.schedule t, .next 4, .schedule { t with zone := ⟨.chaos, "a"⟩ }]
    (b.perform (a.perform s).2).1 = (b.perform s).1 ∧
      (a.perform (b.perform s).2).1 = (a.perform s).1 ∧
      (b.perform (a.perform s).2).2 = (a.perform (b.perform s).2).2 :=
  zones_are_independent _ (y := ⟨.internet, "a"⟩) (z := ⟨.chaos, "a"⟩)
    ⟨rfl, fun u hu => (u.sameOrigin_succeed .sign 5 5).1.trans hu⟩ rfl (by decide)

end ZoneSigning.Schedule
