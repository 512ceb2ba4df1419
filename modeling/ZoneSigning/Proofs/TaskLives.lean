import ZoneSigning.Proofs.DeliveredRequests
import ZoneSigning.Proofs.ScheduleAnswers

/-!
The task of one zone, from where it waits to where it comes back. While it waits it can be moved and
flushed, and stays as it is in all else. Then a worker takes it, and hands it back with what has been
asked for in the meantime.
-/
namespace ZoneSigning.Schedule

def Op.alter (z : ZoneKey) (t : Task) : Op → Task
  | reschedule y what due => if y = z then ({ t with flush := false } : Task).retarget what due else t
  | flushZone y => if y = z then { t with flush := true } else t
  | flushAll => { t with flush := true }
  | _ => t

/-- A task of the zone waits after each of the operations. -/
def Waits (z : ZoneKey) (s : Schedule) : List Op → Prop
  | [] => True
  | op :: ops => (op.apply s).isScheduled z ∧ Waits z (op.apply s) ops

instance decidableWaits (z : ZoneKey) : (s : Schedule) → (ops : List Op) → Decidable (s.Waits z ops)
  | _, [] => .isTrue trivial
  | s, op :: ops =>
    have := decidableWaits z (op.apply s) ops
    inferInstanceAs (Decidable (_ ∧ _))

variable {s s' : Schedule} {t u : Task} {z y : ZoneKey} {x : Standing} {p : Pending} {op : Op}
  {ops : List Op}

/-- An operation that does not move the task can only flush it. -/
theorem Op.alter_of_still (hop : op.moves? z = none) (t : Task) :
    ∃ flush, op.alter z t = { t with flush := flush } := by
  cases op with
  | reschedule y what due =>
    have hy : y ≠ z := by
      rintro rfl
      simp [moves?] at hop
    exact ⟨t.flush, if_neg hy⟩
  | flushZone y =>
    by_cases hy : y = z
    · exact ⟨true, if_pos hy⟩
    · exact ⟨t.flush, if_neg hy⟩
  | flushAll => exact ⟨true, rfl⟩
  | _ => exact ⟨t.flush, rfl⟩

/-- A move retargets the waiting task, which is not flushed any more. -/
theorem Op.alter_of_move {what : TaskKind} {due : Nat} (hop : op.moves? z = some (what, due))
    (t : Task) : op.alter z t = ({ t with flush := false } : Task).retarget what due := by
  cases op with
  | reschedule y _ _ =>
    obtain ⟨hy, hmove⟩ := Option.ite_none_right_eq_some.mp hop
    cases hmove
    exact if_pos hy
  | _ => cases hop

/-- For a zone whose waiting task is found there is this task. -/
theorem standing_of_get? (ht : s.get? z = some t) : s.standing z = .waiting t := by
  rw [standing, ht]
  rfl

private theorem Sets.keeps (h : s.Sets s' y x) (hx : y = z → x = s.standing z) :
    s'.standing z = s.standing z := by
  rw [h.standing_eq]
  split
  · next hz => exact hx hz.symm
  · rfl

namespace Consistent

private theorem exists_standing (h : s.Consistent) (hz : s.isScheduled z) :
    ∃ t, s.standing z = .waiting t := by
  obtain ⟨t, ht, rfl⟩ := h.isScheduled_iff.mp hz
  exact ⟨t, h.standing_of_mem ht⟩

private theorem keeps_schedule (h : s.Consistent) (ht : s.standing z = .waiting t) (v : Task) :
    (s.schedule v).2.standing z = .waiting t := by
  refine ((h.sets_schedule v).keeps ?_).trans ht
  rintro rfl
  rw [ht]
  rfl

private theorem keeps_release (h : s.Consistent) (ht : s.standing z = .waiting t) (y : ZoneKey) :
    (s.release y).2.standing z = .waiting t := by
  refine ((h.sets_released y).keeps ?_).trans ht
  rintro rfl
  rw [ht]
  rfl

/-- A task that goes on waiting is moved or flushed, or nothing happens to it. -/
theorem standing_apply (h : s.Consistent) (ht : s.standing z = .waiting t)
    (hz : (op.apply s).isScheduled z) : (op.apply s).standing z = .waiting (op.alter z t) := by
  obtain ⟨u, hu⟩ := (h.apply op).exists_standing hz
  cases op with
  | schedule v => exact h.keeps_schedule ht v
  | unschedule k =>
    refine ((h.sets_unschedule k).keeps ?_).trans ht
    rintro rfl
    have hdropped := (h.sets_unschedule k).self.symm.trans hu
    rw [ht, Standing.droppedAt] at hdropped ⊢
    split at hdropped
    · cases hdropped
    · next hkey => rw [if_neg hkey]
  | unscheduleZone y =>
    refine ((h.sets_unscheduleZone y).keeps ?_).trans ht
    rintro rfl
    have hdropped := (h.sets_unscheduleZone y).self.symm.trans hu
    rw [ht] at hdropped
    cases hdropped
  | reschedule y what due =>
    refine ((h.sets_reschedule y what due).standing_eq z).trans ?_
    by_cases hy : y = z
    · simp only [hy, if_true, ht, Op.alter]
      rfl
    · simp only [Ne.symm hy, hy, if_false, ht, Op.alter]
  | flushZone y =>
    refine ((h.sets_flushZone y).standing_eq z).trans ?_
    by_cases hy : y = z
    · simp only [hy, if_true, ht, Op.alter]
      rfl
    · simp only [Ne.symm hy, hy, if_false, ht, Op.alter]
  | flushAll =>
    refine (h.standing_flushAll z).trans ?_
    rw [ht]
    rfl
  | peek =>
    have hsame : Op.peek.apply s = s := h.peek_snd
    rw [hsame]
    exact ht
  | next now =>
    rcases hnext : s.next now with ⟨_ | v, s'⟩
    · rcases h.next_cases now with he | ⟨v, -, -, he⟩
      · exact (congrArg (fun n => n.2.standing z) he).trans ht
      · cases (congrArg Prod.fst hnext).symm.trans (congrArg Prod.fst he)
    · obtain ⟨w, -, -, hsets⟩ := h.sets_next hnext
      have hs : Op.apply s (.next now) = s' := congrArg Prod.snd hnext
      rw [hs] at hu ⊢
      refine (hsets.keeps ?_).trans ht
      rintro rfl
      cases hsets.self.symm.trans hu
  | release y => exact h.keeps_release ht y
  | resubmit v f =>
    change (s.resubmit v f).2.standing z = _
    rw [resubmit_eq]
    exact (h.release v.zone).keeps_schedule (h.keeps_release ht v.zone) _
  | clear => cases hz

/-- The same, of several operations. -/
theorem standing_waited (h : s.Consistent) (ht : s.standing z = .waiting t) (hwaits : s.Waits z ops) :
    (ops.foldl Op.apply s).standing z = .waiting (ops.foldl (Op.alter z) t) := by
  induction ops generalizing s t with
  | nil => exact ht
  | cons op ops ih => exact ih (h.apply op) (h.standing_apply ht hwaits.1) hwaits.2

/-- Requests are recorded while the task is taken, and nothing else happens to it. -/
theorem standing_taken (h : s.Consistent) (hp : s.standing z = .taken p)
    (hleaves : ∀ op ∈ ops, op.Leaves z) :
    (ops.foldl Op.apply s).standing z = .taken (ops.foldl (Op.note z) p) := by
  have hget := (h.inFlight_of_standing hp).2
  have hz : s.isInFlight z := OrderedMap.contains_iff.mpr ⟨p, hget⟩
  have hflight := h.isInFlight_foldl hz hleaves
  have hmade := h.foldl_noted hz p hleaves
  rw [noted_self hget] at hmade
  refine standing_of_taken (Bool.eq_false_iff.mpr fun hs => (h.foldl ops).apart hs hflight) ?_
  rw [hmade]
  exact OrderedMap.get?_insert_self ..

/-- A task that is let in is what there is for its zone. -/
theorem standing_schedule (h : s.Consistent) (hok : (s.schedule t).1 = .ok ()) :
    (s.schedule t).2.standing t.zone = .waiting t := by
  have hfree := h.standing_eq_free (t := t) (by rw [hok]; rfl)
  rw [(h.sets_schedule t).self, hfree]
  rfl

/-- A task comes back to its zone unless another one waits there. -/
theorem resubmit_of_not_isScheduled (h : s.Consistent) (hz : s.isScheduled t.zone = false)
    {f : Task → Task} (hf : t.zone.Keeps f) :
    (s.resubmit t f).1 = .ok () ∧ (s.resubmit t f).2.standing t.zone = .waiting (s.returned t f) := by
  have hfree : (s.release t.zone).2.hasTask (s.returned t f).zone = false := by
    simp [hasTask, isInFlight_release, zone_returned hf, hz]
  have hok : (s.resubmit t f).1 = .ok () := by
    rw [resubmit_eq, (h.release t.zone).schedule_of_free hfree]
  have hback := (h.release t.zone).standing_schedule (t := s.returned t f) hok
  rw [zone_returned hf] at hback
  exact ⟨hok, hback⟩

end Consistent

/-- One round of the zone's task. It waits for a while, a worker takes it, and can hand it back. -/
structure Round (s : Schedule) (z : ZoneKey) where
  ahead : List Op
  now : Nat
  task : Task
  during : List Op
  waits : s.Waits z ahead
  taken : ((ahead.foldl Op.apply s).next now).1 = some task
  own : task.zone = z
  leaves : ∀ op ∈ during, op.Leaves z

namespace Round

def made (r : s.Round z) : Schedule :=
  r.during.foldl Op.apply ((r.ahead.foldl Op.apply s).next r.now).2

def asked (r : s.Round z) : Task := r.task.asked r.during

def back (r : s.Round z) (f : Task → Task) : Schedule := (r.made.resubmit r.task f).2

/-- The task goes through a transition and comes back as `t`. -/
structure Returns (r : s.Round z) (f : Task → Task) (t : Task) : Prop where
  accepted : (r.made.resubmit r.task f).1 = .ok ()
  scheduled : (r.back f).get? z = some t

/-- The task that is taken in a round is the one that there has been, as the operations before have
made it. -/
theorem task_eq (r : s.Round z) (h : s.Consistent) (ht : s.get? z = some t) :
    r.task = { r.ahead.foldl (Op.alter z) t with flush := false } := by
  obtain ⟨u, hu, htask, -⟩ := (h.foldl r.ahead).sets_next (Prod.ext r.taken rfl)
  rw [r.own, h.standing_waited (standing_of_get? ht) r.waits] at hu
  obtain rfl := Standing.waiting.inj hu
  exact htask

/-- The last kind of work and due time that were asked for are those that the task comes back with. -/
theorem interrupt_asked (r : s.Round z) {k : TaskKind} {due : Nat} :
    Op.lastMove? z r.during = some (k, due) →
      r.asked.interrupt = some k ∧ r.asked.interruptDue = due := by
  obtain ⟨ahead, now, t, during, -, -, rfl, -⟩ := r
  intro hmove
  simp only [asked, Task.asked, hmove, Option.elim_some, and_self]

/-- The schedule after a round is consistent. -/
theorem consistent_back (r : s.Round z) (h : s.Consistent) (f : Task → Task) :
    (r.back f).Consistent :=
  (((h.foldl r.ahead).next r.now).foldl r.during).resubmit r.task f

/-- The task always comes back, with what has been asked of it and through its transition. -/
theorem returns (r : s.Round z) (h : s.Consistent) {f : Task → Task} (hf : z.Keeps f) :
    r.Returns f (f r.asked) := by
  obtain ⟨ahead, now, t, during, -, htaken, rfl, hleaves⟩ := r
  obtain ⟨-, -, -, hsets⟩ := (h.foldl ahead).sets_next (Prod.ext htaken rfl)
  have hmade := hsets.consistent.foldl during
  have htaken := hsets.consistent.standing_taken hsets.self hleaves
  obtain ⟨hok, hback⟩ :=
    hmade.resubmit_of_not_isScheduled (hmade.inFlight_of_standing htaken).1 hf
  have hasked : Standing.returned t f (.taken (during.foldl (Op.note t.zone) {})) =
      f (t.asked during) := congrArg f (Op.fold_asked t during)
  rw [hmade.returned_eq, htaken, hasked] at hback
  exact ⟨hok, (hmade.resubmit t f).get?_of_standing hback⟩

end Round

end ZoneSigning.Schedule
