import ZoneSigning.Proofs.Bystanders

/-!
What a pass still owes. While a pass is in progress, some zones may have no task yet; the holder of
the list is going to give them one, unless it finds them removed.
-/
namespace ZoneSigning

/-- Whether the holder of the list may still have to give this zone a task. -/
def Errand.Owes : Errand → ZoneKey → Prop
  | merging .., _ => True
  | acting _ left, k => k ∈ left
  | judged _ z left, k | lacking _ z left, k => k = z.key ∨ k ∈ left
  | none, _ | reading .., _ | evicting .., _ | leaving .., _ | settling .., _ | serving .., _
  | admitting .., _ | flushing .., _ => False

/-- Nobody is owed a task while there is no pass. -/
theorem Errand.not_owes {e : Errand} (h : e.inPass = false) (k : ZoneKey) : ¬ e.Owes k := by
  cases e <;> first | exact not_false | cases h

/-- While a list is being merged, every zone is owed a task. -/
theorem Errand.owes_of_fresh? {e : Errand} (h : e.fresh? ≠ .none) (k : ZoneKey) : e.Owes k := by
  cases e <;> trivial

namespace Schedule

variable {s : Schedule} {z : ZoneKey}

private theorem failure_reschedule (h : s.Consistent) {what : TaskKind} {due : Nat}
    {e : ScheduleError} (he : (s.reschedule z what due).1 = .error e) : e.failure = .notFound := by
  rcases h.reschedule_cases z what due with ⟨t, -, -, hmove⟩ | ⟨p, -, -, hmove⟩ | ⟨-, hmove⟩ <;>
    rw [hmove] at he <;> cases he
  rfl

private theorem hasTask_of_reschedule (h : s.Consistent) {what : TaskKind} {due : Nat}
    (hfound : ∀ e, (s.reschedule z what due).1 = .error e → e.failure ≠ .notFound) :
    (s.reschedule z what due).2.hasTask z := by
  rw [(h.samePlaces_reschedule z what due).hasTask]
  cases hok : (s.reschedule z what due).1 with
  | ok => exact (h.ask_ok_iff (Task.zone_retarget what due) _ z).mp hok
  | error e => exact absurd (failure_reschedule h hok) (hfound e hok)

end Schedule

namespace Moment

variable {σ : Type} {c : Collaborators σ} {m m' : Moment σ} {move : Move σ} {k : ZoneKey}

/-- A zone owns a task, or the holder of the list owes it one. -/
def Cares (m : Moment σ) (k : ZoneKey) : Prop :=
  m.pool.schedule.hasTask k ∨ m.errand.Owes k

/-- A listed zone that is owed a task goes on to be owed one, as long as it is not in view. -/
theorem owes_proceed [HasFiles σ] (hrec : m.pool.Recorded) (hstep : m.proceed = some m')
    (hk : m.errand.Owes k) (hview : ∀ y, m.errand.zone? = some y → y.key ≠ k)
    (hz : m.errand.fresh? = .none → ∃ z, m.pool.zones.get? k = some z)
    (hz' : ∃ z, m'.pool.zones.get? k = some z) : m'.errand.Owes k := by
  have hleft {y : Zone} {left : List ZoneKey} (hy : m.errand.zone? = some y)
      (hk : k = y.key ∨ k ∈ left) : k ∈ left :=
    hk.resolve_left fun hkey => hview y hy hkey.symm
  cases proceeded_of_proceed hstep with
  | keep => trivial
  | addNew => exact OrderedMap.mem_keys.mpr hz'
  | look he hy =>
    rw [he] at hk
    rw [← hrec.keyed hy] at hk
    exact List.mem_cons.mp hk
  | miss he hnone =>
    rw [he] at hk
    refine List.mem_of_ne_of_mem ?_ hk
    rintro rfl
    obtain ⟨z, hz⟩ := hz (congrArg Errand.fresh? he)
    rw [hnone] at hz
    cases hz
  | drop he | ask he | content he | give he =>
    rw [he] at hk hleft
    exact hleft rfl hk
  | askInVain he | lack he =>
    rw [he] at hk
    exact hk
  | _ he =>
    rw [he] at hk
    cases hk

/-- The zone in view is given a task, goes on to be owed one, or has been found removed. -/
theorem cares_in_view [HasFiles σ] (hs : m.pool.schedule.Consistent)
    (hstep : m.proceed = some m') (hk : m.errand.Owes k) {y : Zone} (hy : m.errand.zone? = some y)
    (hkey : y.key = k) : m'.Cares k ∨ y.status = .removed := by
  subst hkey
  cases proceeded_of_proceed hstep with
  | drop he hremoved =>
    rw [he] at hy
    obtain rfl := Option.some.inj hy
    exact .inr hremoved
  | ask he _ hfound =>
    rw [he] at hy
    obtain rfl := Option.some.inj hy
    exact .inl (.inl (Schedule.hasTask_of_reschedule hs hfound))
  | content he _ htask =>
    rw [he] at hy
    obtain rfl := Option.some.inj hy
    exact .inl (.inl htask)
  | askInVain he | lack he =>
    rw [he] at hy
    obtain rfl := Option.some.inj hy
    exact .inl (.inr (.inl rfl))
  | give he =>
    rw [he] at hy
    obtain rfl := Option.some.inj hy
    exact .inl (.inl ((hs.hasTask_schedule _ _).trans (by simp)))
  | keep he | addNew he | look he | miss he | actedOn he =>
    rw [he] at hy
    cases hy
  | _ he =>
    rw [he] at hk
    cases hk

private theorem cares_proceed [HasFiles σ] (hs : m.pool.schedule.Consistent)
    (hrec : m.pool.Recorded) (hstep : m.proceed = some m') (hk : m.errand.Owes k) {z z' : Zone}
    (hz : m.errand.fresh? = .none → m.pool.zones.get? k = some z)
    (hz' : m'.pool.zones.get? k = some z') :
    m'.Cares k ∨ ∃ y, m.errand.zone? = some y ∧ y.key = k ∧ y.status = .removed := by
  by_cases hview : ∃ y, m.errand.zone? = some y ∧ y.key = k
  · obtain ⟨y, hy, hkey⟩ := hview
    exact (cares_in_view hs hstep hk hy hkey).imp_right fun hremoved => ⟨y, hy, hkey, hremoved⟩
  · refine .inl (.inr (owes_proceed hrec hstep hk ?_ (fun hfresh => ⟨z, hz hfresh⟩) ⟨z', hz'⟩))
    exact fun y hy hkey => hview ⟨y, hy, hkey⟩

/-- Beside the workers a zone keeps its task, unless the holder of the list has found it removed. -/
theorem hasTask_aside (ha : m.Aside m') (hs : m.pool.schedule.Consistent)
    (hk : m.pool.schedule.hasTask k) : m'.pool.schedule.hasTask k ∨
      ∃ y, m.errand.zone? = some y ∧ y.key = k ∧ y.status = .removed := by
  rcases ha.asked with he | ⟨op, hop, he⟩ <;> rw [he]
  · exact .inl hk
  · exact hop.hasTask_apply hs hk

/-- While a zone is owed a task, a move is one of the holder of the list, or leaves it at what it is
at. -/
theorem errand_of_owes [HasFiles σ] (hmove : move.isClosing = false)
    (hstep : m.step c move = some m')
    (hk : m.errand.Owes k) : m.proceed = some m' ∨ m'.errand = m.errand := by
  rcases errand_cases hmove hstep with ⟨w, p', -, -, rfl⟩ | ⟨-, hproceed⟩ | ⟨he, -⟩ | ⟨he, -⟩
  · exact .inr rfl
  · exact .inl hproceed
  · rw [he] at hk
    exact absurd hk not_false
  · exact .inr he

/-- A zone that is owed a task is not forgotten, unless it is found removed. -/
theorem cares_of_owes [HasFiles σ] (hs : m.pool.schedule.Consistent) (hrec : m.pool.Recorded)
    (hmove : move.isClosing = false) (hstep : m.step c move = some m') (hk : m.errand.Owes k)
    {z z' : Zone} (hz : m.errand.fresh? = .none → m.pool.zones.get? k = some z)
    (hz' : m'.pool.zones.get? k = some z') :
    m'.Cares k ∨ ∃ y, m.errand.zone? = some y ∧ y.key = k ∧ y.status = .removed := by
  rcases errand_of_owes hmove hstep hk with hproceed | he
  · exact cares_proceed hs hrec hproceed hk hz hz'
  · exact .inl (.inr (he ▸ hk))

end Moment

end ZoneSigning
