import ZoneSigning.Proofs.LiveZones

/-!
Removed zones are evicted safely. Only a merge removes a zone or takes back its removal, so that
whoever has looked at a zone goes on with what is still so; a zone that has been removed gets no
task any more, and it leaves the list only when it has none.
-/
namespace ZoneSigning

/-- The keys of the zones that have been found removed, and may be evicted. -/
def Errand.suspects : Errand → List ZoneKey
  | evicting _ doomed _ => doomed
  | leaving _ key doomed _ => key :: doomed
  | none | reading .. | merging .. | acting .. | judged .. | lacking .. | settling .. | serving ..
  | admitting .. | flushing .. => []

private theorem Errand.mem_suspects_of_doomed {e : Errand} {k : ZoneKey} (h : k ∈ e.doomed) :
    k ∈ e.suspects := by
  cases e with
  | evicting => exact h
  | leaving => exact List.mem_cons_of_mem _ h
  | _ => cases h

namespace Errand.Begins

variable {e : Errand}

private theorem live (h : e.Begins) {z : Zone} (hz : e.zone? = some z) : z.status ≠ .removed := by
  cases h with
  | serving _ _ hlive =>
    cases hz
    exact hlive
  | _ => cases hz

private theorem suspects_eq (h : e.Begins) : e.suspects = [] := by
  cases h <;> rfl

end Errand.Begins

namespace Schedule.Consistent

variable {s : Schedule} {y z : ZoneKey}

private theorem scheduled_of_schedule (h : s.Consistent) {t : Task}
    (hz : (s.schedule t).2.isScheduled z) : z = t.zone ∨ s.isScheduled z := by
  rw [h.schedule_eq] at hz
  split at hz
  · exact .inr hz
  · simpa [isScheduled_added] using hz

private theorem isScheduled_unscheduleZone (h : s.Consistent) (y z : ZoneKey) :
    (s.unscheduleZone y).2.isScheduled z = (z ≠ y && s.isScheduled z) := by
  obtain hy | ⟨t, ht, rfl⟩ := h.scheduled_cases y
  · rw [unscheduleZone_of_not_isScheduled hy]
    by_cases hzy : z = y
    · simp [hzy, hy]
    · simp [hzy]
  · rw [h.unscheduleZone_eq ht, isScheduled_without]

private theorem scheduled_of_settle (h : s.Consistent) {o : Outcome} {t : Task} {now maxBackoff : Nat}
    (hz : (o.settle t now maxBackoff s).isScheduled z) : z = t.zone ∨ s.isScheduled z := by
  unfold Outcome.settle at hz
  split at hz
  · next f hf =>
    rw [resubmit_eq] at hz
    rcases (h.release t.zone).scheduled_of_schedule hz with hz | hz
    · exact .inl (hz.trans (Outcome.sameOrigin_returned hf s t).1)
    · exact .inr hz
  · exact .inr hz

end Schedule.Consistent

namespace Pool

variable {σ : Type} {c : Collaborators σ} {p p' : Pool σ} {k : ZoneKey} {w : Nat} {z z' : Zone}

/-- A collaborator that keeps to the content leaves the status of the zone alone. -/
theorem Touch.status_eq {x : Worker} {t : Task} {s : ZoneState} (h : Touch c p x t z s)
    (hc : c.KeepsStatus) : s.status = z.status := by
  cases h with
  | load _ ho => exact (configured_frame ho).2
  | read _ hread =>
    have hstatus := hc.read z p.around
    rwa [hread] at hstatus
  | count => rfl
  | write _ _ hwrite ho | publish _ hwrite ho =>
    have hstatus := hc.write z p.around
    rw [hwrite] at hstatus
    exact (published_frame ho).2.trans hstatus

/-- A section of a worker leaves the status of a zone alone if the collaborators do. -/
theorem Works.status_eq (h : p.Works c w z z') (hc : c.KeepsStatus) : z'.status = z.status := by
  rcases h with rfl | ⟨x, t, -, -, -, hs, -⟩
  · rfl
  · exact hs.status_eq hc

/-- A worker gives a task only to a zone that it has found not to be removed. -/
theorem scheduled_of_worker (h : p.Owned) (hstep : p.stepWorker c w = some p')
    (hk : p'.schedule.isScheduled k) :
    p.schedule.isScheduled k ∨ ∃ t z, p.held? w = some t ∧ t.zone = k ∧ p.zone? t = some z ∧
      z.status ≠ .removed := by
  obtain ⟨x, hx, hsection⟩ := workerSection_of_step hstep
  rcases hsection.ownership hx with
    ⟨t, s, -, hnext, rfl, -⟩ | ⟨t, z, o, hphase, hz, rfl⟩ | ⟨hs, -⟩
  · left
    rcases h.consistent.next_cases p.now with he | ⟨u, hu, -, he⟩ <;> rw [hnext] at he
    · cases congrArg Prod.fst he
    · rw [(Prod.mk.inj he).2, Schedule.isScheduled_taken, Schedule.isScheduled_without,
        Bool.and_eq_true] at hk
      exact hk.2
  · rw [settle_schedule] at hk
    split at hk
    · exact .inl hk
    · next hlive =>
      rcases h.consistent.scheduled_of_settle hk with rfl | hk
      · exact .inr ⟨t, z, held?_of_phase? (hphase ▸ phase?_of_get hx), rfl, hz, hlive⟩
      · exact .inl hk
  · rw [hs] at hk
    exact .inl hk

end Pool

namespace Moment

variable {σ : Type} {c : Collaborators σ} {m m' : Moment σ} {move : Move σ} {k : ZoneKey}

/-- What the holder of the list goes on to after one of its sections. -/
inductive Advances (m m' : Moment σ) : Prop
  /-- It has no zone in view, and suspects none. -/
  | plain (hview : m'.errand.zone? = .none) (hsuspects : m'.errand.suspects = [])
  /-- It has looked at a zone. -/
  | look {now : Nat} {z : Zone} {left : List ZoneKey} (he : m'.errand = .judged now z left)
  /-- It has more to do for the zone in view; if it has judged the zone, that is not removed. -/
  | keep {z : Zone} (hview : m.errand.zone? = some z) (hview' : m'.errand.zone? = some z)
      (hlive : ∀ {now left}, m.errand = .judged now z left → z.status ≠ .removed)
      (hsuspects : m'.errand.suspects = [])
  /-- It suspects zones that it has found removed. -/
  | suspect (hview : m'.errand.zone? = .none) (hzones : m'.pool.zones = m.pool.zones)
      (hremoved : ∀ {k}, k ∈ m'.errand.suspects → k ∈ m.errand.suspects ∨
        ∃ z, m.pool.zones.get? k = some z ∧ z.status = .removed)

private theorem advances_proceed [HasFiles σ] (hstep : m.proceed = some m') : m.Advances m' := by
  have hsuspects {e : Errand} (he : m.errand = e) {k : ZoneKey} (hk : k ∈ e.suspects) :
      k ∈ m.errand.suspects := he ▸ hk
  cases proceeded_of_proceed hstep with
  | look => exact .look rfl
  | askInVain he hupdated =>
    exact .keep (congrArg Errand.zone? he) rfl (fun _ => by simp [hupdated]) rfl
  | lack he hstatus =>
    refine .keep (congrArg Errand.zone? he) rfl (fun _ => ?_) rfl
    rcases hstatus with hstatus | hstatus <;> simp [hstatus]
  | askRead he | askReadInVain he =>
    exact .keep (congrArg Errand.zone? he) rfl (fun hjudged => by simp [he] at hjudged) rfl
  | skip he | doom he => exact .suspect rfl rfl fun hk => .inl (hsuspects he hk)
  | spare he =>
    exact .suspect rfl rfl fun hk => .inl (hsuspects he (List.mem_cons_of_mem _ hk))
  | @suspect _ _ _ _ z he hz hremoved =>
    refine .suspect rfl rfl fun hk => ?_
    rcases List.mem_cons.mp hk with rfl | hk
    · exact .inr ⟨z, hz, hremoved⟩
    · exact .inl (hsuspects he hk)
  | _ => exact .plain rfl rfl

/-- Whoever has looked at a zone has found what is still so; a zone that has been found removed is
only judged or evicted; and a zone that has been removed loses its waiting task in the same pass. -/
structure Guarded (m : Moment σ) : Prop where
  seen : ∀ {y z}, m.errand.zone? = some y → m.pool.zones.get? y.key = some z →
    (z.status = .removed ↔ y.status = .removed)
  judging : ∀ {y}, m.errand.zone? = some y → y.status = .removed →
    ∃ now left, m.errand = .judged now y left
  suspected : ∀ {k}, k ∈ m.errand.suspects →
    ∃ z, m.pool.zones.get? k = some z ∧ z.status = .removed
  dropped : ∀ {k z}, m.pool.schedule.isScheduled k → m.pool.zones.get? k = some z →
    z.status = .removed → m.errand.Owes k

/-- Every scheduled or taken task is there, and it is the task of the very record that is listed
under its key; this is also the record whose status its worker finds. -/
structure NoOrphans (m : Moment σ) : Prop where
  owned : ∀ {k}, m.pool.schedule.hasTask k → ∃ t, m.pool.Owns t ∧ t.zone = k
  listed : ∀ {t}, m.pool.Owns t → ∃ z, m.pool.zones.get? t.zone = some z ∧ z.record = t.record ∧
    m.pool.zone? t = some z

private theorem status_of_changes {z z' : Zone} (h : m.Changes c move z z') (hc : c.KeepsStatus)
    (hfresh : m.errand.fresh? = .none) : z'.status = z.status ∨ z'.status = z.status.settled := by
  rcases changes_cases h with ⟨w, -, hworks⟩ | hkeeps
  · exact .inl (hworks.status_eq hc)
  · exact hkeeps.2.2 hfresh

variable [HasFiles σ]

/-- A listed zone stays removed, or stays not removed, as long as there is nothing to be merged. -/
theorem removed_iff_step (hrec : m.Recorded) (hc : c.KeepsStatus)
    (hstep : m.step c move = some m') (hfresh : m.errand.fresh? = .none) {z z' : Zone}
    (hz : m.pool.zones.get? k = some z) (hz' : m'.pool.zones.get? k = some z') :
    z'.status = .removed ↔ z.status = .removed := by
  rcases (step_follows hrec hstep).1.listed hz' with ⟨y, hy, -, hchanges⟩ | ⟨hnone, -⟩
  · obtain rfl := Option.some.inj (hz.symm.trans hy)
    rcases status_of_changes hchanges hc hfresh with hstatus | hstatus <;> rw [hstatus]
    exact z.status.settled_eq_removed_iff
  · rw [hz] at hnone
    cases hnone

private theorem guarded_seen (h : m.Guarded) (hanchored : m.Anchored) (hrec : m.Recorded)
    (hc : c.KeepsStatus) (hmove : move.isClosing = false) (hstep : m.step c move = some m')
    {y z' : Zone} (hy : m'.errand.zone? = some y) (hz' : m'.pool.zones.get? y.key = some z') :
    z'.status = .removed ↔ y.status = .removed := by
  rcases (step_turns hrec hmove hstep).seen hy with hview | ⟨hfresh, -, hlisted⟩
  · obtain ⟨z, hz, -⟩ := hanchored.seen hview
    have hfresh := m.errand.fresh?_of_zone? hview
    exact (removed_iff_step hrec hc hstep hfresh hz hz').trans (h.seen hview hz)
  · exact removed_iff_step hrec hc hstep hfresh hlisted hz'

private theorem guarded_judging (h : m.Guarded) (hmove : move.isClosing = false)
    (hstep : m.step c move = some m') {y : Zone} (hy : m'.errand.zone? = some y)
    (hremoved : y.status = .removed) : ∃ now left, m'.errand = .judged now y left := by
  rcases errand_cases hmove hstep with
    ⟨w, p', -, -, rfl⟩ | ⟨-, hproceed⟩ | ⟨-, hbegins, -, -⟩ | ⟨he, -, -⟩
  · exact h.judging hy hremoved
  · cases advances_proceed hproceed with
    | plain hview | suspect hview =>
      rw [hview] at hy
      cases hy
    | look he =>
      rw [he] at hy
      obtain rfl := Option.some.inj hy
      exact ⟨_, _, he⟩
    | keep hview hview' hlive =>
      obtain rfl := Option.some.inj (hview'.symm.trans hy)
      obtain ⟨now, left, he⟩ := h.judging hview hremoved
      exact absurd hremoved (hlive he)
  · exact absurd hremoved (hbegins.live hy)
  · rw [he] at hy ⊢
    exact h.judging hy hremoved

private theorem guarded_suspected (h : m.Guarded) (hrec : m.Recorded) (hc : c.KeepsStatus)
    (hmove : move.isClosing = false) (hstep : m.step c move = some m')
    (hk : k ∈ m'.errand.suspects) : ∃ z, m'.pool.zones.get? k = some z ∧ z.status = .removed := by
  rcases errand_cases hmove hstep with
    ⟨w, p', rfl, hp, rfl⟩ | ⟨-, hproceed⟩ | ⟨-, hbegins, -, -⟩ | ⟨he, hzones, -⟩
  · obtain ⟨z, hz, hremoved⟩ := h.suspected hk
    obtain ⟨z', hz', -, hworks⟩ := (step_follows hrec hstep).1.listed_stays not_false hz
    exact ⟨z', hz', (Pool.Works.status_eq hworks hc).trans hremoved⟩
  · cases advances_proceed hproceed with
    | look he =>
      rw [he] at hk
      cases hk
    | plain _ hsuspects | keep _ _ _ hsuspects =>
      rw [hsuspects] at hk
      cases hk
    | suspect _ hzones hremoved =>
      rw [hzones]
      exact (hremoved hk).elim h.suspected id
  · rw [hbegins.suspects_eq] at hk
    cases hk
  · rw [hzones]
    exact h.suspected (he ▸ hk)

/-- A removed zone whose task waits is one that the pass has still to judge. -/
theorem dropped_proceed (h : m.Guarded) (hs : m.pool.schedule.Consistent)
    (hrec : m.pool.Recorded) (hstep : m.proceed = some m') {z z' : Zone}
    (hz : m.pool.zones.get? k = some z) (hremoved : z.status = .removed)
    (hz' : m'.pool.zones.get? k = some z') (hk : m'.pool.schedule.isScheduled k) :
    m'.errand.Owes k := by
  by_cases hview : ∃ y, m.errand.zone? = some y ∧ y.key = k
  · -- The zone in view is the one that is judged now, so that its task is dropped.
    obtain ⟨y, hy, rfl⟩ := hview
    have hremoved := (h.seen hy hz).mp hremoved
    obtain ⟨now, left, he⟩ := h.judging hy hremoved
    simp only [proceed, he, judge, hremoved, Option.some.injEq] at hstep
    subst hstep
    have hdropped := (hs.isScheduled_unscheduleZone y.key y.key).symm.trans hk
    simp at hdropped
  · have hunseen (y : Zone) (hy : m.errand.zone? = some y) : y.key ≠ k :=
      fun hkey => hview ⟨y, hy, hkey⟩
    have hwaited : m.pool.schedule.isScheduled k := by
      rcases (aside_proceed hstep).asked with he | ⟨op, hop, he⟩ <;> rw [he] at hk
      · exact hk
      · exact (hop.isScheduled_of_apply hs hk).resolve_right hview
    exact owes_proceed hrec hstep (h.dropped hwaited hz hremoved) hunseen (fun _ => ⟨z, hz⟩)
      ⟨z', hz'⟩

/-- Every waiting task belongs to a zone that has been listed before. -/
theorem listed_before (hanchored : m.Anchored) (hown : m.pool.Owned) (hown' : m'.pool.Owned)
    (hmove : move.isClosing = false) (hstep : m.step c move = some m')
    (hk : m'.pool.schedule.isScheduled k) : ∃ z, m.pool.zones.get? k = some z := by
  obtain ⟨t, ht, rfl⟩ := hown'.consistent.isScheduled_iff.mp hk
  rcases owns_step hown hmove hstep (.inl ht) with ⟨u, hu, hkey, -⟩ | ⟨y, hy, hkey, -⟩ <;> rw [hkey]
  · obtain ⟨z, hz, -⟩ := hanchored.tasks hu
    exact ⟨z, hz⟩
  · obtain ⟨z, hz, -⟩ := hanchored.seen hy
    exact ⟨z, hz⟩

private theorem guarded_dropped (h : m.Guarded) (hanchored : m.Anchored) (hown : m.pool.Owned)
    (hrec : m.Recorded) (hc : c.KeepsStatus) (hmove : move.isClosing = false)
    (hstep : m.step c move = some m') (hk : m'.pool.schedule.isScheduled k) {z' : Zone}
    (hz' : m'.pool.zones.get? k = some z') (hremoved : z'.status = .removed) :
    m'.errand.Owes k := by
  cases hfresh : m.errand.fresh? with
  | some fresh =>
    have howes := m.errand.owes_of_fresh? (by simp [hfresh]) k
    rcases errand_of_owes hmove hstep howes with hproceed | he
    · refine owes_proceed hrec.pool hproceed howes (fun y hy => ?_) (fun hnone => ?_) ⟨z', hz'⟩
      · rw [m.errand.fresh?_of_zone? hy] at hfresh
        cases hfresh
      · rw [hfresh] at hnone
        cases hnone
    · exact he ▸ howes
  | none =>
    have hown' := owned_step hown hmove hstep
    obtain ⟨z, hz⟩ := listed_before hanchored hown hown' hmove hstep hk
    have hremoved := (removed_iff_step hrec hc hstep hfresh hz hz').mp hremoved
    rcases errand_cases hmove hstep with
      ⟨w, p', -, hp, rfl⟩ | ⟨-, hproceed⟩ | ⟨he, -, -, hs⟩ | ⟨he, -, hs⟩
    · rcases Pool.scheduled_of_worker hown hp hk with hk | ⟨t, y, ht, rfl, hy, hlive⟩
      · exact h.dropped hk hz hremoved
      · -- The worker has found the zone not to be removed.
        obtain ⟨x, hx, hlisted⟩ := Pool.zone?_of_lists (hanchored.tasks (.inr ⟨w, ht⟩))
        obtain rfl := Option.some.inj (hx.symm.trans hy)
        obtain rfl := Option.some.inj (hlisted.symm.trans hz)
        exact absurd hremoved hlive
    · exact dropped_proceed h hown.consistent hrec.pool hproceed hz hremoved hz' hk
    · rw [hs] at hk
      have howes := h.dropped hk hz hremoved
      rw [he] at howes
      exact absurd howes not_false
    · rw [hs] at hk
      exact he ▸ h.dropped hk hz hremoved

omit [HasFiles σ] in
private theorem guarded_initial (h : m.Initial) : m.Guarded := by
  obtain ⟨_, _, _, _, _, _, _, hpool⟩ := h.pool_eq
  constructor
  case seen =>
    intro y z hy
    rw [h.2] at hy
    cases hy
  case judging =>
    intro y hy
    rw [h.2] at hy
    cases hy
  case suspected =>
    intro k hk
    rw [h.2] at hk
    cases hk
  case dropped =>
    intro k z hk
    rw [hpool] at hk
    cases hk

/-- At every moment that can be reached, whoever has looked at a zone has found what is still so,
and a removed zone loses its waiting task in the same pass. -/
theorem guarded_of_reachable (hc : c.KeepsStatus) (h : Reachable c m) : m.Guarded := by
  induction h with
  | initial h => exact guarded_initial h
  | step hreach hmove hstep ih =>
    have hown := owned_of_reachable hreach
    have hrec := recorded_of_reachable hreach
    have hanchored := anchored_of_reachable hreach
    exact ⟨guarded_seen ih hanchored hrec hc hmove hstep, guarded_judging ih hmove hstep,
      guarded_suspected ih hrec hc hmove hstep,
      fun hk hz => guarded_dropped ih hanchored hown hrec hc hmove hstep hk hz⟩

/-- Whatever happens next, zones are evicted safely. -/
structure EvictsSafely (c : Collaborators σ) (m : Moment σ) : Prop where
  /-- Only a pass changes the status of a listed record, and only a merge does more than settle it. -/
  status : ∀ {move m' k z z'}, move.isClosing = false → m.step c move = some m' →
    m.pool.zones.get? k = some z → m'.pool.zones.get? k = some z' → z'.record = z.record ∧
      (z'.status ≠ z.status →
        move = .proceed ∧ (m.errand.fresh?.isSome ∨ z'.status = z.status.settled))
  /-- A zone that leaves the list is removed, and owns no task. -/
  evicted : ∀ {move m' k z}, move.isClosing = false → m.step c move = some m' →
    m.pool.zones.get? k = some z → m'.pool.zones.get? k = none →
      z.status = .removed ∧ m.pool.schedule.hasTask k = false
  /-- While no pass is in progress, no task of a removed zone waits. -/
  dropped : m.errand.inPass = false → ∀ {k z}, m.pool.zones.get? k = some z →
    z.status = .removed → m.pool.schedule.isScheduled k = false

omit [HasFiles σ] in
private theorem noOrphans (hanchored : m.Anchored) (hown : m.pool.Owned) : m.NoOrphans := by
  refine ⟨hown.hasTask_iff.mp, fun ht => ?_⟩
  obtain ⟨z, hz, hrecord⟩ := hanchored.tasks ht
  obtain ⟨y, hy, hlisted⟩ := Pool.zone?_of_lists ⟨z, hz, hrecord⟩
  obtain rfl := Option.some.inj (hz.symm.trans hlisted)
  exact ⟨z, hz, hrecord, hy⟩

private theorem status_step (hrec : m.Recorded) (hc : c.KeepsStatus) (hmove : move.isClosing = false)
    (hstep : m.step c move = some m') {z z' : Zone} (hz : m.pool.zones.get? k = some z)
    (hz' : m'.pool.zones.get? k = some z') : z'.record = z.record ∧
      (z'.status ≠ z.status →
        move = .proceed ∧ (m.errand.fresh?.isSome ∨ z'.status = z.status.settled)) := by
  rcases (step_follows hrec hstep).1.listed hz' with ⟨y, hy, hsame, hchanges⟩ | ⟨hnone, -⟩
  · obtain rfl := Option.some.inj (hz.symm.trans hy)
    refine ⟨hsame.2, fun hne => ?_⟩
    have hframe (hzones : m'.pool.zones = m.pool.zones) : z' = z := by
      rw [hzones, hz] at hz'
      exact (Option.some.inj hz').symm
    rcases errand_cases hmove hstep with
      ⟨w, p', rfl, -, -⟩ | ⟨rfl, -⟩ | ⟨-, -, hzones, -⟩ | ⟨-, hzones, -⟩
    · exact absurd (Pool.Works.status_eq hchanges hc) hne
    · refine ⟨rfl, ?_⟩
      cases hfresh : m.errand.fresh? with
      | some fresh => exact .inl rfl
      | none => exact .inr ((status_of_changes hchanges hc hfresh).resolve_left hne)
    · exact absurd (congrArg Zone.status (hframe hzones)) hne
    · exact absurd (congrArg Zone.status (hframe hzones)) hne
  · rw [hz] at hnone
    cases hnone

private theorem evicted_step (h : m.Guarded) (hanchored : m.Anchored) (hrec : m.Recorded)
    (hmove : move.isClosing = false) (hstep : m.step c move = some m') {z : Zone}
    (hz : m.pool.zones.get? k = some z) (hgone : m'.pool.zones.get? k = none) :
    z.status = .removed ∧ m.pool.schedule.hasTask k = false := by
  have hleaves : m.Leaves move k := by
    refine Classical.byContradiction fun hstays => ?_
    rw [(step_follows hrec hstep).1.stays hstays hgone] at hz
    cases hz
  have hdoomed := mem_doomed_of_leaves hmove hleaves
  obtain ⟨y, hy, hremoved⟩ := h.suspected (Errand.mem_suspects_of_doomed hdoomed)
  obtain rfl := Option.some.inj (hz.symm.trans hy)
  exact ⟨hremoved, hanchored.doomed hdoomed⟩

/-- At every moment that an engine can come to before its end begins, and whatever its collaborators
answer, no task is an orphan. If adapters leave the status of a zone alone, a worker always finds
what the last merge has made of the zone; and zones leave the list only while they are removed and
own no task, and while no pass is in progress no removed zone has a waiting one. -/
theorem no_orphan_tasks (h : Reachable c m) :
    m.NoOrphans ∧ (c.KeepsStatus → m.EvictsSafely c) := by
  have hown := owned_of_reachable h
  have hrec := recorded_of_reachable h
  have hanchored := anchored_of_reachable h
  refine ⟨noOrphans hanchored hown, fun hc => ?_⟩
  have hguarded := guarded_of_reachable hc h
  constructor
  case status =>
    intro move m' k z z' hmove hstep hz hz'
    exact status_step hrec hc hmove hstep hz hz'
  case evicted =>
    intro move m' k z hmove hstep hz hgone
    exact evicted_step hguarded hanchored hrec hmove hstep hz hgone
  case dropped =>
    intro hidle k z hz hremoved
    refine Bool.eq_false_iff.mpr fun hk => ?_
    exact Errand.not_owes hidle k (hguarded.dropped hk hz hremoved)

def oneZoneGone : FileStore :=
  { oneZoneFiles with
    nodes := oneZoneFiles.nodes.insert ["z"] (.file (.text "[]") 3)
    clock := 4 }

def secondPass : List (Move FileWorld) :=
  firstPass ++ [.happen { files := oneZoneGone }, .pass] ++ List.replicate 8 .proceed

/-- The engine for one zone evicts the zone when it is no longer in the inventory; just before, the
zone is removed and owns no task. -/
theorem no_orphan_tasks_oneZone :
    ∃ m m' z, oneZone.follow fileCollaborators secondPass = some m ∧
      m.step fileCollaborators .proceed = some m' ∧
      m.pool.zones.get? (.of "a" .internet) = some z ∧
      m'.pool.zones.get? (.of "a" .internet) = none ∧
      z.status = .removed ∧ m.pool.schedule.hasTask (.of "a" .internet) = false := by
  have hgone : (oneZone.follow fileCollaborators secondPass).any fun m =>
      (m.pool.zones.get? (.of "a" .internet)).isSome &&
        (m.step fileCollaborators .proceed).any fun m' =>
          (m'.pool.zones.get? (.of "a" .internet)).isNone := by decide +kernel
  obtain ⟨m, hm, hany⟩ := (Option.any_eq_true _ _).mp hgone
  obtain ⟨hsome, hany⟩ := Bool.and_eq_true_iff.mp hany
  obtain ⟨m', hstep, hnone⟩ := (Option.any_eq_true _ _).mp hany
  obtain ⟨z, hz⟩ := Option.isSome_iff_exists.mp hsome
  have hnone := Option.isNone_iff_eq_none.mp hnone
  have hreach : Reachable fileCollaborators m :=
    (Reachable.initial oneZone_initial).follow (by decide) hm
  have hsafe := (no_orphan_tasks hreach).2 fileCollaborators_onFiles.keepsStatus
  exact ⟨m, m', z, hm, hstep, hz, hnone, hsafe.evicted rfl hstep hz hnone⟩

end Moment

end ZoneSigning
