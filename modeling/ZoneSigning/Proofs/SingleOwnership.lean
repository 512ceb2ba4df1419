import Mathlib.Logic.ExistsUnique
import ZoneSigning.Proofs.Bystanders

/-!
A zone is marked as taken exactly while one worker holds its task. The invariant `Pool.Owned` ties
what the workers do to the marks of the schedule; it holds of every reachable moment, whatever the
collaborators answer.
-/
namespace ZoneSigning

namespace Pool

variable {σ : Type} {c : Collaborators σ} {p p' : Pool σ} {v w : Nat}

/-- The marks of the schedule and the tasks in the hands of the workers belong together. -/
structure Owned (p : Pool σ) : Prop where
  consistent : p.schedule.Consistent
  /-- What a worker holds is marked. -/
  marked : ∀ {w t}, p.held? w = some t → p.schedule.isInFlight t.zone
  /-- What is marked is held. -/
  held : ∀ {z}, p.schedule.isInFlight z → ∃ w t, p.held? w = some t ∧ t.zone = z
  /-- No two workers hold tasks of one zone. -/
  alone : ∀ {v w t u}, p.held? v = some t → p.held? w = some u → t.zone = u.zone → v = w
  resting : p.started = false → ∀ {w phase}, p.phase? w = some phase → phase = .off

namespace Owned

/-- Whether marks and hands belong together depends on the marks, on what is held, and on threads
that have not started. -/
theorem of_eq (h : p.Owned) (hs : p'.schedule.Consistent)
    (hmark : ∀ z, p'.schedule.isInFlight z = p.schedule.isInFlight z)
    (hheld : ∀ w, p'.held? w = p.held? w)
    (hresting : p'.started = false → ∀ {w phase}, p'.phase? w = some phase → phase = .off) :
    p'.Owned where
  consistent := hs
  marked := by
    intro w t ht
    rw [hheld] at ht
    rw [hmark]
    exact h.marked ht
  held := by
    intro z hz
    rw [hmark] at hz
    obtain ⟨w, t, ht, htz⟩ := h.held hz
    exact ⟨w, t, (hheld w).trans ht, htz⟩
  alone := by
    intro v w t u ht hu
    rw [hheld] at ht hu
    exact h.alone ht hu
  resting := hresting

/-- When the threads start, marks and hands still belong together. -/
theorem start (h : p.Owned) (hstart : p.start = .ok p') : p'.Owned := by
  obtain ⟨hoff, hp⟩ := start_eq_ok hstart
  have hs : p'.schedule = p.schedule := by rw [hp]
  have hnone (w : Nat) : p.held? w = none := by
    unfold held?
    cases hphase : p.phase? w with
    | none => rfl
    | some phase =>
      rw [h.resting hoff hphase]
      rfl
  refine h.of_eq (hs ▸ h.consistent) (fun z => by rw [hs]) (fun w => ?_) fun hfalse => ?_
  · rw [held?_start hstart, hnone]
  · rw [hp] at hfalse
    cases hfalse

/-- Taking a task marks its zone, which no other worker has a task of. -/
theorem take {t : Task} (h : p.Owned) (hnone : p.held? w = none)
    (hnext : p.schedule.next p.now = (some t, p'.schedule))
    (hheld : ∀ v, p'.held? v = if v = w then some t else p.held? v) (hon : p'.started) :
    p'.Owned := by
  rcases h.consistent.next_cases p.now with he | ⟨u, hu, -, he⟩ <;> rw [hnext] at he
  · cases congrArg Prod.fst he
  · obtain ⟨ht, hs⟩ := Prod.mk.inj he
    obtain rfl := Option.some.inj ht
    have hfree : p.schedule.isInFlight u.zone = false := h.consistent.not_isInFlight hu
    have hmark (z : ZoneKey) : p'.schedule.isInFlight z =
        (z = u.zone || p.schedule.isInFlight z) := by
      rw [hs, Schedule.isInFlight_taken, Schedule.isInFlight_without]
    -- Before, the zone was not marked, so that nobody held a task of it.
    have hother {v : Nat} {t : Task} (ht : p.held? v = some t) : t.zone ≠ u.zone := by
      intro hz
      have hmarked := h.marked ht
      simp [hz, hfree] at hmarked
    constructor
    case consistent =>
      rw [hs]
      exact h.consistent.take hu
    case marked =>
      intro v t ht
      rw [hheld] at ht
      rw [hmark]
      split at ht
      · obtain rfl := Option.some.inj ht
        simp
      · simp [h.marked ht]
    case held =>
      intro z hz
      rw [hmark, Bool.or_eq_true, decide_eq_true_iff] at hz
      rcases hz with rfl | hz
      · exact ⟨w, _, (hheld w).trans (if_pos rfl), rfl⟩
      · obtain ⟨v, t, ht, htz⟩ := h.held hz
        have hv : v ≠ w := by
          rintro rfl
          rw [hnone] at ht
          cases ht
        exact ⟨v, t, (hheld v).trans ((if_neg hv).trans ht), htz⟩
    case alone =>
      intro v v' t t' ht ht' hz
      rw [hheld] at ht ht'
      split at ht <;> split at ht'
      · next hv hv' => rw [hv, hv']
      · obtain rfl := Option.some.inj ht
        exact absurd hz.symm (hother ht')
      · obtain rfl := Option.some.inj ht'
        exact absurd hz (hother ht)
      · exact h.alone ht ht' hz
    case resting =>
      intro hoff
      rw [hon] at hoff
      cases hoff

/-- Handing a task back removes the mark of its zone. -/
theorem handBack {t : Task} (h : p.Owned) (ht : p.held? w = some t)
    (hs : p'.schedule.Consistent)
    (hmark : ∀ z, p'.schedule.isInFlight z = (z ≠ t.zone && p.schedule.isInFlight z))
    (hheld : ∀ v, p'.held? v = if v = w then none else p.held? v) (hon : p'.started) :
    p'.Owned where
  consistent := hs
  marked := by
    intro v u hu
    rw [hheld] at hu
    split at hu
    · cases hu
    · next hv =>
      have hz : u.zone ≠ t.zone := fun hz => hv (h.alone hu ht hz)
      simp [hmark, hz, h.marked hu]
  held := by
    intro z hz
    rw [hmark, Bool.and_eq_true, decide_eq_true_iff] at hz
    obtain ⟨v, u, hu, rfl⟩ := h.held hz.2
    have hv : v ≠ w := by
      rintro rfl
      rw [ht] at hu
      exact hz.1 (congrArg Task.zone (Option.some.inj hu)).symm
    exact ⟨v, u, (hheld v).trans ((if_neg hv).trans hu), rfl⟩
  alone := by
    intro v v' u u' hu hu'
    rw [hheld] at hu hu'
    split at hu <;> split at hu'
    · cases hu
    · cases hu
    · cases hu'
    · exact h.alone hu hu'
  resting := by
    intro hoff
    rw [hon] at hoff
    cases hoff

/-- The last section of a step, whatever the step has decided. -/
theorem settle {t : Task} {z : Zone} {o : Outcome} (h : p.Owned) (hon : p.started)
    (hphase : p.phase? w = some (.stepping t (.settling o))) : (p.settle w t o z).Owned := by
  have ht : p.held? w = some t := held?_of_phase? hphase
  have hstarted : (p.settle w t o z).started := by
    obtain ⟨_, _, _, he⟩ := p.settle_eq w t o z
    rw [he]
    exact hon
  refine h.handBack ht ?_ ?_ (p.held?_settle w t o z) hstarted <;> rw [settle_schedule]
  · split
    · exact h.consistent.release t.zone
    · exact Outcome.settle_consistent h.consistent o t p.now p.maxBackoff
  · split
    · exact p.schedule.isInFlight_release t.zone
    · exact Outcome.isInFlight_settle h.consistent (h.marked ht) o p.now p.maxBackoff

/-- A section of a worker changes the mark of a zone only together with what the worker holds. -/
theorem worker (h : p.Owned) (hstep : p.stepWorker c w = some p') : p'.Owned := by
  obtain ⟨x, hx, hsection⟩ := workerSection_of_step hstep
  have hphase := phase?_of_get hx
  have hon : p.started := by
    rw [← Bool.not_eq_false]
    exact fun hoff => hsection.phase_ne_off (h.resting hoff hphase)
  rcases hsection.ownership hx with
    ⟨t, s, hidle, hnext, rfl, hheld⟩ | ⟨t, z, o, hsettle, hz, rfl⟩ | ⟨hs, hheld⟩
  · have hnone : p.held? w = none := by
      rw [held?_of_phase? hphase, hidle]
      rfl
    exact h.take hnone hnext hheld ((hsection.started hx).trans hon)
  · exact h.settle hon (hsettle ▸ hphase)
  · refine h.of_eq (hs ▸ h.consistent) (fun z => by rw [hs]) hheld fun hoff => ?_
    rw [hsection.started hx, hon] at hoff
    cases hoff

end Owned

end Pool

namespace Moment

variable {σ : Type} {c : Collaborators σ} {m m' : Moment σ}

/-- In an engine that has just been made nothing is marked and nobody holds anything. -/
theorem owned_initial (h : m.Initial) : m.pool.Owned := by
  obtain ⟨around, now, workers, drudgers, maxBackoff, capacity, threshold, hpool⟩ := h.pool_eq
  have hnone {w : Nat} {t : Task} : m.pool.held? w ≠ some t := by
    rw [hpool, Pool.held?_ofLimits]
    nofun
  have hempty : m.pool.schedule = {} := by
    rw [hpool]
    rfl
  constructor
  case consistent =>
    rw [hempty]
    exact Schedule.consistent_empty
  case marked => exact fun ht => absurd ht hnone
  case held =>
    intro z hz
    rw [hempty] at hz
    cases hz
  case alone => exact fun ht => absurd ht hnone
  case resting =>
    rw [hpool]
    exact fun _ _ _ => Pool.phase?_ofLimits _ _ _ _ _ _ _

private theorem owned_aside (h : m.pool.Owned) (ha : m.Aside m') : m'.pool.Owned := by
  have hresting (hoff : m'.pool.started = false) {w : Nat} {phase : WorkerPhase}
      (hphase : m'.pool.phase? w = some phase) : phase = .off := by
    rw [ha.phase?_eq] at hphase
    exact h.resting (ha.started_eq ▸ hoff) hphase
  have hheld (w : Nat) : m'.pool.held? w = m.pool.held? w := by
    simp only [Pool.held?, ha.phase?_eq]
  rcases ha.asked with hs | ⟨op, hop, hs⟩
  · exact h.of_eq (hs ▸ h.consistent) (fun z => by rw [hs]) hheld hresting
  · refine h.of_eq (hs ▸ h.consistent.apply op) (fun z => ?_) hheld hresting
    rw [hs, hop.isInFlight_apply h.consistent]

variable [HasFiles σ]

/-- A move keeps marks and hands together. -/
theorem owned_step {move : Move σ} (h : m.pool.Owned) (hmove : move.isClosing = false)
    (hstep : m.step c move = some m') : m'.pool.Owned := by
  rcases step_cases hmove hstep with
    ⟨w, p', -, hp, rfl⟩ | ⟨p', -, hp, rfl⟩ | ⟨-, haside⟩
  · exact h.worker hp
  · exact h.start hp
  · exact owned_aside h haside

/-- At every moment that can be reached, marks and hands belong together. -/
theorem owned_of_reachable (h : Reachable c m) : m.pool.Owned := by
  induction h with
  | initial h => exact owned_initial h
  | step _ hmove hstep ih => exact owned_step ih hmove hstep

/-- However the sections of all threads are interleaved, and whatever the collaborators answer, a
zone is marked as taken exactly if one worker holds its task and no other does; so no two workers
are ever in steps of one zone. And a task whose step has ended, unless it has failed for good, is
never refused when it is handed back: its zone has a waiting task again, if it has not been removed
meanwhile. -/
theorem one_worker_each (h : Reachable c m) :
    (∀ z, m.pool.schedule.isInFlight z ↔ ∃! w, ∃ t, m.pool.held? w = some t ∧ t.zone = z) ∧
      (∀ {v w t u stage stage'}, m.pool.phase? v = some (.stepping t stage) →
        m.pool.phase? w = some (.stepping u stage') → t.zone = u.zone → v = w) ∧
      ∀ {w t o f}, m.pool.phase? w = some (.stepping t (.settling o)) →
        o.transition? m.pool.now m.pool.maxBackoff = some f →
        (m.pool.schedule.resubmit t f).1 = .ok () ∧
          ∀ {z m'}, m.pool.zone? t = some z → z.status ≠ .removed →
            m.step c (.worker w) = some m' → ∃ u ∈ m'.pool.schedule.waiting, u.SameOrigin t := by
  have hown := owned_of_reachable h
  refine ⟨fun z => ⟨fun hz => ?_, ?_⟩, fun ht hu hz => ?_, fun {w t o f} hphase hf => ?_⟩
  · obtain ⟨w, t, ht, htz⟩ := hown.held hz
    refine ⟨w, ⟨t, ht, htz⟩, ?_⟩
    rintro v ⟨u, hu, huz⟩
    exact hown.alone hu ht (huz.trans htz.symm)
  · rintro ⟨w, ⟨t, ht, rfl⟩, -⟩
    exact hown.marked ht
  · exact hown.alone (Pool.held?_of_phase? ht) (Pool.held?_of_phase? hu) hz
  · have hmark := hown.marked (Pool.held?_of_phase? hphase)
    have hback := Outcome.resubmit_eq hown.consistent hmark hf
    refine ⟨congrArg Prod.fst hback, fun {z m'} hz hlive hstep => ?_⟩
    obtain ⟨p', hp, rfl⟩ := Option.map_eq_some_iff.mp hstep
    obtain ⟨x, hx, hsome⟩ := Option.map_eq_some_iff.mp hphase
    have hsettle : p' = m.pool.settle w t o z := by
      simp only [Pool.stepWorker, hx, hsome, hz, Option.bind_some, Pool.stepStage,
        Option.some.injEq] at hp
      exact hp.symm
    refine ⟨_, ?_, Outcome.sameOrigin_returned hf m.pool.schedule t⟩
    rw [pool_withPool, hsettle, Pool.settle_schedule, if_neg hlive]
    simp only [Outcome.settle, hf]
    exact (Outcome.mem_resubmit hown.consistent hmark hf).mpr (.inl rfl)

/-- After its first pass, the engine for one zone has a moment at which its worker holds the zone's
task. -/
theorem one_worker_each_oneZone :
    ∃ m, oneZone.follow fileCollaborators (firstPass ++ [.worker 0]) = some m ∧
      Reachable fileCollaborators m ∧ m.pool.schedule.isInFlight (.of "a" .internet) ∧
      ∃! w, ∃ t, m.pool.held? w = some t ∧ t.zone = .of "a" .internet := by
  have hmark : (oneZone.follow fileCollaborators (firstPass ++ [.worker 0])).any
      (·.pool.schedule.isInFlight (.of "a" .internet)) := by decide +kernel
  obtain ⟨m, hm, hmark⟩ := (Option.any_eq_true _ _).mp hmark
  have hreach : Reachable fileCollaborators m :=
    (Reachable.initial oneZone_initial).follow (by decide) hm
  exact ⟨m, hm, hreach, hmark, ((one_worker_each hreach).1 _).mp hmark⟩

end Moment

end ZoneSigning
