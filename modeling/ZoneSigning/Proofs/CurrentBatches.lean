import ZoneSigning.Proofs.AnchoredTasks

/-!
While the names of a batch are signed, the zone stays as it is: the worker that has begun the step
only waits for signatures, and no other worker has a task of the zone. So until the end of the engine
begins, a zone that is published still calls for the batch that has been signed.
-/
namespace ZoneSigning

def WorkerPhase.batch? : WorkerPhase → Option Batch
  | stepping _ (.signing batch _) => some batch
  | stepping _ (.awaiting batch) => some batch
  | stepping _ (.publishing batch) => some batch
  | _ => none

namespace Pool

variable {σ : Type} {c : Collaborators σ} {p p' : Pool σ} {w : Nat} {x : Worker}

/-- The batches that workers are at are those that their zones call for. -/
def Current (p : Pool σ) : Prop :=
  ∀ {w phase t batch z}, p.phase? w = some phase → phase.task? = some t →
    phase.batch? = some batch → p.zone? t = some z → z.state.batch z.key = .ok batch

/-- The worker has been at the batch before, or the zone has just called for it. Nothing has been
written to the zone but the number of signatures. -/
theorem batch_before {phase : WorkerPhase} {t : Task} {batch : Batch}
    (hsection : WorkerSection c p w x p') (hphase' : p'.phase? w = some phase)
    (ht : phase.task? = some t) (hbatch : phase.batch? = some batch) :
    x.phase.task? = some t ∧ x.phase ≠ .stepping t .consulting ∧
      (∀ batch, x.phase ≠ .stepping t (.publishing batch)) ∧
      (x.phase.batch? = some batch ∨ ∃ z, p.zone? t = some z ∧ z.state.batch z.key = .ok batch) := by
  have hcollect {u : Task} {z : Zone} {b : Batch} {tally : JobTally}
      (hp : (p.collect w u b tally z).phase? w = some phase) : u = t ∧ b = batch := by
    obtain ⟨⟨⟩⟩ | ⟨_, ⟨⟩⟩ := eq_of_phase?_collect hp
    · exact ⟨Option.some.inj ht, Option.some.inj hbatch⟩
    · cases hbatch
  cases hsection with
  | appoint hphase hz _ hcalls =>
    cases eq_of_phase?_setWorker hphase'
    cases ht
    cases hbatch
    simp only [hphase]
    exact ⟨rfl, nofun, nofun, .inr ⟨_, hz, hcalls⟩⟩
  | signInline hphase | handOver hphase | wait hphase =>
    cases eq_of_phase?_goTo hphase'
    cases ht
    cases hbatch
    simp only [hphase]
    exact ⟨rfl, nofun, nofun, .inl rfl⟩
  | collect hphase | gather hphase =>
    obtain ⟨rfl, rfl⟩ := hcollect hphase'
    simp only [hphase]
    exact ⟨rfl, nofun, nofun, .inl rfl⟩
  | take | leave =>
    cases eq_of_phase?_setWorker hphase'
    cases hbatch
  | prepare | retreat | refuse | giveUp | load | read | write | publish =>
    cases eq_of_phase?_goTo hphase'
    cases hbatch
  | settle =>
    obtain ⟨_, rfl⟩ := eq_of_phase?_settle hphase'
    cases hbatch
  | tell =>
    cases eq_of_phase?_tell hphase'
    cases hbatch

private theorem Touch.batch_eq {t : Task} {z : Zone} {s : ZoneState} (h : Touch c p x t z s)
    (hconsulting : x.phase ≠ .stepping t .consulting)
    (hpublishing : ∀ batch, x.phase ≠ .stepping t (.publishing batch)) :
    s.batch z.key = z.state.batch z.key := by
  cases h with
  | load hphase => exact absurd hphase hconsulting
  | read hphase => exact absurd hphase hconsulting
  | write hphase => exact absurd hphase hconsulting
  | publish hphase => exact absurd hphase (hpublishing _)
  | count => rfl

end Pool

namespace Moment

variable {σ : Type} {c : Collaborators σ} {m m' : Moment σ} {w : Nat} {t : Task} {z z' : Zone}

private theorem zone_of_held (hanchored : m.Anchored) (hrec : m.Recorded)
    (ht : m.pool.held? w = some t) :
    ∃ z, m.pool.zone? t = some z ∧ m.pool.Has z ∧ z.key = t.zone ∧ z.record = t.record := by
  obtain ⟨z, hz, hlisted⟩ := Pool.zone?_of_lists (hanchored.tasks (.inr ⟨w, ht⟩))
  obtain ⟨hhas, hrecord⟩ := Pool.has_of_zone? hz
  exact ⟨z, hz, hhas, hrec.pool.keyed hlisted, hrecord⟩

private theorem zone_before {R : Zone → Zone → Prop} {gone : ZoneKey → Prop}
    (hanchored : m.Anchored) (hrec : m.Recorded) (hrec' : m'.Recorded)
    (hf : m.pool.Follows R gone m'.pool) (ht : m.pool.held? w = some t)
    (hz' : m'.pool.zone? t = some z') :
    ∃ z, m.pool.zone? t = some z ∧ z.key = t.zone ∧ z'.key = z.key ∧ R z z' := by
  obtain ⟨z, hz, hhas, hkey, hrecord⟩ := zone_of_held hanchored hrec ht
  obtain ⟨y, hy, hsame, hR⟩ := hf.carried hhas
  obtain ⟨hhas', hrecord'⟩ := Pool.has_of_zone? hz'
  obtain rfl := hrec'.pool.eq_of_record_eq hy hhas'
    (hsame.2.trans (hrecord.trans hrecord'.symm))
  exact ⟨z, hz, hkey, hsame.1, hR⟩

variable [HasFiles σ] {move : Move σ}

private theorem current_step (h : m.pool.Current) (hanchored : m.Anchored) (hown : m.pool.Owned)
    (hrec : m.Recorded) (hmove : move.isClosing = false) (hstep : m.step c move = some m') :
    m'.pool.Current := by
  intro w phase t batch z' hphase ht hbatch hz'
  obtain ⟨hf, hrec'⟩ := step_follows hrec hstep
  rcases step_cases hmove hstep with ⟨v, p', rfl, hp, rfl⟩ | ⟨p', rfl, hp, rfl⟩ | ⟨-, haside⟩
  · obtain ⟨x, hx, hsection⟩ := Pool.workerSection_of_step hp
    have hworker := Pool.phase?_of_get hx
    by_cases hv : w = v
    · subst hv
      obtain ⟨hheld, hconsulting, hpublishing, hbefore⟩ :=
        Pool.batch_before hsection hphase ht hbatch
      have hheld' := (Pool.held?_of_phase? hworker).trans hheld
      obtain ⟨z, hz, -, hkey, hworks⟩ := zone_before hanchored hrec hrec' hf hheld' hz'
      have hcalls : z.state.batch z.key = .ok batch := by
        rcases hbefore with hbefore | ⟨y, hy, hcalls⟩
        · exact h hworker hheld hbefore hz
        · obtain rfl := Option.some.inj (hz.symm.trans hy)
          exact hcalls
      rw [hkey]
      rcases hworks with rfl | ⟨x', t', hx', ht', -, htouch, -⟩
      · exact hcalls
      · obtain rfl := Option.some.inj (hx.symm.trans hx')
        obtain rfl := Option.some.inj (hheld'.symm.trans ht')
        exact (htouch.batch_eq hconsulting hpublishing).trans hcalls
    · rw [pool_withPool, hsection.phase?_other hx hv] at hphase
      have hheld := (Pool.held?_of_phase? hphase).trans ht
      obtain ⟨z, hz, hkey, -, hworks⟩ := zone_before hanchored hrec hrec' hf hheld hz'
      rcases hworks with rfl | ⟨x', t', -, ht', hz'', -, -⟩
      · exact h hphase ht hbatch hz
      · -- Otherwise two workers would have tasks of one zone.
        obtain ⟨y, hy, -, hkey', -⟩ := zone_of_held hanchored hrec ht'
        obtain rfl := Option.some.inj (hz''.symm.trans hy)
        exact absurd (hown.alone hheld ht' (hkey.symm.trans hkey')) hv
  · rw [pool_withPool, Pool.phase?_start hp] at hphase
    obtain ⟨_, -, rfl⟩ := Option.map_eq_some_iff.mp hphase
    cases hbatch
  · rw [haside.phase?_eq] at hphase
    have hheld := (Pool.held?_of_phase? hphase).trans ht
    obtain ⟨z, hz, -, hkey, hconfig, hdb, -⟩ :=
      zone_before hanchored hrec hrec' (haside.follows hrec) hheld hz'
    rw [hkey, ZoneState.batch, hconfig, hdb]
    exact h hphase ht hbatch hz

/-- At every moment that can be reached, workers sign what their zones call for. -/
theorem current_of_reachable (h : Reachable c m) : m.pool.Current := by
  induction h with
  | initial h =>
    obtain ⟨_, _, _, _, _, _, _, hpool⟩ := h.pool_eq
    intro w phase t batch z hphase ht
    rw [hpool] at hphase
    rw [Pool.phase?_ofLimits _ _ _ _ _ _ _ hphase] at ht
    cases ht
  | step hreach hmove hstep ih =>
    exact current_step ih (anchored_of_reachable hreach) (owned_of_reachable hreach)
      (recorded_of_reachable hreach) hmove hstep

end Moment

end ZoneSigning
