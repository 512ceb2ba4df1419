import ZoneSigning.Proofs.Adapters
import ZoneSigning.Proofs.CurrentBatches
import ZoneSigning.Proofs.LoggedRuns

/-!
No zone is published with unsigned names. The published serial of a zone that is kept in files
changes in one place, and a worker gets there only when the signer has signed every name since the
step began.
-/
namespace ZoneSigning

private theorem ZoneState.batch_eq_ok {s : ZoneState} {key : ZoneKey} {batch : Batch}
    (h : s.batch key = .ok batch) : s.db.inboundSerial = some batch.serial ∧
      ∃ config, s.config = some config ∧ batch.jobs = s.db.names.members.map fun owner =>
        ⟨key.name, owner, batch.serial, config.validitySecs⟩ := by
  unfold ZoneState.batch at h
  split at h
  · cases h
  · cases h
  · next config serial hconfig hserial =>
    cases h
    exact ⟨hserial, config, hconfig, rfl⟩

/-- To load a configuration touches neither the content of a zone nor its signatures. -/
theorem ZoneState.db_configured {s s' : ZoneState} {answer : Except StepError ConfigStatus}
    {o : Outcome} (h : s.configured answer = (o, s')) : s'.db = s.db := by
  cases ZoneState.configured_of_eq h <;> rfl

/-- Since the step began, the signer has signed every name that the zone had then, for the serial
that the zone had then, and for as long as its configuration said. -/
structure Progress.SignedAll (s : Progress) (serial : Nat) : Prop where
  inbound : s.zone.state.db.inboundSerial = some serial
  names : ∃ config, s.zone.state.config = some config ∧
    ∀ owner ∈ s.zone.state.db.names.members,
      (⟨s.zone.key.name, owner, serial, config.validitySecs⟩, true) ∈ s.answers

private theorem Progress.Signs.signedAll {s : Progress} {t : Task} {batch : Batch} (h : s.Signs t batch)
    (hall : ∀ job ∈ batch.jobs, (job, true) ∈ s.answers) : s.SignedAll batch.serial := by
  obtain ⟨hserial, config, hconfig, hjobs⟩ := ZoneState.batch_eq_ok h.batch
  refine ⟨hserial, config, hconfig, fun owner howner => hall _ ?_⟩
  rw [hjobs]
  exact List.mem_map_of_mem howner

namespace Pool

variable {σ : Type} [HasFiles σ] {c : Collaborators σ} {p : Pool σ} {w : Nat} {log : List Event}

/-- Workers change the published serial only where they publish a batch. -/
theorem Works.publishing (hfiles : c.OnFiles) (haccounted : p.Accounted log)
    (hnever : ¬ p.Involves .write) {z z' : Zone} (h : p.Works c w z z')
    (hserial : z'.state.db.outboundSerial ≠ z.state.db.outboundSerial) :
    ∃ t batch, p.phase? w = some (.stepping t (.publishing batch)) ∧ p.zone? t = some z ∧
      (c.write z p.around).1 = .ok () ∧ z'.state.db.outboundSerial = some batch.serial := by
  rcases h with rfl | ⟨x, t, hx, ht, hz, htouch, -⟩
  · exact absurd rfl hserial
  have hworker := phase?_of_get hx
  generalize z'.state = s' at hserial htouch ⊢
  cases htouch with
  | load _ ho =>
    rw [ZoneState.db_configured ho] at hserial
    exact absurd rfl hserial
  | read _ hread =>
    have hstate := hfiles.read_cases z p.around
    rw [hread] at hstate
    rcases hstate with rfl | ⟨content, time, rfl⟩
    · exact absurd rfl hserial
    · exact absurd rfl hserial
  | write hphase hwhat =>
    have hconsulting := haccounted.accounts hworker
    rw [hphase] at hconsulting
    rcases hwhat with hwhat | hwhat
    · exact absurd (.inr (.inl ⟨w, t, ht, .inl hwhat⟩)) hnever
    · exact absurd hwhat hconsulting.1
  | count => exact absurd rfl hserial
  | @publish batch answer _ _ _ _ hphase hwrite ho =>
    obtain rfl := hfiles.state_of_write hwrite
    cases answer with
    | error e =>
      cases ho
      exact absurd rfl hserial
    | ok _ =>
      cases ho
      exact ⟨t, batch, hphase ▸ hworker, hz, by rw [hwrite], rfl⟩

end Pool

namespace Moment

variable {σ : Type} [HasFiles σ] {c : Collaborators σ} {m : Moment σ} {log : List Event}

/-- At no moment is there a task, or a request, to write a zone as it is. A worker that is about to
publish a zone is in a step that signs, and within this step the signer has signed every name that the
zone had when the step began; until the end of the engine begins, the zone is still as it was then.
And if zones are read from files and written to files, the published serial of a zone changes only
where a worker publishes it: the zone has been written, and the serial becomes the one that the zone
had when the step began. -/
theorem no_unsigned_publication (hfiles : c.OnFiles) (h : Logged c m log) :
    ¬ m.pool.Involves .write ∧
    (∀ {w t batch}, m.pool.phase? w = some (.stepping t (.publishing batch)) →
      t.what = .sign ∧ ∃ s, presentStep? w log = some s ∧ s.task = t ∧ s.zone.record = t.record ∧
        s.SignedAll batch.serial ∧ (Reachable c m → ∀ {z}, m.pool.zone? t = some z →
          z.state.batch z.key = s.zone.state.batch s.zone.key)) ∧
    ∀ {move m' z z'}, m.step c move = some m' → m.pool.Has z → m'.pool.Has z' →
      z'.record = z.record → z'.state.db.outboundSerial ≠ z.state.db.outboundSerial →
      ∃ w t batch, move = .worker w ∧ m.pool.phase? w = some (.stepping t (.publishing batch)) ∧
        m.pool.zone? t = some z ∧ (c.write z m.pool.around).1 = .ok () ∧
        z'.state.db.outboundSerial = some batch.serial := by
  refine ⟨h.not_involves, fun {w t batch} hphase => ?_, ?_⟩
  · obtain ⟨s, hs, hsigns, hall, -⟩ := h.accounted.accounts hphase
    refine ⟨hsigns.what, s, hs, hsigns.task, hsigns.record, hsigns.signedAll hall,
      fun hreach z hz => ?_⟩
    rw [hsigns.batch]
    exact current_of_reachable hreach hphase rfl rfl hz
  · intro move m' z z' hstep hz hz' hrecord hserial
    obtain ⟨hf, hrec'⟩ := step_follows h.recorded hstep
    obtain ⟨y, hy, hsame, hchanges⟩ := hf.carried hz
    obtain rfl := hrec'.pool.eq_of_record_eq hy hz' (hsame.2.trans hrecord.symm)
    cases move with
    | worker w =>
      obtain ⟨t, batch, hpublishing⟩ :=
        Pool.Works.publishing hfiles h.accounted h.not_involves hchanges hserial
      exact ⟨w, t, batch, rfl, hpublishing⟩
    | _ =>
      -- Nobody else changes what is known of the content.
      exact absurd (congrArg NameDb.outboundSerial hchanges.2.1) hserial

def untilPublication : List (Move FileWorld) := firstPass ++ List.replicate 13 (.worker 0) ++
  List.replicate 3 (.drudger 0) ++ List.replicate 2 (.worker 0)

/-- The engine for one zone signs the zone, and publishes it. -/
theorem no_unsigned_publication_oneZone :
    ∃ m m' log z z', Logged fileCollaborators m log ∧
      m.step fileCollaborators (.worker 0) = some m' ∧
      m.pool.zones.get? (.of "a" .internet) = some z ∧
      m'.pool.zones.get? (.of "a" .internet) = some z' ∧
      z.state.db.outboundSerial = none ∧ z'.state.db.outboundSerial = some 7 ∧
      ∃ w s, presentStep? w log = some s ∧ s.SignedAll 7 := by
  have hrun : (oneZone.follow fileCollaborators untilPublication).any fun m =>
      (m.step fileCollaborators (.worker 0)).any fun m' =>
        (m.pool.zones.get? (.of "a" .internet)).any fun z =>
          (m'.pool.zones.get? (.of "a" .internet)).any fun z' =>
            z'.record = z.record ∧ z.state.db.outboundSerial = none ∧
              z'.state.db.outboundSerial = some 7 := by decide +kernel
  obtain ⟨m, hm, hrun⟩ := (Option.any_eq_true _ _).mp hrun
  obtain ⟨m', hstep, hrun⟩ := (Option.any_eq_true _ _).mp hrun
  obtain ⟨z, hz, hrun⟩ := (Option.any_eq_true _ _).mp hrun
  obtain ⟨z', hz', hrun⟩ := (Option.any_eq_true _ _).mp hrun
  obtain ⟨hrecord, hbefore, hafter⟩ := of_decide_eq_true hrun
  obtain ⟨log, hlogged⟩ := (Logged.initial oneZone_initial).follow hm
  obtain ⟨-, hpublishing, hchanges⟩ := no_unsigned_publication fileCollaborators_onFiles hlogged
  obtain ⟨w, t, batch, -, hphase, -, -, hserial⟩ := hchanges hstep (.inl ⟨_, hz⟩) (.inl ⟨_, hz'⟩)
    hrecord (by rw [hbefore, hafter]; nofun)
  obtain ⟨-, s, hs, -, -, hall, -⟩ := hpublishing hphase
  have hseven : batch.serial = 7 := Option.some.inj (hserial.symm.trans hafter)
  exact ⟨m, m', log, z, z', hlogged, hstep, hz, hz', hbefore, hafter, w, s, hs, hseven ▸ hall⟩

end Moment

end ZoneSigning
