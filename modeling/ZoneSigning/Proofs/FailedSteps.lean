import ZoneSigning.Proofs.Adapters
import ZoneSigning.Proofs.LoggedRuns

/-!
Steps that come to nothing. A worker that fails, or finds nothing new, leaves its zone as the zone was
when the step began, wherever in the step that shows. Only the signatures that have been made are
counted, for those are made.
-/
namespace ZoneSigning

/-- The step has failed, or it has changed nothing. -/
def Outcome.Fruitless (o : Outcome) : Prop := ∀ next delay, o ≠ .advance next delay

namespace ZoneState

variable {s s' : ZoneState} {o : Outcome}

def signedMore (s : ZoneState) (n : Nat) : ZoneState :=
  { s with db := { s.db with signatures := s.db.signatures + n } }

private theorem configured_of_fruitless {answer : Except StepError ConfigStatus}
    (h : s.configured answer = (o, s')) (ho : o.Fruitless) : s' = s := by
  cases configured_of_eq h with
  | reloaded => exact absurd rfl (ho _ _)
  | kept | bare => rfl

private theorem fruitless_configured {answer : Except StepError ConfigStatus}
    (h : s.configured answer = (o, s')) (hanswer : ∀ config, answer ≠ .ok (.reloaded config)) :
    o.Fruitless := by
  cases configured_of_eq h with
  | reloaded => exact absurd rfl (hanswer _)
  | kept | bare => exact nofun

private theorem fruitless_published {serial : Option Nat} {resignSecs : Nat}
    {answer : Except StepError Unit} (h : s.published serial resignSecs answer = (o, s'))
    (hanswer : answer ≠ .ok ()) : o.Fruitless := by
  unfold published at h
  split at h <;> cases h
  · exact absurd rfl hanswer
  · exact nofun

private theorem published_of_fruitless {serial : Option Nat} {resignSecs : Nat}
    {answer : Except StepError Unit} (h : s.published serial resignSecs answer = (o, s'))
    (ho : o.Fruitless) : s' = s := by
  unfold published at h
  split at h
  · cases h
    exact absurd rfl (ho _ _)
  · cases h
    rfl

end ZoneState

def signaturesMade (w : Nat) (log : List Event) : Nat :=
  (presentStep? w log).elim 0 fun s => s.answers.countP (·.2 == true)

private theorem signaturesMade_le_append {w : Nat} {new : List Event} (hnew : ∀ t z, .began w t z ∉ new)
    (log : List Event) : signaturesMade w log ≤ signaturesMade w (new ++ log) := by
  unfold signaturesMade
  rw [presentStep?_append hnew]
  cases presentStep? w log with
  | none => exact Nat.le_refl _
  | some s =>
    simp only [Option.map_some, Option.elim_some, List.countP_append]
    exact Nat.le_add_left _ _

/-- The zone `z` is as `z₀`, but that a step of this kind may have counted up to `made` signatures. -/
def TaskKind.Spares (what : TaskKind) (made : Nat) (z₀ z : Zone) : Prop :=
  ∃ n ≤ made, (what ≠ .sign → n = 0) ∧ z = { z₀ with state := z₀.state.signedMore n }

private theorem TaskKind.spares_refl (what : TaskKind) (made : Nat) (z : Zone) : what.Spares made z z :=
  ⟨0, Nat.zero_le _, fun _ => rfl, rfl⟩

/-- A zone that is spared but for some signatures is spared but for more of them. -/
theorem TaskKind.Spares.mono {what : TaskKind} {made more : Nat} {z₀ z : Zone}
    (h : what.Spares made z₀ z) (hle : made ≤ more) : what.Spares more z₀ z := by
  obtain ⟨n, hn, hrest⟩ := h
  exact ⟨n, Nat.le_trans hn hle, hrest⟩

/-- What has become of the zone `z₀` when a worker is in this phase of a step. -/
def WorkerPhase.Spares (what : TaskKind) (made : Nat) (z₀ z : Zone) : WorkerPhase → Prop
  | stepping _ (.publishing _) => what.Spares made z₀ z
  | stepping _ (.settling o) => o.Fruitless → what.Spares made z₀ z
  | idle | holding _ | stepping _ .consulting | stepping _ (.signing ..) | stepping _ (.awaiting _)
  | reporting _ | off => z = z₀

namespace Pool

variable {σ : Type} {c : Collaborators σ} {p p' : Pool σ} {w : Nat} {x : Worker} {t : Task}
  {z z₀ : Zone} {log : List Event}

private theorem counted_collect {batch : Batch} {tally : JobTally} (h : p.Accounted log)
    (hx : p.workers[w]? = some x) (hphase : x.phase = .stepping t (.signing batch []))
    (htally : batch.jobs = [] ∧ tally = {} ∨ p.signsInline ∧ tally = x.tally) :
    t.what = .sign ∧ tally.completed ≤ signaturesMade w log := by
  have haccounts := h.accounts (phase?_of_get hx)
  rw [hphase] at haccounts
  obtain ⟨s, hs, hsigns, hcounts⟩ := haccounts
  refine ⟨hsigns.what, ?_⟩
  rcases htally with ⟨-, rfl⟩ | ⟨hinline, rfl⟩
  · exact Nat.zero_le _
  · have hcounts := hcounts.resolve_right fun hstale => hstale.2.1 (List.isEmpty_iff.mp hinline)
    rw [signaturesMade, hs]
    exact hcounts.completed_le hx

private theorem counted_gather {batch : Batch} (h : p.Accounted log)
    (hx : p.workers[w]? = some x) (hphase : x.phase = .stepping t (.awaiting batch)) :
    t.what = .sign ∧ x.tally.completed ≤ signaturesMade w log := by
  have haccounts := h.accounts (phase?_of_get hx)
  rw [hphase] at haccounts
  obtain ⟨s, hs, hsigns, hcounts⟩ := haccounts
  rw [signaturesMade, hs]
  exact ⟨hsigns.what, hcounts.completed_le hx⟩

private theorem spares_collect {batch : Batch} {tally : JobTally} {made : Nat}
    {phase : WorkerPhase} (hrec : p.Recorded) (hz : p.Has z)
    (hcounted : t.what = .sign ∧ tally.completed ≤ made)
    (hphase' : (p.collect w t batch tally z).phase? w = some phase) :
    ∃ z', (p.collect w t batch tally z).Has z' ∧ z'.record = z.record ∧
      phase.Spares t.what made z z' := by
  have hspares : t.what.Spares made z { z with state := z.state.counted tally } :=
    ⟨tally.completed, hcounted.2, fun hwhat => absurd hcounted.1 hwhat, rfl⟩
  rcases p.collect_cases w t batch tally z with ⟨-, he⟩ | ⟨e, he⟩ <;> rw [he] at hphase' ⊢ <;>
    cases eq_of_phase?_goTo hphase'
  · exact ⟨_, hrec.has_setState hz rfl rfl, rfl, hspares⟩
  · exact ⟨_, hrec.has_setState hz rfl rfl, rfl, fun _ => hspares⟩

private theorem spares_decided {around : σ} {s : ZoneState} {o : Outcome} {what : TaskKind}
    {made : Nat} {phase : WorkerPhase} (hrec : p.Recorded) (hz : p.Has z)
    (hspares : what.Spares made z₀ z) (hsame : o.Fruitless → s = z.state)
    (hphase' : (({ p with around := around }.setState z s).goTo w
      (.stepping t (.settling o))).phase? w = some phase) :
    ∃ z', (({ p with around := around }.setState z s).goTo w (.stepping t (.settling o))).Has z' ∧
      z'.record = z.record ∧ phase.Spares what made z₀ z' := by
  cases eq_of_phase?_goTo hphase'
  refine ⟨_, hrec.has_setState hz rfl rfl, rfl, fun hfruitless => ?_⟩
  obtain rfl := hsame hfruitless
  exact hspares

/-- As long as a worker has its task, what it does to the zone is what its phase allows. -/
theorem WorkerSection.spares [HasFiles σ] {phase : WorkerPhase} (hfiles : c.OnFiles)
    (haccounted : p.Accounted log) (hrec : p.Recorded) (hx : p.workers[w]? = some x)
    (hsection : WorkerSection c p w x p') (hz : p.Has z) (hrecord : z.record = t.record)
    (ht : x.phase.task? = some t) (h : x.phase.Spares t.what (signaturesMade w log) z₀ z)
    (hphase' : p'.phase? w = some phase) (ht' : phase.task? = some t) :
    ∃ z', p'.Has z' ∧ z'.record = t.record ∧
      phase.Spares t.what (signaturesMade w (p.workerEvents c w ++ log)) z₀ z' := by
  have hthis {y : Zone} (hy : p.zone? t = some y) : y = z := by
    obtain ⟨hhas, hr⟩ := has_of_zone? hy
    exact hrec.eq_of_record_eq hhas hz (hr.trans hrecord.symm)
  rw [← hrecord]
  cases hsection with
  | take hphase | leave hphase | tell hphase =>
    rw [hphase] at ht
    cases ht
  | settle =>
    obtain ⟨_, rfl⟩ := eq_of_phase?_settle hphase'
    cases ht'
  | retreat =>
    cases eq_of_phase?_goTo hphase'
    exact ⟨z, hz, rfl, fun ho => absurd rfl (ho _ _)⟩
  | appoint hphase =>
    cases eq_of_phase?_setWorker hphase'
    rw [hphase] at h
    exact ⟨z, hz, rfl, h⟩
  | prepare hphase | signInline hphase | handOver hphase | wait hphase =>
    cases eq_of_phase?_goTo hphase'
    rw [hphase] at h
    exact ⟨z, hz, rfl, h⟩
  | refuse hphase | giveUp hphase =>
    cases eq_of_phase?_goTo hphase'
    rw [hphase] at h
    cases h
    exact ⟨z, hz, rfl, fun _ => TaskKind.spares_refl _ _ _⟩
  | load hphase hy _ _ ho =>
    rw [hphase] at h ht
    cases h
    cases ht
    obtain rfl := hthis hy
    exact spares_decided hrec hz (TaskKind.spares_refl _ _ _)
      (ZoneState.configured_of_fruitless ho) hphase'
  | read hphase hy _ hread =>
    rw [hphase] at h ht
    cases h
    cases ht
    obtain rfl := hthis hy
    refine spares_decided hrec hz (TaskKind.spares_refl _ _ _) (fun hfruitless => ?_) hphase'
    refine hfiles.state_of_read hread fun hfresh => ?_
    rw [hfresh] at hfruitless
    exact hfruitless _ _ rfl
  | write hphase hy _ hwrite ho =>
    rw [hphase] at h ht
    cases h
    cases ht
    obtain rfl := hthis hy
    obtain rfl := hfiles.state_of_write hwrite
    exact spares_decided hrec hz (TaskKind.spares_refl _ _ _)
      (ZoneState.published_of_fruitless ho) hphase'
  | publish hphase hy hwrite ho =>
    rw [workerEvents_eq_nil hx hphase (by simp) (by simp)]
    rw [hphase] at h ht
    cases ht
    obtain rfl := hthis hy
    obtain rfl := hfiles.state_of_write hwrite
    exact spares_decided hrec hz h (ZoneState.published_of_fruitless ho) hphase'
  | collect hphase hy htally =>
    rw [workerEvents_eq_nil hx hphase (by simp) (by simp)]
    have hcounted := counted_collect haccounted hx hphase htally
    rw [hphase] at h ht
    cases h
    cases ht
    obtain rfl := hthis hy
    exact spares_collect hrec hz hcounted hphase'
  | gather hphase hy =>
    rw [workerEvents_eq_nil hx hphase (by simp) (by simp)]
    have hcounted := counted_gather haccounted hx hphase
    rw [hphase] at h ht
    cases h
    cases ht
    obtain rfl := hthis hy
    exact spares_collect hrec hz hcounted hphase'

/-- The answer to a call brings nothing new: it is an error, or says that nothing has changed. -/
def Call.Idle (c : Collaborators σ) (around : σ) (call : Call) : Prop :=
  match call.what with
  | .configure => ∀ config, (c.loadConfig call.zone around).1 ≠ .ok (.reloaded config)
  | .read => (c.read call.zone around).1 ≠ .ok .fresh
  | .write | .sign => (c.write call.zone around).1 ≠ .ok ()

private theorem consult_of_idle [HasFiles σ] (hfiles : c.OnFiles)
    (hidle : Call.Idle c p.around ⟨z, t.what⟩) : ∃ around o, p.consult c w t z =
      ({ p with around := around }.setState z z.state).goTo w (.stepping t (.settling o)) := by
  unfold consult
  cases hwhat : t.what <;> simp only [Call.Idle, hwhat] at hidle ⊢
  case configure =>
    rcases ho : z.state.configured (c.loadConfig z p.around).1 with ⟨o, s⟩
    obtain rfl := ZoneState.configured_of_fruitless ho (ZoneState.fruitless_configured ho hidle)
    exact ⟨_, o, rfl⟩
  case read =>
    have hstate : (c.read z p.around).2.1 = z.state := hfiles.state_of_read rfl hidle
    rw [hstate]
    exact ⟨_, _, rfl⟩
  all_goals
    rw [hfiles.write_state]
    rcases ho : z.state.published z.state.db.inboundSerial z.state.resignSecs
      (c.write z p.around).1 with ⟨o, s⟩
    obtain rfl := ZoneState.published_of_fruitless ho (ZoneState.fruitless_published ho hidle)
    exact ⟨_, o, rfl⟩

private theorem publish_of_idle [HasFiles σ] (hfiles : c.OnFiles) (t : Task) (batch : Batch)
    (hidle : Call.Idle c p.around ⟨z, .write⟩) : ∃ around o, p.publish c w t batch z =
      ({ p with around := around }.setState z z.state).goTo w (.stepping t (.settling o)) := by
  simp only [publish]
  rw [hfiles.write_state]
  rcases ho : z.state.published (some batch.serial) batch.resignSecs (c.write z p.around).1 with
    ⟨o, s⟩
  obtain rfl := ZoneState.published_of_fruitless ho (ZoneState.fruitless_published ho hidle)
  exact ⟨_, o, rfl⟩

/-- A worker that calls a collaborator for nothing changes nothing. -/
theorem step_of_idle [HasFiles σ] {call : Call} (hfiles : c.OnFiles) (hrec : p.Recorded)
    (hcall : p.call? w = some call) (hidle : call.Idle c p.around)
    (hstep : p.stepWorker c w = some p') :
    ∃ t stage o, p.phase? w = some (.stepping t stage) ∧ p.zone? t = some call.zone ∧
      (stage = .consulting ∨ ∃ batch, stage = .publishing batch) ∧
      p'.phase? w = some (.stepping t (.settling o)) ∧ p'.Has call.zone := by
  have hdone {x : Worker} {t : Task} {z : Zone} {around : σ} {o : Outcome}
      (hx : p.workers[w]? = some x) (hz : p.zone? t = some z)
      (he : ({ p with around := around }.setState z z.state).goTo w (.stepping t (.settling o)) = p') :
      p'.phase? w = some (.stepping t (.settling o)) ∧ p'.Has z := by
    rw [← he]
    exact ⟨phase?_goTo_self hx (by simp) _, hrec.has_setState (has_of_zone? hz).1 rfl rfl⟩
  unfold call? at hcall
  split at hcall
  · next t _ _ _ hx =>
    obtain ⟨z, hz, rfl⟩ := Option.map_eq_some_iff.mp hcall
    obtain ⟨around, o, he⟩ := consult_of_idle (w := w) hfiles hidle
    simp only [stepWorker, hx, hz, Option.bind_some, stepStage, he, Option.some.injEq] at hstep
    exact ⟨t, _, o, phase?_of_get hx, hz, .inl rfl, hdone hx hz hstep⟩
  · next t batch _ _ _ hx =>
    obtain ⟨z, hz, rfl⟩ := Option.map_eq_some_iff.mp hcall
    obtain ⟨around, o, he⟩ := publish_of_idle (w := w) hfiles t batch hidle
    simp only [stepWorker, hx, hz, Option.bind_some, stepStage, he, Option.some.injEq] at hstep
    exact ⟨t, _, o, phase?_of_get hx, hz, .inr ⟨batch, rfl⟩, hdone hx hz hstep⟩
  · cases hcall

/-- A worker that has decided what to do hands its task back. -/
theorem step_of_settling {o : Outcome}
    (hphase : p.phase? w = some (.stepping t (.settling o))) (hstep : p.stepWorker c w = some p') :
    ∃ z, p' = p.settle w t o z := by
  obtain ⟨x, hx, hsettling⟩ := Option.map_eq_some_iff.mp hphase
  simp only [stepWorker, hx, hsettling, stepStage] at hstep
  obtain ⟨z, -, hsettle⟩ := Option.bind_eq_some_iff.mp hstep
  exact ⟨z, (Option.some.inj hsettle).symm⟩

private theorem has_settle {o : Outcome} {y : Zone} (hz : p.Has z) : (p.settle w t o y).Has z := by
  obtain ⟨_, _, _, he⟩ := p.settle_eq w t o y
  rw [he]
  exact hz

def Spares (p : Pool σ) (log : List Event) (w : Nat) (t : Task) (z₀ : Zone) : Prop :=
  ∃ phase z, p.phase? w = some phase ∧ phase.task? = some t ∧ p.Has z ∧ z.record = t.record ∧
    phase.Spares t.what (signaturesMade w log) z₀ z

end Pool

/-- What is spared but for some signatures in a phase is spared but for more of them. -/
theorem WorkerPhase.Spares.mono {what : TaskKind} {made more : Nat} {z₀ z : Zone}
    {phase : WorkerPhase} (h : phase.Spares what made z₀ z) (hle : made ≤ more) :
    phase.Spares what more z₀ z := by
  cases phase with
  | stepping t stage =>
    cases stage with
    | publishing batch => exact TaskKind.Spares.mono h hle
    | settling o => exact fun ho => (h ho).mono hle
    | _ => exact h
  | _ => exact h

namespace Moment

variable {σ : Type} [HasFiles σ] {c : Collaborators σ} {m m' m₀ : Moment σ} {w : Nat} {t : Task}
  {z z₀ : Zone} {log log₀ : List Event}

/-- A worker goes on with its task, from one moment to another. The others do what they like, but they
leave the zone alone, for the worker has locked it. -/
inductive Tends (c : Collaborators σ) (w : Nat) (t : Task) (m₀ : Moment σ) (log₀ : List Event) :
    Moment σ → List Event → Prop
  | here : m₀.pool.held? w = some t → Tends c w t m₀ log₀ m₀ log₀
  | goes {m m' : Moment σ} {log : List Event} : Tends c w t m₀ log₀ m log →
      m.step c (.worker w) = some m' → m'.pool.held? w = some t →
      Tends c w t m₀ log₀ m' (m.events c (.worker w) ++ log)
  | waits {m m' : Moment σ} {log : List Event} {move : Move σ} : Tends c w t m₀ log₀ m log →
      move ≠ .worker w → m.step c move = some m' →
      (∀ z, m.pool.Has z → z.record = t.record → m'.pool.Has z) →
      Tends c w t m₀ log₀ m' (m.events c move ++ log)

namespace Tends

/-- While a worker tends a task, every record has one present state. -/
theorem recorded (hrec : m₀.Recorded) (h : Tends c w t m₀ log₀ m log) : m.Recorded := by
  induction h with
  | here => exact hrec
  | goes _ hstep _ ih => exact (step_follows ih hstep).2
  | waits _ _ hstep _ ih => exact (step_follows ih hstep).2

/-- While a worker tends a task, the accounts stay in order. -/
theorem accounted (haccounted : m₀.pool.Accounted log₀) (h : Tends c w t m₀ log₀ m log) :
    m.pool.Accounted log := by
  induction h with
  | here => exact haccounted
  | goes _ hstep _ ih => exact accounted_step ih hstep
  | waits _ _ hstep _ ih => exact accounted_step ih hstep

private theorem spares (hfiles : c.OnFiles) (hrec : m₀.Recorded) (haccounted : m₀.pool.Accounted log₀)
    (hspares : m₀.pool.Spares log₀ w t z₀) (h : Tends c w t m₀ log₀ m log) :
    m.pool.Spares log w t z₀ := by
  induction h with
  | here => exact hspares
  | goes h hstep hheld ih =>
    obtain ⟨phase, z, hphase, ht, hz, hrecord, hspares⟩ := ih
    obtain ⟨p', hp, rfl⟩ := Option.map_eq_some_iff.mp hstep
    obtain ⟨x, hx, hsection⟩ := Pool.workerSection_of_step hp
    obtain rfl := Option.some.inj ((Pool.phase?_of_get hx).symm.trans hphase)
    obtain ⟨phase', hphase', ht'⟩ := Option.bind_eq_some_iff.mp hheld
    obtain ⟨z', hz', hrecord', hspares'⟩ := hsection.spares hfiles (h.accounted haccounted)
      (h.recorded hrec).pool hx hz hrecord ht hspares hphase' ht'
    exact ⟨phase', z', hphase', ht', hz', hrecord', hspares'⟩
  | waits h hmove hstep hkeeps ih =>
    obtain ⟨phase, z, hphase, ht, hz, hrecord, hspares⟩ := ih
    have hheld := (Pool.held?_of_phase? hphase).trans ht
    obtain ⟨hphase', hnew⟩ := phase?_of_other (h.accounted haccounted) hmove hstep hheld
    exact ⟨phase, z, hphase'.trans hphase, ht, hkeeps z hz hrecord, hrecord,
      hspares.mono (signaturesMade_le_append hnew _)⟩

/-- Once it is decided what to do with the task, nothing more happens to the zone. -/
theorem settling {o : Outcome} (haccounted : m₀.pool.Accounted log₀)
    (hphase : m₀.pool.phase? w = some (.stepping t (.settling o))) (hz : m₀.pool.Has z)
    (hrecord : z.record = t.record) (h : Tends c w t m₀ log₀ m log) :
    m.pool.phase? w = some (.stepping t (.settling o)) ∧ m.pool.Has z ∧
      signaturesMade w log₀ ≤ signaturesMade w log := by
  induction h with
  | here => exact ⟨hphase, hz, Nat.le_refl _⟩
  | goes _ hstep hheld ih =>
    obtain ⟨p', hp, rfl⟩ := Option.map_eq_some_iff.mp hstep
    obtain ⟨y, rfl⟩ := Pool.step_of_settling ih.1 hp
    rw [pool_withPool, Pool.held?_settle, if_pos rfl] at hheld
    cases hheld
  | waits h hmove hstep hkeeps ih =>
    obtain ⟨hphase, hz, hle⟩ := ih
    obtain ⟨hphase', hnew⟩ := phase?_of_other (h.accounted haccounted) hmove hstep
      (Pool.held?_of_phase? hphase)
    exact ⟨hphase'.trans hphase, hkeeps _ hz hrecord,
      Nat.le_trans hle (signaturesMade_le_append hnew _)⟩

end Tends

/-- After a call that brings nothing new, the zone is what it has been before. -/
theorem has_of_idle {n n' : Moment σ} {log' : List Event} {call : Pool.Call}
    (hfiles : c.OnFiles) (hrec : n.Recorded) (haccounted : n.pool.Accounted log')
    (hspares : n.pool.Spares log' w t z₀) (hcall : n.pool.call? w = some call)
    (hidle : call.Idle c n.pool.around) (hstep : n.step c (.worker w) = some n')
    (hrest : Tends c w t n' (n.events c (.worker w) ++ log') m log) :
    m.pool.Has call.zone ∧ t.what.Spares (signaturesMade w log) z₀ call.zone := by
  have haccounted' := accounted_step haccounted hstep
  obtain ⟨phase, z, hphase, ht, hz, hrecord, hspares⟩ := hspares
  obtain ⟨p', hp, rfl⟩ := Option.map_eq_some_iff.mp hstep
  obtain ⟨u, stage, o, hphase', hzone, hstage, hsettling, hz'⟩ :=
    Pool.step_of_idle hfiles hrec.pool hcall hidle hp
  obtain rfl := Option.some.inj (hphase.symm.trans hphase')
  obtain rfl := Option.some.inj ht
  obtain ⟨hhas, hrecord'⟩ := Pool.has_of_zone? hzone
  obtain rfl := hrec.pool.eq_of_record_eq hz hhas (hrecord.trans hrecord'.symm)
  have hevents : n.events c (.worker w) = [] := by
    rcases hstage with rfl | ⟨batch, rfl⟩ <;> simp [events, Pool.workerEvents, hphase]
  rw [hevents] at hrest haccounted'
  have hspares : u.what.Spares (signaturesMade w log') z₀ call.zone := by
    rcases hstage with rfl | ⟨batch, rfl⟩
    · cases hspares
      exact TaskKind.spares_refl _ _ _
    · exact hspares
  obtain ⟨-, hz, hmade⟩ := hrest.settling haccounted' hsettling hz' hrecord
  exact ⟨hz, hspares.mono hmade⟩

/-- A worker begins the step of a task, goes on with it, whatever the others do, and hands the task
back. If the step has failed or has changed nothing, or if a call in it has brought nothing new, the
zone is then as it was when the step began, whatever that was. Only a step that signs may have counted
signatures, and no more than the signer has made since. -/
theorem failed_steps_spare_zone (hfiles : c.OnFiles) (hrec : m₀.Recorded)
    (haccounted : m₀.pool.Accounted log₀) (hbegins : m₀.pool.phase? w = some (.holding t))
    (hz₀ : m₀.pool.zone? t = some z₀) {o : Outcome} (hstep : Tends c w t m₀ log₀ m log)
    (hends : m.pool.phase? w = some (.stepping t (.settling o)))
    (hnothing : o.Fruitless ∨ ∃ n n' log' call, Tends c w t m₀ log₀ n log' ∧
      n.pool.call? w = some call ∧ call.Idle c n.pool.around ∧ n.step c (.worker w) = some n' ∧
      Tends c w t n' (n.events c (.worker w) ++ log') m log)
    (hback : m.step c (.worker w) = some m') :
    ∃ n ≤ signaturesMade w log, (t.what ≠ .sign → n = 0) ∧
      m'.pool.Has { z₀ with state := z₀.state.signedMore n } := by
  have hbegun : m₀.pool.Spares log₀ w t z₀ := by
    obtain ⟨hhas, hrecord⟩ := Pool.has_of_zone? hz₀
    exact ⟨_, z₀, hbegins, rfl, hhas, hrecord, rfl⟩
  have hdecided : ∃ z, m.pool.Has z ∧ t.what.Spares (signaturesMade w log) z₀ z := by
    rcases hnothing with hfruitless | ⟨n, n', log', call, hbefore, hcall, hidle, hcalls, hafter⟩
    · obtain ⟨phase, z, hphase, -, hz, -, hspares⟩ := hstep.spares hfiles hrec haccounted hbegun
      obtain rfl := Option.some.inj (hphase.symm.trans hends)
      exact ⟨z, hz, hspares hfruitless⟩
    · have hspares := hbefore.spares hfiles hrec haccounted hbegun
      exact ⟨call.zone, has_of_idle hfiles (hbefore.recorded hrec) (hbefore.accounted haccounted)
        hspares hcall hidle hcalls hafter⟩
  obtain ⟨_, hz, n, hn, hwhat, rfl⟩ := hdecided
  obtain ⟨p', hp, rfl⟩ := Option.map_eq_some_iff.mp hback
  obtain ⟨y, rfl⟩ := Pool.step_of_settling hends hp
  exact ⟨n, hn, hwhat, Pool.has_settle hz⟩

def tended (c : Collaborators σ) (w : Nat) (t : Task) (m : Moment σ) (moves : List (Move σ)) :
    Option (Moment σ) :=
  moves.foldlM (fun m move => (m.step c move).filter (·.pool.held? w = some t)) m

private theorem Tends.tended {moves : List (Move σ)} (h : Tends c w t m₀ log₀ m log)
    (hmoves : ∀ move ∈ moves,
      move = .worker w ∨ (∃ d, move = .drudger d) ∨ ∃ around, move = .happen around)
    (htended : m.tended c w t moves = some m') : ∃ log', Tends c w t m₀ log₀ m' log' := by
  induction moves generalizing m log with
  | nil =>
    cases htended
    exact ⟨log, h⟩
  | cons move moves ih =>
    obtain ⟨n, hn, hrest⟩ := Option.bind_eq_some_iff.mp htended
    obtain ⟨hstep, hheld⟩ := Option.filter_eq_some_iff.mp hn
    have hheld := of_decide_eq_true hheld
    have hnext : Tends c w t m₀ log₀ n (m.events c move ++ log) := by
      rcases hmoves move List.mem_cons_self with rfl | ⟨d, rfl⟩ | ⟨around, rfl⟩
      · exact h.goes hstep hheld
      · refine h.waits nofun hstep fun z hz _ => ?_
        obtain ⟨p', hp, rfl⟩ := Option.map_eq_some_iff.mp hstep
        obtain ⟨y, hy, hsection⟩ := Pool.drudgerSection_of_step hp
        rw [pool_withPool, Pool.Has, hsection.frame.2.1, hsection.frame.2.2.1]
        exact hz
      · refine h.waits nofun hstep fun z hz _ => ?_
        cases hstep
        exact hz
    exact ih hnext (fun move hmem => hmoves move (List.mem_cons_of_mem _ hmem)) hrest

def unwritten : List (Move FileWorld) :=
  List.replicate 2 (.worker 0) ++ List.replicate 3 (.drudger 0) ++ List.replicate 2 (.worker 0) ++
    [.happen { files := oneZoneFiles.putNew ["o"] .directory }, .worker 0]

/-- In the engine for one zone, the step that signs fails at its very end: one signature has been
counted, and that is all. -/
theorem failed_steps_spare_zone_unwritten : ∃ (m₀ m m' : Moment FileWorld) (log : List Event)
    (t : Task) (z₀ z : Zone) (e : StepError), m₀.pool.phase? 0 = some (.holding t) ∧ t.what = .sign ∧
      m₀.pool.zone? t = some z₀ ∧ m.pool.phase? 0 = some (.stepping t (.settling (.retry e))) ∧
      m.step fileCollaborators (.worker 0) = some m' ∧ m'.pool.zone? t = some z ∧
      1 ≤ signaturesMade 0 log ∧ z = { z₀ with state := z₀.state.signedMore 1 } := by
  have hrun : (oneZone.follow fileCollaborators (firstPass ++ List.replicate 11 (.worker 0))).any
      fun m₀ => (m₀.pool.held? 0).any fun t => (m₀.pool.zone? t).any fun z₀ =>
        (m₀.tended fileCollaborators 0 t unwritten).any fun m =>
          (m.step fileCollaborators (.worker 0)).any fun m' => (m'.pool.zone? t).any fun z =>
            m₀.pool.phase? 0 = some (.holding t) ∧ t.what = .sign ∧
              m.pool.phase? 0 = some (.stepping t (.settling (.retry (.adapter
                (.file ⟨"o"⟩ .isDirectory))))) ∧
              z₀.state.db.signatures = 0 ∧ z.state.db.signatures = 1 := by decide +kernel
  obtain ⟨m₀, hm₀, hrun⟩ := (Option.any_eq_true _ _).mp hrun
  obtain ⟨t, ht, hrun⟩ := (Option.any_eq_true _ _).mp hrun
  obtain ⟨z₀, hz₀, hrun⟩ := (Option.any_eq_true _ _).mp hrun
  obtain ⟨m, hm, hrun⟩ := (Option.any_eq_true _ _).mp hrun
  obtain ⟨m', hback, hrun⟩ := (Option.any_eq_true _ _).mp hrun
  obtain ⟨z, hz, hrun⟩ := (Option.any_eq_true _ _).mp hrun
  obtain ⟨hbegins, hwhat, hends, hnone, hone⟩ := of_decide_eq_true hrun
  obtain ⟨log₀, hlogged⟩ := (Logged.initial oneZone_initial).follow hm₀
  have hhere : Tends fileCollaborators 0 t m₀ log₀ m₀ log₀ := .here ht
  obtain ⟨log, hstep⟩ := hhere.tended (by simp [unwritten]) hm
  obtain ⟨n, hn, -, hhas⟩ := failed_steps_spare_zone fileCollaborators_onFiles hlogged.recorded
    hlogged.accounted hbegins hz₀ hstep hends (.inl nofun) hback
  have hrec' : m'.Recorded := (step_follows (hstep.recorded hlogged.recorded) hback).2
  obtain ⟨hhas', hrecord'⟩ := Pool.has_of_zone? hz
  obtain rfl := hrec'.pool.eq_of_record_eq hhas' hhas (hrecord'.trans (Pool.has_of_zone? hz₀).2.symm)
  obtain rfl : n = 1 := by simpa [ZoneState.signedMore, hnone] using hone
  exact ⟨m₀, m, m', log, t, z₀, _, _, hbegins, hwhat, hz₀, hends, hback, hz, hn, rfl⟩

end Moment

end ZoneSigning
