import ZoneSigning.Proofs.Bystanders

/-!
The records of zones along a run, the end of the engine included. Workers change the state of the
record that their task was made for, and this is where configurations and contents come from; all
others only change what the inventory says, or let records retire.
-/
namespace ZoneSigning

namespace Pool

variable {σ : Type} {c : Collaborators σ} {p p' q : Pool σ} {w : Nat} {x : Worker}

/-- The states that a section of the worker `x`, at work on the task `t`, can give to the zone. -/
inductive Touch (c : Collaborators σ) (p : Pool σ) (x : Worker) (t : Task) (z : Zone) :
    ZoneState → Prop
  | load {answer : Except StepError ConfigStatus} {o : Outcome} {s : ZoneState}
      (hphase : x.phase = .stepping t .consulting) (ho : z.state.configured answer = (o, s)) :
      Touch c p x t z s
  | read {answer : Except StepError ReadStatus} {around : σ} {s : ZoneState}
      (hphase : x.phase = .stepping t .consulting)
      (hread : c.read z p.around = (answer, s, around)) : Touch c p x t z s
  | write {answer : Except StepError Unit} {around : σ} {o : Outcome} {s s' : ZoneState}
      (hphase : x.phase = .stepping t .consulting) (hwhat : t.what = .write ∨ t.what = .sign)
      (hwrite : c.write z p.around = (answer, s, around))
      (ho : s.published s.db.inboundSerial z.state.resignSecs answer = (o, s')) :
      Touch c p x t z s'
  | count (tally : JobTally) : Touch c p x t z (z.state.counted tally)
  | publish {batch : Batch} {answer : Except StepError Unit} {around : σ} {o : Outcome}
      {s s' : ZoneState} (hphase : x.phase = .stepping t (.publishing batch))
      (hwrite : c.write z p.around = (answer, s, around))
      (ho : s.published (some batch.serial) batch.resignSecs answer = (o, s')) :
      Touch c p x t z s'

/-- What a section of the worker `w` can do to a record. -/
def Works (c : Collaborators σ) (p : Pool σ) (w : Nat) (z z' : Zone) : Prop :=
  z' = z ∨ ∃ x t, p.workers[w]? = some x ∧ p.held? w = some t ∧ p.zone? t = some z ∧
    Touch c p x t z z'.state ∧ z' = { z with state := z'.state }

/-- The zone of a task is the present state of the record that the task was made for. -/
theorem has_of_zone? {t : Task} {z : Zone} (h : p.zone? t = some z) :
    p.Has z ∧ z.record = t.record := by
  have hretired (h : p.retired.find? (·.record == t.record) = some z) :
      p.Has z ∧ z.record = t.record :=
    ⟨.inr (List.mem_of_find?_eq_some h), by simpa using List.find?_some h⟩
  unfold zone? at h
  split at h
  · next y hy =>
    split at h
    · next hr =>
      cases h
      exact ⟨.inl ⟨_, hy⟩, hr⟩
    · exact hretired h
  · exact hretired h

/-- The record that a worker changes has the new state. -/
theorem Recorded.has_setState {z : Zone} {s : ZoneState} {phase : WorkerPhase} (h : p.Recorded)
    (hz : p.Has z) (hzones : q.zones = p.zones) (hretired : q.retired = p.retired) :
    ((q.setState z s).goTo w phase).Has { z with state := s } := by
  rcases hz with ⟨k, hlisted⟩ | hlost
  · have hany : (q.zones.get? z.key).any (·.record == z.record) = true := by
      simp [hzones, h.get?_key hlisted]
    refine .inl ⟨z.key, ?_⟩
    simp only [goTo_zones, setState, hany, if_true, ZoneList.get?_put]
  · have hany : (q.zones.get? z.key).any (·.record == z.record) = false := by
      rw [hzones]
      cases hy : p.zones.get? z.key with
      | none => rfl
      | some y => simpa using h.apart hy hlost
    refine .inr ?_
    simp only [goTo_retired, setState, hany, Bool.false_eq_true, if_false, hretired]
    exact List.mem_map.mpr ⟨z, hlost, if_pos rfl⟩

/-- A worker that sets the state of a record goes on with the zones as they are then. -/
theorem Follows.setState_goTo {R : Zone → Zone → Prop} {gone : ZoneKey → Prop} {z : Zone}
    {s : ZoneState} {phase : WorkerPhase} (h : p.Recorded) (hR : ∀ z, R z z) (hz : p.Has z)
    (hs : R z { z with state := s }) (hzones : q.zones = p.zones) (hretired : q.retired = p.retired) :
    p.Follows R gone ((q.setState z s).goTo w phase) := by
  refine (Follows.setState h hR hz hs).congr (fun k => ?_) ?_ ?_
  · simp only [goTo_zones, Pool.setState, hzones]
    split <;> rfl
  · simp [hzones]
  · simp only [goTo_retired, Pool.setState, hzones, hretired]
    split <;> rfl

namespace WorkerSection

/-- A section of a worker changes at most the record of its task. -/
theorem follows (h : p.Recorded) (hx : p.workers[w]? = some x) (hsection : WorkerSection c p w x p') :
    p.Follows (p.Works c w) (fun _ => False) p' := by
  have hrefl (z : Zone) : p.Works c w z z := .inl rfl
  have hset {q : Pool σ} {t : Task} {z : Zone} {s : ZoneState} {phase : WorkerPhase}
      (hzones : q.zones = p.zones) (hretired : q.retired = p.retired)
      (ht : x.phase.task? = some t) (hz : p.zone? t = some z) (hs : Touch c p x t z s) :
      p.Follows (p.Works c w) (fun _ => False) ((q.setState z s).goTo w phase) := by
    have hworks : p.Works c w z { z with state := s } :=
      .inr ⟨x, t, hx, (held?_of_phase? (phase?_of_get hx)).trans ht, hz, hs, rfl⟩
    exact .setState_goTo h hrefl (has_of_zone? hz).1 hworks hzones hretired
  cases hsection with
  | take | leave | prepare | retreat | appoint | signInline | handOver | refuse | wait | giveUp =>
    exact .refl h hrefl rfl rfl
  | load hphase hz _ _ ho => exact hset rfl rfl (by rw [hphase]; rfl) hz (.load hphase ho)
  | read hphase hz _ hread => exact hset rfl rfl (by rw [hphase]; rfl) hz (.read hphase hread)
  | write hphase hz hwhat hwrite ho =>
    exact hset rfl rfl (by rw [hphase]; rfl) hz (.write hphase hwhat hwrite ho)
  | publish hphase hz hwrite ho =>
    exact hset rfl rfl (by rw [hphase]; rfl) hz (.publish hphase hwrite ho)
  | collect hphase hz | gather hphase hz =>
    exact hset rfl rfl (by rw [hphase]; rfl) hz (.count _)
  | @settle t z o =>
    obtain ⟨_, _, _, he⟩ := p.settle_eq w t o z
    exact .refl h hrefl (by rw [he]; rfl) (by rw [he]; rfl)
  | @tell drained =>
    obtain ⟨_, he⟩ := p.tell_eq w drained
    exact .refl h hrefl (by rw [he]; rfl) (by rw [he]; rfl)

end WorkerSection

private theorem recorded_ofLimits (around : σ) (now workers drudgers maxBackoff capacity threshold : Nat) :
    (ofLimits around now workers drudgers maxBackoff capacity threshold).Recorded where
  keyed := nofun
  listed_eq := nofun
  retired_eq := nofun
  apart := nofun
  numbered := by
    rintro z (⟨k, hz⟩ | hz)
    · cases hz
    · cases hz

end Pool

namespace Moment

variable {σ : Type} {c : Collaborators σ} {m m' : Moment σ}

def Leaves (m : Moment σ) : Move σ → ZoneKey → Prop
  | .worker _ => fun _ => False
  | .closing .clearZones => fun _ => True
  | _ => (· ∈ m.errand.doomed)

def Changes (c : Collaborators σ) (m : Moment σ) : Move σ → Zone → Zone → Prop
  | .worker w => m.pool.Works c w
  | _ => m.Keeps

private theorem follows_other {move : Move σ} (hother : ∀ w, move ≠ .worker w)
    (hmove : move.isClosing = false)
    (hf : m.pool.Follows m.Keeps (· ∈ m.errand.doomed) m'.pool) :
    m.pool.Follows (m.Changes c move) (m.Leaves move) m'.pool := by
  cases move with
  | worker w => exact absurd rfl (hother w)
  | closing what => cases hmove
  | _ => exact hf

private theorem follows_start {p' : Pool σ} (h : m.Recorded) (hstart : m.pool.start = .ok p') :
    m.pool.Follows m.Keeps (· ∈ m.errand.doomed) p' ∧ p'.zones = m.pool.zones := by
  rw [(Pool.start_eq_ok hstart).2]
  exact ⟨.refl h.pool m.keeps_refl rfl rfl, rfl⟩

private theorem follows_clearZones (h : m.Recorded) :
    m.pool.Follows m.Keeps (fun _ => True) m.engine.clearZones.pool := by
  refine .of_leave h.pool m.keeps_refl ?_ ?_ ?_ rfl
  · exact fun hk => absurd trivial hk
  · exact fun _ => rfl
  · intro z
    simp only [Engine.clearZones, List.mem_append, true_and]
    exact or_congr_right OrderedMap.mem_values

private theorem close_cases {what : Closing} (hstep : m.close what = some m') :
    what = .clearZones ∧ m.errand = .none ∧ m' = { m with engine := m.engine.clearZones } ∨
    m'.errand = m.errand ∧ m'.pool.zones = m.pool.zones ∧ m'.pool.retired = m.pool.retired := by
  cases closed_of_close hstep with
  | clearZones hfree => exact .inl ⟨rfl, hfree, rfl⟩
  | _ => exact .inr ⟨rfl, rfl, rfl⟩

variable [HasFiles σ] {move : Move σ}

/-- A move changes records only as it may, and leaves each one present state. -/
theorem step_follows (h : m.Recorded) (hstep : m.step c move = some m') :
    m.pool.Follows (m.Changes c move) (m.Leaves move) m'.pool ∧ m'.Recorded := by
  -- Nobody else but the merge itself changes what is to be merged, or gives out numbers.
  have hrecorded {R : Zone → Zone → Prop} {gone : ZoneKey → Prop}
      (hf : m.pool.Follows R gone m'.pool)
      (he : m'.errand = m.errand) (hmade : m'.pool.zones.made = m.pool.zones.made) :
      m'.Recorded :=
    ⟨h.pool.follows hf, fun hfresh => hmade ▸ h.fresh (he ▸ hfresh)⟩
  cases hmove : move.isClosing with
  | false =>
    rcases step_cases hmove hstep with
      ⟨w, p', rfl, hp, rfl⟩ | ⟨p', rfl, hp, rfl⟩ | ⟨hother, haside⟩
    · obtain ⟨x, hx, hsection⟩ := Pool.workerSection_of_step hp
      have hf := hsection.follows h.pool hx
      exact ⟨hf, hrecorded hf rfl (hsection.made hx)⟩
    · obtain ⟨hf, hzones⟩ := follows_start h hp
      exact ⟨hf, hrecorded hf rfl (congrArg ZoneList.made hzones)⟩
    · have hf := haside.follows h
      exact ⟨follows_other hother hmove hf, h.pool.follows hf, (haside.turns h).fresh⟩
  | true =>
    cases move with
    | closing what =>
      rcases close_cases hstep with ⟨rfl, he, rfl⟩ | ⟨he, hzones, hretired⟩
      · have hf := follows_clearZones h
        exact ⟨hf, h.pool.follows hf, fun hfresh => by rw [he] at hfresh; cases hfresh⟩
      · have hf : m.pool.Follows m.Keeps (m.Leaves (.closing what)) m'.pool :=
          .refl h.pool m.keeps_refl hzones hretired
        exact ⟨hf, hrecorded hf he (congrArg ZoneList.made hzones)⟩
    | _ => cases hmove

/-- A move lets the holder of the list go on only to what it may go on with. -/
theorem step_turns (h : m.Recorded) (hmove : move.isClosing = false)
    (hstep : m.step c move = some m') : m.Turns m' := by
  have hsame (he : m'.errand = m.errand) : m.Turns m' := by
    refine ⟨(step_follows h hstep).2.fresh, fun hz => .inl (he ▸ hz), fun hk => ?_⟩
    rw [he] at hk
    exact ⟨m.errand.zone?_of_mem_doomed hk, .inl hk⟩
  rcases step_cases hmove hstep with ⟨w, p', -, -, rfl⟩ | ⟨p', -, -, rfl⟩ | ⟨-, haside⟩
  · exact hsame rfl
  · exact hsame rfl
  · exact haside.turns h

omit [HasFiles σ] in
/-- In an engine that has just been made every record has one present state. -/
theorem recorded_initial (h : m.Initial) : m.Recorded := by
  obtain ⟨_, _, _, _, _, _, _, hpool⟩ := h.pool_eq
  refine ⟨hpool ▸ Pool.recorded_ofLimits .., fun hfresh => ?_⟩
  rw [h.2] at hfresh
  cases hfresh

/-- At every moment that can be reached every record has one present state. -/
theorem recorded_of_reachable (h : Reachable c m) : m.Recorded := by
  induction h with
  | initial h => exact recorded_initial h
  | step _ _ hstep ih => exact (step_follows ih hstep).2

end Moment

end ZoneSigning
