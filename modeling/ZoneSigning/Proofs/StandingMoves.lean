import ZoneSigning.Proofs.LiveZones
import ZoneSigning.Proofs.ReconciledStandings

/-!
What one move makes of what the schedule has for one zone. The holder of the list asks something of
the zone's task, or gives the zone one; a worker takes the task that waits, or hands back the one it
has. Nothing else happens to what the schedule has for the zone.
-/
namespace ZoneSigning

def Outcome.standing (o : Outcome) (t : Task) (p : Pending) (now maxBackoff : Nat) : Standing :=
  (o.transition? now maxBackoff).elim .free fun f => .waiting (f (p.fold t))

/-- What the next section of the holder of the list makes of what the schedule has for the zone in
view. -/
def Errand.makes (x : Standing) : Errand → Standing
  | judged now z _ =>
    match z.status with
    | .removed => x.dropped
    | .updated => x.moved .configure now
    | .added | .ok => x
  | lacking now z _ => x.given (z.configuring now)
  | serving .sign now _ => x.moved .read now
  | serving .flush .. | flushing _ => x.flushed
  | admitting now z => x.given (Moment.signingTask now z)
  | none | reading .. | merging .. | acting .. | evicting .. | leaving .. | settling .. => x

namespace Schedule.Consistent

variable {s : Schedule} {t : Task} {p : Pending}

private theorem sets_settle (h : s.Consistent) (hp : s.standing t.zone = .taken p) (o : Outcome)
    (now maxBackoff : Nat) :
    s.Sets (o.settle t now maxBackoff s) t.zone (o.standing t p now maxBackoff) := by
  have hreleased := h.sets_release hp
  unfold Outcome.settle Outcome.standing
  cases hf : o.transition? now maxBackoff with
  | none => exact hreleased
  | some f =>
    have hzone : (s.returned t f).zone = t.zone := (Outcome.sameOrigin_returned hf s t).1
    have hback : s.returned t f = f (p.fold t) := by
      rw [returned, (h.inFlight_of_standing hp).2, Option.elim_some]
    have hfree : (s.release t.zone).2.hasTask (s.returned t f).zone = false := by
      rw [hzone]
      exact hreleased.consistent.hasTask_of_standing hreleased.self
    have hadded := hreleased.consistent.sets_added hfree
    rw [hzone, hback] at hadded
    dsimp only [Option.elim_some]
    rw [resubmit_eq, hreleased.consistent.schedule_of_free hfree, hback]
    exact hreleased.trans hadded

end Schedule.Consistent

namespace Pool

variable {σ : Type} {c : Collaborators σ} {p p' : Pool σ} {w : Nat} {x : Worker} {k : ZoneKey}
  {t : Task}

private theorem Owned.isInFlight_standing (h : p.Owned) (ht : p.held? w = some t) :
    ∃ asked, p.schedule.standing t.zone = .taken asked :=
  h.consistent.isInFlight_iff_standing.mp (h.marked ht)

/-- Nobody holds the task of a zone that has a waiting task or none. -/
theorem Owned.zone_ne_of_standing (h : p.Owned) (hx : ∀ asked, p.schedule.standing k ≠ .taken asked)
    (ht : p.held? w = some t) : t.zone ≠ k := by
  rintro rfl
  obtain ⟨asked, hasked⟩ := h.isInFlight_standing ht
  exact hx asked hasked

/-- A worker that had no task holds one whose step has not begun. -/
theorem WorkerSection.phase?_of_idle (hx : p.workers[w]? = some x) (h : WorkerSection c p w x p')
    (hidle : x.phase = .idle) (ht : p'.held? w = some t) : p'.phase? w = some (.holding t) := by
  cases h with
  | @take u s =>
    have hphase : ({ p with schedule := s }.setWorker w
        { x with phase := .holding u, idle := x.idle.reset }).phase? w = some (.holding u) :=
      phase?_setWorker_self hx rfl _
    rw [held?_of_phase? hphase] at ht
    exact Option.some.inj ht ▸ hphase
  | leave =>
    rw [held?_of_phase? (phase?_setWorker_self hx rfl _)] at ht
    cases ht
  | _ => simp_all only [reduceCtorEq]

/-- A worker takes the zone's task, or hands it back, or leaves alone what the schedule has for the
zone. -/
theorem standing_worker (hown : p.Owned) (hp : p.stepWorker c w = some p') (k : ZoneKey) :
    (∃ u, p.schedule.standing k = .waiting u ∧ u.zone = k ∧ p.held? w = none ∧
      p'.schedule.standing k = .taken {} ∧
      p'.phase? w = some (.holding { u with flush := false })) ∨
    (∃ t z o asked, p.phase? w = some (.stepping t (.settling o)) ∧ t.zone = k ∧
      p.zone? t = some z ∧ p.schedule.standing k = .taken asked ∧ p' = p.settle w t o z ∧
      p'.schedule.standing k =
        if z.status = .removed then .free else o.standing t asked p.now p.maxBackoff) ∨
    p'.schedule.standing k = p.schedule.standing k ∧
      ∀ {t}, t.zone = k → (p'.held? w = some t ↔ p.held? w = some t) := by
  obtain ⟨x, hx, hsection⟩ := workerSection_of_step hp
  rcases hsection.ownership hx with
    ⟨t, s, hidle, hnext, rfl, hheld⟩ | ⟨t, z, o, hphase, hz, rfl⟩ | ⟨hs, hheld⟩
  · obtain ⟨u, hu, rfl, hsets⟩ := hown.consistent.sets_next hnext
    have hself : p'.held? w = some { u with flush := false } := (hheld w).trans (if_pos rfl)
    have hnone : p.held? w = none := by
      rw [held?_of_phase? (phase?_of_get hx), hidle]
      rfl
    by_cases hk : u.zone = k
    · subst hk
      exact .inl ⟨u, hu, rfl, hnone, hsets.self, hsection.phase?_of_idle hx hidle hself⟩
    · refine .inr (.inr ⟨hsets.other (Ne.symm hk), fun {t} ht => ?_⟩)
      rw [hself, hnone]
      simp only [reduceCtorEq, iff_false, Option.some.injEq]
      rintro rfl
      exact hk ht
  · have hphase : p.phase? w = some (.stepping t (.settling o)) := hphase ▸ phase?_of_get hx
    obtain ⟨asked, hasked⟩ := hown.isInFlight_standing (held?_of_phase? hphase)
    have hsets : p.schedule.Sets (p.settle w t o z).schedule t.zone
        (if z.status = .removed then .free else o.standing t asked p.now p.maxBackoff) := by
      rw [settle_schedule]
      split
      · exact hown.consistent.sets_release hasked
      · exact hown.consistent.sets_settle hasked o p.now p.maxBackoff
    by_cases hk : t.zone = k
    · subst hk
      exact .inr (.inl ⟨t, z, o, asked, hphase, rfl, hz, hasked, rfl, hsets.self⟩)
    · refine .inr (.inr ⟨hsets.other (Ne.symm hk), fun {u} hu => ?_⟩)
      rw [held?_settle, if_pos rfl, held?_of_phase? hphase]
      simp only [reduceCtorEq, false_iff, WorkerPhase.task?, Option.some.injEq]
      rintro rfl
      exact hk hu
  · exact .inr (.inr ⟨by rw [hs], fun _ => by rw [hheld w]⟩)

end Pool

namespace Moment

variable {σ : Type} {c : Collaborators σ} {m m' : Moment σ} {move : Move σ}

/-- The holder of the list touches only what the schedule has for the zone that it has in view. -/
theorem sets_proceed [HasFiles σ] (hs : m.pool.schedule.Consistent) (hstep : m.proceed = some m') :
    m.errand.zone? = .none ∧ m'.pool.schedule = m.pool.schedule ∨
    ∃ z, m.errand.zone? = some z ∧ m.pool.schedule.Sets m'.pool.schedule z.key
      (m.errand.makes (m.pool.schedule.standing z.key)) := by
  cases proceeded_of_proceed hstep with
  | drop he hremoved =>
    refine .inr ⟨_, congrArg Errand.zone? he, ?_⟩
    simp only [he, Errand.makes, hremoved]
    exact hs.sets_unscheduleZone _
  | ask he hupdated | askInVain he hupdated =>
    refine .inr ⟨_, congrArg Errand.zone? he, ?_⟩
    simp only [he, Errand.makes, hupdated]
    exact hs.sets_reschedule _ .configure _
  | content he hstatus | lack he hstatus =>
    refine .inr ⟨_, congrArg Errand.zone? he, ?_⟩
    rcases hstatus with hstatus | hstatus <;> simp only [he, Errand.makes, hstatus] <;>
      exact hs.sets_self
  | give he | grant he =>
    refine .inr ⟨_, congrArg Errand.zone? he, ?_⟩
    rw [he]
    exact hs.sets_schedule _
  | askRead he | refuse he | askReadInVain he =>
    refine .inr ⟨_, congrArg Errand.zone? he, ?_⟩
    rw [he]
    exact hs.sets_reschedule _ .read _
  | flush he | flushMoved he =>
    refine .inr ⟨_, congrArg Errand.zone? he, ?_⟩
    rw [he]
    exact hs.sets_flushZone _
  | _ he => exact .inl ⟨congrArg Errand.zone? he, rfl⟩

variable [HasFiles σ]

/-- Others than the workers and the holder of the list only ever flush all that waits. -/
theorem schedule_other (hmove : move.isClosing = false) (hstep : m.step c move = some m')
    (hother : ∀ w, move ≠ .worker w) : move = .proceed ∧ m.proceed = some m' ∨
      m'.pool.schedule = m.pool.schedule ∨ m'.pool.schedule = m.pool.schedule.flushAll.2 := by
  cases moved_of_step hstep with
  | worker => exact absurd rfl (hother _)
  | closing => cases hmove
  | proceed hproceed => exact .inl ⟨rfl, hproceed⟩
  | pass => exact .inr (.inl (by rw [pool_beginPass]))
  | heed => exact .inr (.inl (by rw [pool_heed]; rfl))
  | request => exact .inr (.inl (by rw [pool_receive]))
  | drudger hp =>
    obtain ⟨y, -, hsection⟩ := Pool.drudgerSection_of_step hp
    exact .inr (.inl hsection.frame.1)
  | start hp => exact .inr (.inl (by rw [(Pool.start_eq_ok hp).2]; rfl))
  | flushAll => exact .inr (.inr rfl)
  | reload | tick | happen => exact .inr (.inl rfl)

end Moment

end ZoneSigning
