import ZoneSigning.Proofs.Histories
import ZoneSigning.Proofs.StandingMoves

/-!
Requests to sign a zone. A request is kept as the kind of the zone's waiting task, or recorded for a
task that is taken; so the zone is read before it is signed again, whoever moves and whatever the
collaborators answer. But the place for what is displaced is only one, and so is the place for what
has been asked of a taken task: a pass that finds the zone updated in between may take the place of
the request. Then the zone is signed with the content that it has had before.
-/
namespace ZoneSigning

/-- What has been asked of the task is lost if the task is moved to configuring: there is no place
left for the step that this displaces, or for the request. -/
def Standing.forgets : Standing → Bool
  | free => false
  | waiting t => t.what != .configure && t.halted.any (· != .read)
  | taken _ => true

/-- No request comes with a waiting task. -/
def Standing.Quiet : Standing → Prop
  | waiting t => t.interrupt = none
  | free | taken _ => True

/-- Whether this waiting task leads to reading before signing. A zone that is `bare` has no
configuration, so that it is not signed once it is configured. -/
def Task.ReadsFirst (bare : Prop) (t : Task) : Prop :=
  t.what = .read ∨ t.what = .configure ∧ (t.halted = some .read ∨ bare)

def Outcome.ReadsNext (t : Task) : Outcome → Prop
  | advance next _ => next = .read
  | resume _ => t.halted = some .read
  | retry _ => False
  | fatal _ => True

def WorkerPhase.ReadsNext (bare : Prop) : WorkerPhase → Prop
  | holding t | stepping t .consulting =>
    t.what = .configure ∧ t.interrupt = none ∧ (t.halted = some .read ∨ bare)
  | stepping t (.settling o) => t.interrupt = none ∧ o.ReadsNext t
  | _ => False

/-- A task that leads to reading under one condition does so under a weaker one. -/
theorem Task.ReadsFirst.mono {a b : Prop} {t : Task} (h : t.ReadsFirst a) (hab : a → b) :
    t.ReadsFirst b :=
  h.imp_right (And.imp_right (Or.imp_right hab))

/-- A worker that is going to read under one condition is so under a weaker one. -/
theorem WorkerPhase.ReadsNext.mono {a b : Prop} {phase : WorkerPhase} (h : phase.ReadsNext a)
    (hab : a → b) : phase.ReadsNext b := by
  have hstill {t : Task} (h : t.what = .configure ∧ t.interrupt = none ∧
      (t.halted = some .read ∨ a)) : t.what = .configure ∧ t.interrupt = none ∧
      (t.halted = some .read ∨ b) :=
    ⟨h.1, h.2.1, h.2.2.imp_right hab⟩
  cases phase with
  | holding t => exact hstill h
  | stepping t stage =>
    cases stage with
    | consulting => exact hstill h
    | settling o => exact h
    | _ => exact h.elim
  | _ => exact h.elim

namespace Standing

variable {x : Standing} {f : Task → Task} {note : Pending → Pending} {t : Task}

private theorem quiet_asked (hf : ∀ t, (f t).interrupt = t.interrupt) (h : x.Quiet) :
    (x.asked f note).Quiet := by
  cases x with
  | waiting t => exact (hf { t with flush := false }).trans h
  | free => trivial
  | taken p => trivial

private theorem quiet_given (ht : t.interrupt = none) (h : x.Quiet) : (x.given t).Quiet := by
  cases x with
  | free => exact ht
  | waiting u => exact h
  | taken p => trivial

/-- The holder of the list gives no request to a waiting task. -/
theorem quiet_makes (e : Errand) (h : x.Quiet) : (e.makes x).Quiet := by
  have hmoved (what : TaskKind) (due : Nat) : (x.moved what due).Quiet := by
    refine quiet_asked (fun t => ?_) h
    unfold Task.retarget
    split <;> rfl
  have hflushed : x.flushed.Quiet := quiet_asked (f := ({ · with flush := true })) (fun _ => rfl) h
  cases e with
  | judged now z left =>
    unfold Errand.makes
    dsimp only
    split
    · cases x <;> trivial
    · exact hmoved .configure now
    · exact h
    · exact h
  | serving what now z =>
    cases what with
    | flush => exact hflushed
    | sign => exact hmoved .read now
  | flushing => exact hflushed
  | lacking => exact quiet_given rfl h
  | admitting => exact quiet_given rfl h
  | none => exact h
  | reading => exact h
  | merging => exact h
  | acting => exact h
  | evicting => exact h
  | leaving => exact h
  | settling => exact h

end Standing

/-- Configuring goes on to reading if the zone is to be read, or has had no configuration. -/
theorem ZoneState.readsNext_configured {s s' : ZoneState} {answer : Except StepError ConfigStatus}
    {o : Outcome} {t : Task} (ho : s.configured answer = (o, s'))
    (h : t.halted = some .read ∨ s.config = none) : o.ReadsNext t := by
  cases configured_of_eq ho with
  | reloaded => exact rfl
  | kept _ hsome => exact h.resolve_right (Option.isSome_iff_ne_none.mp hsome)
  | bare => trivial

namespace Pool

variable {σ : Type} {c : Collaborators σ} {p p' : Pool σ} {k : ZoneKey} {w : Nat} {t : Task}

/-- The zone is going to be read before it is signed. -/
inductive WillRead (p : Pool σ) (k : ZoneKey) : Prop
  | free (hx : p.schedule.standing k = .free) (hbare : p.Bare k)
  | waiting {t : Task} (hx : p.schedule.standing k = .waiting t) (h : t.ReadsFirst (p.Bare k))
  | requested {asked : Pending} (hx : p.schedule.standing k = .taken asked)
      (h : asked.interrupt = some .read)
  | underWay {asked : Pending} {w : Nat} {t : Task} {phase : WorkerPhase}
      (hx : p.schedule.standing k = .taken asked) (hnone : asked.interrupt = none)
      (hphase : p.phase? w = some phase) (ht : phase.task? = some t) (hzone : t.zone = k)
      (h : phase.ReadsNext (p.Bare k))

private theorem readsNext_worker {phase : WorkerPhase} (hp : p.stepWorker c w = some p')
    (hphase : p.phase? w = some phase) (ht : phase.task? = some t) (hheld : p'.held? w = some t)
    (hlists : p.Lists t.zone t.record) (h : phase.ReadsNext (p.Bare t.zone)) :
    ∃ phase', p'.phase? w = some phase' ∧ phase'.task? = some t ∧
      phase'.ReadsNext (p'.Bare t.zone) := by
  obtain ⟨x, hx, hxphase⟩ := Option.map_eq_some_iff.mp hphase
  obtain ⟨z, hz, hlisted⟩ := zone?_of_lists hlists
  cases phase with
  | holding u =>
    obtain rfl := Option.some.inj ht
    obtain ⟨hwhat, hrest⟩ := h
    simp only [stepWorker, hx, hxphase, hz, Option.map_some, begin, hwhat, Option.some.injEq] at hp
    subst hp
    exact ⟨_, phase?_goTo_self hx rfl _, rfl, hwhat, hrest⟩
  | stepping u stage =>
    obtain rfl := Option.some.inj ht
    cases stage with
    | consulting =>
      obtain ⟨hwhat, hnone, hread⟩ := h
      simp only [stepWorker, hx, hxphase, hz, Option.bind_some, stepStage, consult, hwhat,
        Option.some.injEq] at hp
      subst hp
      refine ⟨_, phase?_goTo_self hx (by simp) _, rfl, hnone, ?_⟩
      exact ZoneState.readsNext_configured rfl (hread.imp_right fun hbare => hbare hlisted)
    | settling o =>
      simp only [stepWorker, hx, hxphase, hz, Option.bind_some, stepStage, Option.some.injEq] at hp
      subst hp
      rw [held?_settle, if_pos rfl] at hheld
      cases hheld
    | signing => exact h.elim
    | awaiting => exact h.elim
    | publishing => exact h.elim
  | idle => cases ht
  | reporting => cases ht
  | off => cases ht

namespace WillRead

-- A worker with a task is left at what it is doing, and the zone does not get a configuration.
variable (hphase : ∀ {w phase t}, phase.task? = some t → p.phase? w = some phase →
    p'.phase? w = some phase)
  (hbare : p.Bare k → p'.Bare k) (h : p.WillRead k)
include hphase hbare h

private theorem of_standing_eq (hx : p'.schedule.standing k = p.schedule.standing k) : p'.WillRead k := by
  cases h with
  | free hfree hnone => exact .free (hx.trans hfree) (hbare hnone)
  | waiting hwaits hfirst => exact .waiting (hx.trans hwaits) (hfirst.mono hbare)
  | requested htaken hread => exact .requested (hx.trans htaken) hread
  | underWay htaken hnone hp ht hzone hreads =>
    exact .underWay (hx.trans htaken) hnone (hphase ht hp) ht hzone (hreads.mono hbare)

/-- A zone without a task gets one that leads to reading. -/
theorem given (ht : p'.Bare k → t.ReadsFirst (p'.Bare k))
    (hx : p'.schedule.standing k = (p.schedule.standing k).given t) : p'.WillRead k := by
  cases hstanding : p.schedule.standing k with
  | free =>
    rw [hstanding] at hx
    cases h with
    | free _ hnone => exact .waiting hx (ht (hbare hnone))
    | waiting hwaits => cases hstanding.symm.trans hwaits
    | requested htaken => cases hstanding.symm.trans htaken
    | underWay htaken => cases hstanding.symm.trans htaken
  | waiting u => exact of_standing_eq hphase hbare h (by rw [hx, hstanding]; rfl)
  | taken asked => exact of_standing_eq hphase hbare h (by rw [hx, hstanding]; rfl)

private theorem asked_flush (note : Pending → Pending) (hnote : ∀ x, (note x).interrupt = x.interrupt)
    (hx : p'.schedule.standing k = (p.schedule.standing k).asked ({ · with flush := true }) note) :
    p'.WillRead k := by
  cases h with
  | free hfree hnone => exact .free (by rw [hx, hfree]; rfl) (hbare hnone)
  | waiting hwaits hfirst =>
    rw [hwaits] at hx
    exact .waiting hx (hfirst.mono hbare)
  | requested htaken hread =>
    rw [htaken] at hx
    exact .requested hx ((hnote _).trans hread)
  | underWay htaken hnone hp ht hzone hreads =>
    rw [htaken] at hx
    exact .underWay hx ((hnote _).trans hnone) (hphase ht hp) ht hzone (hreads.mono hbare)

/-- A zone that is going to be read still is when its task is flushed. -/
theorem flushed (hx : p'.schedule.standing k = (p.schedule.standing k).flushed) : p'.WillRead k :=
  h.asked_flush hphase hbare ({ · with flush := true }) (fun _ => rfl) hx

/-- A zone that is going to be read still is when all tasks are flushed. -/
theorem allFlushed (hx : p'.schedule.standing k = (p.schedule.standing k).allFlushed) :
    p'.WillRead k := by
  refine h.asked_flush hphase hbare id (fun _ => rfl) (hx.trans ?_)
  cases p.schedule.standing k <;> rfl

omit hphase in
/-- A waiting task is moved to configuring, and what it displaces has a place. -/
theorem moved_configure {due : Nat} (hforgets : (p.schedule.standing k).forgets = false)
    (hx : p'.schedule.standing k = (p.schedule.standing k).moved .configure due) :
    p'.WillRead k := by
  cases h with
  | free hfree hnone => exact .free (by rw [hx, hfree]; rfl) (hbare hnone)
  | requested htaken | underWay htaken =>
    rw [htaken] at hforgets
    cases hforgets
  | @waiting u hwaits hfirst =>
    rw [hwaits] at hx hforgets
    refine .waiting hx (.inr ?_)
    unfold Task.retarget
    rcases hfirst with hread | ⟨hconfigure, hrest⟩
    · cases hhalted : u.halted with
      | none => simp [hread]
      | some what =>
        obtain rfl : what = .read := by simpa [Standing.forgets, hread, hhalted] using hforgets
        simp [hread]
    · simpa [hconfigure] using hrest.imp_right hbare

end WillRead

/-- Whoever has a task is going to read once that is moved to reading. -/
theorem willRead_moved_read {x : Standing} {due : Nat} (hfree : x ≠ .free)
    (hx : p.schedule.standing k = x.moved .read due) : p.WillRead k := by
  cases x with
  | free => exact absurd rfl hfree
  | waiting t =>
    refine .waiting hx (.inl ?_)
    dsimp only [Task.retarget]
    split <;> rfl
  | taken asked => exact .requested hx rfl

end Pool

namespace Moment

variable {σ : Type} {c : Collaborators σ} {m m' : Moment σ} {k : ZoneKey} {move : Move σ}

def taken? (c : Collaborators σ) : Moment σ × Move σ → Option Task
  | (m, .worker w) =>
    if (m.pool.held? w).isNone then (m.pool.stepWorker c w).bind (·.held? w) else .none
  | _ => .none

def begins (c : Collaborators σ) (k : ZoneKey) (what : TaskKind) (e : Moment σ × Move σ) : Bool :=
  (taken? c e).any fun t => t.zone = k ∧ t.what = what

def isRemoved (m : Moment σ) (k : ZoneKey) : Bool :=
  (m.pool.zones.get? k).any (·.status = .removed)

/-- Whether a pass is about to take back what the zone's task has been asked for: it finds the zone
removed, or updated while there is no place for what this displaces. -/
def overrules (k : ZoneKey) : Moment σ × Move σ → Bool
  | (m, .proceed) =>
    match m.errand with
    | .judged _ z _ => z.key = k && (z.status = .removed ||
        z.status = .updated && (m.pool.schedule.standing k).forgets)
    | _ => false
  | _ => false

/-- Whether a request to sign the zone is about to succeed: its task is moved to reading, or it gets
a task to read it. -/
def grants (m : Moment σ) (k : ZoneKey) : Bool :=
  match m.errand with
  | .serving .sign now z => z.key = k && (m.pool.schedule.reschedule k .read now).1.isOk
  | .admitting now z => z.key = k && (m.pool.schedule.schedule (signingTask now z)).1.isOk
  | _ => false

variable [HasFiles σ]

private theorem quiet_step (hreach : Reachable c m) (hmove : move.isClosing = false)
    (hstep : m.step c move = some m') (h : (m.pool.schedule.standing k).Quiet) :
    (m'.pool.schedule.standing k).Quiet := by
  have hown := owned_of_reachable hreach
  by_cases hworker : ∃ w, move = .worker w
  · obtain ⟨w, rfl⟩ := hworker
    obtain ⟨p', hp, rfl⟩ := Option.map_eq_some_iff.mp hstep
    rw [pool_withPool]
    rcases Pool.standing_worker hown hp k with
      ⟨u, -, -, -, hx, -⟩ | ⟨t, z, o, asked, -, -, -, -, -, hx⟩ | ⟨hx, -⟩ <;> rw [hx]
    · trivial
    · split
      · trivial
      · unfold Outcome.standing
        cases hf : o.transition? m.pool.now m.pool.maxBackoff with
        | none => trivial
        | some f => exact (Outcome.interrupt_transition hf _).1
    · exact h
  · rcases schedule_other hmove hstep (fun w hw => hworker ⟨w, hw⟩) with
      ⟨-, hproceed⟩ | hs | hs
    · rcases sets_proceed hown.consistent hproceed with ⟨-, hs⟩ | ⟨z, -, hsets⟩
      · rw [hs]
        exact h
      · rw [hsets.standing_eq]
        split
        · next hk => exact hk ▸ Standing.quiet_makes m.errand (hk ▸ h)
        · exact h
    · rw [hs]
      exact h
    · rw [hs, hown.consistent.standing_flushAll]
      cases hx : m.pool.schedule.standing k with
      | waiting t =>
        rw [hx] at h
        exact h
      | free => trivial
      | taken p => trivial

private theorem quiet_of_reachable (h : Reachable c m) (k : ZoneKey) :
    (m.pool.schedule.standing k).Quiet := by
  induction h with
  | initial h =>
    obtain ⟨_, _, _, _, _, _, _, hpool⟩ := h.pool_eq
    rw [hpool]
    trivial
  | step hreach hmove hstep ih => exact quiet_step hreach hmove hstep ih

omit [HasFiles σ] in
private theorem taken?_eq {w : Nat} {p' : Pool σ} (hp : m.pool.stepWorker c w = some p')
    (hnone : m.pool.held? w = none) : taken? c (m, .worker w) = p'.held? w := by
  simp [taken?, hp, hnone]

section Worker

variable {w : Nat} {p' : Pool σ}

/-- A worker hands the zone's task back, which leads to reading. -/
theorem willRead_settle (hreach : Reachable c m) {t : Task} {z : Zone} {o : Outcome}
    {asked : Pending} (hphase : m.pool.phase? w = some (.stepping t (.settling o)))
    (hzone : t.zone = k) (hz : m.pool.zone? t = some z) (hp : p' = m.pool.settle w t o z)
    (hx : m.pool.schedule.standing k = .taken asked)
    (hx' : p'.schedule.standing k = o.standing t asked m.pool.now m.pool.maxBackoff)
    (h : m.pool.WillRead k) : p'.WillRead k := by
  have hown := owned_of_reachable hreach
  have hheld := Pool.held?_of_phase? hphase
  -- A step that fails for good has found no configuration.
  have hfatal {e : StepError} (ho : o = .fatal e) : p'.WillRead k := by
    subst ho
    refine .free hx' fun {y} hy => ?_
    obtain ⟨_, _, _, he⟩ := m.pool.settle_eq w t (.fatal e) z
    rw [hp, he] at hy
    obtain ⟨z', hz', hlisted⟩ :=
      Pool.zone?_of_lists ((anchored_of_reachable hreach).tasks (.inr ⟨w, hheld⟩))
    obtain rfl := Option.some.inj (hz.symm.trans hz')
    rw [hzone] at hlisted
    obtain rfl := Option.some.inj (hlisted.symm.trans hy)
    exact (failsBare_of_reachable hreach hphase hz).2
  cases h with
  | free hfree => cases hx.symm.trans hfree
  | waiting hwaits => cases hx.symm.trans hwaits
  | requested htaken hread =>
    cases hx.symm.trans htaken
    cases hf : o.transition? m.pool.now m.pool.maxBackoff with
    | none =>
      cases o with
      | fatal e => exact hfatal rfl
      | _ => cases hf
    | some f =>
      have hasked : (asked.fold t).interrupt = some .read := by simp [Pending.fold, hread]
      rw [Outcome.standing, hf, Option.elim_some] at hx'
      exact .waiting hx' (.inl ((Outcome.interrupt_transition hf _).2 hasked))
  | @underWay _ v u phase htaken hnone hphase' hu huzone hreads =>
    cases hx.symm.trans htaken
    have hheld' : m.pool.held? v = some u := (Pool.held?_of_phase? hphase').trans hu
    obtain rfl := hown.alone hheld' hheld (huzone.trans hzone.symm)
    obtain rfl := Option.some.inj (hheld'.symm.trans hheld)
    obtain rfl := Option.some.inj (hphase'.symm.trans hphase)
    obtain ⟨hinterrupt, hnext⟩ := hreads
    have hasked : (asked.fold u).interrupt = none := by simp [Pending.fold, hnone, hinterrupt]
    cases o with
    | advance next delay =>
      exact .waiting hx' (.inl ((Task.what_succeed hasked).trans hnext))
    | resume next =>
      have hhalted : (asked.fold u).halted = some .read := by
        simp only [Pending.fold, hnone]
        exact hnext
      exact .waiting hx' (.inl (Task.what_resume hasked hhalted))
    | retry e => exact hnext.elim
    | fatal e => exact hfatal rfl

private theorem bare_worker (hreach : Reachable c m) (hp : m.pool.stepWorker c w = some p')
    (hother : ∀ {t}, m.pool.held? w = some t → t.zone ≠ k) (h : m.pool.Bare k) : p'.Bare k := by
  have hstep : m.step c (.worker w) = some (m.withPool p') := by rw [step, hp]; rfl
  have hbusy {v : Nat} {t : Task} (hv : (.worker w : Move σ) = .worker v)
      (ht : m.pool.held? v = some t) : t.zone ≠ k := by
    rw [← Move.worker.inj hv] at ht
    exact hother ht
  intro z hz
  exact bare_step (anchored_of_reachable hreach) (recorded_of_reachable hreach) hstep hbusy h hz

/-- A worker takes the zone's task: it begins to read the zone, or to configure it before that. -/
theorem willRead_take (hreach : Reachable c m) (hp : m.pool.stepWorker c w = some p')
    {t : Task} (hx : m.pool.schedule.standing t.zone = .waiting t)
    (hnone : m.pool.held? w = none) (hx' : p'.schedule.standing t.zone = .taken {})
    (hphase : p'.phase? w = some (.holding { t with flush := false }))
    (h : m.pool.WillRead t.zone) :
    begins c t.zone .read (m, .worker w) ∨ p'.WillRead t.zone := by
  cases h with
  | free hfree => cases hx.symm.trans hfree
  | requested htaken => cases hx.symm.trans htaken
  | underWay htaken => cases hx.symm.trans htaken
  | waiting hwaits hfirst =>
    cases hx.symm.trans hwaits
    rcases hfirst with hread | ⟨hconfigure, hread⟩
    · left
      rw [begins, taken?_eq hp hnone, Pool.held?_of_phase? hphase]
      simp [WorkerPhase.task?, hread]
    · have hquiet := quiet_of_reachable hreach t.zone
      rw [hx] at hquiet
      refine .inr (.underWay hx' rfl hphase rfl rfl ⟨hconfigure, hquiet, hread.imp_right ?_⟩)
      refine bare_worker hreach hp fun {u} hu => ?_
      rw [hnone] at hu
      cases hu

private theorem willRead_along (hreach : Reachable c m) (hp : m.pool.stepWorker c w = some p')
    (hx : p'.schedule.standing k = m.pool.schedule.standing k)
    (hheld : ∀ {t}, t.zone = k → (p'.held? w = some t ↔ m.pool.held? w = some t))
    (h : m.pool.WillRead k) : p'.WillRead k := by
  have hown := owned_of_reachable hreach
  cases h with
  | free hfree hnone =>
    have hother {t : Task} (ht : m.pool.held? w = some t) : t.zone ≠ k :=
      hown.zone_ne_of_standing (by simp [hfree]) ht
    exact .free (hx.trans hfree) (bare_worker hreach hp hother hnone)
  | waiting hwaits hfirst =>
    have hother {t : Task} (ht : m.pool.held? w = some t) : t.zone ≠ k :=
      hown.zone_ne_of_standing (by simp [hwaits]) ht
    exact .waiting (hx.trans hwaits) (hfirst.mono (bare_worker hreach hp hother))
  | requested htaken hread => exact .requested (hx.trans htaken) hread
  | @underWay _ v t phase htaken hnone hphase ht hzone hreads =>
    have hv : m.pool.held? v = some t := (Pool.held?_of_phase? hphase).trans ht
    by_cases hvw : v = w
    · subst hvw hzone
      obtain ⟨phase', hphase', ht', hreads'⟩ := Pool.readsNext_worker hp hphase ht
        ((hheld rfl).mpr hv) ((anchored_of_reachable hreach).tasks (.inr ⟨v, hv⟩)) hreads
      exact .underWay (hx.trans htaken) hnone hphase' ht' rfl hreads'
    · have hother {u : Task} (hu : m.pool.held? w = some u) : u.zone ≠ k :=
        fun hkey => hvw (hown.alone hv hu (hzone.trans hkey.symm))
      obtain ⟨x, hxw, hsection⟩ := Pool.workerSection_of_step hp
      exact .underWay (hx.trans htaken) hnone ((hsection.phase?_other hxw hvw).trans hphase) ht
        hzone (hreads.mono (bare_worker hreach hp hother))

private theorem willRead_worker (hreach : Reachable c m) (hp : m.pool.stepWorker c w = some p')
    (hlive : m.isRemoved k = false) (h : m.pool.WillRead k) :
    begins c k .read (m, .worker w) ∨ p'.WillRead k := by
  rcases Pool.standing_worker (owned_of_reachable hreach) hp k with
    ⟨u, hx, rfl, hnone, hx', hphase⟩ | ⟨t, z, o, asked, hphase, hzone, hz, hx, hp', hx'⟩ |
    ⟨hx, hheld⟩
  · exact willRead_take hreach hp hx hnone hx' hphase h
  · have hlists := (anchored_of_reachable hreach).tasks (.inr ⟨w, Pool.held?_of_phase? hphase⟩)
    obtain ⟨z', hz', hlisted⟩ := Pool.zone?_of_lists hlists
    obtain rfl := Option.some.inj (hz.symm.trans hz')
    have hstatus : z.status ≠ .removed := by simpa [isRemoved, ← hzone, hlisted] using hlive
    rw [if_neg hstatus] at hx'
    exact .inr (willRead_settle hreach hphase hzone hz hp' hx hx' h)
  · exact .inr (willRead_along hreach hp hx hheld h)

end Worker

omit [HasFiles σ] in
private theorem willRead_makes {p' : Pool σ} {z : Zone}
    (hphase : ∀ {w phase t}, phase.task? = some t → m.pool.phase? w = some phase →
      p'.phase? w = some phase)
    (hbare : m.pool.Bare z.key → p'.Bare z.key) (hz : m.errand.zone? = some z)
    (hx : p'.schedule.standing z.key = m.errand.makes (m.pool.schedule.standing z.key))
    (hkept : overrules z.key (m, .proceed) = false) (h : m.pool.WillRead z.key) :
    p'.WillRead z.key := by
  dsimp only [overrules] at hkept
  cases he : m.errand <;> rw [he] at hz hx hkept <;> cases hz
  case judged now left =>
    unfold Errand.makes at hx
    cases hstatus : z.status <;> simp [hstatus] at hx hkept
    case updated => exact h.moved_configure hbare hkept hx
    case added => exact h.of_standing_eq hphase hbare hx
    case ok => exact h.of_standing_eq hphase hbare hx
  case lacking now left => exact h.given hphase hbare (fun hnone => .inr ⟨rfl, .inr hnone⟩) hx
  case serving what now =>
    cases what with
    | flush => exact h.flushed hphase hbare hx
    | sign =>
      cases hstanding : m.pool.schedule.standing z.key with
      | free => exact h.of_standing_eq hphase hbare (by rw [hx, hstanding]; rfl)
      | waiting t => exact Pool.willRead_moved_read (by simp [hstanding]) hx
      | taken asked => exact Pool.willRead_moved_read (by simp [hstanding]) hx
  case admitting now => exact h.given hphase hbare (fun _ => .inl rfl) hx
  case flushing => exact h.flushed hphase hbare hx

/-- Others than the workers do not make the schedule forget that a zone is to be read, unless a pass
overrules that. -/
theorem willRead_other (hreach : Reachable c m) (hmove : move.isClosing = false)
    (hstep : m.step c move = some m') (hother : ∀ w, move ≠ .worker w)
    (hkept : overrules k (m, move) = false) (h : m.pool.WillRead k) : m'.pool.WillRead k := by
  have hown := owned_of_reachable hreach
  have hbare (h : m.pool.Bare k) : m'.pool.Bare k :=
    bare_step (anchored_of_reachable hreach) (recorded_of_reachable hreach) hstep
      (fun {w _} hw => absurd hw (hother w)) h
  have hphase {w : Nat} {phase : WorkerPhase} {t : Task} (ht : phase.task? = some t)
      (hp : m.pool.phase? w = some phase) : m'.pool.phase? w = some phase := by
    rcases step_cases hmove hstep with ⟨v, _, rfl, -⟩ | ⟨p', -, hstart, -⟩ | ⟨-, haside⟩
    · exact absurd rfl (hother v)
    · rw [hown.resting (Pool.start_eq_ok hstart).1 hp] at ht
      cases ht
    · exact (haside.phase?_eq w).trans hp
  rcases schedule_other hmove hstep hother with ⟨rfl, hproceed⟩ | hs | hs
  · rcases sets_proceed hown.consistent hproceed with ⟨-, hs⟩ | ⟨z, hz, hsets⟩
    · exact h.of_standing_eq hphase hbare (by rw [hs])
    · by_cases hk : k = z.key
      · subst hk
        exact willRead_makes hphase hbare hz hsets.self hkept h
      · exact h.of_standing_eq hphase hbare (hsets.other hk)
  · exact h.of_standing_eq hphase hbare (by rw [hs])
  · exact h.allFlushed hphase hbare (by rw [hs, hown.consistent.standing_flushAll])

/-- A request that succeeds makes the schedule remember that the zone is to be read. -/
theorem willRead_of_grants (hs : m.pool.schedule.Consistent) (hgrants : m.grants k)
    (hstep : m.proceed = some m') : m'.pool.WillRead k := by
  have hself {z : Zone} (hz : m.errand.zone? = some z) : m'.pool.schedule.standing z.key =
      m.errand.makes (m.pool.schedule.standing z.key) := by
    rcases sets_proceed hs hstep with ⟨hnone, -⟩ | ⟨y, hy, hsets⟩
    · cases hnone.symm.trans hz
    · cases hy.symm.trans hz
      exact hsets.self
  unfold grants at hgrants
  split at hgrants
  · next now z he =>
    obtain ⟨hk, hok⟩ := Bool.and_eq_true_iff.mp hgrants
    obtain rfl := of_decide_eq_true hk
    have hx := hself (by rw [he]; rfl)
    rw [he] at hx
    exact Pool.willRead_moved_read (hs.standing_ne_free hok) hx
  · next now z he =>
    obtain ⟨hk, hok⟩ := Bool.and_eq_true_iff.mp hgrants
    obtain rfl := of_decide_eq_true hk
    have hx := hself (by rw [he]; rfl)
    have hfree : m.pool.schedule.standing z.key = .free := hs.standing_eq_free hok
    rw [he, hfree] at hx
    exact .waiting hx (.inl rfl)
  · cases hgrants

private theorem not_begins_sign (hreach : Reachable c m) (h : m.pool.WillRead k) {w : Nat} :
    begins c k .sign (m, .worker w) = false := by
  refine Bool.eq_false_iff.mpr fun hbegins => ?_
  obtain ⟨t, ht, hsign⟩ := (Option.any_eq_true _ _).mp hbegins
  obtain ⟨rfl, hwhat⟩ := of_decide_eq_true hsign
  unfold taken? at ht
  dsimp only at ht
  split at ht
  · next hnone =>
    obtain ⟨p', hp, hheld⟩ := Option.bind_eq_some_iff.mp ht
    have hnone : m.pool.held? w = none := Option.isNone_iff_eq_none.mp hnone
    rcases Pool.standing_worker (owned_of_reachable hreach) hp t.zone with
      ⟨u, hx, -, -, -, hphase⟩ | ⟨u, z, o, asked, hphase, -⟩ | ⟨-, hsame⟩
    · rw [Pool.held?_of_phase? hphase] at hheld
      obtain rfl := Option.some.inj hheld
      cases h with
      | waiting hwaits hfirst =>
        cases hx.symm.trans hwaits
        rcases hfirst with hread | ⟨hconfigure, -⟩
        · cases hwhat.symm.trans hread
        · cases hwhat.symm.trans hconfigure
      | free hfree => cases hx.symm.trans hfree
      | requested htaken => cases hx.symm.trans htaken
      | underWay htaken => cases hx.symm.trans htaken
    · rw [Pool.held?_of_phase? hphase] at hnone
      cases hnone
    · rw [(hsame rfl).mp hheld] at hnone
      cases hnone
  · cases ht

/-- Since the request the zone has been read, or it is still going to be. -/
theorem read_or_willRead {n : Moment σ} {later earlier : List (Moment σ × Move σ)}
    (h : Past c m (later ++ (n, .proceed) :: earlier)) (hgrants : n.grants k)
    (hlive : ∀ e ∈ later, e.1.isRemoved k = false) (hkept : ∀ e ∈ later, overrules k e = false) :
    (∃ e ∈ later, begins c k .read e) ∨ m.pool.WillRead k := by
  induction later generalizing m with
  | nil =>
    cases h with
    | step hpast _ hstep =>
      exact .inr (willRead_of_grants (owned_of_reachable hpast.reachable).consistent hgrants hstep)
  | cons e later ih =>
    cases h with
    | @step n' _ move _ hpast hmove hstep =>
      obtain ⟨hlive', hlive⟩ := List.forall_mem_cons.mp hlive
      obtain ⟨hkept', hkept⟩ := List.forall_mem_cons.mp hkept
      rcases ih hpast hlive hkept with ⟨e, he, hread⟩ | hwill
      · exact .inl ⟨e, List.mem_cons_of_mem _ he, hread⟩
      · by_cases hworker : ∃ w, move = .worker w
        · obtain ⟨w, rfl⟩ := hworker
          obtain ⟨p', hp, rfl⟩ := Option.map_eq_some_iff.mp hstep
          exact (willRead_worker hpast.reachable hp hlive' hwill).imp_left
            fun hread => ⟨_, List.mem_cons_self, hread⟩
        · exact .inr (willRead_other hpast.reachable hmove hstep (fun w hw => hworker ⟨w, hw⟩)
            hkept' hwill)

/-- A request to sign a zone is not lost: whoever has moved since, and whatever the collaborators have
answered, the zone is not signed again before it is read, as long as it is not removed and no pass
overrules the request. -/
theorem requests_are_kept {n : Moment σ} {later earlier : List (Moment σ × Move σ)} {w : Nat}
    (h : Past c m (later ++ (n, .proceed) :: earlier)) (hgrants : n.grants k)
    (hlive : ∀ e ∈ later, e.1.isRemoved k = false) (hkept : ∀ e ∈ later, overrules k e = false)
    (hsign : begins c k .sign (m, .worker w)) :
    ∃ e ∈ later, begins c k .read e := by
  rcases read_or_willRead h hgrants hlive hkept with hread | hwill
  · exact hread
  · rw [not_begins_sign h.reachable hwill] at hsign
    cases hsign

def oneZoneRenewed : FileStore :=
  { oneZoneFiles with
    nodes := oneZoneFiles.nodes.insert ["z"] (.file (.text (
      "[\x7b\"name\":\"a\",\"policy\":\"p\",\"signconf\":\"c\",\"input\":\x7b\"uri\":\"i\"\x7d," ++
        "\"output\":\x7b\"uri\":\"o\"\x7d\x7d]")) 3)
    clock := 4 }

def askedAfter (sections : Nat) : List (Move FileWorld) :=
  firstPass ++ List.replicate sections (.worker 0) ++ [.request .sign "a"]

def updatedBefore (sections : Nat) : List (Move FileWorld) :=
  [.proceed, .happen { files := oneZoneRenewed }, .pass] ++ List.replicate 10 .proceed ++
    List.replicate sections (.worker 0)

private theorem past_of_request {sections sections' : Nat} {m n n' : Moment FileWorld}
    (hn : oneZone.follow fileCollaborators (askedAfter sections) = some n)
    (hn' : n.step fileCollaborators .proceed = some n')
    (hm : n'.follow fileCollaborators (updatedBefore sections') = some m) :
    Past fileCollaborators m (trace fileCollaborators n' (updatedBefore sections') [] ++
      (n, .proceed) :: trace fileCollaborators oneZone (askedAfter sections) []) := by
  have hclosing {moves : List (Move FileWorld)} {sections : Nat}
      (h : ∀ move ∈ moves, move.isClosing = false) :
      ∀ move ∈ moves ++ List.replicate sections (.worker 0), move.isClosing = false := by
    intro move hmove
    rcases List.mem_append.mp hmove with hmove | hmove
    · exact h move hmove
    · rw [List.eq_of_mem_replicate hmove]
      rfl
  have hasked : ∀ move ∈ askedAfter sections, move.isClosing = false := by
    intro move hmove
    rcases List.mem_append.mp hmove with hmove | hmove
    · exact hclosing (by decide) move hmove
    · rw [List.mem_singleton.mp hmove]
      rfl
  have hpast := (Past.initial oneZone_initial).follow hasked hn
  have hpast := (hpast.step rfl hn').follow (hclosing (by decide)) hm
  rwa [trace_eq_append] at hpast

/-- The zone is to be signed when it has been configured for the first time. That it is updated then
does not matter: it is configured, read and signed. -/
theorem requests_are_kept_oneZone :
    ∃ m n later earlier, Past fileCollaborators m (later ++ (n, .proceed) :: earlier) ∧
      n.grants (.of "a" .internet) ∧
      (∀ e ∈ later, e.1.isRemoved (.of "a" .internet) = false) ∧
      (∀ e ∈ later, overrules (.of "a" .internet) e = false) ∧
      begins fileCollaborators (.of "a" .internet) .sign (m, .worker 0) ∧
      ∃ e ∈ later, begins fileCollaborators (.of "a" .internet) .read e := by
  have hrun : (oneZone.follow fileCollaborators (askedAfter 5)).any fun n =>
      n.grants (.of "a" .internet) ∧ (n.step fileCollaborators .proceed).any fun n' =>
        (∀ e ∈ trace fileCollaborators n' (updatedBefore 10) [],
          e.1.isRemoved (.of "a" .internet) = false ∧ overrules (.of "a" .internet) e = false) ∧
        (n'.follow fileCollaborators (updatedBefore 10)).any fun m =>
          begins fileCollaborators (.of "a" .internet) .sign (m, .worker 0) := by decide +kernel
  obtain ⟨n, hn, hrun⟩ := (Option.any_eq_true _ _).mp hrun
  obtain ⟨hgrants, hrun⟩ := of_decide_eq_true hrun
  obtain ⟨n', hn', hrun⟩ := (Option.any_eq_true _ _).mp hrun
  obtain ⟨hlater, hrun⟩ := of_decide_eq_true hrun
  obtain ⟨m, hm, hsign⟩ := (Option.any_eq_true _ _).mp hrun
  have hpast := past_of_request hn hn' hm
  have hlive := fun e he => (hlater e he).1
  have hkept := fun e he => (hlater e he).2
  exact ⟨m, n, _, _, hpast, hgrants, hlive, hkept, hsign,
    requests_are_kept hpast hgrants hlive hkept hsign⟩

/-- The zone is to be signed when it has been read and waits to be signed. As it is updated then, it
is configured, which finds nothing new, and signed without being read: the request is lost, although
the zone is listed and not removed all along. -/
theorem request_lost_oneZone :
    ∃ m n later earlier, Past fileCollaborators m (later ++ (n, .proceed) :: earlier) ∧
      n.grants (.of "a" .internet) ∧
      (∀ e ∈ later, (e.1.pool.zones.get? (.of "a" .internet)).any (·.status ≠ .removed)) ∧
      begins fileCollaborators (.of "a" .internet) .sign (m, .worker 0) ∧
      ∀ e ∈ later, begins fileCollaborators (.of "a" .internet) .read e = false := by
  have hrun : (oneZone.follow fileCollaborators (askedAfter 10)).any fun n =>
      n.grants (.of "a" .internet) ∧ (n.step fileCollaborators .proceed).any fun n' =>
        (∀ e ∈ trace fileCollaborators n' (updatedBefore 5) [],
          (e.1.pool.zones.get? (.of "a" .internet)).any (·.status ≠ .removed) ∧
            begins fileCollaborators (.of "a" .internet) .read e = false) ∧
        (n'.follow fileCollaborators (updatedBefore 5)).any fun m =>
          begins fileCollaborators (.of "a" .internet) .sign (m, .worker 0) := by decide +kernel
  obtain ⟨n, hn, hrun⟩ := (Option.any_eq_true _ _).mp hrun
  obtain ⟨hgrants, hrun⟩ := of_decide_eq_true hrun
  obtain ⟨n', hn', hrun⟩ := (Option.any_eq_true _ _).mp hrun
  obtain ⟨hlater, hrun⟩ := of_decide_eq_true hrun
  obtain ⟨m, hm, hsign⟩ := (Option.any_eq_true _ _).mp hrun
  exact ⟨m, n, _, _, past_of_request hn hn' hm, hgrants, fun e he => (hlater e he).1, hsign,
    fun e he => (hlater e he).2⟩

end Moment

end ZoneSigning
