import ZoneSigning.Pool

/-!
What one section of a thread can do. `WorkerSection` and `DrudgerSection` list the cases with all
that a thread has found out when it comes to one, so that later proofs need not look into the
sections again.
-/
namespace ZoneSigning

def WorkerPhase.task? : WorkerPhase → Option Task
  | holding t => some t
  | stepping t _ => some t
  | idle | reporting _ | off => none

/-- The task that a worker is shown to be at is the one that it holds. -/
theorem Worker.current_eq (x : Worker) : x.current = x.phase.task? := by
  unfold Worker.current
  cases x.phase <;> rfl

/-- What the answer of the configuration loader leads to, and what it makes of the zone. -/
inductive ZoneState.Configured (s : ZoneState) :
    Except StepError ConfigStatus → Outcome → ZoneState → Prop
  | reloaded (config : SigningConfig) : Configured s (.ok (.reloaded config)) (.advance .read 0)
      { s with config := some config }
  | kept {answer : Except StepError ConfigStatus} (hanswer : ∀ c, answer ≠ .ok (.reloaded c))
      (hconfig : s.config.isSome) : Configured s answer (.resume s.afterUnchanged) s
  | bare {answer : Except StepError ConfigStatus} (hanswer : ∀ c, answer ≠ .ok (.reloaded c))
      (hconfig : s.config = none) (e : StepError) : Configured s answer (.fatal e) s

private theorem ZoneState.configured_cases (s : ZoneState) (answer : Except StepError ConfigStatus) :
    s.Configured answer (s.configured answer).1 (s.configured answer).2 := by
  have hkeeps (e : StepError) (hanswer : ∀ c, answer ≠ .ok (.reloaded c)) :
      s.Configured answer
        (if s.config.isSome then (Outcome.resume s.afterUnchanged, s) else (.fatal e, s)).1
        (if s.config.isSome then (Outcome.resume s.afterUnchanged, s) else (.fatal e, s)).2 := by
    split
    · next hconfig => exact .kept hanswer hconfig
    · next hconfig => exact .bare hanswer (Option.not_isSome_iff_eq_none.mp hconfig) e
  cases answer with
  | error e => exact hkeeps e nofun
  | ok status =>
    cases status with
    | reloaded config => exact .reloaded config
    | unchanged => exact hkeeps _ nofun

/-- An answer of the loader leads to one of the ends that `ZoneState.Configured` has. -/
theorem ZoneState.configured_of_eq {s s' : ZoneState} {answer : Except StepError ConfigStatus}
    {o : Outcome} (h : s.configured answer = (o, s')) : s.Configured answer o s' := by
  have hcases := s.configured_cases answer
  rwa [h] at hcases

namespace Pool

variable {σ : Type} {c : Collaborators σ} {p p' : Pool σ} {v w : Nat}

def phase? (p : Pool σ) (w : Nat) : Option WorkerPhase := p.workers[w]?.map (·.phase)

def held? (p : Pool σ) (w : Nat) : Option Task := (p.phase? w).bind WorkerPhase.task?

/-- What a worker holds is told by its phase. -/
theorem held?_of_phase? {phase : WorkerPhase} (h : p.phase? w = some phase) :
    p.held? w = phase.task? := by
  simp [held?, h]

/-- The phase of a worker is looked up at its place. -/
theorem phase?_of_get {x : Worker} (h : p.workers[w]? = some x) : p.phase? w = some x.phase := by
  simp [phase?, h]

section Start

variable (around : σ) (now workers drudgers maxBackoff capacity threshold : Nat)

/-- In a pool that has just been made, workers have not started and are not told to go. -/
theorem worker_ofLimits {x : Worker} (hx : (ofLimits around now workers drudgers maxBackoff capacity
    threshold).workers[w]? = some x) : x.phase = .off ∧ x.exit = false := by
  obtain ⟨-, rfl⟩ := List.mem_replicate.mp (List.mem_of_getElem? hx)
  exact ⟨rfl, rfl⟩

/-- In a pool that has just been made, no worker has started. -/
theorem phase?_ofLimits {phase : WorkerPhase} (h : (ofLimits around now workers drudgers maxBackoff
    capacity threshold).phase? w = some phase) : phase = .off := by
  obtain ⟨x, hx, rfl⟩ := Option.map_eq_some_iff.mp h
  exact (worker_ofLimits _ _ _ _ _ _ _ hx).1

/-- In a pool that has just been made, nobody holds a task. -/
theorem held?_ofLimits (w : Nat) : (ofLimits around now workers drudgers maxBackoff capacity
    threshold).held? w = none := by
  refine Option.eq_none_iff_forall_ne_some.mpr fun t ht => ?_
  obtain ⟨phase, hphase, ht⟩ := Option.bind_eq_some_iff.mp ht
  rw [phase?_ofLimits _ _ _ _ _ _ _ hphase] at ht
  cases ht

end Start

/-- Threads start once, idle, and nothing else changes. -/
theorem start_eq_ok (h : p.start = .ok p') : p.started = false ∧ p' = { p with
    started := true
    workers := p.workers.map fun x => { x with phase := .idle }
    drudgers := p.drudgers.map fun x => { x with phase := .idle } } := by
  unfold start at h
  split at h
  · cases h
  · split at h
    · cases h
    · next hoff =>
      cases h
      exact ⟨Bool.eq_false_iff.mpr hoff, rfl⟩

/-- Every worker starts idle. -/
theorem phase?_start (h : p.start = .ok p') (w : Nat) :
    p'.phase? w = (p.phase? w).map fun _ => .idle := by
  rw [(start_eq_ok h).2]
  simp [phase?, Function.comp_def]

/-- Nobody holds a task at the start. -/
theorem held?_start (h : p.start = .ok p') (w : Nat) : p'.held? w = none := by
  rw [held?, phase?_start h]
  cases p.phase? w <;> rfl

section Frame

variable (p : Pool σ) (z : Zone) (s : ZoneState) (w v : Nat) (phase : WorkerPhase) (signed : Bool)
  (x : Worker)

/-- A change of a record only changes the zones. -/
theorem setState_eq : p.setState z s =
    { p with zones := (p.setState z s).zones, retired := (p.setState z s).retired } := by
  unfold setState
  dsimp only
  split <;> rfl

@[simp] theorem setState_schedule : (p.setState z s).schedule = p.schedule := by
  rw [setState_eq]

@[simp] theorem setState_workers : (p.setState z s).workers = p.workers := by
  rw [setState_eq]

@[simp] theorem setState_drudgers : (p.setState z s).drudgers = p.drudgers := by
  rw [setState_eq]

@[simp] theorem setState_queue : (p.setState z s).queue = p.queue := by
  rw [setState_eq]

@[simp] theorem setState_counters : (p.setState z s).counters = p.counters := by
  rw [setState_eq]

@[simp] theorem setState_started : (p.setState z s).started = p.started := by
  rw [setState_eq]

@[simp] theorem setState_now : (p.setState z s).now = p.now := by
  rw [setState_eq]

@[simp] theorem setState_maxBackoff : (p.setState z s).maxBackoff = p.maxBackoff := by
  rw [setState_eq]

@[simp] theorem setState_made : (p.setState z s).zones.made = p.zones.made := by
  unfold setState
  dsimp only
  split <;> rfl

private theorem setState_zones_congr {q : Pool σ} (h : q.zones = p.zones) :
    (q.setState z s).zones = (p.setState z s).zones := by
  simp only [setState, h]
  split <;> rfl

@[simp] theorem goTo_schedule : (p.goTo w phase).schedule = p.schedule := rfl
@[simp] theorem goTo_drudgers : (p.goTo w phase).drudgers = p.drudgers := rfl
@[simp] theorem goTo_queue : (p.goTo w phase).queue = p.queue := rfl
@[simp] theorem goTo_started : (p.goTo w phase).started = p.started := rfl
@[simp] theorem goTo_zones : (p.goTo w phase).zones = p.zones := rfl
@[simp] theorem goTo_retired : (p.goTo w phase).retired = p.retired := rfl

@[simp] theorem report_drudgers : (p.report w signed).drudgers = p.drudgers := rfl
@[simp] theorem report_queue : (p.report w signed).queue = p.queue := rfl
@[simp] theorem report_started : (p.report w signed).started = p.started := rfl
@[simp] theorem report_zones : (p.report w signed).zones = p.zones := rfl

@[simp] theorem setWorker_drudgers : (p.setWorker w x).drudgers = p.drudgers := rfl
@[simp] theorem setWorker_queue : (p.setWorker w x).queue = p.queue := rfl
@[simp] theorem setWorker_started : (p.setWorker w x).started = p.started := rfl
@[simp] theorem setWorker_zones : (p.setWorker w x).zones = p.zones := rfl

@[simp] theorem phase?_setState : (p.setState z s).phase? v = p.phase? v := by
  simp [phase?]

/-- Only the worker that goes on has another phase. -/
theorem phase?_goTo : (p.goTo w phase).phase? v =
    if v = w then (p.phase? v).map fun _ => phase else p.phase? v := by
  by_cases h : w = v
  · simp [phase?, goTo, h, Function.comp_def]
  · simp [phase?, goTo, h, Ne.symm h]

@[simp] theorem phase?_report : (p.report w signed).phase? v = p.phase? v := by
  by_cases h : w = v
  · simp [phase?, report, h, Function.comp_def]
  · simp [phase?, report, h]

/-- Only the worker that has been set can have another phase. -/
theorem phase?_setWorker (h : p.phase? w = some phase) : (p.setWorker w x).phase? v =
    if v = w then some x.phase else p.phase? v := by
  obtain ⟨y, hy, -⟩ := Option.map_eq_some_iff.mp h
  by_cases hv : w = v
  · subst hv
    simp [phase?, setWorker, (List.getElem?_eq_some_iff.mp hy).1]
  · simp [phase?, setWorker, hv, Ne.symm hv]

end Frame

/-- What is held depends on the workers only. -/
theorem held?_congr (h : p'.workers = p.workers) (v : Nat) : p'.held? v = p.held? v := by
  simp [held?, phase?, h]

@[simp] theorem held?_report (p : Pool σ) (w : Nat) (signed : Bool) (v : Nat) :
    (p.report w signed).held? v = p.held? v := by
  simp [held?]

/-- A worker that goes on is in the phase that it has gone on to. -/
theorem phase?_goTo_self {x : Worker} (hx : p.workers[w]? = some x) (hq : p'.workers = p.workers)
    (phase : WorkerPhase) : (p'.goTo w phase).phase? w = some phase := by
  simp [phase?, goTo, hq, hx]

/-- A worker that has been set is in its new phase. -/
theorem phase?_setWorker_self {x : Worker} (hx : p.workers[w]? = some x)
    (hq : p'.workers = p.workers) (y : Worker) : (p'.setWorker w y).phase? w = some y.phase := by
  simp [phase?, setWorker, hq, (List.getElem?_eq_some_iff.mp hx).1]

private theorem modify_eq_set {x : Worker} (hx : p.workers[w]? = some x) (f : Worker → Worker) :
    p.workers.modify w f = p.workers.set w (f x) := by
  have : Inhabited Worker := ⟨x⟩
  rw [List.modify_eq_set, hx]
  rfl

/-- A worker that goes on with its task holds what it held. -/
theorem held?_goTo {phase : WorkerPhase} (h : p.held? w = phase.task?) (v : Nat) :
    (p.goTo w phase).held? v = p.held? v := by
  by_cases hv : v = w
  · subst hv
    unfold held? at h ⊢
    rw [phase?_goTo, if_pos rfl]
    cases hphase : p.phase? v with
    | none => rfl
    | some old =>
      rw [hphase] at h
      exact h.symm
  · simp [held?, phase?_goTo, hv]

/-- Only the worker that has been set can hold another task. -/
theorem held?_setWorker {x y : Worker} (hx : p.workers[w]? = some x) (v : Nat) :
    (p.setWorker w y).held? v = if v = w then y.phase.task? else p.held? v := by
  unfold held?
  rw [phase?_setWorker p w v x.phase y (phase?_of_get hx)]
  split <;> rfl

/-- A worker releases a removed zone, and hands back the task of any other one. -/
theorem settle_schedule (p : Pool σ) (w : Nat) (t : Task) (o : Outcome) (z : Zone) :
    (p.settle w t o z).schedule =
      if z.status = .removed then (p.schedule.release t.zone).2
      else o.settle t p.now p.maxBackoff p.schedule := by
  unfold settle
  split <;> rfl

/-- A worker that hands its task back only changes the schedule and the counters. -/
theorem settle_eq (p : Pool σ) (w : Nat) (t : Task) (o : Outcome) (z : Zone) :
    ∃ schedule counters drained, p.settle w t o z =
      { p with schedule := schedule, counters := counters }.goTo w (.reporting drained) := by
  unfold settle
  split
  · exact ⟨_, p.counters, true, rfl⟩
  · exact ⟨_, _, false, rfl⟩

/-- What a worker signals comes behind all that has been signalled. -/
theorem tell_eq (p : Pool σ) (w : Nat) (drained : Bool) :
    ∃ more, p.tell w drained = { p with signals := p.signals ++ more }.goTo w .idle := by
  unfold tell
  dsimp only
  split
  · exact ⟨_, rfl⟩
  · exact ⟨[], by rw [List.append_nil]⟩

/-- A worker that collects its signatures goes on to publish the zone, or to try again. -/
theorem collect_cases (p : Pool σ) (w : Nat) (t : Task) (batch : Batch) (tally : JobTally)
    (z : Zone) :
    tally.failed = 0 ∧ p.collect w t batch tally z =
      (p.setState z (z.state.counted tally)).goTo w (.stepping t (.publishing batch)) ∨
    ∃ e, p.collect w t batch tally z =
      (p.setState z (z.state.counted tally)).goTo w (.stepping t (.settling (.retry e))) := by
  unfold collect ZoneState.signed?
  by_cases hfailed : tally.failed > 0
  · rw [if_pos hfailed]
    exact .inr ⟨_, rfl⟩
  · rw [if_neg hfailed]
    exact .inl ⟨by omega, rfl⟩

section

variable {t : Task} {z : Zone} {batch : Batch} {tally : JobTally} {o : Outcome} {drained : Bool}
  {x : Worker} {phase next : WorkerPhase}

/-- The phase after going on is the one gone on to. -/
theorem eq_of_phase?_goTo (h : (p.goTo w next).phase? w = some phase) : next = phase := by
  rw [phase?_goTo, if_pos rfl] at h
  obtain ⟨_, -, he⟩ := Option.map_eq_some_iff.mp h
  exact he

/-- The phase after setting a worker is its new one. -/
theorem eq_of_phase?_setWorker (h : (p.setWorker w x).phase? w = some phase) : x.phase = phase := by
  obtain ⟨y, hy, rfl⟩ := Option.map_eq_some_iff.mp h
  rw [setWorker, List.getElem?_set_self'] at hy
  obtain ⟨_, -, rfl⟩ := Option.map_eq_some_iff.mp hy
  rfl

/-- After collecting, a worker publishes the zone or is about to try again. -/
theorem eq_of_phase?_collect (h : (p.collect w t batch tally z).phase? w = some phase) :
    .stepping t (.publishing batch) = phase ∨ ∃ e, .stepping t (.settling (.retry e)) = phase := by
  rcases p.collect_cases w t batch tally z with ⟨-, he⟩ | ⟨e, he⟩ <;> rw [he] at h
  · exact .inl (eq_of_phase?_goTo h)
  · exact .inr ⟨e, eq_of_phase?_goTo h⟩

/-- After handing its task back, a worker reports. -/
theorem eq_of_phase?_settle (h : (p.settle w t o z).phase? w = some phase) :
    ∃ drained, .reporting drained = phase := by
  obtain ⟨_, _, drained, he⟩ := p.settle_eq w t o z
  rw [he] at h
  exact ⟨drained, eq_of_phase?_goTo h⟩

/-- After reporting, a worker is idle. -/
theorem eq_of_phase?_tell (h : (p.tell w drained).phase? w = some phase) : .idle = phase := by
  obtain ⟨_, he⟩ := p.tell_eq w drained
  rw [he] at h
  exact eq_of_phase?_goTo h

end

/-- A worker that hands its task back holds none. -/
theorem held?_settle (p : Pool σ) (w : Nat) (t : Task) (o : Outcome) (z : Zone) (v : Nat) :
    (p.settle w t o z).held? v = if v = w then none else p.held? v := by
  obtain ⟨_, _, _, he⟩ := p.settle_eq w t o z
  rw [he, held?, phase?_goTo]
  split
  · cases phase? _ v <;> rfl
  · rfl

/-- A section of the worker `x` at the place `w`, and the pool after it. -/
inductive WorkerSection (c : Collaborators σ) (p : Pool σ) (w : Nat) (x : Worker) : Pool σ → Prop
  | take {t : Task} {s : Schedule} (hphase : x.phase = .idle) (hexit : x.exit = false)
      (hnext : p.schedule.next p.now = (some t, s)) :
      WorkerSection c p w x ({ p with schedule := s }.setWorker w
        { x with phase := .holding t, idle := x.idle.reset })
  | leave (hphase : x.phase = .idle) (hexit : x.exit) :
      WorkerSection c p w x (p.setWorker w { x with phase := .off })
  | prepare {t : Task} {z : Zone} (hphase : x.phase = .holding t) (hz : p.zone? t = some z)
      (hwhat : t.what ≠ .sign) : WorkerSection c p w x (p.goTo w (.stepping t .consulting))
  | retreat {t : Task} {z : Zone} {first : TaskKind} (hphase : x.phase = .holding t)
      (hz : p.zone? t = some z) (hfirst : first = .configure ∨ first = .read) :
      WorkerSection c p w x (p.goTo w (.stepping t (.settling (.advance first 0))))
  | appoint {t : Task} {z : Zone} {batch : Batch} (hphase : x.phase = .holding t)
      (hz : p.zone? t = some z) (hwhat : t.what = .sign) (hbatch : z.state.batch z.key = .ok batch) :
      WorkerSection c p w x (p.setWorker w { x with
        phase := .stepping t (.signing batch batch.jobs)
        tally := { appointed := batch.jobs.length } })
  | load {t : Task} {z : Zone} {answer : Except StepError ConfigStatus} {around : σ} {o : Outcome}
      {s : ZoneState} (hphase : x.phase = .stepping t .consulting) (hz : p.zone? t = some z)
      (hwhat : t.what = .configure) (hload : c.loadConfig z p.around = (answer, around))
      (ho : z.state.configured answer = (o, s)) :
      WorkerSection c p w x
        (({ p with around := around }.setState z s).goTo w (.stepping t (.settling o)))
  | read {t : Task} {z : Zone} {answer : Except StepError ReadStatus} {around : σ} {s : ZoneState}
      (hphase : x.phase = .stepping t .consulting) (hz : p.zone? t = some z)
      (hwhat : t.what = .read) (hread : c.read z p.around = (answer, s, around)) :
      WorkerSection c p w x (({ p with around := around }.setState z s).goTo w
        (.stepping t (.settling (ZoneState.afterRead answer))))
  | write {t : Task} {z : Zone} {answer : Except StepError Unit} {around : σ} {o : Outcome}
      {s s' : ZoneState} (hphase : x.phase = .stepping t .consulting) (hz : p.zone? t = some z)
      (hwhat : t.what = .write ∨ t.what = .sign) (hwrite : c.write z p.around = (answer, s, around))
      (ho : s.published s.db.inboundSerial z.state.resignSecs answer = (o, s')) :
      WorkerSection c p w x
        (({ p with around := around }.setState z s').goTo w (.stepping t (.settling o)))
  | signInline {t : Task} {z : Zone} {batch : Batch} {job : SignJob} {left : List SignJob}
      {answer : Except StepError Unit} {around : σ}
      (hphase : x.phase = .stepping t (.signing batch (job :: left))) (hz : p.zone? t = some z)
      (hinline : p.signsInline) (hsign : c.sign job p.around = (answer, around)) :
      WorkerSection c p w x (({ p with
        around := around
        counters := p.counters.signature answer.isOk }.report w answer.isOk).goTo w
          (.stepping t (.signing batch left)))
  | handOver {t : Task} {z : Zone} {batch : Batch} {job : SignJob} {left : List SignJob}
      (hphase : x.phase = .stepping t (.signing batch (job :: left))) (hz : p.zone? t = some z)
      (hdrudgers : p.signsInline = false) (hroom : p.queue.isFull = false)
      (hopen : p.queue.closed = false) :
      WorkerSection c p w x
        ({ p with queue := { p.queue with items := p.queue.items ++ [(⟨job, w⟩ : Handoff)] } }.goTo w
          (.stepping t (.signing batch left)))
  | refuse {t : Task} {z : Zone} {batch : Batch} {job : SignJob} {left : List SignJob}
      (hphase : x.phase = .stepping t (.signing batch (job :: left))) (hz : p.zone? t = some z)
      (hdrudgers : p.signsInline = false) (hclosed : p.queue.closed) :
      WorkerSection c p w x (p.goTo w (.stepping t (.settling (.retry .shutdown))))
  | collect {t : Task} {z : Zone} {batch : Batch} {tally : JobTally}
      (hphase : x.phase = .stepping t (.signing batch [])) (hz : p.zone? t = some z)
      (htally : batch.jobs = [] ∧ tally = {} ∨ p.signsInline ∧ tally = x.tally) :
      WorkerSection c p w x (p.collect w t batch tally z)
  | wait {t : Task} {z : Zone} {batch : Batch} (hphase : x.phase = .stepping t (.signing batch []))
      (hz : p.zone? t = some z) (hjobs : batch.jobs ≠ []) (hdrudgers : p.signsInline = false) :
      WorkerSection c p w x (p.goTo w (.stepping t (.awaiting batch)))
  | gather {t : Task} {z : Zone} {batch : Batch} (hphase : x.phase = .stepping t (.awaiting batch))
      (hz : p.zone? t = some z) (hdone : x.tally.isOutstanding = false) :
      WorkerSection c p w x (p.collect w t batch x.tally z)
  | giveUp {t : Task} {z : Zone} {batch : Batch} (hphase : x.phase = .stepping t (.awaiting batch))
      (hz : p.zone? t = some z) (hleft : x.tally.isOutstanding) (hend : x.exit ∨ p.queue.closed) :
      WorkerSection c p w x (p.goTo w (.stepping t (.settling (.retry .shutdown))))
  | publish {t : Task} {z : Zone} {batch : Batch} {answer : Except StepError Unit} {around : σ}
      {o : Outcome} {s s' : ZoneState} (hphase : x.phase = .stepping t (.publishing batch))
      (hz : p.zone? t = some z) (hwrite : c.write z p.around = (answer, s, around))
      (ho : s.published (some batch.serial) batch.resignSecs answer = (o, s')) :
      WorkerSection c p w x
        (({ p with around := around }.setState z s').goTo w (.stepping t (.settling o)))
  | settle {t : Task} {z : Zone} {o : Outcome} (hphase : x.phase = .stepping t (.settling o))
      (hz : p.zone? t = some z) : WorkerSection c p w x (p.settle w t o z)
  | tell {drained : Bool} (hphase : x.phase = .reporting drained) :
      WorkerSection c p w x (p.tell w drained)

private theorem section_of_take {x : Worker} (hphase : x.phase = .idle)
    (h : p.take w x = some p') : WorkerSection c p w x p' := by
  unfold take Schedule.look at h
  by_cases hexit : x.exit
  · rw [if_pos hexit] at h
    cases h
    exact .leave hphase hexit
  · rw [if_neg hexit] at h
    cases hnext : p.schedule.next p.now with
    | mk found s =>
      cases found with
      | some t =>
        rw [hnext] at h
        cases h
        exact .take hphase (Bool.eq_false_iff.mpr hexit) hnext
      | none =>
        -- A worker that finds no task sleeps, whatever comes next.
        rw [hnext] at h
        split at h <;> rename_i heq <;> dsimp only at heq <;> split at heq <;> cases heq <;> cases h

private theorem section_of_begin {x : Worker} {t : Task} {z : Zone} (hx : p.workers[w]? = some x)
    (hphase : x.phase = .holding t) (hz : p.zone? t = some z) :
    WorkerSection c p w x (p.begin w t z) := by
  unfold begin
  split
  · next hwhat => exact .prepare hphase hz (by simp [hwhat])
  · next hwhat => exact .prepare hphase hz (by simp [hwhat])
  · next hwhat =>
    split
    · exact .prepare hphase hz (by simp [hwhat])
    · exact .retreat hphase hz (.inl rfl)
  · next hwhat =>
    split
    · next first hfirst =>
      refine .retreat hphase hz ?_
      unfold ZoneState.batch at hfirst
      split at hfirst <;> cases hfirst
      · exact .inl rfl
      · exact .inr rfl
    · next batch hbatch =>
      rw [modify_eq_set hx]
      exact .appoint hphase hz hwhat hbatch

private theorem section_of_consult {x : Worker} {t : Task} {z : Zone}
    (hphase : x.phase = .stepping t .consulting) (hz : p.zone? t = some z) :
    WorkerSection c p w x (p.consult c w t z) := by
  unfold consult
  split
  · next hwhat => exact .load hphase hz hwhat rfl rfl
  · next hwhat => exact .read hphase hz hwhat rfl
  · next hwhat => exact .write hphase hz (.inl hwhat) rfl rfl
  · next hwhat => exact .write hphase hz (.inr hwhat) rfl rfl

private theorem section_of_handOver {x : Worker} {t : Task} {z : Zone} {batch : Batch}
    {job : SignJob} {left : List SignJob}
    (hphase : x.phase = .stepping t (.signing batch (job :: left))) (hz : p.zone? t = some z)
    (hdrudgers : p.signsInline = false) (h : p.handOver w t batch job left = some p') :
    WorkerSection c p w x p' := by
  unfold handOver HandoffQueue.push at h
  split at h
  · cases h
  · next hroom =>
    by_cases hclosed : p.queue.closed
    · rw [if_pos hclosed] at h
      cases h
      exact .refuse hphase hz hdrudgers hclosed
    · rw [if_neg hclosed] at h
      cases h
      exact .handOver hphase hz hdrudgers (Bool.eq_false_iff.mpr hroom)
        (Bool.eq_false_iff.mpr hclosed)

private theorem section_of_await {x : Worker} {t : Task} {z : Zone} {batch : Batch}
    (hphase : x.phase = .stepping t (.awaiting batch)) (hz : p.zone? t = some z)
    (h : p.await w x t batch z = some p') : WorkerSection c p w x p' := by
  unfold await at h
  cases hleft : x.tally.isOutstanding with
  | false =>
    simp only [hleft, Bool.not_false, if_true, Option.some.injEq] at h
    subst h
    exact .gather hphase hz hleft
  | true =>
    simp only [hleft, Bool.not_true, Bool.false_eq_true, if_false] at h
    split at h
    · next hend =>
      cases h
      exact .giveUp hphase hz hleft (by simpa using hend)
    · cases h

private theorem section_of_stepStage {x : Worker} {t : Task} {z : Zone} {stage : Stage}
    (hphase : x.phase = .stepping t stage) (hz : p.zone? t = some z)
    (h : p.stepStage c w x t z stage = some p') : WorkerSection c p w x p' := by
  cases stage with
  | consulting =>
    cases h
    exact section_of_consult hphase hz
  | signing batch left =>
    cases left with
    | nil =>
      simp only [stepStage] at h
      split at h
      · next hjobs =>
        cases h
        exact .collect hphase hz (.inl ⟨List.isEmpty_iff.mp hjobs, rfl⟩)
      · next hjobs =>
        split at h
        · next hinline =>
          cases h
          exact .collect hphase hz (.inr ⟨hinline, rfl⟩)
        · next hdrudgers =>
          cases h
          exact .wait hphase hz (by simpa using hjobs) (Bool.eq_false_iff.mpr hdrudgers)
    | cons job left =>
      simp only [stepStage] at h
      split at h
      · next hinline =>
        cases h
        exact .signInline hphase hz hinline rfl
      · next hdrudgers => exact section_of_handOver hphase hz (Bool.eq_false_iff.mpr hdrudgers) h
  | awaiting batch => exact section_of_await hphase hz h
  | publishing batch =>
    cases h
    exact .publish hphase hz rfl rfl
  | settling o =>
    cases h
    exact .settle hphase hz

/-- A worker does nothing but these sections. -/
theorem workerSection_of_step (h : p.stepWorker c w = some p') :
    ∃ x, p.workers[w]? = some x ∧ WorkerSection c p w x p' := by
  unfold stepWorker at h
  cases hx : p.workers[w]? with
  | none => simp [hx] at h
  | some x =>
    refine ⟨x, rfl, ?_⟩
    simp only [hx] at h
    cases hphase : x.phase with
    | idle =>
      simp only [hphase] at h
      exact section_of_take hphase h
    | holding t =>
      simp only [hphase] at h
      obtain ⟨z, hz, rfl⟩ := Option.map_eq_some_iff.mp h
      exact section_of_begin hx hphase hz
    | stepping t stage =>
      simp only [hphase] at h
      obtain ⟨z, hz, h⟩ := Option.bind_eq_some_iff.mp h
      exact section_of_stepStage hphase hz h
    | reporting drained =>
      simp only [hphase] at h
      cases h
      exact .tell hphase
    | off => simp [hphase] at h

/-- How the step of a task comes to be decided. -/
inductive Decided (p : Pool σ) (w : Nat) (t : Task) (p' : Pool σ) : Outcome → Prop
  | retreat {first : TaskKind} (hfirst : first = .configure ∨ first = .read) :
      Decided p w t p' (.advance first 0)
  | load {z : Zone} {answer : Except StepError ConfigStatus} {o : Outcome} {s : ZoneState}
      (hheld : p.held? w = some t) (hz : p.zone? t = some z) (hwhat : t.what = .configure)
      (ho : z.state.configured answer = (o, s)) (hzones : p'.zones = (p.setState z s).zones) :
      Decided p w t p' o
  | read {answer : Except StepError ReadStatus} {o : Outcome} (ho : o = ZoneState.afterRead answer) :
      Decided p w t p' o
  | publish {s s' : ZoneState} {serial : Option Nat} {resignSecs : Nat}
      {answer : Except StepError Unit} {o : Outcome}
      (ho : s.published serial resignSecs answer = (o, s')) : Decided p w t p' o
  | retry (e : StepError) : Decided p w t p' (.retry e)

namespace WorkerSection

variable {x : Worker}

/-- Only the first and the last section of a worker with a task touch the schedule or change who
holds what. -/
theorem ownership (hx : p.workers[w]? = some x) (h : WorkerSection c p w x p') :
    (∃ t s, x.phase = .idle ∧ p.schedule.next p.now = (some t, s) ∧ p'.schedule = s ∧
      ∀ v, p'.held? v = if v = w then some t else p.held? v) ∨
    (∃ t z o, x.phase = .stepping t (.settling o) ∧ p.zone? t = some z ∧ p' = p.settle w t o z) ∨
    (p'.schedule = p.schedule ∧ ∀ v, p'.held? v = p.held? v) := by
  have hheld : p.held? w = x.phase.task? := held?_of_phase? (phase?_of_get hx)
  have hgo {q : Pool σ} {phase : WorkerPhase} (hq : q.workers = p.workers)
      (h : x.phase.task? = phase.task?) (v : Nat) : (q.goTo w phase).held? v = p.held? v := by
    rw [held?_goTo (((held?_congr hq w).trans hheld).trans h) v, held?_congr hq]
  have hset {y : Worker} (h : x.phase.task? = y.phase.task?) (v : Nat) :
      (p.setWorker w y).held? v = p.held? v := by
    rw [held?_setWorker hx v]
    split
    · next hv => rw [hv, hheld, h]
    · rfl
  cases h with
  | take hphase hexit hnext =>
    exact .inl ⟨_, _, hphase, hnext, rfl, held?_setWorker (p := { p with schedule := _ }) hx⟩
  | settle hphase hz => exact .inr (.inl ⟨_, _, _, hphase, hz, rfl⟩)
  | leave hphase | appoint hphase => exact .inr (.inr ⟨rfl, hset (by rw [hphase]; rfl)⟩)
  | prepare hphase | retreat hphase | handOver hphase | refuse hphase | wait hphase
  | giveUp hphase => exact .inr (.inr ⟨rfl, hgo rfl (by rw [hphase]; rfl)⟩)
  | load hphase | read hphase | write hphase | publish hphase | collect hphase | gather hphase =>
    exact .inr (.inr ⟨by simp [Pool.collect], hgo (by simp) (by rw [hphase]; rfl)⟩)
  | signInline hphase =>
    refine .inr (.inr ⟨rfl, fun v => ?_⟩)
    rw [held?_goTo _ v, held?_report]
    · rfl
    · rw [held?_report]
      exact hheld.trans (by rw [hphase]; rfl)
  | @tell drained hphase =>
    obtain ⟨_, he⟩ := p.tell_eq w drained
    rw [he]
    exact .inr (.inr ⟨rfl, hgo rfl (by rw [hphase]; rfl)⟩)

/-- A worker only goes on itself. -/
theorem frame (hx : p.workers[w]? = some x) (h : WorkerSection c p w x p') :
    (∃ y, p'.workers = p.workers.set w y ∧ y.exit = x.exit) ∧ p'.drudgers = p.drudgers ∧
      p'.started = p.started ∧ p'.zones.made = p.zones.made := by
  have hgo {q : Pool σ} (hq : q.workers = p.workers) (phase : WorkerPhase) :
      ∃ y, (q.goTo w phase).workers = p.workers.set w y ∧ y.exit = x.exit := by
    refine ⟨{ x with phase := phase }, ?_, rfl⟩
    rw [goTo, hq]
    exact modify_eq_set hx _
  have hrest : p'.drudgers = p.drudgers ∧ p'.started = p.started ∧
      p'.zones.made = p.zones.made := by
    cases h <;> simp [Pool.collect, Pool.settle, Pool.tell]
    case settle => split <;> exact ⟨rfl, rfl, rfl⟩
    case tell => split <;> exact ⟨rfl, rfl, rfl⟩
  refine ⟨?_, hrest⟩
  cases h with
  | take | leave | appoint => exact ⟨_, rfl, rfl⟩
  | prepare | retreat | handOver | refuse | wait | giveUp => exact hgo rfl _
  | load | read | write | publish | collect | gather => exact hgo (by simp) _
  | @signInline t z batch job left answer =>
    refine ⟨{ x with
      phase := .stepping t (.signing batch left)
      tally := x.tally.report answer.isOk }, ?_, rfl⟩
    simp only [goTo, report, List.modify_modify_eq]
    exact modify_eq_set hx _
  | @settle t z o =>
    obtain ⟨_, _, _, he⟩ := p.settle_eq w t o z
    rw [he]
    exact hgo rfl _
  | @tell drained =>
    obtain ⟨_, he⟩ := p.tell_eq w drained
    rw [he]
    exact hgo rfl _

/-- The other workers are left at what they are doing. -/
theorem worker_other (hx : p.workers[w]? = some x) (h : WorkerSection c p w x p') (hv : v ≠ w) :
    p'.workers[v]? = p.workers[v]? := by
  obtain ⟨⟨y, hy, -⟩, -⟩ := h.frame hx
  rw [hy, List.getElem?_set_ne hv.symm]

/-- In its own section a worker leaves the phases of the others alone. -/
theorem phase?_other (hx : p.workers[w]? = some x) (h : WorkerSection c p w x p') (hv : v ≠ w) :
    p'.phase? v = p.phase? v :=
  congrArg (Option.map _) (h.worker_other hx hv)

/-- Nobody is told to go by a worker. -/
theorem exit_eq (hx : p.workers[w]? = some x) (h : WorkerSection c p w x p') {y : Worker}
    (hy : p'.workers[w]? = some y) : y.exit = x.exit := by
  obtain ⟨⟨z, hz, hexit⟩, -⟩ := h.frame hx
  rw [hz, List.getElem?_set_self (List.getElem?_eq_some_iff.mp hx).1] at hy
  rw [← Option.some.inj hy, hexit]

/-- In its own section a worker leaves the drudgers alone. -/
theorem drudgers (hx : p.workers[w]? = some x) (h : WorkerSection c p w x p') :
    p'.drudgers = p.drudgers :=
  (h.frame hx).2.1

/-- A section of a worker starts nothing. -/
theorem started (hx : p.workers[w]? = some x) (h : WorkerSection c p w x p') :
    p'.started = p.started :=
  (h.frame hx).2.2.1

/-- A section of a worker makes no records. -/
theorem made (hx : p.workers[w]? = some x) (h : WorkerSection c p w x p') :
    p'.zones.made = p.zones.made :=
  (h.frame hx).2.2.2

/-- What a step decides, it has decided in its last section before the task is handed back. -/
theorem decided {t : Task} {o : Outcome} (hx : p.workers[w]? = some x)
    (h : WorkerSection c p w x p') (hphase' : p'.phase? w = some (.stepping t (.settling o))) :
    Decided p w t p' o := by
  cases h with
  | retreat _ _ hfirst =>
    cases eq_of_phase?_goTo hphase'
    exact .retreat hfirst
  | load hphase hz hwhat hload ho =>
    cases eq_of_phase?_goTo hphase'
    have hheld : p.held? w = some t := held?_of_phase? (hphase ▸ phase?_of_get hx)
    exact .load hheld hz hwhat ho (setState_zones_congr p _ _ rfl)
  | read =>
    cases eq_of_phase?_goTo hphase'
    exact .read rfl
  | write _ _ _ _ ho | publish _ _ _ ho =>
    cases eq_of_phase?_goTo hphase'
    exact .publish ho
  | refuse | giveUp =>
    cases eq_of_phase?_goTo hphase'
    exact .retry _
  | collect | gather =>
    obtain ⟨⟨⟩⟩ | ⟨e, ⟨⟩⟩ := eq_of_phase?_collect hphase'
    exact .retry e
  | take | leave | appoint => cases eq_of_phase?_setWorker hphase'
  | prepare | signInline | handOver | wait => cases eq_of_phase?_goTo hphase'
  | settle =>
    obtain ⟨_, ⟨⟩⟩ := eq_of_phase?_settle hphase'
  | tell => cases eq_of_phase?_tell hphase'

/-- A step fails for good only where a zone without a configuration cannot load one. -/
theorem fatal {t : Task} {e : StepError} (hx : p.workers[w]? = some x)
    (h : WorkerSection c p w x p')
    (hphase' : p'.phase? w = some (.stepping t (.settling (.fatal e)))) :
    ∃ z s, p.held? w = some t ∧ p.zone? t = some z ∧ t.what = .configure ∧
      z.state.config = none ∧ s.config = none ∧ p'.zones = (p.setState z s).zones := by
  cases h.decided hx hphase' with
  | @load z _ _ s hheld hz hwhat ho hzones =>
    cases ZoneState.configured_of_eq ho with
    | bare _ hnone => exact ⟨z, z.state, hheld, hz, hwhat, hnone, hnone, hzones⟩
  | @read answer _ ho => cases answer <;> cases ho
  | @publish _ _ _ _ answer _ ho => cases answer <;> cases ho

/-- A worker that goes on has started. -/
theorem phase_ne_off (h : WorkerSection c p w x p') : x.phase ≠ .off := by
  cases h <;> simp_all only [ne_eq, reduceCtorEq, not_false_eq_true]

end WorkerSection

/-- A section of the drudger `y` at the place `d`, and the pool after it. -/
inductive DrudgerSection (c : Collaborators σ) (p : Pool σ) (d : Nat) (y : Drudger) : Pool σ → Prop
  | pop {handoff : Handoff} {rest : List Handoff} (hphase : y.phase = .idle) (hexit : y.exit = false)
      (hopen : p.queue.closed = false) (hitems : p.queue.items = handoff :: rest) :
      DrudgerSection c p d y { p with
        queue := { p.queue with items := rest }
        drudgers := p.drudgers.set d { y with phase := .holding handoff } }
  | leave (hphase : y.phase = .idle) (hend : y.exit ∨ p.queue.closed) :
      DrudgerSection c p d y { p with drudgers := p.drudgers.set d { y with phase := .off } }
  | sign {handoff : Handoff} {answer : Except StepError Unit} {around : σ}
      (hphase : y.phase = .holding handoff)
      (hsign : c.sign handoff.job p.around = (answer, around)) :
      DrudgerSection c p d y { p with
        around := around
        counters := p.counters.signature answer.isOk
        drudgers := p.drudgers.set d { y with phase := .reporting handoff.owner answer.isOk } }
  | report {owner : Nat} {signed : Bool} (hphase : y.phase = .reporting owner signed) :
      DrudgerSection c p d y { p.report owner signed with
        drudgers := p.drudgers.set d { y with phase := .idle } }

/-- A drudger does nothing but these sections. -/
theorem drudgerSection_of_step {d : Nat} (h : p.stepDrudger c d = some p') :
    ∃ y, p.drudgers[d]? = some y ∧ DrudgerSection c p d y p' := by
  unfold stepDrudger at h
  cases hy : p.drudgers[d]? with
  | none => simp [hy] at h
  | some y =>
    refine ⟨y, rfl, ?_⟩
    simp only [hy] at h
    cases hphase : y.phase with
    | idle =>
      simp only [hphase] at h
      unfold HandoffQueue.isBare HandoffQueue.pop at h
      by_cases hend : (y.exit || p.queue.closed) = true
      · rw [if_pos hend] at h
        split at h <;> cases h
        exact .leave hphase (by simpa using hend)
      · rw [if_neg hend] at h
        obtain ⟨hexit, hopen⟩ := Bool.or_eq_false_iff.mp (Bool.eq_false_iff.mpr hend)
        unfold HandoffQueue.tryPop at h
        cases hitems : p.queue.items with
        | nil => simp [hitems, hexit, hopen] at h
        | cons handoff rest =>
          rw [hitems] at h
          split at h <;> cases h
          exact .pop hphase hexit hopen hitems
    | holding handoff =>
      simp only [hphase] at h
      cases h
      exact .sign hphase rfl
    | reporting owner signed =>
      simp only [hphase] at h
      cases h
      exact .report hphase
    | off => simp [hphase] at h

/-- A drudger that goes on has started. -/
theorem DrudgerSection.phase_ne_off {d : Nat} {y : Drudger} (h : DrudgerSection c p d y p') :
    y.phase ≠ .off := by
  cases h <;> simp_all only [ne_eq, reduceCtorEq, not_false_eq_true]

/-- A drudger leaves everything alone that has to do with tasks and zones. -/
theorem DrudgerSection.frame {d : Nat} {y : Drudger} (h : DrudgerSection c p d y p') :
    p'.schedule = p.schedule ∧ p'.zones = p.zones ∧ p'.retired = p.retired ∧
      p'.started = p.started ∧ ∀ v, p'.phase? v = p.phase? v := by
  cases h with
  | pop => exact ⟨rfl, rfl, rfl, rfl, fun _ => rfl⟩
  | leave => exact ⟨rfl, rfl, rfl, rfl, fun _ => rfl⟩
  | sign => exact ⟨rfl, rfl, rfl, rfl, fun _ => rfl⟩
  | report => exact ⟨rfl, rfl, rfl, rfl, fun v => phase?_report p _ v _⟩

/-- A drudger only goes on itself. -/
theorem DrudgerSection.drudgers_eq {d : Nat} {y : Drudger} (h : DrudgerSection c p d y p') :
    ∃ phase, p'.drudgers = p.drudgers.set d { y with phase := phase } := by
  cases h <;> exact ⟨_, rfl⟩

end Pool

end ZoneSigning
