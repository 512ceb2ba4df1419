import ZoneSigning.Proofs.PoolRuns

/-!
What a worker gets that has jobs signed: a tally, or nothing because the pool goes down. A worker
without drudgers asks the signer itself, for one job after the other, and counts the answers.
-/
namespace ZoneSigning

def WorkerPhase.call? : WorkerPhase → Option (Task × Batch × List SignJob)
  | stepping t (.signing batch left) => some (t, batch, left)
  | stepping t (.awaiting batch) => some (t, batch, [])
  | _ => none

def WorkerPhase.isHolding : WorkerPhase → Bool
  | holding _ => true
  | _ => false

def JobTally.ofAnswers (jobs : Nat) (answers : List (SignJob × Bool)) : JobTally where
  appointed := jobs
  completed := answers.countP (·.2 == true)
  failed := answers.countP (·.2 == false)

/-- In which order the answers come does not matter. -/
theorem JobTally.ofAnswers_perm {answers answers' : List (SignJob × Bool)}
    (h : answers.Perm answers') (jobs : Nat) : ofAnswers jobs answers = ofAnswers jobs answers' := by
  simp only [ofAnswers, h.countP_eq]

namespace Pool

variable {σ : Type} {c : Collaborators σ} {p p' : Pool σ} {w : Nat}

/-- What a worker that has jobs signed gets when it goes on; nothing as long as it is not done. -/
def returns? (p : Pool σ) (w : Nat) : Option (Except StepError JobTally) :=
  match p.workers[w]? with
  | none => none
  | some x =>
    match x.phase with
    | .stepping _ (.signing batch []) =>
      if batch.jobs.isEmpty then some (.ok {})
      else if p.signsInline then some (.ok x.tally)
      else none
    | .stepping _ (.signing _ (_ :: _)) =>
      if !p.signsInline && p.queue.closed then some (.error .shutdown) else none
    | .stepping _ (.awaiting _) =>
      if !x.tally.isOutstanding then some (.ok x.tally)
      else if x.exit || p.queue.closed then some (.error .shutdown)
      else none
    | _ => none

/-- With drudgers, a worker gets a tally when all its jobs have come back, or if it had none. -/
theorem returns?_eq_ok {x : Worker} {t : Task} {batch : Batch} {left : List SignJob}
    {tally : JobTally} (hx : p.workers[w]? = some x) (hcall : x.phase.call? = some (t, batch, left))
    (hdrudgers : p.drudgers ≠ []) (h : p.returns? w = some (.ok tally)) :
    batch.jobs = [] ∧ tally = {} ∨
    x.phase = .stepping t (.awaiting batch) ∧ x.tally.isOutstanding = false ∧ tally = x.tally := by
  have hinline : p.signsInline = false := by simpa [signsInline] using hdrudgers
  simp only [returns?, hx] at h
  split at h
  · next hphase =>
    rw [hphase] at hcall
    cases hcall
    split at h
    · next hjobs =>
      cases h
      exact .inl ⟨List.isEmpty_iff.mp hjobs, rfl⟩
    · simp [hinline] at h
  · split at h <;> cases h
  · next hphase =>
    rw [hphase] at hcall
    cases hcall
    split at h
    · next hdone =>
      cases h
      exact .inr ⟨hphase, by simpa using hdone, rfl⟩
    · split at h <;> cases h
  · cases h

/-- A worker gets nothing only if the pool goes down. -/
theorem returns?_eq_error {x : Worker} {e : StepError} (hx : p.workers[w]? = some x)
    (h : p.returns? w = some (.error e)) : e = .shutdown ∧ (p.queue.closed ∨ x.exit) := by
  simp only [returns?, hx] at h
  split at h
  · split at h
    · cases h
    · split at h <;> cases h
  · split at h <;> cases h
    next hend => exact ⟨rfl, .inl (by simp_all)⟩
  · split at h
    · cases h
    · split at h <;> cases h
      next hend => exact ⟨rfl, by simpa [or_comm] using hend⟩
  · cases h

def returned (p : Pool σ) (w : Nat) (t : Task) (batch : Batch) (z : Zone) :
    Except StepError JobTally → Pool σ
  | .ok tally => p.collect w t batch tally z
  | .error e => p.goTo w (.stepping t (.settling (.retry e)))

/-- A worker that has jobs signed takes what it gets, or goes on having them signed. -/
theorem stepWorker_of_call {x : Worker} {t : Task} {batch : Batch} {left : List SignJob} {z : Zone}
    (hx : p.workers[w]? = some x) (hcall : x.phase.call? = some (t, batch, left))
    (hz : p.zone? t = some z) (h : p.stepWorker c w = some p') :
    (∃ answer, p.returns? w = some answer ∧ p' = p.returned w t batch z answer) ∨
    p.returns? w = none ∧ ∃ phase left', p'.phase? w = some phase ∧
      phase.call? = some (t, batch, left') := by
  obtain ⟨x', hx', hsection⟩ := workerSection_of_step h
  obtain rfl := Option.some.inj (hx.symm.trans hx')
  simp only [returns?, hx]
  cases hsection with
  | @signInline _ _ _ _ jobs _ _ hphase _ hinline =>
    simp only [hphase] at hcall ⊢
    cases hcall
    refine .inr ⟨by simp [hinline], .stepping t (.signing batch jobs), jobs, ?_, rfl⟩
    rw [phase?_goTo, if_pos rfl, phase?_report]
    exact congrArg (Option.map _) (phase?_of_get hx)
  | handOver hphase _ _ _ hopen =>
    simp only [hphase] at hcall ⊢
    cases hcall
    exact .inr ⟨by simp [hopen], _, _, phase?_goTo_self hx rfl _, rfl⟩
  | refuse hphase _ hdrudgers hclosed =>
    simp only [hphase] at hcall ⊢
    cases hcall
    exact .inl ⟨.error .shutdown, by simp [hdrudgers, hclosed], rfl⟩
  | @collect u z' _ tally hphase hz' htally =>
    simp only [hphase] at hcall ⊢
    cases hcall
    obtain rfl := Option.some.inj (hz.symm.trans hz')
    by_cases hjobs : batch.jobs = []
    · refine .inl ⟨.ok {}, by simp [hjobs], ?_⟩
      simpa [stepWorker, hx, hphase, hz, stepStage, hjobs, returned] using h.symm
    · obtain ⟨hinline, rfl⟩ := htally.resolve_left fun hnone => hjobs hnone.1
      exact .inl ⟨.ok x.tally, by simp [hjobs, hinline], rfl⟩
  | wait hphase _ hjobs hdrudgers =>
    simp only [hphase] at hcall ⊢
    cases hcall
    exact .inr ⟨by simp [hjobs, hdrudgers], _, _, phase?_goTo_self hx rfl _, rfl⟩
  | gather hphase hz' hdone =>
    simp only [hphase] at hcall ⊢
    cases hcall
    obtain rfl := Option.some.inj (hz.symm.trans hz')
    exact .inl ⟨.ok x.tally, by simp [hdone], rfl⟩
  | giveUp hphase _ hleft hend =>
    simp only [hphase] at hcall ⊢
    cases hcall
    exact .inl ⟨.error .shutdown, by simp [hleft, hend], rfl⟩
  | _ => simp_all only [WorkerPhase.call?, reduceCtorEq]

/-- The answers of the signer to some jobs, if nobody else asks it meanwhile. -/
def answersInTurn (c : Collaborators σ) : List SignJob → σ → List (SignJob × Bool)
  | [], _ => []
  | job :: jobs, around =>
    (job, (c.sign job around).1.isOk) :: answersInTurn c jobs (c.sign job around).2

def alone (c : Collaborators σ) (p : Pool σ) (w : Nat) : Nat → Option (Pool σ)
  | 0 => some p
  | n + 1 => (p.stepWorker c w).bind fun p => p.alone c w n

/-- A worker that has to make signatures itself, and has made some of a batch. -/
structure SignsAlone (p : Pool σ) (w : Nat) (batch : Batch) (left : List SignJob)
    (tally : JobTally) : Prop where
  inline : p.drudgers = []
  worker : ∃ x t z, p.workers[w]? = some x ∧ x.phase = .stepping t (.signing batch left) ∧
    x.tally = tally ∧ p.zone? t = some z

/-- A worker counts each answer. -/
theorem SignsAlone.step {batch : Batch} {job : SignJob} {left : List SignJob}
    {tally : JobTally} (h : p.SignsAlone w batch (job :: left) tally) :
    ∃ p', p.stepWorker c w = some p' ∧ p'.around = (c.sign job p.around).2 ∧
      p'.SignsAlone w batch left (tally.report (c.sign job p.around).1.isOk) := by
  obtain ⟨hinline, x, t, z, hx, hphase, rfl, hz⟩ := h
  have hsigns : p.signsInline = true := List.isEmpty_iff.mpr hinline
  refine ⟨p.signInline c w t batch job left, ?_, rfl, hinline, ?_⟩
  · simp [stepWorker, hx, hphase, hz, stepStage, hsigns]
  · exact ⟨_, t, z, by simp [signInline, goTo, report, hx]; rfl, rfl, rfl, hz⟩

/-- A worker that signs by itself gets the tally of the signer's answers. -/
theorem SignsAlone.returns {batch : Batch} {left : List SignJob} {tally : JobTally}
    (h : p.SignsAlone w batch left tally) (hempty : batch.jobs = [] → left = [] ∧ tally = {}) :
    ∃ p', p.alone c w left.length = some p' ∧ p'.returns? w = some (.ok {
      appointed := tally.appointed
      completed := tally.completed + (answersInTurn c left p.around).countP (·.2 == true)
      failed := tally.failed + (answersInTurn c left p.around).countP (·.2 == false) }) := by
  induction left generalizing p tally with
  | nil =>
    obtain ⟨hinline, x, t, z, hx, hphase, rfl, -⟩ := h
    refine ⟨p, rfl, ?_⟩
    by_cases hjobs : batch.jobs = []
    · obtain ⟨-, htally⟩ := hempty hjobs
      simp [returns?, hx, hphase, hjobs, htally, answersInTurn]
    · simp [returns?, hx, hphase, hjobs, signsInline, hinline, answersInTurn]
  | cons job left ih =>
    obtain ⟨p₁, hstep, haround, hrest⟩ := h.step (c := c)
    have hsome (hjobs : batch.jobs = []) := List.cons_ne_nil job left (hempty hjobs).1
    obtain ⟨p', halone, hreturns⟩ := ih hrest fun hjobs => (hsome hjobs).elim
    refine ⟨p', by simp [alone, hstep, halone], hreturns.trans ?_⟩
    rw [haround, JobTally.appointed_report]
    congr 2
    simp only [answersInTurn, List.countP_cons]
    generalize (c.sign job p.around).1.isOk = signed
    cases signed <;> simp [JobTally.report] <;> omega

/-- A worker that signs by itself gets the tally of what the signer answers it. -/
theorem returns_alone {batch : Batch}
    (h : p.SignsAlone w batch batch.jobs { appointed := batch.jobs.length }) :
    ∃ p', p.alone c w batch.jobs.length = some p' ∧ p'.returns? w =
      some (.ok (.ofAnswers batch.jobs.length (answersInTurn c batch.jobs p.around))) := by
  obtain ⟨p', halone, hreturns⟩ := h.returns (c := c) fun hjobs => by simp [hjobs]
  exact ⟨p', halone, by simpa [JobTally.ofAnswers] using hreturns⟩

end Pool

end ZoneSigning
