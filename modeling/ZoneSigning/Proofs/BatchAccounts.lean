import ZoneSigning.Proofs.JobAccounting
import ZoneSigning.Proofs.RecordedRuns

/-!
The accounts of a worker that signs. Of the jobs of its batch, some are left, some are pending, and
some have been answered since the step began; what the worker has counted and what is on its way to
it are exactly the answers. No answer to an earlier batch ever comes between, because a worker that
gives up a batch does so only when the queue is closed, and then it hands no job over again.
-/
namespace ZoneSigning

/-- How far a step has come. -/
structure Progress where
  task : Task
  zone : Zone
  answers : List (SignJob × Bool) := []

def presentStep? (w : Nat) : List Event → Option Progress
  | [] => none
  | .began v t z :: log => if v = w then some { task := t, zone := z } else presentStep? w log
  | .answered v job signed :: log =>
    if v = w then (presentStep? w log).map fun s => { s with answers := (job, signed) :: s.answers }
    else presentStep? w log

/-- What happens while a worker begins no step only adds answers to the one that it is at. -/
theorem presentStep?_append {w : Nat} {new : List Event} (hnew : ∀ t z, .began w t z ∉ new)
    (log : List Event) : presentStep? w (new ++ log) =
      (presentStep? w log).map fun s => { s with answers := answersTo w new ++ s.answers } := by
  induction new with
  | nil => simp [answersTo]
  | cons event new ih =>
    have ih := ih fun t z hmem => hnew t z (List.mem_cons_of_mem _ hmem)
    cases event with
    | began v t z =>
      have hv : v ≠ w := by
        rintro rfl
        exact hnew t z List.mem_cons_self
      simp [presentStep?, answersTo, hv, ih]
    | answered v job signed =>
      by_cases hv : v = w
      · simp [presentStep?, answersTo, hv, ih, Function.comp_def]
      · simp [presentStep?, answersTo, hv, ih]

/-- The step is that of a sign task, and its zone called for the batch when it began. -/
structure Progress.Signs (s : Progress) (t : Task) (batch : Batch) : Prop where
  task : s.task = t
  what : t.what = .sign
  record : s.zone.record = t.record
  batch : s.zone.state.batch s.zone.key = .ok batch

namespace Pool

variable {σ : Type} {c : Collaborators σ} {p p' : Pool σ} {v w : Nat}

/-- The accounts of a batch some of whose jobs are left. -/
structure Counts (p : Pool σ) (w : Nat) (batch : Batch) (left : List SignJob)
    (answers : List (SignJob × Bool)) : Prop where
  tally : ∃ t, p.tally? w = some t ∧ t.appointed = batch.jobs.length ∧
    ∀ b, t.of b + p.reports w b = answers.countP (·.2 == b)
  /-- No job is in two places, or twice in one. -/
  once : ∀ q, p.pending w q + answers.countP (q ·.1) + left.countP q ≤ batch.jobs.countP q
  /-- A worker that signs by itself loses no job. -/
  inline : p.drudgers = [] → ∀ q, batch.jobs.countP q ≤ answers.countP (q ·.1) + left.countP q

/-- A worker that does not sign has no jobs with others, or hands none over any more. -/
def Rests (p : Pool σ) (w : Nat) : Prop := p.Clear w ∨ p.queue.closed

/-- What is known of a worker's jobs in each phase. -/
def Accounts (p : Pool σ) (log : List Event) (w : Nat) : WorkerPhase → Prop
  | .stepping t (.signing batch left) =>
    ∃ s, presentStep? w log = some s ∧ s.Signs t batch ∧
      (p.Counts w batch left s.answers ∨
        -- Jobs of an earlier batch may still be around, but none of this one gets away.
        p.queue.closed ∧ p.drudgers ≠ [] ∧ left = batch.jobs)
  | .stepping t (.awaiting batch) =>
    ∃ s, presentStep? w log = some s ∧ s.Signs t batch ∧ p.Counts w batch [] s.answers
  | .stepping t (.publishing batch) =>
    ∃ s, presentStep? w log = some s ∧ s.Signs t batch ∧
      (∀ job ∈ batch.jobs, (job, true) ∈ s.answers) ∧ p.Rests w
  | .stepping t .consulting => t.what ≠ .sign ∧ p.Rests w
  | .idle | .holding _ | .stepping _ (.settling _) | .reporting _ | .off => p.Rests w

/-- The accounts of all workers. -/
structure Accounted (p : Pool σ) (log : List Event) : Prop where
  accounts : ∀ {w phase}, p.phase? w = some phase → p.Accounts log w phase
  /-- Without drudgers nothing is handed over. -/
  inline : p.drudgers = [] → p.queue.items = []
  /-- Workers are told to go when the queue is closed. -/
  exits : ∀ {w : Nat} {x : Worker}, p.workers[w]? = some x → x.exit → p.queue.closed
  resting : p.started = false → ∀ {w phase}, p.phase? w = some phase → phase = .off

/-- The same threads are at the same things, with the same queue. -/
structure SameThreads (p p' : Pool σ) : Prop where
  workers : p'.workers = p.workers
  drudgers : p'.drudgers = p.drudgers
  queue : p'.queue = p.queue
  started : p'.started = p.started

namespace Counts

variable {batch : Batch} {left : List SignJob} {answers new : List (SignJob × Bool)}

/-- The accounts of a batch hold while answers to its jobs flow. -/
theorem flows (h : p.Counts w batch left answers) (hf : p.Flows p' w new) :
    p'.Counts w batch left (new ++ answers) where
  tally := by
    obtain ⟨t, ht, happointed, hcount⟩ := h.tally
    obtain ⟨t', ht', heq, hcount'⟩ := hf.counted ht
    refine ⟨t', ht', heq.trans happointed, fun b => ?_⟩
    rw [List.countP_append, hcount', hcount, Nat.add_comm]
  once q := by
    have hpending := hf.pending_le q
    have honce := h.once q
    rw [List.countP_append]
    omega
  inline hinline q := by
    have hle := h.inline (hf.inline.mp hinline) q
    rw [List.countP_append]
    omega

/-- A batch that is handed over begins with no answers. -/
theorem of_clear (h : p.Clear w) {t : JobTally} (ht : p.tally? w = some t)
    (hfresh : t = { appointed := batch.jobs.length }) : p.Counts w batch batch.jobs [] where
  tally := ⟨t, ht, by rw [hfresh], fun b => by cases b <;> simp [hfresh, h.2, JobTally.of]⟩
  once q := by simp [h.pending_eq_zero q]
  inline _ q := by simp

/-- A worker counts no more signatures as made than have been made. -/
theorem completed_le {x : Worker} (h : p.Counts w batch left answers) (hx : p.workers[w]? = some x) :
    x.tally.completed ≤ answers.countP (·.2 == true) := by
  obtain ⟨tally, htally, -, hcount⟩ := h.tally
  obtain rfl : x.tally = tally := by simpa [tally?, hx] using htally
  rw [← hcount true]
  exact Nat.le_add_right _ _

/-- Every answer says that a signature has been made, or that it has failed. -/
theorem countP_signed (answers : List (SignJob × Bool)) :
    answers.countP (·.2 == true) + answers.countP (·.2 == false) = answers.length := by
  rw [List.length_eq_countP_add_countP (·.2 == true)]
  congr 1
  refine List.countP_congr fun a _ => ?_
  cases a.2 <;> simp

/-- When no job is outstanding, all have been answered, and nothing is left with others. -/
theorem returned (h : p.Counts w batch [] answers) {t : JobTally} (ht : p.tally? w = some t)
    (hdone : t.isOutstanding = false) : p.Clear w ∧ batch.jobs.length ≤ answers.length := by
  obtain ⟨u, hu, happointed, hcount⟩ := h.tally
  obtain rfl := Option.some.inj (ht.symm.trans hu)
  have hdone := JobTally.isOutstanding_eq_false.mp hdone
  have htrue := hcount true
  have hfalse := hcount false
  have hsum := countP_signed answers
  have honce := h.once fun _ => true
  simp only [List.countP_true, List.countP_nil] at honce
  refine ⟨⟨by omega, fun b => ?_⟩, by omega⟩
  cases b <;> omega

/-- If all jobs have been answered and none has failed, each of them has been signed. -/
theorem signed (h : p.Counts w batch [] answers) {t : JobTally} (ht : p.tally? w = some t)
    (hclear : p.Clear w) (hall : batch.jobs.length ≤ answers.length) (hfailed : t.failed = 0) :
    ∀ job ∈ batch.jobs, (job, true) ∈ answers := by
  obtain ⟨u, hu, -, hcount⟩ := h.tally
  obtain rfl := Option.some.inj (ht.symm.trans hu)
  have hnone : answers.countP (·.2 == false) = 0 := by
    rw [← hcount false, hclear.2]
    exact hfailed
  intro job hjob
  -- No job has been answered too often, so that none can be missing.
  have hothers := h.once fun other => !(other == job)
  have hjobs := List.length_eq_countP_add_countP (· == job) (l := batch.jobs)
  have hanswers := List.length_eq_countP_add_countP (·.1 == job) (l := answers)
  have hpos : 0 < batch.jobs.countP (· == job) :=
    List.countP_pos_iff.mpr ⟨job, hjob, beq_self_eq_true job⟩
  have hmem : 0 < answers.countP (·.1 == job) := by
    simp only [List.countP_nil, Bool.not_eq_true] at hothers hjobs hanswers
    simp only [Bool.decide_eq_false] at hjobs hanswers
    omega
  obtain ⟨⟨found, made⟩, hfound, heq⟩ := List.countP_pos_iff.mp hmem
  obtain rfl := eq_of_beq heq
  cases made with
  | true => exact hfound
  | false => exact absurd rfl (List.countP_eq_zero.mp hnone _ hfound)

/-- An empty batch leaves nothing with others. -/
theorem of_nil (h : p.Counts w batch left answers) (hjobs : batch.jobs = []) :
    p.Clear w ∧ answers = [] := by
  obtain ⟨tally, -, -, hcount⟩ := h.tally
  have honce := h.once fun _ => true
  simp only [hjobs, List.countP_nil, List.countP_true] at honce
  have hanswers : answers = [] := List.length_eq_zero_iff.mp (by omega)
  refine ⟨⟨by omega, fun b => ?_⟩, hanswers⟩
  have hcount := hcount b
  rw [hanswers, List.countP_nil] at hcount
  omega

/-- Only the queue, the drudgers and the tally matter. -/
theorem congr (h : p.Counts w batch left answers) (ht : p'.tally? w = p.tally? w)
    (hq : p'.queue.items = p.queue.items) (hd : p'.drudgers = p.drudgers) :
    p'.Counts w batch left answers where
  tally := by
    obtain ⟨t, htally, happointed, hcount⟩ := h.tally
    exact ⟨t, ht.trans htally, happointed, fun b => by rw [reports, hd]; exact hcount b⟩
  once q := by
    rw [pending_congr hq hd]
    exact h.once q
  inline hnil := h.inline (hd ▸ hnil)

/-- A worker begins a batch with nothing of its jobs left with others. -/
theorem appoint {x : Worker} (hclear : p.Clear w) (hx : p.workers[w]? = some x)
    (phase : WorkerPhase) : (p.setWorker w { x with
      phase := phase
      tally := { appointed := batch.jobs.length } }).Counts w batch batch.jobs [] := by
  refine of_clear (hclear.congr rfl rfl) (t := { appointed := batch.jobs.length }) ?_ rfl
  simp [tally?, setWorker, (List.getElem?_eq_some_iff.mp hx).1]

/-- A worker that signs by itself brings its accounts up to date with each answer. -/
theorem signInline {job : SignJob} {signed : Bool} {counters : PoolCounters} {around : σ}
    (h : p.Counts w batch (job :: left) answers) (hinline : p.drudgers = []) (phase : WorkerPhase) :
    (({ p with around := around, counters := counters }.report w signed).goTo w phase).Counts w batch
      left ((job, signed) :: answers) where
  tally := by
    obtain ⟨tally, htally, happointed, hcount⟩ := h.tally
    refine ⟨tally.report signed, ?_, ?_, fun b => ?_⟩
    · rw [tally?_goTo, tally?_report]
      simp only [tally?] at htally ⊢
      simp [htally]
    · rw [JobTally.appointed_report, happointed]
    · have hcount := hcount b
      rw [JobTally.of_report, List.countP_cons]
      simp only [reports, goTo_drudgers, report_drudgers, beq_iff_eq] at hcount ⊢
      omega
  once q := by
    have honce := h.once q
    have hpending : pending (({ p with around := around, counters := counters }.report w
        signed).goTo w phase) w q = p.pending w q := pending_congr rfl rfl
    simp only [hpending, List.countP_cons] at honce ⊢
    omega
  inline _ q := by
    have hle := h.inline hinline q
    simp only [List.countP_cons] at hle ⊢
    omega

/-- A job that is handed over stays on the accounts. -/
theorem handOver {job : SignJob} (h : p.Counts w batch (job :: left) answers)
    (hdrudgers : p.drudgers ≠ []) (phase : WorkerPhase) :
    ({ p with queue := { p.queue with items := p.queue.items ++ [(⟨job, w⟩ : Handoff)] } }.goTo w
      phase).Counts w batch left answers where
  tally := by
    obtain ⟨tally, htally, hrest⟩ := h.tally
    exact ⟨tally, (tally?_goTo ..).trans htally, hrest⟩
  once q := by
    have honce := h.once q
    simp only [pending, goTo_queue, goTo_drudgers, List.countP_append, List.countP_cons,
      List.countP_nil, beq_self_eq_true, Bool.true_and] at honce ⊢
    omega
  inline hnil := absurd hnil hdrudgers

end Counts

/-- A worker that rests goes on doing so while answers flow. -/
theorem Rests.flows {new : List (SignJob × Bool)} (h : p.Rests w) (hf : p.Flows p' w new) :
    p'.Rests w :=
  h.imp hf.clear hf.closed

/-- As long as a worker does not go on, its accounts remain right. -/
theorem Accounts.flows {log new : List Event} {phase : WorkerPhase} (h : p.Accounts log w phase)
    (hf : p.Flows p' w (answersTo w new)) (hnew : ∀ t z, .began w t z ∉ new) :
    p'.Accounts (new ++ log) w phase := by
  have hstep {s : Progress} (hs : presentStep? w log = some s) : presentStep? w (new ++ log) =
      some { s with answers := answersTo w new ++ s.answers } := by
    rw [presentStep?_append hnew, hs]
    rfl
  cases phase with
  | stepping t stage =>
    cases stage with
    | signing batch left =>
      obtain ⟨s, hs, hsigns, hcounts⟩ := h
      refine ⟨_, hstep hs, ⟨hsigns.1, hsigns.2, hsigns.3, hsigns.4⟩, ?_⟩
      rcases hcounts with hcounts | ⟨hclosed, hdrudgers, hleft⟩
      · exact .inl (hcounts.flows hf)
      · exact .inr ⟨hf.closed hclosed, fun hnil => hdrudgers (hf.inline.mp hnil), hleft⟩
    | awaiting batch =>
      obtain ⟨s, hs, hsigns, hcounts⟩ := h
      exact ⟨_, hstep hs, ⟨hsigns.1, hsigns.2, hsigns.3, hsigns.4⟩, hcounts.flows hf⟩
    | publishing batch =>
      obtain ⟨s, hs, hsigns, hall, hrests⟩ := h
      refine ⟨_, hstep hs, ⟨hsigns.1, hsigns.2, hsigns.3, hsigns.4⟩, fun job hjob => ?_,
        hrests.flows hf⟩
      exact List.mem_append_right _ (hall job hjob)
    | consulting => exact h.imp_right (·.flows hf)
    | settling o => exact Rests.flows h hf
  | idle => exact Rests.flows h hf
  | holding t => exact Rests.flows h hf
  | reporting drained => exact Rests.flows h hf
  | off => exact Rests.flows h hf

/-- Whether a worker rests depends on the queue and on the drudgers only. -/
theorem Rests.congr (h : p.Rests w) (hq : p'.queue = p.queue) (hd : p'.drudgers = p.drudgers) :
    p'.Rests w :=
  h.imp (·.congr (congrArg _ hq) hd) fun hclosed => by rw [hq]; exact hclosed

namespace Accounted

variable {log : List Event} {x : Worker}

/-- When all jobs are done, the zone is published only if all have been signed. -/
theorem accounts_collect {t : Task} {z : Zone} {batch : Batch} {tally : JobTally}
    {s : Progress} {phase : WorkerPhase} (hs : presentStep? w log = some s)
    (hsigns : s.Signs t batch) (hrests : p.Rests w)
    (hall : tally.failed = 0 → ∀ job ∈ batch.jobs, (job, true) ∈ s.answers)
    (hphase : (p.collect w t batch tally z).phase? w = some phase) :
    (p.collect w t batch tally z).Accounts log w phase := by
  rcases p.collect_cases w t batch tally z with ⟨hfailed, he⟩ | ⟨e, he⟩ <;>
    rw [he] at hphase <;> cases eq_of_phase?_goTo hphase
  · exact ⟨s, hs, hsigns, hall hfailed, hrests.congr (by simp [he]) (by simp [he])⟩
  · exact hrests.congr (by simp [he]) (by simp [he])

private theorem accounts_appoint {t : Task} {z : Zone} {batch : Batch} (h : p.Accounted log)
    (hx : p.workers[w]? = some x) (hphase : x.phase = .holding t) (hz : p.zone? t = some z)
    (hwhat : t.what = .sign) (hbatch : z.state.batch z.key = .ok batch) :
    (p.setWorker w { x with
      phase := .stepping t (.signing batch batch.jobs)
      tally := { appointed := batch.jobs.length } }).Accounts (.began w t z :: log) w
        (.stepping t (.signing batch batch.jobs)) := by
  have hrests : p.Rests w := by
    have haccounts := h.accounts (phase?_of_get hx)
    rwa [hphase] at haccounts
  refine ⟨{ task := t, zone := z }, by simp [presentStep?],
    ⟨rfl, hwhat, (has_of_zone? hz).2, hbatch⟩, ?_⟩
  by_cases hdrudgers : p.drudgers = []
  · exact .inl (.appoint (.of_inline (h.inline hdrudgers) hdrudgers) hx _)
  · rcases hrests with hclear | hclosed
    · exact .inl (.appoint hclear hx _)
    · exact .inr ⟨hclosed, hdrudgers, rfl⟩

private theorem accounts_signInline {t : Task} {batch : Batch} {job : SignJob}
    {left : List SignJob} {counters : PoolCounters} {around : σ} {signed : Bool}
    (h : p.Accounted log) (hx : p.workers[w]? = some x)
    (hphase : x.phase = .stepping t (.signing batch (job :: left))) (hinline : p.drudgers = []) :
    (({ p with around := around, counters := counters }.report w signed).goTo w
      (.stepping t (.signing batch left))).Accounts (.answered w job signed :: log) w
        (.stepping t (.signing batch left)) := by
  have haccounts := h.accounts (phase?_of_get hx)
  rw [hphase] at haccounts
  obtain ⟨s, hs, hsigns, hcounts⟩ := haccounts
  have hcounts := hcounts.resolve_right fun hstale => hstale.2.1 hinline
  exact ⟨{ s with answers := (job, signed) :: s.answers }, by simp [presentStep?, hs],
    ⟨hsigns.1, hsigns.2, hsigns.3, hsigns.4⟩, .inl (hcounts.signInline hinline _)⟩

private theorem accounts_handOver {t : Task} {batch : Batch} {job : SignJob}
    {left : List SignJob} (h : p.Accounted log) (hx : p.workers[w]? = some x)
    (hphase : x.phase = .stepping t (.signing batch (job :: left))) (hdrudgers : p.drudgers ≠ [])
    (hopen : p.queue.closed = false) :
    ({ p with queue := { p.queue with items := p.queue.items ++ [(⟨job, w⟩ : Handoff)] } }.goTo w
      (.stepping t (.signing batch left))).Accounts log w (.stepping t (.signing batch left)) := by
  have haccounts := h.accounts (phase?_of_get hx)
  rw [hphase] at haccounts
  obtain ⟨s, hs, hsigns, hcounts⟩ := haccounts
  have hcounts := hcounts.resolve_right fun hstale => by simp [hopen] at hstale
  exact ⟨s, hs, hsigns, .inl (hcounts.handOver hdrudgers _)⟩

private theorem accounts_collecting {t : Task} {z : Zone} {batch : Batch} {tally : JobTally}
    {phase : WorkerPhase} (h : p.Accounted log) (hx : p.workers[w]? = some x)
    (hphase : x.phase = .stepping t (.signing batch []))
    (htally : batch.jobs = [] ∧ tally = {} ∨ p.drudgers = [] ∧ tally = x.tally)
    (hphase' : (p.collect w t batch tally z).phase? w = some phase) :
    (p.collect w t batch tally z).Accounts log w phase := by
  have haccounts := h.accounts (phase?_of_get hx)
  rw [hphase] at haccounts
  obtain ⟨s, hs, hsigns, hcounts⟩ := haccounts
  rcases htally with ⟨hjobs, -⟩ | ⟨hinline, rfl⟩
  · refine accounts_collect hs hsigns ?_ (fun _ job hjob => ?_) hphase'
    · exact hcounts.imp (fun hcounts => (hcounts.of_nil hjobs).1) And.left
    · rw [hjobs] at hjob
      cases hjob
  · have hcounts := hcounts.resolve_right fun hstale => hstale.2.1 hinline
    have hclear : p.Clear w := .of_inline (h.inline hinline) hinline
    have hall := hcounts.inline hinline fun _ => true
    simp only [List.countP_true, List.countP_nil, Nat.add_zero] at hall
    exact accounts_collect hs hsigns (.inl hclear)
      (hcounts.signed (by simp [tally?, hx]) hclear hall) hphase'

private theorem accounts_gather {t : Task} {z : Zone} {batch : Batch} {phase : WorkerPhase}
    (h : p.Accounted log) (hx : p.workers[w]? = some x)
    (hphase : x.phase = .stepping t (.awaiting batch)) (hdone : x.tally.isOutstanding = false)
    (hphase' : (p.collect w t batch x.tally z).phase? w = some phase) :
    (p.collect w t batch x.tally z).Accounts log w phase := by
  have haccounts := h.accounts (phase?_of_get hx)
  rw [hphase] at haccounts
  obtain ⟨s, hs, hsigns, hcounts⟩ := haccounts
  have htally : p.tally? w = some x.tally := by simp [tally?, hx]
  obtain ⟨hclear, hall⟩ := hcounts.returned htally hdone
  exact accounts_collect hs hsigns (.inl hclear) (hcounts.signed htally hclear hall) hphase'

/-- A worker that goes on keeps its accounts right. -/
theorem accounts_self (h : p.Accounted log) (hx : p.workers[w]? = some x)
    (hsection : WorkerSection c p w x p') {phase : WorkerPhase} (hphase' : p'.phase? w = some phase) :
    p'.Accounts (p.workerEvents c w ++ log) w phase := by
  have haccounts := h.accounts (phase?_of_get hx)
  cases hsection with
  | take hphase | leave hphase =>
    cases eq_of_phase?_setWorker hphase'
    rw [hphase] at haccounts
    exact Rests.congr haccounts rfl rfl
  | prepare hphase _ hwhat =>
    cases eq_of_phase?_goTo hphase'
    rw [hphase] at haccounts
    exact ⟨hwhat, Rests.congr haccounts rfl rfl⟩
  | retreat hphase =>
    cases eq_of_phase?_goTo hphase'
    rw [hphase] at haccounts
    exact Rests.congr haccounts rfl rfl
  | @appoint t z batch hphase hz hwhat hbatch =>
    cases eq_of_phase?_setWorker hphase'
    rw [workerEvents_holding hx hphase hz]
    exact accounts_appoint h hx hphase hz hwhat hbatch
  | load hphase | read hphase | write hphase =>
    cases eq_of_phase?_goTo hphase'
    rw [hphase] at haccounts
    exact Rests.congr haccounts.2 (by simp) (by simp)
  | @signInline t z batch job left answer around hphase hz hinline hsign =>
    cases eq_of_phase?_goTo hphase'
    rw [workerEvents_signInline hx hphase hinline hsign]
    exact accounts_signInline h hx hphase (List.isEmpty_iff.mp hinline)
  | handOver hphase _ hdrudgers _ hopen =>
    cases eq_of_phase?_goTo hphase'
    rw [workerEvents_eq_nil hx hphase (by simp) fun _ _ _ _ _ => hdrudgers]
    exact accounts_handOver h hx hphase (by simpa [signsInline] using hdrudgers) hopen
  | refuse _ _ _ hclosed =>
    cases eq_of_phase?_goTo hphase'
    exact .inr hclosed
  | collect hphase _ htally =>
    rw [workerEvents_eq_nil hx hphase (by simp) (by simp)]
    exact accounts_collecting h hx hphase (htally.imp_right (.imp_left List.isEmpty_iff.mp)) hphase'
  | @wait t z batch hphase hz hjobs hdrudgers =>
    cases eq_of_phase?_goTo hphase'
    rw [hphase] at haccounts
    obtain ⟨s, hs, hsigns, hcounts⟩ := haccounts
    have hcounts := hcounts.resolve_right fun hstale => hjobs hstale.2.2.symm
    rw [workerEvents_eq_nil hx hphase (by simp) (by simp)]
    exact ⟨s, hs, hsigns, hcounts.congr (tally?_goTo ..) rfl rfl⟩
  | gather hphase _ hdone =>
    rw [workerEvents_eq_nil hx hphase (by simp) (by simp)]
    exact accounts_gather h hx hphase hdone hphase'
  | giveUp _ _ _ hend =>
    cases eq_of_phase?_goTo hphase'
    exact .inr (hend.elim (h.exits hx) id)
  | publish hphase =>
    cases eq_of_phase?_goTo hphase'
    rw [hphase] at haccounts
    obtain ⟨s, -, -, -, hrests⟩ := haccounts
    exact hrests.congr (by simp) (by simp)
  | @settle t z o hphase =>
    obtain ⟨_, _, _, he⟩ := p.settle_eq w t o z
    rw [he] at hphase' ⊢
    cases eq_of_phase?_goTo hphase'
    rw [hphase] at haccounts
    exact Rests.congr haccounts rfl rfl
  | @tell drained hphase =>
    obtain ⟨_, he⟩ := p.tell_eq w drained
    rw [he] at hphase' ⊢
    cases eq_of_phase?_goTo hphase'
    rw [hphase] at haccounts
    exact Rests.congr haccounts rfl rfl

/-- In a pool that has just been made, the accounts of all workers are in order. -/
theorem ofLimits (around : σ) (now workers drudgers maxBackoff capacity threshold : Nat) :
    (ofLimits around now workers drudgers maxBackoff capacity threshold).Accounted [] := by
  constructor
  case accounts =>
    intro w phase hphase
    rw [phase?_ofLimits _ _ _ _ _ _ _ hphase]
    exact .inl (.ofLimits ..)
  case inline => exact fun _ => rfl
  case exits =>
    intro w x hx hexit
    rw [(worker_ofLimits _ _ _ _ _ _ _ hx).2] at hexit
    cases hexit
  case resting => exact fun _ _ _ => phase?_ofLimits _ _ _ _ _ _ _

/-- Nobody moves, and nothing happens to the jobs. -/
theorem others (h : p.Accounted log) (hphase : ∀ v, p'.phase? v = p.phase? v)
    (hflows : ∀ v, p.Flows p' v []) (hinline : p.queue.items = [] → p'.queue.items = [])
    (hexits : ∀ {v : Nat} {x : Worker}, p'.workers[v]? = some x → x.exit → p'.queue.closed)
    (hstarted : p'.started = p.started) : p'.Accounted log where
  accounts {v phase} hafter := by
    rw [hphase] at hafter
    have hnone : answersTo v [] = [] := rfl
    exact (h.accounts hafter).flows (hnone ▸ hflows v) fun _ _ => List.not_mem_nil
  inline hnil := hinline (h.inline ((hflows 0).inline.mp hnil))
  exits := hexits
  resting hoff v phase hafter := by
    rw [hphase] at hafter
    exact h.resting (hstarted ▸ hoff) hafter

/-- The accounts are those of the threads and the queue. -/
theorem sameThreads (h : p.Accounted log) (hsame : p.SameThreads p') : p'.Accounted log := by
  obtain ⟨hworkers, hdrudgers, hqueue, hstarted⟩ := hsame
  refine h.others (fun v => ?_) (fun v => .of_eq (fun q => ?_) (fun b => ?_) ?_ ?_ ?_) ?_ ?_ hstarted
  · rw [phase?, hworkers, phase?]
  · exact Nat.le_of_eq (pending_congr (congrArg _ hqueue) hdrudgers)
  · rw [reports, hdrudgers, reports]
  · rw [tally?, hworkers, tally?]
  · rw [hqueue]
    exact id
  · rw [hdrudgers]
  · rw [hqueue]
    exact id
  · rw [hworkers, hqueue]
    exact h.exits

/-- A section of a worker keeps the accounts of all workers in order. -/
theorem worker (h : p.Accounted log) (hstep : p.stepWorker c w = some p') :
    p'.Accounted (p.workerEvents c w ++ log) := by
  obtain ⟨x, hx, hsection⟩ := workerSection_of_step hstep
  constructor
  case accounts =>
    intro v phase hphase
    by_cases hv : v = w
    · subst hv
      exact h.accounts_self hx hsection hphase
    · rw [hsection.phase?_other hx hv] at hphase
      refine (h.accounts hphase).flows ?_ fun t z hmem => hv (WorkerSection.began_of_mem_events hmem)
      rw [WorkerSection.answersTo_other c p hv]
      exact hsection.flows_other hx hv
  case inline => exact hsection.queue_inline hx h.inline
  case exits =>
    intro v y hy hexit
    rw [hsection.closed]
    by_cases hv : v = w
    · subst hv
      rw [hsection.exit_eq hx hy] at hexit
      exact h.exits hx hexit
    · rw [hsection.worker_other hx hv] at hy
      exact h.exits hy hexit
  case resting =>
    intro hoff v phase _
    rw [hsection.started hx] at hoff
    exact absurd (h.resting hoff (phase?_of_get hx)) hsection.phase_ne_off

/-- A section of a drudger keeps the accounts of all workers in order. -/
theorem drudger {d : Nat} (h : p.Accounted log) (hstep : p.stepDrudger c d = some p') :
    p'.Accounted (p.drudgerEvents c d ++ log) := by
  obtain ⟨y, hy, hsection⟩ := drudgerSection_of_step hstep
  obtain ⟨-, -, -, hstarted, hphase⟩ := hsection.frame
  constructor
  case accounts =>
    intro w phase hafter
    rw [hphase] at hafter
    exact (h.accounts hafter).flows (hsection.flows hy w) fun t z =>
      DrudgerSection.began_not_mem_events
  case inline =>
    intro hnil
    rw [(hsection.flows hy 0).inline] at hnil
    exact absurd hnil (DrudgerSection.drudgers_ne_nil hy)
  case exits =>
    intro w x hx hexit
    obtain ⟨x', hx', he⟩ := hsection.exit_eq hx
    exact hsection.closed.trans (h.exits hx' (he ▸ hexit))
  case resting =>
    intro hoff w phase hafter
    rw [hphase] at hafter
    exact h.resting (hstarted ▸ hoff) hafter

/-- Threads start with their accounts in order. -/
theorem start (h : p.Accounted log) (hstart : p.start = .ok p') : p'.Accounted log := by
  obtain ⟨hoff, hp⟩ := start_eq_ok hstart
  have hqueue : p'.queue = p.queue := by rw [hp]
  constructor
  case accounts =>
    intro w phase hphase
    rw [phase?_start hstart] at hphase
    obtain ⟨before, hbefore, rfl⟩ := Option.map_eq_some_iff.mp hphase
    have hrests := h.accounts hbefore
    rw [h.resting hoff hbefore] at hrests
    exact hrests.imp (·.start hstart) fun hclosed => by rwa [hqueue]
  case inline =>
    intro hnil
    rw [hqueue]
    refine h.inline ?_
    rw [hp] at hnil
    exact List.map_eq_nil_iff.mp hnil
  case exits =>
    intro w x hx hexit
    rw [hqueue]
    rw [hp, List.getElem?_map, Option.map_eq_some_iff] at hx
    obtain ⟨y, hy, rfl⟩ := hx
    exact h.exits hy hexit
  case resting =>
    intro hfalse
    rw [hp] at hfalse
    cases hfalse

end Accounted

end Pool

end ZoneSigning
