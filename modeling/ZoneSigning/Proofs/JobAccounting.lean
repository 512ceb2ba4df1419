import ZoneSigning.Proofs.ThreadSections

/-!
Where the jobs of a worker are. A job that has been handed over waits in the queue or is in the
hands of a drudger until the signer answers; then the answer is on its way until it is counted.
-/
namespace ZoneSigning

namespace JobTally

def of (t : JobTally) (signed : Bool) : Nat := if signed then t.completed else t.failed

@[simp] theorem appointed_report (t : JobTally) (signed : Bool) :
    (t.report signed).appointed = t.appointed := by
  cases signed <;> rfl

/-- A job that comes back adds one to the count of its kind. -/
theorem of_report (t : JobTally) (signed b : Bool) :
    (t.report signed).of b = t.of b + if signed = b then 1 else 0 := by
  cases signed <;> cases b <;> rfl

/-- Nothing is outstanding when as many jobs have come back as have been appointed. -/
theorem isOutstanding_eq_false {t : JobTally} :
    t.isOutstanding = false ↔ t.appointed ≤ t.of true + t.of false := by
  simp [isOutstanding, of]

end JobTally

namespace DrudgerPhase

/-- Whether a drudger holds a job of the worker `w`, one that `q` holds of. -/
def holds (w : Nat) (q : SignJob → Bool) : DrudgerPhase → Bool
  | holding h => h.owner == w && q h.job
  | idle | reporting .. | off => false

/-- Whether a drudger is about to tell the worker `w` of such an answer. -/
def reports (w : Nat) (b : Bool) : DrudgerPhase → Bool
  | reporting v signed => v == w && signed == b
  | idle | holding _ | off => false

section

variable (w v : Nat) (q : SignJob → Bool) (b signed : Bool) (handoff : Handoff)

@[simp] theorem holds_idle : idle.holds w q = false := rfl
@[simp] theorem holds_holding :
    (holding handoff).holds w q = (handoff.owner == w && q handoff.job) := rfl
@[simp] theorem holds_reporting : (reporting v signed).holds w q = false := rfl
@[simp] theorem holds_off : off.holds w q = false := rfl

@[simp] theorem reports_idle : idle.reports w b = false := rfl
@[simp] theorem reports_holding : (holding handoff).reports w b = false := rfl
@[simp] theorem reports_reporting : (reporting v signed).reports w b = (v == w && signed == b) := rfl
@[simp] theorem reports_off : off.reports w b = false := rfl

end

end DrudgerPhase

namespace Drudger

def holding (ys : List Drudger) (w : Nat) (q : SignJob → Bool) : Nat :=
  ys.countP (·.phase.holds w q)

def reporting (ys : List Drudger) (w : Nat) (b : Bool) : Nat := ys.countP (·.phase.reports w b)

variable {ys : List Drudger} {d : Nat} {y : Drudger}

private theorem countP_set (hy : ys[d]? = some y) (y' : Drudger) (f : Drudger → Bool) :
    (ys.set d y').countP f + (if f y then 1 else 0) = ys.countP f + if f y' then 1 else 0 := by
  obtain ⟨hd, rfl⟩ := List.getElem?_eq_some_iff.mp hy
  rw [List.countP_set hd]
  have hle := List.boole_getElem_le_countP (p := f) hd
  omega

private theorem holding_set {before : DrudgerPhase} (hy : ys[d]? = some y) (hphase : y.phase = before)
    (after : DrudgerPhase) (w : Nat) (q : SignJob → Bool) :
    holding (ys.set d { y with phase := after }) w q + (if before.holds w q then 1 else 0) =
      holding ys w q + if after.holds w q then 1 else 0 := by
  rw [← hphase]
  exact countP_set hy _ _

private theorem reporting_set {before : DrudgerPhase} (hy : ys[d]? = some y) (hphase : y.phase = before)
    (after : DrudgerPhase) (w : Nat) (b : Bool) :
    reporting (ys.set d { y with phase := after }) w b + (if before.reports w b then 1 else 0) =
      reporting ys w b + if after.reports w b then 1 else 0 := by
  rw [← hphase]
  exact countP_set hy _ _

end Drudger

namespace Pool

variable {σ : Type} {c : Collaborators σ} {p p' : Pool σ} {w : Nat} {q : SignJob → Bool}

/-- How many jobs of a worker, of those that `q` holds of, wait for an answer of the signer. -/
def pending (p : Pool σ) (w : Nat) (q : SignJob → Bool) : Nat :=
  p.queue.items.countP (fun h => h.owner == w && q h.job) + Drudger.holding p.drudgers w q

/-- How many answers to a worker's jobs are on their way to it. -/
def reports (p : Pool σ) (w : Nat) (b : Bool) : Nat := Drudger.reporting p.drudgers w b

/-- Nothing of a worker's jobs is left with others. -/
def Clear (p : Pool σ) (w : Nat) : Prop := p.pending w (fun _ => true) = 0 ∧ ∀ b, p.reports w b = 0

def tally? (p : Pool σ) (w : Nat) : Option JobTally := p.workers[w]?.map (·.tally)

/-- A report goes to the tally of the one worker that it is for. -/
theorem tally?_report (p : Pool σ) (v w : Nat) (signed : Bool) : (p.report v signed).tally? w =
    (p.tally? w).map fun t => if v = w then t.report signed else t := by
  by_cases hv : v = w
  · simp [tally?, report, hv, Function.comp_def]
  · simp [tally?, report, hv, Function.comp_def]

@[simp] theorem tally?_goTo (p : Pool σ) (v w : Nat) (phase : WorkerPhase) :
    (p.goTo v phase).tally? w = p.tally? w := by
  by_cases hv : v = w
  · simp [tally?, goTo, hv, Function.comp_def]
  · simp [tally?, goTo, hv]

/-- How many jobs wait for an answer depends on the queue and the drudgers only. -/
theorem pending_congr (hq : p'.queue.items = p.queue.items) (hd : p'.drudgers = p.drudgers) :
    p'.pending w q = p.pending w q := by
  simp only [pending, hq, hd]

/-- No more jobs of one kind wait for an answer than jobs of all kinds. -/
theorem pending_le (p : Pool σ) (w : Nat) (q : SignJob → Bool) :
    p.pending w q ≤ p.pending w fun _ => true := by
  refine Nat.add_le_add (List.countP_mono_left fun h _ hh => ?_) (List.countP_mono_left fun y _ hy => ?_)
  · simp only [Bool.and_eq_true] at hh
    simp [hh.1]
  · cases hphase : y.phase with
    | holding handoff =>
      simp only [hphase, DrudgerPhase.holds, Bool.and_eq_true] at hy
      simp [DrudgerPhase.holds, hy.1]
    | _ => simp [hphase, DrudgerPhase.holds] at hy

namespace Clear

/-- Of a worker with nothing left with others no job waits for an answer. -/
theorem pending_eq_zero (h : p.Clear w) (q : SignJob → Bool) : p.pending w q = 0 :=
  Nat.le_zero.mp (h.1 ▸ p.pending_le w q)

/-- Whether anything is left with others depends on the queue and the drudgers only. -/
theorem congr (h : p.Clear w) (hq : p'.queue.items = p.queue.items) (hd : p'.drudgers = p.drudgers) :
    p'.Clear w :=
  ⟨(pending_congr hq hd).trans h.1, fun b => by rw [reports, hd]; exact h.2 b⟩

/-- Without drudgers and queued jobs nothing is left with others. -/
theorem of_inline (hq : p.queue.items = []) (hd : p.drudgers = []) : p.Clear w := by
  simp [Clear, pending, reports, Drudger.holding, Drudger.reporting, hq, hd]

/-- In a pool that has just been made nothing is left with others. -/
theorem ofLimits (around : σ) (now workers drudgers maxBackoff capacity threshold w : Nat) :
    (ofLimits around now workers drudgers maxBackoff capacity threshold).Clear w := by
  refine ⟨?_, fun b => ?_⟩
  · simp [pending, Pool.ofLimits, HandoffQueue.ofLimits, Drudger.holding, List.countP_replicate]
  · simp [reports, Pool.ofLimits, Drudger.reporting, List.countP_replicate]

/-- When the threads start, nothing is left with others that was not before. -/
theorem start (h : p.Clear w) (hstart : p.start = .ok p') : p'.Clear w := by
  obtain ⟨-, rfl⟩ := start_eq_ok hstart
  have hitems := (Nat.add_eq_zero_iff.mp h.1).1
  refine ⟨?_, fun b => ?_⟩
  · simp only [pending, hitems, Drudger.holding, List.countP_map]
    simp [Function.comp_def]
  · simp [reports, Drudger.reporting, List.countP_map, Function.comp_def]

end Clear

end Pool

/-- What is kept of the past. -/
inductive Event where
  | began (worker : Nat) (task : Task) (zone : Zone)
  | answered (worker : Nat) (job : SignJob) (signed : Bool)

def answersTo (w : Nat) : List Event → List (SignJob × Bool)
  | [] => []
  | .began .. :: log => answersTo w log
  | .answered v job signed :: log =>
    if v = w then (job, signed) :: answersTo w log else answersTo w log

namespace Pool

variable {σ : Type} {c : Collaborators σ} {p p' : Pool σ} {v w : Nat}

def workerEvents (c : Collaborators σ) (p : Pool σ) (w : Nat) : List Event :=
  match p.phase? w with
  | some (.holding t) => ((p.zone? t).map (Event.began w t)).toList
  | some (.stepping _ (.signing _ (job :: _))) =>
    if p.signsInline then [.answered w job (c.sign job p.around).1.isOk] else []
  | _ => []

def drudgerEvents (c : Collaborators σ) (p : Pool σ) (d : Nat) : List Event :=
  match p.drudgers[d]? with
  | some { phase := .holding handoff, .. } =>
    [.answered handoff.owner handoff.job (c.sign handoff.job p.around).1.isOk]
  | _ => []

section Events

variable {x : Worker}

/-- A worker that holds a task begins its step. -/
theorem workerEvents_holding {t : Task} {z : Zone} (hx : p.workers[w]? = some x)
    (hphase : x.phase = .holding t) (hz : p.zone? t = some z) :
    p.workerEvents c w = [.began w t z] := by
  simp [workerEvents, phase?, hx, hphase, hz]

/-- A worker that signs by itself gets an answer of the signer. -/
theorem workerEvents_signInline {t : Task} {batch : Batch} {job : SignJob} {left : List SignJob}
    {answer : Except StepError Unit} {around : σ} (hx : p.workers[w]? = some x)
    (hphase : x.phase = .stepping t (.signing batch (job :: left))) (hinline : p.signsInline)
    (hsign : c.sign job p.around = (answer, around)) :
    p.workerEvents c w = [.answered w job answer.isOk] := by
  simp [workerEvents, phase?, hx, hphase, hinline, hsign]

/-- Nothing is kept of a worker that neither begins a step nor signs a name itself. -/
theorem workerEvents_eq_nil {phase : WorkerPhase} (hx : p.workers[w]? = some x)
    (hphase : x.phase = phase) (hbegins : ∀ t, phase ≠ .holding t)
    (hsigns : ∀ t batch job left, phase = .stepping t (.signing batch (job :: left)) →
      p.signsInline = false) : p.workerEvents c w = [] := by
  have hw : p.phase? w = some phase := by rw [phase?, hx, ← hphase]; rfl
  unfold workerEvents
  split
  · next t ht => exact absurd (Option.some.inj (hw.symm.trans ht)) (hbegins t)
  · next heq =>
    rw [hsigns _ _ _ _ (Option.some.inj (hw.symm.trans heq))]
    rfl
  · rfl

variable {d : Nat} {y : Drudger}

/-- A drudger that holds a job gets an answer of the signer. -/
theorem drudgerEvents_holding {handoff : Handoff} {answer : Except StepError Unit} {around : σ}
    (hy : p.drudgers[d]? = some y) (hphase : y.phase = .holding handoff)
    (hsign : c.sign handoff.job p.around = (answer, around)) :
    p.drudgerEvents c d = [.answered handoff.owner handoff.job answer.isOk] := by
  obtain ⟨phase, exit⟩ := y
  obtain rfl := hphase
  simp [drudgerEvents, hy, hsign]

/-- Nothing is kept of a drudger without a job. -/
theorem drudgerEvents_eq_nil {phase : DrudgerPhase} (hy : p.drudgers[d]? = some y)
    (hphase : y.phase = phase) (hholds : ∀ handoff, phase ≠ .holding handoff) :
    p.drudgerEvents c d = [] := by
  unfold drudgerEvents
  split
  · next handoff exit heq =>
    obtain rfl := Option.some.inj (hy.symm.trans heq)
    exact absurd hphase.symm (hholds handoff)
  · rfl

end Events

/-- A worker's jobs go their way while the worker does not: what is pending may be answered, what is
answered is reported, and what is reported is counted. Here `new` are the answers of the signer. -/
structure Flows (p p' : Pool σ) (w : Nat) (new : List (SignJob × Bool)) : Prop where
  pending_le : ∀ q, p'.pending w q + new.countP (q ·.1) ≤ p.pending w q
  reports_le : ∀ b, p'.reports w b ≤ p.reports w b + new.countP (·.2 == b)
  counted : ∀ {t}, p.tally? w = some t → ∃ t', p'.tally? w = some t' ∧ t'.appointed = t.appointed ∧
    ∀ b, t'.of b + p'.reports w b = t.of b + p.reports w b + new.countP (·.2 == b)
  closed : p.queue.closed → p'.queue.closed
  inline : p'.drudgers = [] ↔ p.drudgers = []

namespace Flows

/-- Nothing happens to the jobs. -/
theorem of_eq (hpending : ∀ q, p'.pending w q ≤ p.pending w q)
    (hdrudgers : ∀ b, p'.reports w b = p.reports w b) (htally : p'.tally? w = p.tally? w)
    (hclosed : p.queue.closed → p'.queue.closed) (hinline : p'.drudgers = [] ↔ p.drudgers = []) :
    p.Flows p' w [] where
  pending_le := hpending
  reports_le b := Nat.le_of_eq (hdrudgers b)
  counted {t} ht := ⟨t, htally.trans ht, rfl, fun b => by rw [hdrudgers]; rfl⟩
  closed := hclosed
  inline := hinline

/-- Answers that flow put no jobs with others. -/
theorem clear {new : List (SignJob × Bool)} (h : p.Flows p' w new) (hclear : p.Clear w) :
    p'.Clear w := by
  have hpending := h.pending_le fun _ => true
  rw [hclear.1] at hpending
  have hnew : new = [] := by
    rw [← List.length_eq_zero_iff, ← List.countP_true]
    omega
  refine ⟨by omega, fun b => ?_⟩
  have hle := h.reports_le b
  rw [hclear.2, hnew] at hle
  exact Nat.le_zero.mp hle

end Flows

namespace DrudgerSection

variable {d : Nat} {y : Drudger}

private theorem inline (h : DrudgerSection c p d y p') : p'.drudgers = [] ↔ p.drudgers = [] := by
  cases h <;> simp

/-- A drudger takes a job, asks the signer, and tells the worker that waits. -/
theorem flows (hy : p.drudgers[d]? = some y) (h : DrudgerSection c p d y p') (w : Nat) :
    p.Flows p' w (answersTo w (p.drudgerEvents c d)) := by
  have hinline := h.inline
  cases h with
  | @pop handoff rest hphase hexit hopen hitems =>
    rw [drudgerEvents_eq_nil hy hphase (by simp)]
    refine .of_eq (fun q => ?_) (fun b => Drudger.reporting_set hy hphase _ w b) rfl id hinline
    have hcount := Drudger.holding_set hy hphase (.holding handoff) w q
    simp [pending, hitems, List.countP_cons] at hcount ⊢
    omega
  | leave hphase =>
    rw [drudgerEvents_eq_nil hy hphase (by simp)]
    refine .of_eq (fun q => ?_) (fun b => Drudger.reporting_set hy hphase _ w b) rfl id hinline
    exact Nat.le_of_eq (congrArg (_ + ·) (Drudger.holding_set hy hphase _ w q))
  | @sign handoff answer around hphase hsign =>
    have hnew : answersTo w (p.drudgerEvents c d) =
        if handoff.owner = w then [(handoff.job, answer.isOk)] else [] := by
      simp [drudgerEvents_holding hy hphase hsign, answersTo]
    have hreported (b : Bool) : Drudger.reporting (p.drudgers.set d
        { y with phase := .reporting handoff.owner answer.isOk }) w b =
        p.reports w b + (answersTo w (p.drudgerEvents c d)).countP (·.2 == b) := by
      have hcount := Drudger.reporting_set hy hphase (.reporting handoff.owner answer.isOk) w b
      by_cases how : handoff.owner = w
      · simpa [reports, hnew, how, List.countP_cons] using hcount
      · simpa [reports, hnew, how] using hcount
    constructor
    case pending_le =>
      intro q
      have hcount := Drudger.holding_set hy hphase (.reporting handoff.owner answer.isOk) w q
      simp only [pending]
      by_cases how : handoff.owner = w
      · simp [hnew, how, List.countP_cons] at hcount ⊢
        omega
      · simp [hnew, how] at hcount ⊢
        omega
    case reports_le => exact fun b => Nat.le_of_eq (hreported b)
    case counted =>
      refine fun {t} ht => ⟨t, ht, rfl, fun b => ?_⟩
      rw [reports, hreported]
      exact (Nat.add_assoc ..).symm
    case closed => exact id
    case inline => exact hinline
  | @report owner signed hphase =>
    have hreported (b : Bool) : Drudger.reporting (p.drudgers.set d { y with phase := .idle }) w b +
        (if owner = w ∧ signed = b then 1 else 0) = p.reports w b := by
      simpa [reports] using Drudger.reporting_set hy hphase .idle w b
    rw [drudgerEvents_eq_nil hy hphase (by simp)]
    constructor
    case pending_le =>
      intro q
      exact Nat.le_of_eq (congrArg (_ + ·) (Drudger.holding_set hy hphase _ w q))
    case reports_le =>
      intro b
      rw [← hreported b]
      exact Nat.le_add_right _ _
    case counted =>
      intro t ht
      refine ⟨if owner = w then t.report signed else t, ?_, ?_, fun b => ?_⟩
      · exact (tally?_report p owner w signed).trans (by rw [ht]; rfl)
      · split <;> simp
      · have hcount := hreported b
        simp only [reports, answersTo, List.countP_nil] at hcount ⊢
        by_cases how : owner = w
        · rw [if_pos how, JobTally.of_report]
          simp only [how, true_and] at hcount
          omega
        · rw [if_neg how]
          simp only [how, false_and, if_false] at hcount
          omega
    case closed => exact id
    case inline => exact hinline

/-- A drudger does not close the queue. -/
theorem closed (h : DrudgerSection c p d y p') : p'.queue.closed = p.queue.closed := by
  cases h <;> rfl

/-- Drudgers begin no steps. -/
theorem began_not_mem_events {t : Task} {z : Zone} : .began w t z ∉ p.drudgerEvents c d := by
  intro h
  unfold drudgerEvents at h
  split at h <;> simp at h

/-- Where a drudger goes on, there are drudgers. -/
theorem drudgers_ne_nil (hy : p.drudgers[d]? = some y) : p.drudgers ≠ [] := by
  rintro hnil
  rw [hnil] at hy
  cases hy

/-- No worker is told to go by a drudger. -/
theorem exit_eq (h : DrudgerSection c p d y p') {x : Worker} (hx : p'.workers[w]? = some x) :
    ∃ x', p.workers[w]? = some x' ∧ x.exit = x'.exit := by
  cases h with
  | report =>
    simp only [Pool.report, List.getElem?_modify, Option.map_eq_map, Option.map_eq_some_iff] at hx
    obtain ⟨x', hx', rfl⟩ := hx
    exact ⟨x', hx', by split <;> rfl⟩
  | _ => exact ⟨x, hx, rfl⟩

end DrudgerSection

namespace WorkerSection

variable {x : Worker}

/-- A worker only ever hands jobs over, if there are drudgers. -/
theorem queue (h : WorkerSection c p w x p') : p'.queue = p.queue ∨
    p.drudgers ≠ [] ∧
      ∃ job, p'.queue = { p.queue with items := p.queue.items ++ [(⟨job, w⟩ : Handoff)] } := by
  cases h with
  | handOver _ _ hdrudgers => exact .inr ⟨by simpa [signsInline] using hdrudgers, _, rfl⟩
  | @settle t z o =>
    obtain ⟨_, _, _, he⟩ := p.settle_eq w t o z
    exact .inl (by rw [he]; rfl)
  | @tell drained =>
    obtain ⟨_, he⟩ := p.tell_eq w drained
    exact .inl (by rw [he]; rfl)
  | _ => exact .inl (by simp [Pool.collect])

/-- The queue of a pool without drudgers stays empty. -/
theorem queue_inline (hx : p.workers[w]? = some x) (h : WorkerSection c p w x p')
    (hinline : p.drudgers = [] → p.queue.items = []) (hnil : p'.drudgers = []) :
    p'.queue.items = [] := by
  rw [h.drudgers hx] at hnil
  rcases h.queue with he | ⟨hdrudgers, -⟩
  · rw [he]
    exact hinline hnil
  · exact absurd hnil hdrudgers

/-- A worker does not close the queue. -/
theorem closed (h : WorkerSection c p w x p') : p'.queue.closed = p.queue.closed := by
  rcases h.queue with he | ⟨-, job, he⟩ <;> rw [he]

/-- A worker has nothing to do with the jobs of the others. -/
theorem flows_other (hx : p.workers[w]? = some x) (h : WorkerSection c p w x p') (hv : v ≠ w) :
    p.Flows p' v [] := by
  refine .of_eq (fun q => ?_) (fun b => ?_) ?_ (fun hclosed => h.closed.trans hclosed) ?_
  · rcases h.queue with he | ⟨-, job, he⟩
    · exact Nat.le_of_eq (pending_congr (congrArg _ he) (h.drudgers hx))
    · simp [pending, he, h.drudgers hx, hv.symm]
  · rw [reports, h.drudgers hx]
    rfl
  · rw [tally?, h.worker_other hx hv]
    rfl
  · rw [h.drudgers hx]

/-- A worker only begins steps of its own. -/
theorem began_of_mem_events {t : Task} {z : Zone} (h : .began v t z ∈ p.workerEvents c w) :
    v = w := by
  unfold workerEvents at h
  split at h
  · simp only [Option.mem_toList, Option.map_eq_some_iff] at h
    obtain ⟨_, -, heq⟩ := h
    exact (Event.began.inj heq).1.symm
  · split at h <;> simp at h
  · cases h

/-- In its own section a worker gets answers for nobody else. -/
theorem answersTo_other (c : Collaborators σ) (p : Pool σ) (hv : v ≠ w) :
    answersTo v (p.workerEvents c w) = [] := by
  unfold workerEvents
  split
  · next t _ => cases p.zone? t <;> rfl
  · split
    · simp [answersTo, hv.symm]
    · rfl
  · rfl

end WorkerSection

end Pool

end ZoneSigning
