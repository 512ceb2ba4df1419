import ZoneSigning.Proofs.Histories
import ZoneSigning.Proofs.SectionCounts

/-!
What the pool has counted agrees with what has happened since the engine was made. The signer's
answers, the signatures that the records show and those still on the accounts of workers balance at
every moment, and so do the tasks handed out, held, counted and dropped.
-/
namespace ZoneSigning

namespace Pool

variable {σ : Type} {c : Collaborators σ} {p p' : Pool σ} {w d : Nat} {log : List Event}

/-- What the pool has counted agrees with what has been answered, and the records show it but for
what is still on the accounts of workers. -/
structure Booked (p : Pool σ) (log : List Event) : Prop where
  opened : p.queue.closed = false
  /-- There are no jobs of workers that do not exist. -/
  strangers : ∀ {v}, p.phase? v = none → p.Clear v
  counted : ∀ b, p.counters.signed b = answersGiven b log
  recorded : p.recordedSignatures + ∑ v ∈ Finset.range p.workers.length, p.uncollected log v =
    answersGiven true log

namespace Booked

/-- In a pool that has just been made the books agree. -/
theorem ofLimits (around : σ) (now workers drudgers maxBackoff capacity threshold : Nat) :
    (ofLimits around now workers drudgers maxBackoff capacity threshold).Booked [] where
  opened := rfl
  strangers _ := .ofLimits ..
  counted b := by cases b <;> rfl
  recorded := by
    rw [recordedSignatures_ofLimits]
    refine (Nat.zero_add _).trans (Finset.sum_eq_zero fun v _ => ?_)
    unfold uncollected
    split <;> rfl

/-- A section of a worker keeps the books. -/
theorem worker (h : p.Booked log) (hc : c.KeepsSignatures) (haccounted : p.Accounted log)
    (hrec : p.Recorded) (hstep : p.stepWorker c w = some p') :
    p'.Booked (p.workerEvents c w ++ log) := by
  obtain ⟨x, hx, hsection⟩ := workerSection_of_step hstep
  have hlength := hsection.length_workers hx
  have hw : w < p.workers.length := (List.getElem?_eq_some_iff.mp hx).1
  constructor
  case opened => exact hsection.closed.trans h.opened
  case strangers =>
    intro v hv
    have hne : v ≠ w := by
      rintro rfl
      simp [phase?] at hv
      omega
    rw [hsection.phase?_other hx hne] at hv
    exact (hsection.flows_other hx hne).clear (h.strangers hv)
  case counted =>
    intro b
    rw [hsection.signed_eq hx, h.counted, answersGiven_append, Nat.add_comm]
  case recorded =>
    have hrest (v : Nat) (_ : v < p.workers.length) (hv : v ≠ w) :
        p'.uncollected (p.workerEvents c w ++ log) v = p.uncollected log v := by
      have hnone := WorkerSection.answersTo_other c p hv
      have hflows : p.Flows p' v (answersTo v (p.workerEvents c w)) :=
        hnone ▸ hsection.flows_other hx hv
      rw [uncollected_of_flows haccounted h.opened h.strangers (hsection.phase?_other hx hv) hflows
        fun t z hmem => hv (WorkerSection.began_of_mem_events hmem), hnone]
      rfl
    have hsum := sum_range_of_eq_but hw hrest
    have hself := hsection.recorded_eq hc haccounted hrec h.opened hx
    have hbefore := h.recorded
    rw [hlength, answersGiven_append]
    omega

/-- A section of a drudger keeps the books. -/
theorem drudger (h : p.Booked log) (haccounted : p.Accounted log)
    (hstep : p.stepDrudger c d = some p') : p'.Booked (p.drudgerEvents c d ++ log) := by
  obtain ⟨y, hy, hsection⟩ := drudgerSection_of_step hstep
  obtain ⟨-, hzones, hretired, -, hphase⟩ := hsection.frame
  constructor
  case opened => exact hsection.closed.trans h.opened
  case strangers =>
    intro v hv
    rw [hphase] at hv
    exact (hsection.flows hy v).clear (h.strangers hv)
  case counted =>
    intro b
    rw [(hsection.counters_eq hy).2, h.counted, answersGiven_append, Nat.add_comm]
  case recorded =>
    have hlt (w : Nat) (job : SignJob) (signed : Bool)
        (hmem : .answered w job signed ∈ p.drudgerEvents c d) : w < p.workers.length := by
      refine Nat.lt_of_not_le fun hle => ?_
      have hclear : p.Clear w := h.strangers (by simp [phase?, hle])
      have hpending := (hsection.flows hy w).pending_le fun _ => true
      rw [hclear.1, List.countP_true] at hpending
      have hpos := List.length_pos_of_mem (mem_answersTo hmem)
      omega
    have heach (v : Nat) : p'.uncollected (p.drudgerEvents c d ++ log) v = p.uncollected log v +
        (answersTo v (p.drudgerEvents c d)).countP (·.2 == true) :=
      uncollected_of_flows haccounted h.opened h.strangers (hphase v) (hsection.flows hy v)
        fun t z => DrudgerSection.began_not_mem_events
    rw [recordedSignatures_congr hzones hretired, hsection.length_workers,
      Finset.sum_congr rfl fun v _ => heach v, Finset.sum_add_distrib, sum_answersTo true hlt,
      answersGiven_append, ← Nat.add_assoc, h.recorded, Nat.add_comm]

/-- When the threads start, the books stay as they are. -/
theorem start (h : p.Booked log) (haccounted : p.Accounted log) (hstart : p.start = .ok p') :
    p'.Booked log := by
  obtain ⟨hoff, hp⟩ := start_eq_ok hstart
  constructor
  case opened =>
    rw [hp]
    exact h.opened
  case strangers =>
    intro v hv
    rw [phase?_start hstart, Option.map_eq_none_iff] at hv
    exact (h.strangers hv).start hstart
  case counted =>
    rw [hp]
    exact h.counted
  case recorded =>
    -- Nobody has jobs signed before the start, and nobody has afterwards.
    have heach (v : Nat) : p'.uncollected log v = p.uncollected log v := by
      rw [uncollected, uncollected, phase?_start hstart]
      cases hv : p.phase? v with
      | none => rfl
      | some phase =>
        rw [haccounted.resting hoff hv]
        rfl
    have hlength : p'.workers.length = p.workers.length := by
      rw [hp]
      exact List.length_map ..
    have hrecorded : p'.recordedSignatures = p.recordedSignatures := by
      rw [hp]
      exact recordedSignatures_congr rfl rfl
    rw [hrecorded, hlength, Finset.sum_congr rfl fun v _ => heach v]
    exact h.recorded

/-- Nobody moves, and nothing is counted. -/
theorem others (h : p.Booked log) (hsame : p.SameThreads p') (hcounters : p'.counters = p.counters)
    (hrecorded : p'.recordedSignatures = p.recordedSignatures) : p'.Booked log := by
  have hphase (v : Nat) : p'.phase? v = p.phase? v := by rw [phase?, hsame.workers, phase?]
  constructor
  case opened =>
    rw [hsame.queue]
    exact h.opened
  case strangers =>
    intro v hv
    rw [hphase] at hv
    exact (h.strangers hv).congr (congrArg _ hsame.queue) hsame.drudgers
  case counted =>
    rw [hcounters]
    exact h.counted
  case recorded =>
    have heach (v : Nat) : p'.uncollected log v = p.uncollected log v := by
      rw [uncollected, hphase, uncollected]
    rw [hrecorded, hsame.workers, Finset.sum_congr rfl fun v _ => heach v]
    exact h.recorded

end Booked

end Pool

namespace Moment

variable {σ : Type} {c : Collaborators σ} {m m' : Moment σ} {move : Move σ}
  {past : List (Moment σ × Move σ)}

def logOf (c : Collaborators σ) (past : List (Moment σ × Move σ)) : List Event :=
  past.flatMap fun (m, move) => m.events c move

def handsOut : Moment σ × Move σ → Bool
  | (m, .worker w) => m.pool.handsOut w
  | _ => false

def dropsTask : Moment σ × Move σ → Bool
  | (m, .worker w) => m.pool.dropsTask w
  | _ => false

variable [HasFiles σ]

private theorem Past.logged (h : Past c m past) : Logged c m (logOf c past) := by
  induction h with
  | initial h => exact .initial h
  | step _ _ hstep ih => exact ih.step hstep

/-- Only the sections of workers and drudgers count anything. -/
theorem counters_other (hmove : move.isClosing = false) (hworker : ∀ w, move ≠ .worker w)
    (hdrudger : ∀ d, move ≠ .drudger d) (hstep : m.step c move = some m') :
    m'.pool.counters = m.pool.counters := by
  cases moved_of_step hstep with
  | worker => exact absurd rfl (hworker _)
  | drudger => exact absurd rfl (hdrudger _)
  | closing => cases hmove
  | proceed hproceed =>
    obtain ⟨⟨_, _, _, _, hpool⟩, -⟩ := pool_proceed hproceed
    rw [hpool]
  | pass => rw [pool_beginPass]
  | heed =>
    rw [pool_heed]
    rfl
  | request => rw [pool_receive]
  | start hp => rw [pool_withPool, (Pool.start_eq_ok hp).2]
  | flushAll | reload | tick | happen => rfl

/-- Whoever is no worker changes no record's signatures. -/
theorem recordedSignatures_other (hrec : m.Recorded) (hunsigned : m.FreshUnsigned)
    (hmove : move.isClosing = false) (hworker : ∀ w, move ≠ .worker w)
    (hstep : m.step c move = some m') :
    m'.pool.recordedSignatures = m.pool.recordedSignatures := by
  refine (step_follows hrec hstep).1.recordedSignatures_eq hrec.pool (fun {y y'} hchanges => ?_)
    (unsigned_of_new hunsigned hrec hmove hstep)
  rcases changes_cases hchanges with ⟨w, hw, -⟩ | hkeeps
  · exact absurd hw (hworker w)
  · rw [hkeeps.2.1]

private theorem sameThreads_other (hmove : move.isClosing = false) (hworker : ∀ w, move ≠ .worker w)
    (hdrudger : ∀ d, move ≠ .drudger d) (hstart : move ≠ .start)
    (hstep : m.step c move = some m') : m.events c move = [] ∧ m.pool.SameThreads m'.pool := by
  rcases threads_cases hstep with ⟨w, p', rfl, -⟩ | ⟨d, p', rfl, -⟩ | ⟨p', rfl, -⟩ |
    ⟨what, rfl, -⟩ | hsame
  · exact absurd rfl (hworker w)
  · exact absurd rfl (hdrudger d)
  · exact absurd rfl hstart
  · cases hmove
  · exact hsame

/-- Before the end begins, the books remain right. -/
theorem booked_step {log : List Event} (h : m.pool.Booked log) (hc : c.KeepsSignatures)
    (haccounted : m.pool.Accounted log) (hrec : m.Recorded) (hunsigned : m.FreshUnsigned)
    (hmove : move.isClosing = false) (hstep : m.step c move = some m') :
    m'.pool.Booked (m.events c move ++ log) := by
  have hother (hworker : ∀ w, move ≠ .worker w) (hdrudger : ∀ d, move ≠ .drudger d)
      (hstart : move ≠ .start) : m'.pool.Booked (m.events c move ++ log) := by
    obtain ⟨hnone, hsame⟩ := sameThreads_other hmove hworker hdrudger hstart hstep
    rw [hnone]
    exact h.others hsame (counters_other hmove hworker hdrudger hstep)
      (recordedSignatures_other hrec hunsigned hmove hworker hstep)
  cases move with
  | worker w =>
    obtain ⟨p', hp, rfl⟩ := Option.map_eq_some_iff.mp hstep
    exact h.worker hc haccounted hrec.pool hp
  | drudger d =>
    obtain ⟨p', hp, rfl⟩ := Option.map_eq_some_iff.mp hstep
    exact h.drudger haccounted hp
  | start =>
    obtain ⟨p', hp, rfl⟩ := start_eq_some hstep
    exact h.start haccounted hp
  | _ => exact hother (fun _ h => by cases h) (fun _ h => by cases h) (fun h => by cases h)

/-- Of the tasks that have been handed out, some are held, and some have been dropped; the steps of
all others have been counted. -/
def Balanced (m : Moment σ) (past : List (Moment σ × Move σ)) : Prop :=
  m.pool.counters.ended + past.countP dropsTask +
    ∑ w ∈ Finset.range m.pool.workers.length, m.pool.busy w = past.countP handsOut

omit [HasFiles σ] in
private theorem Balanced.keep (h : m.Balanced past)
    (hended : m'.pool.counters.ended = m.pool.counters.ended)
    (hlength : m'.pool.workers.length = m.pool.workers.length)
    (hheld : ∀ w, m'.pool.held? w = m.pool.held? w) (hdrops : dropsTask (m, move) = false)
    (htakes : handsOut (m, move) = false) : m'.Balanced ((m, move) :: past) := by
  have hbusy (w : Nat) : m'.pool.busy w = m.pool.busy w := by rw [Pool.busy, hheld, Pool.busy]
  unfold Balanced
  rw [List.countP_cons, List.countP_cons, hdrops, htakes, hended, hlength,
    Finset.sum_congr rfl fun w _ => hbusy w]
  exact h

omit [HasFiles σ] in
private theorem Balanced.worker {w : Nat} {p' : Pool σ} (h : m.Balanced past)
    (hstep : m.pool.stepWorker c w = some p') :
    (m.withPool p').Balanced ((m, .worker w) :: past) := by
  obtain ⟨x, hx, hsection⟩ := Pool.workerSection_of_step hstep
  have hw : w < m.pool.workers.length := (List.getElem?_eq_some_iff.mp hx).1
  have hrest (v : Nat) (_ : v < m.pool.workers.length) (hv : v ≠ w) :
      p'.busy v = m.pool.busy v := by
    rw [Pool.busy, Pool.held?, hsection.phase?_other hx hv]
    rfl
  have hsum := sum_range_of_eq_but hw hrest
  have hself := hsection.ended_eq hx
  have hone (b : Bool) : (if b = true then 1 else 0) = b.toNat := by cases b <;> rfl
  have hdrops : dropsTask (m, .worker w) = m.pool.dropsTask w := rfl
  have htakes : handsOut (m, .worker w) = m.pool.handsOut w := rfl
  unfold Balanced at h ⊢
  rw [List.countP_cons, List.countP_cons, hdrops, htakes, hone, hone, pool_withPool,
    hsection.length_workers hx]
  omega

omit [HasFiles σ] in
private theorem Balanced.drudger {d : Nat} {p' : Pool σ} (h : m.Balanced past)
    (hstep : m.pool.stepDrudger c d = some p') :
    (m.withPool p').Balanced ((m, .drudger d) :: past) := by
  obtain ⟨y, hy, hsection⟩ := Pool.drudgerSection_of_step hstep
  refine h.keep (hsection.counters_eq hy).1 hsection.length_workers (fun w => ?_) rfl rfl
  rw [Pool.held?, pool_withPool, hsection.frame.2.2.2.2]
  rfl

omit [HasFiles σ] in
private theorem Balanced.start {log : List Event} {p' : Pool σ} (h : m.Balanced past)
    (haccounted : m.pool.Accounted log) (hstart : m.pool.start = .ok p') :
    (m.withPool p').Balanced ((m, .start) :: past) := by
  obtain ⟨hoff, he⟩ := Pool.start_eq_ok hstart
  have hlength : p'.workers.length = m.pool.workers.length := by
    rw [he]
    exact List.length_map ..
  refine h.keep (by rw [pool_withPool, he]) hlength (fun w => ?_) rfl rfl
  rw [pool_withPool, Pool.held?_start hstart, Pool.held?]
  cases hphase : m.pool.phase? w with
  | none => rfl
  | some phase =>
    rw [haccounted.resting hoff hphase]
    rfl

private theorem balanced_step {log : List Event} (h : m.Balanced past)
    (haccounted : m.pool.Accounted log) (hmove : move.isClosing = false)
    (hstep : m.step c move = some m') : m'.Balanced ((m, move) :: past) := by
  have hother (hworker : ∀ w, move ≠ .worker w) (hdrudger : ∀ d, move ≠ .drudger d)
      (hstart : move ≠ .start) (hdrops : dropsTask (m, move) = false)
      (htakes : handsOut (m, move) = false) : m'.Balanced ((m, move) :: past) := by
    obtain ⟨-, hsame⟩ := sameThreads_other hmove hworker hdrudger hstart hstep
    have hcounters := counters_other hmove hworker hdrudger hstep
    exact h.keep (by rw [hcounters]) (by rw [hsame.workers]) (Pool.held?_congr hsame.workers) hdrops
      htakes
  cases move with
  | worker w =>
    obtain ⟨p', hp, rfl⟩ := Option.map_eq_some_iff.mp hstep
    exact h.worker hp
  | drudger d =>
    obtain ⟨p', hp, rfl⟩ := Option.map_eq_some_iff.mp hstep
    exact h.drudger hp
  | start =>
    obtain ⟨p', hp, rfl⟩ := start_eq_some hstep
    exact h.start haccounted hp
  | _ =>
    exact hother (fun _ h => by cases h) (fun _ h => by cases h) (fun h => by cases h) rfl rfl

private theorem books_of_past (hc : c.KeepsSignatures) (h : Past c m past) :
    m.pool.Booked (logOf c past) ∧ m.FreshUnsigned ∧ m.Balanced past := by
  induction h with
  | @initial m h =>
    obtain ⟨_, _, _, _, _, _, _, hpool⟩ := h.pool_eq
    refine ⟨hpool ▸ .ofLimits .., fun {fresh} hfresh => ?_, ?_⟩
    · rw [h.2] at hfresh
      cases hfresh
    · unfold Balanced
      rw [hpool]
      refine (Nat.zero_add _).trans (Finset.sum_eq_zero fun w _ => ?_)
      rw [Pool.busy, Pool.held?_ofLimits]
      rfl
  | step h hmove hstep ih =>
    obtain ⟨hbooked, hunsigned, hbalanced⟩ := ih
    have hrec := recorded_of_reachable h.reachable
    have haccounted := h.logged.accounted
    exact ⟨booked_step hbooked hc haccounted hrec hunsigned hmove hstep,
      freshUnsigned_step hunsigned hmove hstep, balanced_step hbalanced haccounted hmove hstep⟩

/-- What the pool counts agrees with what has happened since the engine was made, whatever the
collaborators answer, as long as the end has not begun. The signatures, made and failed, are the
answers that the signer has given. And when no worker is inside a step, the records show, all
together, as many signatures as have been made, and every task that the schedule has handed out has
been counted as performed or as failed, unless the step was dropped because its zone was removed. -/
theorem statistics_agree (hc : c.KeepsSignatures) (h : Past c m past) :
    (m.pool.counters.signatures = answersGiven true (logOf c past) ∧
      m.pool.counters.signaturesFailed = answersGiven false (logOf c past)) ∧
    ((∀ w, m.pool.held? w = none) →
      m.pool.recordedSignatures = m.pool.counters.signatures ∧
      m.pool.counters.performed + m.pool.counters.failed + past.countP dropsTask =
        past.countP handsOut) := by
  obtain ⟨hbooked, -, hbalanced⟩ := books_of_past hc h
  refine ⟨⟨hbooked.counted true, hbooked.counted false⟩, fun hidle => ⟨?_, ?_⟩⟩
  · have hrecorded := hbooked.recorded
    rw [Finset.sum_eq_zero fun w _ => Pool.uncollected_of_held? (hidle w),
      ← hbooked.counted true] at hrecorded
    exact hrecorded
  · unfold Balanced at hbalanced
    rw [Finset.sum_eq_zero fun w _ => by rw [Pool.busy, hidle]; rfl] at hbalanced
    exact hbalanced

/-- The engine for one zone has signed and published the zone. Later the worker has the zone signed
again while the inventory becomes empty, and drops the task in the end. -/
def signedAndRemoved : List (Move FileWorld) :=
  untilPublication ++ List.replicate 3 (.worker 0) ++ [.tick 100, .worker 0, .worker 0] ++
    [.happen { files := oneZoneGone }, .pass] ++ List.replicate 11 .proceed ++
    List.replicate 2 (.worker 0) ++ List.replicate 3 (.drudger 0) ++ List.replicate 3 (.worker 0)

/-- In the engine for one zone, two signatures have been made by then, in two of four steps; the last
step is counted nowhere. -/
theorem statistics_agree_oneZone : ∃ (m : Moment FileWorld) (past : List (Moment FileWorld ×
    Move FileWorld)), Past fileCollaborators m past ∧ (∀ w, m.pool.held? w = none) ∧
      answersGiven true (logOf fileCollaborators past) = 2 ∧ m.pool.counters.signatures = 2 ∧
      m.pool.recordedSignatures = 2 ∧ past.countP handsOut = 4 ∧ past.countP dropsTask = 1 ∧
      m.pool.counters.performed = 3 ∧ m.pool.counters.failed = 0 := by
  have hrun : (oneZone.follow fileCollaborators signedAndRemoved).any fun m =>
      m.pool.workers.all (·.phase.task?.isNone) ∧ m.pool.counters = ⟨3, 0, 2, 0⟩ ∧
        (trace fileCollaborators oneZone signedAndRemoved []).countP dropsTask = 1 := by
    decide +kernel
  obtain ⟨m, hm, hrun⟩ := (Option.any_eq_true _ _).mp hrun
  obtain ⟨hworkers, hcounters, hdropped⟩ := of_decide_eq_true hrun
  have hpast : Past fileCollaborators m (trace fileCollaborators oneZone signedAndRemoved []) :=
    (Past.initial oneZone_initial).follow (by decide) hm
  have hidle (w : Nat) : m.pool.held? w = none := by
    rw [Pool.held?, Pool.phase?]
    cases hx : m.pool.workers[w]? with
    | none => rfl
    | some x => simpa using List.all_eq_true.mp hworkers x (List.mem_of_getElem? hx)
  obtain ⟨⟨hsigned, -⟩, hagree⟩ := statistics_agree fileCollaborators_onFiles.keepsSignatures hpast
  obtain ⟨hrecorded, hended⟩ := hagree hidle
  rw [hcounters] at hsigned hrecorded hended
  rw [hdropped] at hended
  exact ⟨m, _, hpast, hidle, hsigned.symm, by rw [hcounters], hrecorded, hended.symm, hdropped,
    by rw [hcounters], by rw [hcounters]⟩

end Moment

end ZoneSigning
