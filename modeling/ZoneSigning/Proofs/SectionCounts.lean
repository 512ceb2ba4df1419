import Mathlib.Algebra.BigOperators.Group.Finset.Piecewise
import ZoneSigning.Proofs.FailedSteps
import ZoneSigning.Proofs.RecordedSignatures
import ZoneSigning.Proofs.SignedPublication
import ZoneSigning.Proofs.SigningCalls

/-!
What one section of a thread counts. An answer of the signer is counted by whoever has asked; the
record of the zone gets the signatures only when all jobs of the batch have come back, so that in
between they are on the worker's account. A task that the schedule has handed out is counted when its
step ends, unless it is dropped.
-/
namespace ZoneSigning

def PoolCounters.signed (n : PoolCounters) (b : Bool) : Nat :=
  if b then n.signatures else n.signaturesFailed

def PoolCounters.ended (n : PoolCounters) : Nat := n.performed + n.failed

private theorem PoolCounters.signed_signature (n : PoolCounters) (made b : Bool) :
    (n.signature made).signed b = n.signed b + if made = b then 1 else 0 := by
  cases made <;> cases b <;> rfl

private theorem PoolCounters.ended_signature (n : PoolCounters) (made : Bool) :
    (n.signature made).ended = n.ended := by
  cases made <;> rfl

private theorem PoolCounters.signed_step (n : PoolCounters) (performed b : Bool) :
    (n.step performed).signed b = n.signed b := by
  cases performed <;> rfl

private theorem PoolCounters.ended_step (n : PoolCounters) (performed : Bool) :
    (n.step performed).ended = n.ended + 1 := by
  cases performed
  · rfl
  · exact Nat.add_right_comm ..

def Event.isAnswer (b : Bool) : Event → Bool
  | began .. => false
  | answered _ _ signed => signed == b

def answersGiven (b : Bool) (log : List Event) : Nat := log.countP (·.isAnswer b)

/-- Answers of the signer are counted one after the other. -/
theorem answersGiven_append (b : Bool) (new log : List Event) :
    answersGiven b (new ++ log) = answersGiven b new + answersGiven b log :=
  List.countP_append

/-- An answer that has been given to a worker's job is among the answers to its jobs. -/
theorem mem_answersTo {w : Nat} {job : SignJob} {b : Bool} {log : List Event}
    (h : .answered w job b ∈ log) : (job, b) ∈ answersTo w log := by
  induction log with
  | nil => cases h
  | cons event log ih =>
    rcases List.mem_cons.mp h with rfl | hlog
    · simp [answersTo]
    · cases event with
      | began v t z => exact ih hlog
      | answered v other signed =>
        rw [answersTo]
        split
        · exact List.mem_cons_of_mem _ (ih hlog)
        · exact ih hlog

/-- The answers that the signer has given are those to the jobs of all workers. -/
theorem sum_answersTo {n : Nat} {log : List Event} (b : Bool)
    (hlt : ∀ w job signed, .answered w job signed ∈ log → w < n) :
    ∑ w ∈ Finset.range n, (answersTo w log).countP (·.2 == b) = answersGiven b log := by
  induction log with
  | nil => exact Finset.sum_eq_zero fun _ _ => rfl
  | cons event log ih =>
    have ih := ih fun w job signed hmem => hlt w job signed (List.mem_cons_of_mem _ hmem)
    cases event with
    | began v t z => exact ih
    | answered v job signed =>
      have hv : v ∈ Finset.range n := Finset.mem_range.mpr (hlt v job signed List.mem_cons_self)
      have hcount (w : Nat) : (answersTo w (.answered v job signed :: log)).countP (·.2 == b) =
          (answersTo w log).countP (·.2 == b) +
            if v = w then (if signed == b then 1 else 0) else 0 := by
        rw [answersTo]
        split
        · exact List.countP_cons ..
        · rfl
      rw [Finset.sum_congr rfl fun w _ => hcount w, Finset.sum_add_distrib, ih, Finset.sum_ite_eq,
        if_pos hv, answersGiven, answersGiven, List.countP_cons]
      rfl

private theorem ZoneState.signatures_published {s s' : ZoneState} {o : Outcome} {serial : Option Nat}
    {resignSecs : Nat} {answer : Except StepError Unit}
    (h : s.published serial resignSecs answer = (o, s')) : s'.db.signatures = s.db.signatures := by
  unfold ZoneState.published at h
  split at h <;> cases h <;> rfl

namespace Pool

variable {σ : Type} {c : Collaborators σ} {p p' : Pool σ} {v w d : Nat} {x : Worker}
  {log : List Event}

/-- The signatures made for a worker that the record of its zone does not show yet. -/
def uncollected (p : Pool σ) (log : List Event) (w : Nat) : Nat :=
  if (p.phase? w).any (·.call?.isSome) then signaturesMade w log else 0

def busy (p : Pool σ) (w : Nat) : Nat := (p.held? w).isSome.toNat

private theorem uncollected_of_phase? {phase : WorkerPhase} (h : p.phase? w = some phase) :
    p.uncollected log w = if phase.call?.isSome then signaturesMade w log else 0 := by
  simp [uncollected, h]

/-- A worker that holds no task has no signatures on its account. -/
theorem uncollected_of_held? (h : p.held? w = none) : p.uncollected log w = 0 := by
  cases hphase : p.phase? w with
  | none => simp [uncollected, hphase]
  | some phase =>
    rw [held?_of_phase? hphase] at h
    rw [uncollected_of_phase? hphase]
    cases phase with
    | stepping t stage => cases h
    | _ => rfl

/-- As long as the queue is open, a worker that is not having jobs signed has none with others. -/
theorem Accounted.clear_of_call? {phase : WorkerPhase} (h : p.Accounted log)
    (hopen : p.queue.closed = false) (hphase : p.phase? w = some phase)
    (hcall : phase.call?.isSome = false) : p.Clear w := by
  have hrests : p.Rests w := by
    have haccounts := h.accounts hphase
    cases phase with
    | stepping t stage =>
      cases stage with
      | signing batch left => cases hcall
      | awaiting batch => cases hcall
      | consulting => exact haccounts.2
      | publishing batch =>
        obtain ⟨s, -, -, -, hrests⟩ := haccounts
        exact hrests
      | settling o => exact haccounts
    | idle | holding _ | reporting _ | off => exact haccounts
  refine hrests.resolve_right fun hclosed => ?_
  rw [hopen] at hclosed
  cases hclosed

/-- A worker that is having jobs signed has begun a step. -/
theorem Accounted.presentStep_of_call? {phase : WorkerPhase} (h : p.Accounted log)
    (hphase : p.phase? w = some phase) (hcall : phase.call?.isSome) :
    ∃ s, presentStep? w log = some s := by
  have haccounts := h.accounts hphase
  cases phase with
  | stepping t stage =>
    cases stage with
    | signing | awaiting =>
      obtain ⟨s, hs, -⟩ := haccounts
      exact ⟨s, hs⟩
    | _ => cases hcall
  | _ => cases hcall

/-- When the jobs of a batch have come back, what the worker has counted is what has been made. -/
theorem Counts.completed_eq {batch : Batch} {answers : List (SignJob × Bool)} {left : List SignJob}
    (h : p.Counts w batch left answers) (hx : p.workers[w]? = some x) (hclear : p.Clear w) :
    x.tally.completed = answers.countP (·.2 == true) := by
  obtain ⟨tally, htally, -, hcount⟩ := h.tally
  obtain rfl : x.tally = tally := by simpa [tally?, hx] using htally
  rw [← hcount true, hclear.2]
  rfl

end Pool

private theorem signaturesMade_append {w : Nat} {new log : List Event} {s : Progress}
    (hnew : ∀ t z, .began w t z ∉ new) (hs : presentStep? w log = some s) :
    signaturesMade w (new ++ log) = signaturesMade w log + (answersTo w new).countP (·.2 == true) := by
  rw [signaturesMade, signaturesMade, presentStep?_append hnew, hs]
  simp only [Option.map_some, Option.elim_some, List.countP_append]
  exact Nat.add_comm ..

namespace Pool
variable {σ : Type} {c : Collaborators σ} {p p' : Pool σ} {v w d : Nat} {x : Worker}
  {log : List Event}

/-- A worker that does not go on keeps what it has, and gets what is signed for it meanwhile. -/
theorem uncollected_of_flows {new : List Event} (h : p.Accounted log)
    (hopen : p.queue.closed = false) (hstrange : p.phase? v = none → p.Clear v)
    (hphase : p'.phase? v = p.phase? v) (hf : p.Flows p' v (answersTo v new))
    (hnew : ∀ t z, .began v t z ∉ new) :
    p'.uncollected (new ++ log) v =
      p.uncollected log v + (answersTo v new).countP (·.2 == true) := by
  have hnone (hclear : p.Clear v) : (answersTo v new).countP (·.2 == true) = 0 := by
    have hle := hf.pending_le fun _ => true
    rw [hclear.1, List.countP_true] at hle
    have hnil : answersTo v new = [] := List.length_eq_zero_iff.mp (by omega)
    rw [hnil, List.countP_nil]
  cases hv : p.phase? v with
  | none =>
    rw [hnone (hstrange hv), uncollected, uncollected, hphase, hv]
    rfl
  | some phase =>
    rw [uncollected_of_phase? (hphase.trans hv), uncollected_of_phase? hv]
    cases hcall : phase.call?.isSome with
    | false =>
      rw [hnone (h.clear_of_call? hopen hv hcall)]
      rfl
    | true =>
      obtain ⟨s, hs⟩ := h.presentStep_of_call? hv hcall
      exact signaturesMade_append hnew hs

def handsOut (p : Pool σ) (w : Nat) : Bool :=
  p.workers[w]?.any fun x => x.phase = .idle ∧ x.exit = false ∧ (p.schedule.next p.now).1.isSome

def dropsTask (p : Pool σ) (w : Nat) : Bool :=
  match p.phase? w with
  | some (.stepping t (.settling _)) => (p.zone? t).any fun z => z.status = .removed
  | _ => false

namespace WorkerSection

private theorem answersGiven_workerEvents (hx : p.workers[w]? = some x) (b : Bool)
    (hphase : ∀ t batch job left, x.phase = .stepping t (.signing batch (job :: left)) →
      p.signsInline = false) : answersGiven b (p.workerEvents c w) = 0 := by
  rw [workerEvents, phase?_of_get hx]
  split
  · next t _ => cases p.zone? t <;> rfl
  · next heq =>
    rw [hphase _ _ _ _ (Option.some.inj heq)]
    rfl
  · rfl

/-- There are as many workers after a section of one of them as before. -/
theorem length_workers (hx : p.workers[w]? = some x) (h : WorkerSection c p w x p') :
    p'.workers.length = p.workers.length := by
  obtain ⟨⟨y, hy, -⟩, -⟩ := h.frame hx
  rw [hy, List.length_set]

/-- Every answer that a worker gets is counted. -/
theorem signed_eq (hx : p.workers[w]? = some x) (h : WorkerSection c p w x p') (b : Bool) :
    p'.counters.signed b = p.counters.signed b + answersGiven b (p.workerEvents c w) := by
  have hnone := answersGiven_workerEvents (c := c) hx b
  cases h with
  | @signInline t z batch job left answer around hphase hz hinline hsign =>
    rw [workerEvents_signInline hx hphase hinline hsign]
    exact (PoolCounters.signed_signature ..).trans (by cases answer.isOk <;> cases b <;> rfl)
  | handOver hphase hz hdrudgers | refuse hphase hz hdrudgers =>
    rw [hnone fun _ _ _ _ _ => hdrudgers]
    rfl
  | settle hphase =>
    rw [hnone fun _ _ _ _ hsigning => by rw [hphase] at hsigning; cases hsigning]
    unfold Pool.settle
    split
    · rfl
    · exact PoolCounters.signed_step ..
  | tell hphase =>
    rw [hnone fun _ _ _ _ hsigning => by rw [hphase] at hsigning; cases hsigning]
    obtain ⟨_, he⟩ := p.tell_eq w _
    rw [he]
    rfl
  | take hphase | leave hphase | prepare hphase | retreat hphase | appoint hphase | wait hphase
  | giveUp hphase =>
    rw [hnone fun _ _ _ _ hsigning => by rw [hphase] at hsigning; cases hsigning]
    rfl
  | load hphase | read hphase | write hphase | publish hphase | collect hphase | gather hphase =>
    rw [hnone fun _ _ _ _ hsigning => by rw [hphase] at hsigning; cases hsigning]
    simp [Pool.collect, goTo]

private theorem handsOut_eq (hx : p.workers[w]? = some x) : p.handsOut w =
    decide (x.phase = .idle ∧ x.exit = false ∧ (p.schedule.next p.now).1.isSome) := by
  rw [handsOut, hx, Option.any_some]

private theorem ended_of_quiet (hx : p.workers[w]? = some x) (h : WorkerSection c p w x p')
    {phase : WorkerPhase} (hphase : x.phase = phase) (hidle : phase ≠ .idle)
    (hsettling : ∀ t o, phase ≠ .stepping t (.settling o))
    (hended : p'.counters.ended = p.counters.ended) :
    p'.counters.ended + (p.dropsTask w).toNat + p'.busy w =
      p.counters.ended + (p.handsOut w).toNat + p.busy w := by
  subst hphase
  have hdrops : p.dropsTask w = false := by
    unfold dropsTask
    rw [phase?_of_get hx]
    split
    · next heq => exact absurd (Option.some.inj heq) (hsettling _ _)
    · rfl
  have htakes : p.handsOut w = false := by
    rw [handsOut_eq hx]
    exact decide_eq_false fun htakes => hidle htakes.1
  rcases h.ownership hx with ⟨t, s, hphase, -⟩ | ⟨t, z, o, hphase, -⟩ | ⟨-, hheld⟩
  · exact absurd hphase hidle
  · exact absurd hphase (hsettling t o)
  · rw [hdrops, htakes, hended, busy, busy, hheld]

/-- A task that has been handed out is held, counted or dropped. -/
theorem ended_eq (hx : p.workers[w]? = some x) (h : WorkerSection c p w x p') :
    p'.counters.ended + (p.dropsTask w).toNat + p'.busy w =
      p.counters.ended + (p.handsOut w).toNat + p.busy w := by
  have hquiet {phase : WorkerPhase} (hphase : x.phase = phase) := h.ended_of_quiet hx hphase
  have hbusy : p.busy w = x.phase.task?.isSome.toNat := by
    rw [busy, held?_of_phase? (phase?_of_get hx)]
  cases h with
  | @take t s hphase hexit hnext =>
    have htakes : p.handsOut w = true := by
      rw [handsOut_eq hx]
      exact decide_eq_true ⟨hphase, hexit, by rw [hnext]; rfl⟩
    have hdrops : p.dropsTask w = false := by simp [dropsTask, phase?_of_get hx, hphase]
    have hheld : (({ p with schedule := s }).setWorker w
        { x with phase := .holding t, idle := x.idle.reset }).held? w = some t :=
      held?_of_phase? (phase?_setWorker_self hx rfl _)
    rw [htakes, hdrops, hbusy, hphase, busy, hheld]
    rfl
  | leave hphase hexit =>
    have htakes : p.handsOut w = false := by
      rw [handsOut_eq hx]
      exact decide_eq_false fun htakes => by simp [hexit] at htakes
    have hdrops : p.dropsTask w = false := by simp [dropsTask, phase?_of_get hx, hphase]
    have hheld : (p.setWorker w { x with phase := .off }).held? w = none :=
      held?_of_phase? (phase?_setWorker_self hx rfl _)
    rw [htakes, hdrops, hbusy, hphase, busy, hheld]
    rfl
  | @settle t z o hphase hz =>
    have htakes : p.handsOut w = false := by
      rw [handsOut_eq hx]
      exact decide_eq_false fun htakes => by rw [hphase] at htakes; cases htakes.1
    have hdrops : p.dropsTask w = decide (z.status = .removed) := by
      simp [dropsTask, phase?_of_get hx, hphase, hz]
    rw [htakes, hdrops, hbusy, hphase, busy, held?_settle, if_pos rfl]
    unfold Pool.settle
    split
    · next hremoved =>
      rw [hremoved]
      rfl
    · next hlive =>
      rw [decide_eq_false hlive]
      exact congrArg (· + 0 + 0) (PoolCounters.ended_step ..)
  | tell hphase =>
    refine hquiet hphase (fun h => by cases h) (fun _ _ h => by cases h) ?_
    obtain ⟨_, he⟩ := p.tell_eq w _
    rw [he]
    rfl
  | @signInline _ _ _ _ _ answer _ hphase =>
    have hended : (p.counters.signature answer.isOk).ended = p.counters.ended :=
      PoolCounters.ended_signature ..
    exact hquiet hphase (fun h => by cases h) (fun _ _ h => by cases h) hended
  | appoint hphase | prepare hphase | retreat hphase | wait hphase | giveUp hphase | refuse hphase
  | handOver hphase =>
    exact hquiet hphase (fun h => by cases h) (fun _ _ h => by cases h) rfl
  | load hphase | read hphase | write hphase | publish hphase | collect hphase | gather hphase =>
    refine hquiet hphase (fun h => by cases h) (fun _ _ h => by cases h) ?_
    simp [Pool.collect, goTo]

private theorem recorded_of_uncalled (hx : p.workers[w]? = some x) {phase phase' : WorkerPhase}
    (hphase : x.phase = phase) (hcall : phase.call? = none) (hphase' : p'.phase? w = some phase')
    (hcall' : phase'.call? = none) (hsame : p'.recordedSignatures = p.recordedSignatures) :
    p'.recordedSignatures + p'.uncollected (p.workerEvents c w ++ log) w =
      p.recordedSignatures + p.uncollected log w + answersGiven true (p.workerEvents c w) := by
  have hnone : answersGiven true (p.workerEvents c w) = 0 := by
    refine answersGiven_workerEvents hx true fun t batch job left hsigning => ?_
    rw [← hphase, hsigning] at hcall
    cases hcall
  rw [hnone, hsame, uncollected_of_phase? hphase', uncollected_of_phase? (phase?_of_get hx), hphase,
    hcall, hcall']
  rfl

private theorem recorded_of_called (hx : p.workers[w]? = some x) {phase phase' : WorkerPhase}
    (hphase : x.phase = phase) (hcall : phase.call?.isSome) (hphase' : p'.phase? w = some phase')
    (hcall' : phase'.call?.isSome) (hsame : p'.recordedSignatures = p.recordedSignatures)
    (hmade : signaturesMade w (p.workerEvents c w ++ log) =
      signaturesMade w log + answersGiven true (p.workerEvents c w)) :
    p'.recordedSignatures + p'.uncollected (p.workerEvents c w ++ log) w =
      p.recordedSignatures + p.uncollected log w + answersGiven true (p.workerEvents c w) := by
  rw [hsame, uncollected_of_phase? hphase', uncollected_of_phase? (phase?_of_get hx), hphase,
    if_pos hcall, if_pos hcall', hmade, Nat.add_assoc]

private theorem completed_of_signed {t : Task} {batch : Batch} {tally : JobTally}
    (haccounted : p.Accounted log) (hopen : p.queue.closed = false) (hx : p.workers[w]? = some x)
    (hphase : x.phase = .stepping t (.signing batch []))
    (htally : batch.jobs = [] ∧ tally = {} ∨ p.signsInline ∧ tally = x.tally) :
    tally.completed = signaturesMade w log := by
  have haccounts := haccounted.accounts (phase?_of_get hx)
  rw [hphase] at haccounts
  obtain ⟨s, hs, -, hcounts⟩ := haccounts
  have hcounts := hcounts.resolve_right fun hstale => by
    rw [hopen] at hstale
    cases hstale.1
  rw [signaturesMade, hs, Option.elim_some]
  rcases htally with ⟨hjobs, rfl⟩ | ⟨hinline, rfl⟩
  · rw [(hcounts.of_nil hjobs).2]
    rfl
  · have hinline := List.isEmpty_iff.mp hinline
    exact hcounts.completed_eq hx (.of_inline (haccounted.inline hinline) hinline)

private theorem completed_of_returned {t : Task} {batch : Batch} (haccounted : p.Accounted log)
    (hx : p.workers[w]? = some x) (hphase : x.phase = .stepping t (.awaiting batch))
    (hdone : x.tally.isOutstanding = false) : x.tally.completed = signaturesMade w log := by
  have haccounts := haccounted.accounts (phase?_of_get hx)
  rw [hphase] at haccounts
  obtain ⟨s, hs, -, hcounts⟩ := haccounts
  have htally : p.tally? w = some x.tally := by simp [tally?, hx]
  rw [signaturesMade, hs, Option.elim_some]
  exact hcounts.completed_eq hx (hcounts.returned htally hdone).1

/-- A worker whose jobs have come back gives the record all that has been made for it. -/
theorem recorded_of_collect {t : Task} {z : Zone} {batch : Batch} {tally : JobTally}
    (hrec : p.Recorded) (hx : p.workers[w]? = some x) (hz : p.zone? t = some z)
    (hcall : x.phase.call?.isSome) (hevents : p.workerEvents c w = [])
    (hmade : tally.completed = signaturesMade w log) :
    (p.collect w t batch tally z).recordedSignatures +
        (p.collect w t batch tally z).uncollected (p.workerEvents c w ++ log) w =
      p.recordedSignatures + p.uncollected log w + answersGiven true (p.workerEvents c w) := by
  have hphase' : ∃ phase, (p.collect w t batch tally z).phase? w = some phase ∧
      phase.call? = none := by
    rcases p.collect_cases w t batch tally z with ⟨-, he⟩ | ⟨e, he⟩ <;> rw [he] <;>
      exact ⟨_, phase?_goTo_self hx (by simp) _, rfl⟩
  obtain ⟨phase, hphase', hcall'⟩ := hphase'
  have hsum : (p.collect w t batch tally z).recordedSignatures + z.state.db.signatures =
      p.recordedSignatures + (z.state.counted tally).db.signatures :=
    hrec.recordedSignatures_setState (has_of_zone? hz).1 rfl rfl
  have hcounted : (z.state.counted tally).db.signatures =
      z.state.db.signatures + tally.completed := rfl
  rw [hevents, uncollected_of_phase? hphase', uncollected_of_phase? (phase?_of_get hx), if_pos hcall,
    hcall']
  rw [hcounted, hmade] at hsum
  change _ + 0 = _ + 0
  omega

private theorem recorded_of_set {t : Task} {z : Zone} {s : ZoneState} {around : σ} {o : Outcome}
    {phase : WorkerPhase} (hrec : p.Recorded) (hx : p.workers[w]? = some x)
    (hphase : x.phase = phase) (hcall : phase.call? = none) (hz : p.zone? t = some z)
    (hs : s.db.signatures = z.state.db.signatures) (hafter : p' =
      (({ p with around := around }).setState z s).goTo w (.stepping t (.settling o))) :
    p'.recordedSignatures + p'.uncollected (p.workerEvents c w ++ log) w =
      p.recordedSignatures + p.uncollected log w + answersGiven true (p.workerEvents c w) := by
  subst hafter
  have hsum : ((({ p with around := around }).setState z s).goTo w
      (.stepping t (.settling o))).recordedSignatures + z.state.db.signatures =
        p.recordedSignatures + s.db.signatures :=
    hrec.recordedSignatures_setState (has_of_zone? hz).1 rfl rfl
  refine recorded_of_uncalled hx hphase hcall (phase?_goTo_self hx (by simp) _) rfl ?_
  omega

/-- What the signer has signed is on the worker's account, or in the record of its zone. -/
theorem recorded_eq (hc : c.KeepsSignatures) (haccounted : p.Accounted log) (hrec : p.Recorded)
    (hopen : p.queue.closed = false) (hx : p.workers[w]? = some x) (h : WorkerSection c p w x p') :
    p'.recordedSignatures + p'.uncollected (p.workerEvents c w ++ log) w =
      p.recordedSignatures + p.uncollected log w + answersGiven true (p.workerEvents c w) := by
  have hw := phase?_of_get hx
  cases h with
  | take hphase | leave hphase =>
    exact recorded_of_uncalled hx hphase rfl (phase?_setWorker_self hx rfl _) rfl rfl
  | prepare hphase | retreat hphase =>
    exact recorded_of_uncalled hx hphase rfl (phase?_goTo_self hx rfl _) rfl rfl
  | load hphase hz _ _ ho =>
    refine recorded_of_set hrec hx hphase rfl hz ?_ rfl
    rw [ZoneState.db_configured ho]
  | read hphase hz _ hread =>
    refine recorded_of_set hrec hx hphase rfl hz ?_ rfl
    rw [← hc.read, hread]
  | write hphase hz _ hwrite ho | publish hphase hz hwrite ho =>
    refine recorded_of_set hrec hx hphase rfl hz ?_ rfl
    rw [ZoneState.signatures_published ho, ← hc.write, hwrite]
  | @settle t z o hphase =>
    obtain ⟨_, _, _, he⟩ := p.settle_eq w t o z
    rw [he]
    exact recorded_of_uncalled hx hphase rfl (phase?_goTo_self hx rfl _) rfl rfl
  | @tell drained hphase =>
    obtain ⟨_, he⟩ := p.tell_eq w drained
    rw [he]
    exact recorded_of_uncalled hx hphase rfl (phase?_goTo_self hx rfl _) rfl rfl
  | refuse _ _ _ hclosed =>
    rw [hopen] at hclosed
    cases hclosed
  | giveUp _ _ _ hend =>
    have hclosed := hend.elim (haccounted.exits hx) id
    rw [hopen] at hclosed
    cases hclosed
  | @appoint t z batch hphase hz =>
    rw [workerEvents_holding hx hphase hz, uncollected_of_phase? (phase?_setWorker_self hx rfl _),
      uncollected_of_phase? hw, hphase]
    simp [WorkerPhase.call?, signaturesMade, presentStep?, answersGiven, Event.isAnswer]
    rfl
  | handOver hphase _ hdrudgers =>
    refine recorded_of_called hx hphase rfl (phase?_goTo_self hx rfl _) rfl rfl ?_
    rw [workerEvents_eq_nil hx hphase (by simp) fun _ _ _ _ _ => hdrudgers]
    rfl
  | wait hphase =>
    refine recorded_of_called hx hphase rfl (phase?_goTo_self hx rfl _) rfl rfl ?_
    rw [workerEvents_eq_nil hx hphase (by simp) (by simp)]
    rfl
  | @signInline t z batch job left answer around hphase hz hinline hsign =>
    have hafter : (({ p with
        around := around
        counters := p.counters.signature answer.isOk }.report w answer.isOk).goTo w
          (.stepping t (.signing batch left))).phase? w = some (.stepping t (.signing batch left)) := by
      rw [phase?_goTo, if_pos rfl, phase?_report]
      exact congrArg (Option.map _) hw
    refine recorded_of_called hx hphase rfl hafter rfl rfl ?_
    obtain ⟨s, hs⟩ := haccounted.presentStep_of_call? hw (by rw [hphase]; rfl)
    rw [workerEvents_signInline hx hphase hinline hsign, signaturesMade_append (by simp) hs]
    simp [answersTo, answersGiven, Event.isAnswer]
  | collect hphase hz htally =>
    exact recorded_of_collect hrec hx hz (by rw [hphase]; rfl)
      (workerEvents_eq_nil hx hphase (by simp) (by simp))
      (completed_of_signed haccounted hopen hx hphase htally)
  | gather hphase hz hdone =>
    exact recorded_of_collect hrec hx hz (by rw [hphase]; rfl)
      (workerEvents_eq_nil hx hphase (by simp) (by simp))
      (completed_of_returned haccounted hx hphase hdone)

end WorkerSection

namespace DrudgerSection

variable {y : Drudger}

/-- A drudger counts the answer that it gets, and that is all that it counts. -/
theorem counters_eq (hy : p.drudgers[d]? = some y) (h : DrudgerSection c p d y p') :
    p'.counters.ended = p.counters.ended ∧ ∀ b,
      p'.counters.signed b = p.counters.signed b + answersGiven b (p.drudgerEvents c d) := by
  cases h with
  | @sign handoff answer around hphase hsign =>
    rw [drudgerEvents_holding hy hphase hsign]
    refine ⟨PoolCounters.ended_signature .., fun b => (PoolCounters.signed_signature ..).trans ?_⟩
    cases answer.isOk <;> cases b <;> rfl
  | pop hphase | leave hphase | report hphase =>
    rw [drudgerEvents_eq_nil hy hphase (by simp)]
    exact ⟨rfl, fun b => rfl⟩

/-- There are as many workers after a section of a drudger as before. -/
theorem length_workers (h : DrudgerSection c p d y p') :
    p'.workers.length = p.workers.length := by
  cases h with
  | report => exact List.length_modify ..
  | _ => rfl

end DrudgerSection

end Pool

end ZoneSigning
