import ZoneSigning.Proofs.Backoffs
import ZoneSigning.Proofs.KindsOfWork
import ZoneSigning.Proofs.StandingMoves

/-!
The numbers in a task. Its backoff is what failures in a row come to, and its times are times that
there are. All that is done to a task keeps them so, as long as this can be said of the times at
which it is done.
-/
namespace ZoneSigning

/-- The numbers in a task are in range. -/
structure Task.InRange (limit : Nat) (t : Task) : Prop where
  backoff : ∃ n, t.backoff = backoffAfter limit n
  due : t.due ≤ maxTime
  interruptDue : t.interruptDue ≤ maxTime
  haltedDue : t.haltedDue ≤ maxTime

def Pending.InRange (p : Pending) : Prop := p.interruptDue ≤ maxTime

private theorem addTime_le (a b : Nat) : addTime a b ≤ maxTime := Nat.min_le_right _ _

namespace Task.InRange

variable {limit now due : Nat} {t u : Task} {next what : TaskKind}

/-- A task that has just been made. -/
theorem fresh (z : ZoneKey) (record : Nat) (what : TaskKind) (flush : Bool) (hdue : due ≤ maxTime) :
    ({ zone := z, record, what, due, flush } : Task).InRange limit :=
  ⟨⟨0, rfl⟩, hdue, Nat.zero_le _, Nat.zero_le _⟩

/-- Whether a task is flushed does not matter. -/
theorem flush (h : t.InRange limit) (flush : Bool) : ({ t with flush } : Task).InRange limit :=
  ⟨h.backoff, h.due, h.interruptDue, h.haltedDue⟩

private theorem withBackoff (h : t.InRange limit) (n : Nat) :
    ({ t with backoff := backoffAfter limit n } : Task).InRange limit :=
  ⟨⟨n, rfl⟩, h.due, h.interruptDue, h.haltedDue⟩

private theorem takeInterrupt (ht : t.InRange limit) (hu : u.InRange limit) (hdue : due ≤ maxTime)
    (hnow : now ≤ maxTime) : ((t.takeInterrupt? next due now).getD u).InRange limit := by
  cases hi : t.interrupt with
  | none => rwa [getD_takeInterrupt_of_none hi]
  | some kind =>
    rw [getD_takeInterrupt_of_some hi]
    refine ⟨ht.backoff, Nat.max_le.mpr ⟨ht.interruptDue, hnow⟩, ht.interruptDue, ?_⟩
    dsimp only
    split
    · exact ht.haltedDue
    · exact hdue

/-- A task that succeeds stays in range. -/
theorem succeed (h : t.InRange limit) (next : TaskKind) (hdue : due ≤ maxTime)
    (hnow : now ≤ maxTime) : (t.succeed next due now).InRange limit := by
  have hdone := h.withBackoff 0
  refine takeInterrupt hdone ?_ hdue hnow
  exact ⟨hdone.backoff, hdue, hdone.interruptDue, hdone.haltedDue⟩

/-- A task that resumes stays in range. -/
theorem resume (h : t.InRange limit) (next : TaskKind) (hdue : due ≤ maxTime)
    (hnow : now ≤ maxTime) : (t.resume next due now).InRange limit := by
  have hdone := h.withBackoff 0
  refine takeInterrupt hdone ?_ hdue hnow
  split
  · exact ⟨hdone.backoff, h.haltedDue, hdone.interruptDue, hdone.haltedDue⟩
  · exact ⟨hdone.backoff, hdue, hdone.interruptDue, hdone.haltedDue⟩

/-- A task that fails stays in range, as its backoff is cut off. -/
theorem fail (h : t.InRange limit) (hlimit : limit ≤ maxTime) (hnow : now ≤ maxTime) :
    (t.fail now limit).InRange limit := by
  obtain ⟨n, hn⟩ := h.backoff
  have hnext : nextBackoff t.backoff limit = backoffAfter limit (n + 1) := by
    rw [hn, nextBackoff_backoffAfter hlimit]
  have hfailed := h.withBackoff (n + 1)
  have hretry : addTime now (backoffAfter limit (n + 1)) ≤ maxTime := addTime_le _ _
  unfold Task.fail
  rw [hnext]
  refine takeInterrupt hfailed ?_ hretry hnow
  exact ⟨hfailed.backoff, hretry, hfailed.interruptDue, hfailed.haltedDue⟩

/-- A task that is moved stays in range. -/
theorem retarget (h : t.InRange limit) (what : TaskKind) (hdue : due ≤ maxTime) :
    (t.retarget what due).InRange limit := by
  unfold Task.retarget
  split
  · exact ⟨h.backoff, hdue, h.interruptDue, h.due⟩
  · exact ⟨h.backoff, hdue, h.interruptDue, h.haltedDue⟩

/-- A task that is given requests in range stays in range. -/
theorem fold {p : Pending} (h : t.InRange limit) (hp : p.InRange) : (p.fold t).InRange limit := by
  unfold Pending.fold
  cases p.interrupt with
  | none => exact h.flush _
  | some kind => exact ⟨h.backoff, h.due, hp, h.haltedDue⟩

/-- Whatever a step comes to, its task stays in range. -/
theorem transition {o : Outcome} {f : Task → Task} (h : t.InRange limit) (hlimit : limit ≤ maxTime)
    (hnow : now ≤ maxTime) (hf : o.transition? now limit = some f) : (f t).InRange limit := by
  cases o with
  | advance next delay =>
    cases hf
    exact h.succeed next (addTime_le now delay) hnow
  | resume next =>
    cases hf
    exact h.resume next hnow hnow
  | retry e =>
    cases hf
    exact h.fail hlimit hnow
  | fatal e => cases hf

/-- A backoff in range is none, or lies between the first one and the longest one. -/
theorem backoff_bounds (h : t.InRange limit) (hfirst : firstBackoff ≤ limit) :
    t.backoff = 0 ∨ firstBackoff ≤ t.backoff ∧ t.backoff ≤ limit := by
  obtain ⟨n, hn⟩ := h.backoff
  rw [hn]
  cases n with
  | zero => exact .inl rfl
  | succ n => exact .inr ⟨firstBackoff_le_backoffAfter hfirst n, backoffAfter_le limit _⟩

/-- The backoff that a failure leads to is at least the first one, which it is if the last step has
not failed, and no longer than the limit. -/
theorem failing (h : t.InRange limit) (hfirst : firstBackoff ≤ limit) (hlimit : limit ≤ maxTime)
    (now : Nat) :
    firstBackoff ≤ (t.fail now limit).backoff ∧ (t.fail now limit).backoff ≤ limit ∧
      (t.backoff = 0 → (t.fail now limit).backoff = firstBackoff) := by
  obtain ⟨n, hn⟩ := h.backoff
  have hnext := (fail_backoffAfter hlimit hn now).backoff
  rw [hnext]
  refine ⟨firstBackoff_le_backoffAfter hfirst n, backoffAfter_le limit _, fun hzero => ?_⟩
  cases n with
  | zero => exact backoffAfter_one hfirst
  | succ n =>
    have hpos := firstBackoff_le_backoffAfter hfirst n
    rw [← hn, hzero] at hpos
    cases hpos

end Task.InRange

def Standing.InRange (limit : Nat) : Standing → Prop
  | free => True
  | waiting t => t.InRange limit
  | taken p => p.InRange

namespace Standing.InRange

variable {limit due : Nat} {t : Task} {x : Standing}

/-- What there is for a zone stays in range when its task is moved. -/
theorem moved (h : x.InRange limit) (what : TaskKind) (hdue : due ≤ maxTime) :
    (x.moved what due).InRange limit := by
  cases x with
  | free => trivial
  | waiting t => exact (Task.InRange.flush h false).retarget what hdue
  | taken p => exact hdue

/-- What there is for a zone stays in range when its task is flushed. -/
theorem flushed (h : x.InRange limit) : x.flushed.InRange limit := by
  cases x with
  | free => trivial
  | waiting t => exact Task.InRange.flush h true
  | taken p => exact h

/-- What there is for a zone stays in range when all tasks are flushed. -/
theorem allFlushed (h : x.InRange limit) : x.allFlushed.InRange limit := by
  cases x with
  | free => trivial
  | waiting t => exact Task.InRange.flush h true
  | taken p => exact h

/-- What there is for a zone stays in range when it is given a task in range. -/
theorem given (h : x.InRange limit) (ht : t.InRange limit) : (x.given t).InRange limit := by
  cases x with
  | free => exact ht
  | waiting u => exact h
  | taken p => exact h

/-- What there is for a zone stays in range when its waiting task is removed. -/
theorem dropped (h : x.InRange limit) : x.dropped.InRange limit := by
  cases x with
  | free => trivial
  | waiting t => trivial
  | taken p => exact h

/-- What there is for a zone stays in range when it is released. -/
theorem released (h : x.InRange limit) : x.released.InRange limit := by
  cases x with
  | free => trivial
  | waiting t => exact h
  | taken p => trivial

/-- A task that comes back has got what has been asked of it. -/
theorem returned {o : Outcome} {f : Task → Task} {now : Nat} (h : x.InRange limit)
    (ht : t.InRange limit) (hlimit : limit ≤ maxTime) (hnow : now ≤ maxTime)
    (hf : o.transition? now limit = some f) : (x.returned t f).InRange limit := by
  refine Task.InRange.transition ?_ hlimit hnow hf
  cases x with
  | free => exact ht
  | waiting u => exact ht
  | taken p => exact ht.fold h

end Standing.InRange

def Errand.now? : Errand → Option Nat
  | reading now _ | merging now .. | acting now _ | judged now .. | lacking now ..
  | serving _ now _ | admitting now _ => some now
  | none | evicting .. | leaving .. | settling .. | flushing _ => .none

private theorem Errand.inRange_makes {limit : Nat} {x : Standing} {e : Errand} (h : x.InRange limit)
    (hnow : ∀ now, e.now? = some now → now ≤ maxTime) : (e.makes x).InRange limit := by
  cases e with
  | judged now z left =>
    cases hz : z.status <;> simp only [makes, hz]
    case removed => exact h.dropped
    case updated => exact h.moved .configure (hnow now rfl)
    case added => exact h
    case ok => exact h
  | lacking now z left => exact h.given (.fresh z.key z.record .configure false (hnow now rfl))
  | serving what now z =>
    cases what with
    | sign => exact h.moved .read (hnow now rfl)
    | flush => exact h.flushed
  | admitting now z => exact h.given (.fresh z.key z.record .read true (hnow now rfl))
  | flushing z => exact h.flushed
  | _ => exact h

namespace Schedule

def InRange (limit : Nat) (s : Schedule) : Prop := ∀ k, (s.standing k).InRange limit

variable {s s' : Schedule} {limit now : Nat} {t : Task} {z : ZoneKey} {x : Standing}

/-- There is no number in an empty schedule. -/
theorem inRange_empty (limit : Nat) : InRange limit {} := fun _ => trivial

namespace InRange

/-- A schedule stays in range if what is set for one zone is. -/
theorem sets (h : s.InRange limit) (hsets : s.Sets s' z x) (hx : x.InRange limit) :
    s'.InRange limit := by
  intro k
  rw [hsets.standing_eq]
  split
  · exact hx
  · exact h k

/-- The waiting tasks of a schedule in range are in range. -/
theorem mem_waiting (h : s.InRange limit) (hs : s.Consistent) (ht : t ∈ s.waiting) :
    t.InRange limit := by
  have hz := h t.zone
  rwa [hs.standing_of_mem ht] at hz

/-- What has been asked of the taken tasks of a schedule in range is in range. -/
theorem requests {p : Pending} (h : s.InRange limit) (hs : s.Consistent)
    (hp : s.inFlight.get? z = some p) : p.InRange := by
  have htaken : s.isInFlight z := OrderedMap.contains_iff.mpr ⟨p, hp⟩
  have hidle : s.isScheduled z = false := Bool.eq_false_iff.mpr fun hz => hs.apart hz htaken
  have hz := h z
  rwa [standing_of_taken hidle hp] at hz

/-- A schedule stays in range when all tasks are flushed. -/
theorem flushAll (h : s.InRange limit) (hs : s.Consistent) : s.flushAll.2.InRange limit := by
  intro k
  rw [hs.standing_flushAll]
  exact (h k).allFlushed

/-- A schedule stays in range when a task is taken, and that task is in range. -/
theorem next (h : s.InRange limit) (hs : s.Consistent) (hnext : s.next now = (some t, s')) :
    s'.InRange limit ∧ t.InRange limit := by
  obtain ⟨u, hu, rfl, hsets⟩ := hs.sets_next hnext
  have hu' := h u.zone
  rw [hu] at hu'
  exact ⟨h.sets hsets (Nat.zero_le _), Task.InRange.flush hu' false⟩

/-- A schedule stays in range when a zone is released. -/
theorem release (h : s.InRange limit) (hs : s.Consistent) (z : ZoneKey) :
    (s.release z).2.InRange limit :=
  h.sets (hs.sets_released z) (h z).released

/-- A schedule stays in range when a worker hands a task back or drops it. -/
theorem settle (h : s.InRange limit) (hs : s.Consistent) (ht : t.InRange limit) (o : Outcome)
    (hlimit : limit ≤ maxTime) (hnow : now ≤ maxTime) : (o.settle t now limit s).InRange limit := by
  unfold Outcome.settle
  cases hf : o.transition? now limit with
  | none => exact h.release hs t.zone
  | some f =>
    have hkeeps : t.zone.Keeps f := fun u hu => (Outcome.sameOrigin_transition hf u).1.trans hu
    have hback := (h t.zone).returned ht hlimit hnow hf
    exact h.sets (hs.resubmit_keeping hkeeps).2 ((h t.zone).released.given hback)

end InRange

end Schedule

namespace Pool

variable {σ : Type} {c : Collaborators σ} {p p' : Pool σ} {w limit : Nat} {t : Task}

/-- The numbers in all tasks are in range. -/
structure TasksInRange (limit : Nat) (p : Pool σ) : Prop where
  schedule : p.schedule.InRange limit
  held : ∀ {w t}, p.held? w = some t → t.InRange limit

namespace TasksInRange

/-- Every task, waiting or held, is in range. -/
theorem owned (h : p.TasksInRange limit) (hs : p.schedule.Consistent) (ht : p.Owns t) :
    t.InRange limit := by
  rcases ht with ht | ⟨w, ht⟩
  · exact h.schedule.mem_waiting hs ht
  · exact h.held ht

/-- Whether all tasks are in range depends on the schedule and on what is held. -/
theorem of_held (h : p.TasksInRange limit) (hs : p'.schedule.InRange limit)
    (hheld : ∀ w, p'.held? w = p.held? w) : p'.TasksInRange limit :=
  ⟨hs, fun {w _} ht => h.held ((hheld w).symm.trans ht)⟩

/-- A section of a worker keeps all tasks in range. -/
theorem worker (h : p.TasksInRange p.maxBackoff) (hs : p.schedule.Consistent)
    (hlimit : p.maxBackoff ≤ maxTime) (hnow : p.now ≤ maxTime)
    (hstep : p.stepWorker c w = some p') :
    p'.TasksInRange p.maxBackoff := by
  obtain ⟨x, hx, hsection⟩ := workerSection_of_step hstep
  rcases hsection.ownership hx with
    ⟨t, s, -, hnext, rfl, hheld⟩ | ⟨t, z, o, hphase, -, rfl⟩ | ⟨hsame, hheld⟩
  · obtain ⟨hschedule, ht⟩ := h.schedule.next hs hnext
    refine ⟨hschedule, fun {v u} hu => ?_⟩
    rw [hheld] at hu
    split at hu
    · cases hu
      exact ht
    · exact h.held hu
  · have ht : t.InRange p.maxBackoff := h.held (held?_of_phase? (hphase ▸ phase?_of_get hx))
    constructor
    · rw [settle_schedule]
      split
      · exact h.schedule.release hs t.zone
      · exact h.schedule.settle hs ht o hlimit hnow
    · intro v u hu
      rw [held?_settle] at hu
      split at hu
      · cases hu
      · exact h.held hu
  · exact h.of_held (hsame ▸ h.schedule) hheld

/-- When the threads start, all tasks stay in range. -/
theorem start (h : p.TasksInRange limit) (hstart : p.start = .ok p') : p'.TasksInRange limit := by
  refine ⟨?_, fun {w t} ht => ?_⟩
  · rw [(start_eq_ok hstart).2]
    exact h.schedule
  · rw [held?_start hstart] at ht
    cases ht

end TasksInRange

end Pool

namespace Moment

variable {σ : Type} [HasFiles σ] {c : Collaborators σ} {m m' : Moment σ} {move : Move σ}

private theorem now_proceed (hstep : m.proceed = some m') :
    m'.errand.now? = .none ∨ m'.errand.now? = m.errand.now? := by
  cases proceeded_of_proceed hstep with
  | unread | actedOn | skip | suspect | evict | evictInPass | spare | doom | settle | settled
  | flush | askRead | refuse | grant | flushMoved => exact .inl rfl
  | _ he => exact .inr (congrArg Errand.now? he).symm

omit [HasFiles σ] in
private theorem now_receive (what : ZoneRequest) (name : String) (hfree : m.errand = .none) :
    (m.receive what name).errand.now? = .none ∨
      (m.receive what name).errand.now? = some m.pool.now := by
  rcases m.receive_cases what name with hn | ⟨_, -, -, hn⟩ <;> rw [hn]
  · exact .inl (congrArg Errand.now? hfree)
  · exact .inr rfl

private theorem now_beginPass (now : Nat) (hfree : m.errand = .none) :
    (m.beginPass now).errand.now? = .none ∨ (m.beginPass now).errand.now? = some now := by
  rcases m.beginPass_cases now with hn | ⟨_, hn⟩ | hn <;> rw [hn]
  · exact .inl (congrArg Errand.now? hfree)
  · exact .inr rfl
  · exact .inr rfl

/-- Whoever takes the list of zones looks at the clock first. -/
theorem now_step (hstep : m.step c move = some m') {now : Nat} (hnow : m'.errand.now? = some now) :
    m.errand.now? = some now ∨ now = m.pool.now := by
  have hbegun {n : Moment σ} (h : n.errand.now? = .none ∨ n.errand.now? = some m.pool.now)
      (hn : n.errand.now? = some now) : m.errand.now? = some now ∨ now = m.pool.now := by
    rcases h with h | h <;> rw [h] at hn
    · cases hn
    · exact .inr (Option.some.inj hn).symm
  cases moved_of_step hstep with
  | proceed hproceed =>
    rcases now_proceed hproceed with h | h <;> rw [h] at hnow
    · cases hnow
    · exact .inl hnow
  | pass hfree => exact hbegun (now_beginPass _ hfree) hnow
  | @heed s _ hfree =>
    cases s with
    | reload =>
      refine hbegun ?_ hnow
      exact now_beginPass _ hfree
    | workerIdle => cases hnow
    | shutdown => exact .inl hnow
  | request hfree => exact hbegun (now_receive _ _ hfree) hnow
  | closing hclose => exact .inl (by cases hclose <;> exact hnow)
  | _ => exact .inl hnow

private theorem inRange_proceed {limit : Nat} (h : m.pool.schedule.InRange limit)
    (hs : m.pool.schedule.Consistent) (htime : ∀ now, m.errand.now? = some now → now ≤ maxTime)
    (hstep : m.proceed = some m') : m'.pool.schedule.InRange limit := by
  rcases sets_proceed hs hstep with ⟨-, hsame⟩ | ⟨z, -, hsets⟩
  · exact hsame ▸ h
  · exact h.sets hsets (Errand.inRange_makes (h z.key) htime)

/-- Whatever happens, the numbers in all tasks stay in range. -/
theorem tasksInRange_step (h : m.pool.TasksInRange m.pool.maxBackoff)
    (hs : m.pool.schedule.Consistent) (hlimit : m.pool.maxBackoff ≤ maxTime)
    (hnow : m.pool.now ≤ maxTime) (htime : ∀ now, m.errand.now? = some now → now ≤ maxTime)
    (hstep : m.step c move = some m') : m'.pool.TasksInRange m.pool.maxBackoff := by
  cases hmove : move.isClosing with
  | true =>
    cases move with
    | closing what =>
      obtain ⟨hphase, -, hschedule⟩ := close_frame hstep
      refine h.of_held ?_ fun w => by rw [Pool.held?, hphase, Pool.held?]
      rcases hschedule with hsame | hempty
      · exact hsame ▸ h.schedule
      · exact hempty ▸ Schedule.inRange_empty _
    | _ => cases hmove
  | false =>
    rcases step_cases hmove hstep with
      ⟨w, p', -, hp, rfl⟩ | ⟨p', -, hp, rfl⟩ | ⟨hother, haside⟩
    · exact h.worker hs hlimit hnow hp
    · exact h.start hp
    · refine h.of_held ?_ fun w => by rw [Pool.held?, haside.phase?_eq, Pool.held?]
      rcases schedule_other hmove hstep hother with ⟨-, hproceed⟩ | hsame | hflushed
      · exact inRange_proceed h.schedule hs htime hproceed
      · exact hsame ▸ h.schedule
      · exact hflushed ▸ h.schedule.flushAll hs

end Moment

end ZoneSigning
