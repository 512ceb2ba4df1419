import ZoneSigning.Proofs.BatchAccounts
import ZoneSigning.Proofs.KindsOfWork

/-!
Runs with what is kept of them: which steps have begun, and what the signer has answered. A run may
go into the end of the engine, where the parts of the end are done in any order and more than once,
and the threads go on meanwhile.
-/
namespace ZoneSigning.Moment

variable {σ : Type} {c : Collaborators σ} {m m' : Moment σ}

def events (c : Collaborators σ) (m : Moment σ) : Move σ → List Event
  | .worker w => m.pool.workerEvents c w
  | .drudger d => m.pool.drudgerEvents c d
  | _ => []

/-- The moments that an engine can come to, its end included, with what has happened before, the
last thing first. -/
inductive Logged [HasFiles σ] (c : Collaborators σ) : Moment σ → List Event → Prop where
  | initial {m : Moment σ} : m.Initial → Logged c m []
  | step {m m' : Moment σ} {log : List Event} {move : Move σ} : Logged c m log →
      m.step c move = some m' → Logged c m' (m.events c move ++ log)

private theorem sameThreads_of_pool_eq (h : m'.pool = m.pool) : m.pool.SameThreads m'.pool := by
  constructor <;> rw [h]

private theorem sameThreads_proceed [HasFiles σ] (hstep : m.proceed = some m') :
    m.pool.SameThreads m'.pool := by
  obtain ⟨⟨_, _, _, _, hpool⟩, -⟩ := pool_proceed hstep
  rw [hpool]
  exact ⟨rfl, rfl, rfl, rfl⟩

variable [HasFiles σ] {move : Move σ}

/-- A move is a thread's section, the start of the threads, part of the end, or somebody's who has
nothing to do with the threads. -/
theorem threads_cases (hstep : m.step c move = some m') :
    (∃ w p', move = .worker w ∧ m.pool.stepWorker c w = some p' ∧ m' = m.withPool p') ∨
    (∃ d p', move = .drudger d ∧ m.pool.stepDrudger c d = some p' ∧ m' = m.withPool p') ∨
    (∃ p', move = .start ∧ m.pool.start = .ok p' ∧ m' = m.withPool p') ∨
    (∃ what, move = .closing what ∧ m.close what = some m') ∨
    m.events c move = [] ∧ m.pool.SameThreads m'.pool := by
  cases moved_of_step hstep with
  | worker hp => exact .inl ⟨_, _, rfl, hp, rfl⟩
  | drudger hp => exact .inr (.inl ⟨_, _, rfl, hp, rfl⟩)
  | start hp => exact .inr (.inr (.inl ⟨_, rfl, hp, rfl⟩))
  | closing => exact .inr (.inr (.inr (.inl ⟨_, rfl, hstep⟩)))
  | proceed hproceed => exact .inr (.inr (.inr (.inr ⟨rfl, sameThreads_proceed hproceed⟩)))
  | pass => exact .inr (.inr (.inr (.inr ⟨rfl, sameThreads_of_pool_eq (m.pool_beginPass _)⟩)))
  | heed =>
    refine .inr (.inr (.inr (.inr ⟨rfl, ?_⟩)))
    rw [pool_heed]
    exact ⟨rfl, rfl, rfl, rfl⟩
  | request =>
    exact .inr (.inr (.inr (.inr ⟨rfl, sameThreads_of_pool_eq (m.pool_receive _ _)⟩)))
  | flushAll | reload | tick | happen =>
    exact .inr (.inr (.inr (.inr ⟨rfl, rfl, rfl, rfl, rfl⟩)))

/-- Only the end of the engine closes the queue. -/
theorem closed_eq_of_step (hmove : move.isClosing = false) (hstep : m.step c move = some m') :
    m'.pool.queue.closed = m.pool.queue.closed := by
  rcases threads_cases hstep with ⟨w, p', -, hp, rfl⟩ | ⟨d, p', -, hp, rfl⟩ |
    ⟨p', -, hp, rfl⟩ | ⟨what, rfl, -⟩ | ⟨-, hsame⟩
  · obtain ⟨x, -, hsection⟩ := Pool.workerSection_of_step hp
    exact hsection.closed
  · obtain ⟨y, -, hsection⟩ := Pool.drudgerSection_of_step hp
    exact hsection.closed
  · rw [pool_withPool, (Pool.start_eq_ok hp).2]
  · cases hmove
  · rw [hsame.queue]

omit [HasFiles σ] in
private theorem accounted_close {what : Closing} {log : List Event} (h : m.pool.Accounted log)
    (hstep : m.close what = some m') : m'.pool.Accounted log := by
  obtain ⟨hphase, hstarted, -⟩ := close_frame hstep
  cases closed_of_close hstep with
  | request | clearSchedule | clearZones => exact h.sameThreads ⟨rfl, rfl, rfl, rfl⟩
  | closeQueue =>
    refine h.others hphase (fun v => ?_) id (fun _ _ => rfl) hstarted
    exact .of_eq (fun q => Nat.le_refl _) (fun b => rfl) rfl (fun _ => rfl) Iff.rfl
  | drainQueue =>
    refine h.others hphase (fun v => ?_) (fun _ => rfl) h.exits hstarted
    refine .of_eq (fun q => ?_) (fun b => rfl) rfl id Iff.rfl
    exact Nat.add_le_add_right (Nat.zero_le _) _
  | tellDrudgers =>
    refine h.others hphase (fun v => ?_) id h.exits hstarted
    refine .of_eq (fun q => ?_) (fun b => ?_) rfl id List.map_eq_nil_iff
    · simp [Pool.pending, Drudger.holding, List.countP_map, Function.comp_def]
    · simp [Pool.reports, Drudger.reporting, List.countP_map, Function.comp_def]
  | tellWorkers hclosed =>
    refine h.others hphase (fun v => ?_) id (fun _ _ => hclosed) hstarted
    refine .of_eq (fun q => Nat.le_refl _) (fun b => rfl) ?_ id Iff.rfl
    simp [Pool.tally?, Pool.dismissWorkers, Function.comp_def]

/-- The accounts of all workers remain right, whatever happens. -/
theorem accounted_step {log : List Event} (h : m.pool.Accounted log)
    (hstep : m.step c move = some m') : m'.pool.Accounted (m.events c move ++ log) := by
  rcases threads_cases hstep with ⟨w, p', rfl, hp, rfl⟩ | ⟨d, p', rfl, hp, rfl⟩ |
    ⟨p', rfl, hp, rfl⟩ | ⟨what, rfl, hclose⟩ | ⟨hnone, hsame⟩
  · exact h.worker hp
  · exact h.drudger hp
  · exact h.start hp
  · exact accounted_close h hclose
  · rw [hnone]
    exact h.sameThreads hsame

/-- The others leave a worker with a task at what it is doing. -/
theorem phase?_of_other {w : Nat} {t : Task} {log : List Event} (haccounted : m.pool.Accounted log)
    (hmove : move ≠ .worker w) (hstep : m.step c move = some m') (hheld : m.pool.held? w = some t) :
    m'.pool.phase? w = m.pool.phase? w ∧ ∀ u z, .began w u z ∉ m.events c move := by
  rcases threads_cases hstep with ⟨v, p', rfl, hp, rfl⟩ | ⟨d, p', rfl, hp, rfl⟩ |
    ⟨p', rfl, hp, rfl⟩ | ⟨what, rfl, hclose⟩ | ⟨hnone, hsame⟩
  · obtain ⟨x, hx, hsection⟩ := Pool.workerSection_of_step hp
    have hv : w ≠ v := fun he => hmove (he ▸ rfl)
    exact ⟨hsection.phase?_other hx hv,
      fun u z hmem => hv (Pool.WorkerSection.began_of_mem_events hmem)⟩
  · obtain ⟨y, hy, hsection⟩ := Pool.drudgerSection_of_step hp
    exact ⟨hsection.frame.2.2.2.2 w, fun u z => Pool.DrudgerSection.began_not_mem_events⟩
  · -- Before the start nobody has a task.
    obtain ⟨phase, hphase, ht⟩ := Option.bind_eq_some_iff.mp hheld
    rw [haccounted.resting (Pool.start_eq_ok hp).1 hphase] at ht
    cases ht
  · exact ⟨(close_frame hclose).1 w, fun u z => List.not_mem_nil⟩
  · rw [hnone]
    exact ⟨by rw [Pool.phase?, hsame.workers, Pool.phase?], fun u z => List.not_mem_nil⟩

namespace Logged

variable {log : List Event}

/-- A part of the end adds nothing to what has happened. -/
theorem close (h : Logged c m log) (what : Closing) (hclose : m.close what = some m') :
    Logged c m' log := by
  have hstep : m.step c (.closing what) = some m' := hclose
  exact h.step hstep

/-- Moves only add to what has happened. -/
theorem follow {moves : List (Move σ)} (h : Logged c m log)
    (hfollow : m.follow c moves = some m') : ∃ log', Logged c m' log' := by
  induction moves generalizing m log with
  | nil =>
    cases hfollow
    exact ⟨log, h⟩
  | cons move moves ih =>
    obtain ⟨n, hstep, hrest⟩ := Option.bind_eq_some_iff.mp hfollow
    exact ih (h.step hstep) hrest

/-- Every record has one present state, at the end too. -/
theorem recorded (h : Logged c m log) : m.Recorded := by
  induction h with
  | initial h => exact recorded_initial h
  | step _ hstep ih => exact (step_follows ih hstep).2

/-- The accounts of the workers are in order, at the end too. -/
theorem accounted (h : Logged c m log) : m.pool.Accounted log := by
  induction h with
  | initial h =>
    obtain ⟨_, _, _, _, _, _, _, hpool⟩ := h.pool_eq
    rw [hpool]
    exact .ofLimits ..
  | step _ hstep ih => exact accounted_step ih hstep

/-- There is never a task to write a zone as it is. -/
theorem not_involves (h : Logged c m log) : ¬ m.pool.Involves .write := by
  have hboth : m.pool.schedule.Consistent ∧ ¬ m.pool.Involves .write := by
    induction h with
    | initial h =>
      obtain ⟨_, _, _, _, _, _, _, hpool⟩ := h.pool_eq
      rw [hpool]
      exact ⟨Schedule.consistent_empty, Pool.not_involves_ofLimits _ _ _ _ _ _ _⟩
    | step _ hstep ih =>
      exact ⟨consistent_step ih.1 hstep, fun hwrite => ih.2 (involves_step ih.1 hstep hwrite)⟩
  exact hboth.2

end Logged

end ZoneSigning.Moment
