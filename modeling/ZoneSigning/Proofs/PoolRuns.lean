import ZoneSigning.Proofs.LoggedRuns
import ZoneSigning.Proofs.QueueCrowds

/-!
Runs of a pool by itself. A worker that holds a task may be asked to have any jobs signed, others may
use the queue, threads may be told to go at any time, and between two sections anything may become of
all that is neither a thread nor the queue. What an engine does with its pool is among these runs.
-/
namespace ZoneSigning

/-- One section of some thread, or something that happens around the threads. -/
inductive Act (σ : Type) where
  | worker (index : Nat)
  | drudger (index : Nat)
  /-- A worker begins a step that signs, whatever there is to sign. -/
  | dispatch (worker : Nat) (batch : Batch)
  | start
  | use (what : QueueUse)
  | tellWorkers (told : Nat → Bool)
  | tellDrudgers (told : Nat → Bool)
  /-- All but the threads and the queue changes in any way. -/
  | elsewhere (rest : Pool σ)

namespace Pool

variable {σ : Type}

/-- Let a worker that holds a task begin to have jobs signed. -/
def dispatch (p : Pool σ) (w : Nat) (batch : Batch) : Option (Pool σ) :=
  match p.workers[w]? with
  | none => none
  | some x =>
    match x.phase with
    | .holding t => (p.zone? t).map fun _ => p.setWorker w { x with
        phase := .stepping t (.signing batch batch.jobs)
        tally := { appointed := batch.jobs.length } }
    | _ => none

def act (c : Collaborators σ) (p : Pool σ) : Act σ → Option (Pool σ)
  | .worker w => p.stepWorker c w
  | .drudger d => p.stepDrudger c d
  | .dispatch w batch => p.dispatch w batch
  | .start => p.start.toOption
  | .use what => some { p with queue := (what.apply p.queue).1 }
  | .tellWorkers told =>
    some { p with workers := p.workers.mapIdx fun w x => { x with exit := x.exit || told w } }
  | .tellDrudgers told =>
    some { p with drudgers := p.drudgers.mapIdx fun d y => { y with exit := y.exit || told d } }
  | .elsewhere rest => some { rest with
      workers := p.workers, drudgers := p.drudgers, queue := p.queue, started := p.started }

def actEvents (c : Collaborators σ) (p : Pool σ) : Act σ → List Event
  | .worker w => p.workerEvents c w
  | .dispatch w _ => p.workerEvents c w
  | .drudger d => p.drudgerEvents c d
  | _ => []

/-- The pools that any acts lead to, with what has happened before, the last thing first. -/
inductive Runs (c : Collaborators σ) : Pool σ → List Event → Prop
  | made (around : σ) (now workers drudgers maxBackoff capacity threshold : Nat) :
      Runs c (ofLimits around now workers drudgers maxBackoff capacity threshold) []
  | act {p p' : Pool σ} {log : List Event} {a : Act σ} : Runs c p log → p.act c a = some p' →
      Runs c p' (p.actEvents c a ++ log)

def acts (c : Collaborators σ) (p : Pool σ) (as : List (Act σ)) : Option (Pool σ) :=
  as.foldlM (·.act c ·) p

variable {c : Collaborators σ} {p p' : Pool σ} {w : Nat}

/-- Acts lead from a pool that can come about to another one. -/
theorem Runs.acts {log : List Event} {as : List (Act σ)} (h : Runs c p log)
    (hacts : p.acts c as = some p') : ∃ log', Runs c p' log' := by
  induction as generalizing p log with
  | nil =>
    cases hacts
    exact ⟨log, h⟩
  | cons a as ih =>
    obtain ⟨q, hact, hrest⟩ := Option.bind_eq_some_iff.mp hacts
    exact ih (h.act hact) hrest

/-- A worker can have a batch signed when it holds a task of a zone that there is. -/
theorem dispatch_eq_some {batch : Batch} (h : p.dispatch w batch = some p') :
    ∃ x t z, p.workers[w]? = some x ∧ x.phase = .holding t ∧ p.zone? t = some z ∧
      p' = p.setWorker w { x with
        phase := .stepping t (.signing batch batch.jobs)
        tally := { appointed := batch.jobs.length } } := by
  unfold dispatch at h
  cases hx : p.workers[w]? with
  | none => simp [hx] at h
  | some x =>
    simp only [hx] at h
    split at h
    · next t hphase =>
      obtain ⟨z, hz, rfl⟩ := Option.map_eq_some_iff.mp h
      exact ⟨x, t, z, rfl, hphase, hz, rfl⟩
    · cases h

/-- The act of starting is the start of the pool. -/
theorem act_start_eq_some (h : p.act c .start = some p') : p.start = .ok p' := by
  simp only [act] at h
  cases hstart : p.start <;> simp_all [Except.toOption]

end Pool

namespace Moment

variable {σ : Type} [HasFiles σ] {c : Collaborators σ} {m m' : Moment σ} {log : List Event}

omit [HasFiles σ] in
private theorem act_of_sameThreads (hsame : m.pool.SameThreads m'.pool) :
    m.pool.act c (.elsewhere m'.pool) = some m'.pool := by
  obtain ⟨hworkers, hdrudgers, hqueue, hstarted⟩ := hsame
  simp only [Pool.act, ← hworkers, ← hdrudgers, ← hqueue, ← hstarted]

private theorem mapIdx_eq_map {α β : Type} (f : α → β) (l : List α) :
    l.mapIdx (fun _ a => f a) = l.map f :=
  List.ext_getElem? fun i => by simp

omit [HasFiles σ] in
private theorem act_of_close {what : Closing} (h : m.close what = some m') :
    ∃ a, m.pool.act c a = some m'.pool ∧ m.pool.actEvents c a = [] := by
  cases what with
  | request | clearSchedule =>
    cases h
    exact ⟨_, act_of_sameThreads ⟨rfl, rfl, rfl, rfl⟩, rfl⟩
  | clearZones =>
    simp only [close] at h
    obtain ⟨-, rfl⟩ := seize_eq_some h
    exact ⟨_, act_of_sameThreads ⟨rfl, rfl, rfl, rfl⟩, rfl⟩
  | closeQueue =>
    cases h
    exact ⟨.use .close, rfl, rfl⟩
  | drainQueue =>
    cases h
    exact ⟨.use .drain, rfl, rfl⟩
  | tellDrudgers =>
    cases h
    refine ⟨.tellDrudgers fun _ => true, ?_, rfl⟩
    simp only [Pool.act, pool_withPool, Bool.or_true, mapIdx_eq_map]
  | tellWorkers =>
    simp only [close] at h
    split at h <;> cases h
    refine ⟨.tellWorkers fun _ => true, ?_, rfl⟩
    simp only [Pool.act, pool_withPool, Pool.dismissWorkers, Bool.or_true, mapIdx_eq_map]

/-- What has happened in an engine has happened in a run of its pool. -/
theorem Logged.runs (h : Logged c m log) : Pool.Runs c m.pool log := by
  induction h with
  | initial h =>
    obtain ⟨_, _, _, _, _, _, _, hpool⟩ := h.pool_eq
    rw [hpool]
    exact .made ..
  | @step m m' log move _ hstep ih =>
    rcases threads_cases hstep with ⟨w, p', rfl, hp, rfl⟩ | ⟨d, p', rfl, hp, rfl⟩ |
      ⟨p', rfl, hp, rfl⟩ | ⟨what, rfl, hclose⟩ | ⟨hnone, hsame⟩
    · exact ih.act (a := .worker w) hp
    · exact ih.act (a := .drudger d) hp
    · exact ih.act (a := .start) (by rw [Pool.act, hp]; rfl)
    · obtain ⟨a, ha, hevents⟩ := act_of_close (c := c) hclose
      have h := ih.act ha
      rwa [hevents] at h
    · rw [hnone]
      exact ih.act (act_of_sameThreads hsame)

end Moment

end ZoneSigning
