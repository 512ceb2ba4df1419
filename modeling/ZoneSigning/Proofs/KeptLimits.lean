import ZoneSigning.Proofs.LoggedRuns

/-!
What an engine never changes: its configuration, how many threads it has, the limits of its queue,
and its longest backoff. The clock only changes when it is set, and a worker starts its sleeps anew
only with a task.
-/
namespace ZoneSigning

/-- The limits within which a pool works. -/
structure Limits where
  workers : Nat
  drudgers : Nat
  maxBackoff : Nat
  capacity : Nat
  threshold : Nat
deriving DecidableEq, Repr

namespace EngineConfig

def limits (c : EngineConfig) (processors : Nat) : Limits where
  workers := c.workers.getD (max processors 1)
  drudgers := c.drudgers
  maxBackoff := c.maxBackoff
  capacity := c.queueCapacity
  threshold := c.queueThreshold

/-- The values of a configuration are those that it has to have. -/
structure Valid (c : EngineConfig) : Prop where
  zonelist : c.zonelist.isEmpty = false
  workers : c.workers ≠ some 0
  maxBackoff : firstBackoff ≤ c.maxBackoff
  capacity : 1 ≤ c.queueCapacity
  threshold : 1 ≤ c.queueThreshold ∧ c.queueThreshold ≤ c.queueCapacity
  maxSleep : 1 ≤ c.maxSleep

/-- No value of a configuration is found wrong exactly if all of them are right. -/
theorem valid_iff {c : EngineConfig} : c.invalid? = none ↔ c.Valid := by
  unfold invalid?
  constructor
  · intro h
    repeat' (split at h; cases h)
    exact ⟨by simp_all, ‹_›, by omega, by omega, by omega, by omega⟩
  · rintro ⟨hlist, hworkers, hbackoff, hcapacity, hthreshold, hsleep⟩
    rw [if_neg (by simp [hlist]), if_neg hworkers, if_neg (by omega), if_neg (by omega),
      if_neg (by omega), if_neg (by omega)]

end EngineConfig

/-- A queue keeps limits that are right. -/
theorem HandoffQueue.ofLimits_eq {α : Type} {capacity threshold : Nat} (hlow : 1 ≤ threshold)
    (hhigh : threshold ≤ capacity) :
    (ofLimits capacity threshold : HandoffQueue α) = { capacity, threshold } := by
  unfold ofLimits
  congr 1 <;> omega

namespace Pool

variable {σ : Type} {c : Collaborators σ} {p p' : Pool σ} {w : Nat}

def limits (p : Pool σ) : Limits where
  workers := p.workers.length
  drudgers := p.drudgers.length
  maxBackoff := p.maxBackoff
  capacity := p.queue.capacity
  threshold := p.queue.threshold

def idle? (p : Pool σ) (w : Nat) : Option IdleBackoff := p.workers[w]?.map (·.idle)

/-- The idle backoff of a worker is looked up at its place. -/
theorem idle?_of_get {x : Worker} (h : p.workers[w]? = some x) : p.idle? w = some x.idle := by
  simp [idle?, h]

/-- From one pool to the other, where it is `now`, the limits stay the same. A worker keeps its idle
backoff and gets no task, or it starts its sleeps anew and has a task. -/
structure Continues (p p' : Pool σ) (now : Nat) : Prop where
  limits : p'.limits = p.limits
  now : p'.now = now
  idle : ∀ w, p'.idle? w = p.idle? w ∧ ((p'.held? w).isSome → (p.held? w).isSome) ∨
    p'.idle? w = (p.idle? w).map .reset ∧ (p'.held? w).isSome

/-- Nobody gets a task. -/
theorem Continues.of_eq {now : Nat} (hlimits : p'.limits = p.limits) (hnow : p'.now = now)
    (hidle : ∀ w, p'.idle? w = p.idle? w) (hheld : ∀ w, p'.held? w = p.held? w) :
    p.Continues p' now :=
  ⟨hlimits, hnow, fun w => .inl ⟨hidle w, fun h => by rwa [← hheld w]⟩⟩

private theorem Continues.of_workers {now : Nat} (hlimits : p'.limits = p.limits) (hnow : p'.now = now)
    (hworkers : p'.workers = p.workers) : p.Continues p' now :=
  .of_eq hlimits hnow (fun w => by rw [idle?, hworkers, idle?]) (held?_congr hworkers)

section Worker

variable {x : Worker}

private theorem idle?_goTo (hx : p.workers[w]? = some x) (hq : p'.workers = p.workers)
    (phase : WorkerPhase) : (p'.goTo w phase).idle? w = some x.idle := by
  simp [idle?, goTo, hq, hx]

/-- Only the worker that has been set can have another idle backoff. -/
theorem idle?_setWorker (hx : p.workers[w]? = some x) (y : Worker) (v : Nat) :
    (p.setWorker w y).idle? v = if v = w then some y.idle else p.idle? v := by
  by_cases hv : w = v
  · subst hv
    simp [idle?, setWorker, (List.getElem?_eq_some_iff.mp hx).1]
  · simp [idle?, setWorker, hv, Ne.symm hv]

private theorem idle?_of_busy (hx : p.workers[w]? = some x) (h : WorkerSection c p w x p')
    (hbusy : x.phase ≠ .idle) : p'.idle? w = some x.idle := by
  cases h with
  | take hphase => exact absurd hphase hbusy
  | leave hphase => exact absurd hphase hbusy
  | appoint => rw [idle?_setWorker hx, if_pos rfl]
  | signInline => simp [idle?, goTo, report, hx]
  | @settle t z o =>
    obtain ⟨_, _, _, he⟩ := p.settle_eq w t o z
    rw [he]
    exact idle?_goTo hx rfl _
  | @tell drained =>
    obtain ⟨_, he⟩ := p.tell_eq w drained
    rw [he]
    exact idle?_goTo hx rfl _
  | _ => exact idle?_goTo hx (by simp) _

private theorem idle_cases (hx : p.workers[w]? = some x) (h : WorkerSection c p w x p') :
    p'.idle? w = some x.idle ∧ ((p'.held? w).isSome → (p.held? w).isSome) ∨
      p'.idle? w = some x.idle.reset ∧ (p'.held? w).isSome := by
  by_cases hidle : x.phase = .idle
  · cases h with
    | @take t s =>
      have hx : ({ p with schedule := s } : Pool σ).workers[w]? = some x := hx
      refine .inr ⟨?_, ?_⟩
      · rw [idle?_setWorker hx, if_pos rfl]
      · rw [held?_setWorker hx, if_pos rfl]
        rfl
    | leave =>
      refine .inl ⟨?_, ?_⟩
      · rw [idle?_setWorker hx, if_pos rfl]
      · rw [held?_setWorker hx, if_pos rfl]
        nofun
    | _ => simp_all only [reduceCtorEq]
  · refine .inl ⟨idle?_of_busy hx h hidle, ?_⟩
    rcases h.ownership hx with ⟨t, s, hphase, -⟩ | ⟨t, z, o, -, -, rfl⟩ | ⟨-, hheld⟩
    · exact absurd hphase hidle
    · rw [held?_settle, if_pos rfl]
      nofun
    · rw [hheld]
      exact id

private theorem bounds_section (h : WorkerSection c p w x p') :
    p'.now = p.now ∧ p'.maxBackoff = p.maxBackoff := by
  cases h with
  | @settle t z o =>
    obtain ⟨_, _, _, he⟩ := p.settle_eq w t o z
    rw [he]
    exact ⟨rfl, rfl⟩
  | @tell drained =>
    obtain ⟨_, he⟩ := p.tell_eq w drained
    rw [he]
    exact ⟨rfl, rfl⟩
  | _ => simp [goTo, collect, setWorker, report]

private theorem WorkerSection.continues (hx : p.workers[w]? = some x) (h : WorkerSection c p w x p') :
    p.Continues p' p.now := by
  obtain ⟨⟨y, hworkers, -⟩, hdrudgers, -⟩ := h.frame hx
  obtain ⟨hnow, hbackoff⟩ := bounds_section h
  have hqueue : p'.queue.capacity = p.queue.capacity ∧ p'.queue.threshold = p.queue.threshold := by
    rcases h.queue with he | ⟨-, job, he⟩ <;> rw [he] <;> exact ⟨rfl, rfl⟩
  refine ⟨?_, hnow, fun v => ?_⟩
  · simp only [limits, hworkers, hdrudgers, hbackoff, hqueue, List.length_set]
  · by_cases hv : v = w
    · subst hv
      rw [idle?_of_get hx]
      exact idle_cases hx h
    · have hsame := h.worker_other hx hv
      have hheld : p'.held? v = p.held? v := by rw [held?, phase?, hsame, held?, phase?]
      exact .inl ⟨by rw [idle?, hsame, idle?], fun hsome => hheld ▸ hsome⟩

end Worker

private theorem DrudgerSection.continues {d : Nat} {y : Drudger} (h : DrudgerSection c p d y p') :
    p.Continues p' p.now := by
  have hheld (v : Nat) : p'.held? v = p.held? v := by
    rw [held?, h.frame.2.2.2.2 v, held?]
  cases h with
  | report =>
    refine .of_eq (by simp [limits, Pool.report]) rfl (fun v => ?_) hheld
    simp only [idle?, Pool.report, List.getElem?_modify]
    cases p.workers[v]? with
    | none => rfl
    | some x =>
      dsimp only [Option.map_eq_map, Option.map_some]
      split <;> rfl
  | _ => exact .of_eq (by simp [limits]) rfl (fun _ => rfl) hheld

private theorem continues_start (h : p.start = .ok p') : p.Continues p' p.now := by
  have hheld (w : Nat) : (p'.held? w).isSome → (p.held? w).isSome := by
    rw [held?_start h]
    nofun
  have hp' := (start_eq_ok h).2
  refine ⟨by simp [hp', limits], by rw [hp'], fun w => .inl ⟨?_, hheld w⟩⟩
  simp [hp', idle?, Function.comp_def]

/-- A pool that has just been made has the limits that it has been made with. -/
theorem limits_ofLimits (around : σ) (now workers drudgers maxBackoff : Nat)
    {capacity threshold : Nat} (hlow : 1 ≤ threshold) (hhigh : threshold ≤ capacity) :
    (ofLimits around now workers drudgers maxBackoff capacity threshold).limits =
      { workers, drudgers, maxBackoff, capacity, threshold } := by
  simp [limits, ofLimits, HandoffQueue.ofLimits_eq hlow hhigh]

/-- In a pool that has just been made, the idle backoffs are the first ones. -/
theorem idle?_ofLimits {around : σ} {now workers drudgers maxBackoff capacity threshold : Nat}
    {idle : IdleBackoff} (h : (ofLimits around now workers drudgers maxBackoff capacity
      threshold).idle? w = some idle) : idle = .ofLimit maxBackoff := by
  obtain ⟨x, hx, rfl⟩ := Option.map_eq_some_iff.mp h
  obtain ⟨-, rfl⟩ := List.mem_replicate.mp (List.mem_of_getElem? hx)
  rfl

end Pool

def Move.clock {σ : Type} (now : Nat) : Move σ → Nat
  | tick time => time
  | _ => now

namespace Moment

variable {σ : Type} {c : Collaborators σ} {m m' : Moment σ}

private theorem continues_close {what : Closing} (hstep : m.close what = some m') :
    m.pool.Continues m'.pool m.pool.now := by
  have hheld (w : Nat) : m'.pool.held? w = m.pool.held? w := by
    rw [Pool.held?, (close_frame hstep).1, Pool.held?]
  cases closed_of_close hstep with
  | tellWorkers =>
    refine .of_eq ?_ rfl (fun w => ?_) hheld
    · simp [Pool.limits, Pool.dismissWorkers]
    · simp [Pool.idle?, Pool.dismissWorkers, Function.comp_def]
  | tellDrudgers => exact .of_workers (by simp [Pool.limits]) rfl rfl
  | _ => exact .of_workers rfl rfl rfl

variable [HasFiles σ] {move : Move σ}

/-- Whatever happens, the limits stay the same, and a worker starts its sleeps anew only with a
task. -/
theorem continues_step (hstep : m.step c move = some m') :
    m.pool.Continues m'.pool (move.clock m.pool.now) := by
  have hsame {n : Moment σ} (h : n.pool = m.pool) : m.pool.Continues n.pool m.pool.now := by
    rw [h]
    exact .of_workers rfl rfl rfl
  cases moved_of_step hstep with
  | worker hp =>
    obtain ⟨x, hx, hsection⟩ := Pool.workerSection_of_step hp
    exact hsection.continues hx
  | drudger hp =>
    obtain ⟨y, -, hsection⟩ := Pool.drudgerSection_of_step hp
    exact hsection.continues
  | start hp => exact Pool.continues_start hp
  | closing => exact continues_close hstep
  | proceed hproceed =>
    obtain ⟨⟨_, _, _, _, hpool⟩, -⟩ := pool_proceed hproceed
    rw [hpool]
    exact .of_workers rfl rfl rfl
  | pass => exact hsame (m.pool_beginPass _)
  | heed =>
    rw [pool_heed]
    exact .of_workers rfl rfl rfl
  | request => exact hsame (m.pool_receive _ _)
  | flushAll | reload | tick | happen => exact .of_workers rfl rfl rfl

/-- The configuration of an engine never changes. -/
theorem config_step (hstep : m.step c move = some m') : m'.engine.config = m.engine.config := by
  cases moved_of_step hstep with
  | proceed hproceed => rw [engine_proceed hproceed]
  | pass => rw [engine_beginPass]
  | @heed s =>
    cases s with
    | reload =>
      rw [heed, engine_beginPass]
      rfl
    | workerIdle => rfl
    | shutdown => rfl
  | request => rw [engine_receive]
  | closing hclose => cases hclose <;> rfl
  | _ => rfl

end Moment

end ZoneSigning
