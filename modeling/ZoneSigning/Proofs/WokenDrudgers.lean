import ZoneSigning.Proofs.DispatchedBatches

/-!
A pool whose threads sleep at the queue. The drudgers are woken when a worker begins to wait for
them, and while it waits none of them falls asleep as long as a job of it is queued.
-/
namespace ZoneSigning

/-- A pool, and which of its threads wait at the queue: workers to append, drudgers to take. -/
structure Floor (σ : Type) where
  pool : Pool σ
  producers : List Stand
  consumers : List Stand

namespace Pool

variable {σ : Type}

def workerDeed? (p : Pool σ) (w : Nat) : Option (Deed Handoff) :=
  match p.phase? w with
  | some (.stepping _ (.signing _ (job :: _))) =>
    if p.signsInline then none else some (.push w ⟨job, w⟩)
  | some (.stepping _ (.signing batch [])) =>
    if batch.jobs.isEmpty || p.signsInline then none else some (.use .kick)
  | _ => none

def drudgerDeed? (p : Pool σ) (d : Nat) : Option (Deed Handoff) :=
  match p.drudgers[d]? with
  | some { phase := .idle, exit } => some (.pop d exit)
  | _ => none

def deed? (p : Pool σ) : Act σ → Option (Deed Handoff)
  | .worker w => p.workerDeed? w
  | .drudger d => p.drudgerDeed? d
  | .use what => some (.use what)
  | _ => none

end Pool

namespace Floor

variable {σ : Type}

/-- The queue, and those who wait at it. -/
def crowd (f : Floor σ) : Crowd Handoff := ⟨f.pool.queue, f.producers, f.consumers⟩

/-- Something happens in the pool. A thread that is asleep does nothing. -/
inductive Step (c : Collaborators σ) (f f' : Floor σ) : Prop
  | visit {a : Act σ} {deed : Deed Handoff} (hdeed : f.pool.deed? a = some deed)
      (hact : f.pool.act c a = some f'.pool) (hcrowd : f.crowd.Step deed f'.crowd)
  | doze {a : Act σ} {deed : Deed Handoff} (hdeed : f.pool.deed? a = some deed)
      (hact : f.pool.act c a = none) (hpool : f'.pool = f.pool) (hcrowd : f.crowd.Step deed f'.crowd)
  | other {a : Act σ} (hdeed : f.pool.deed? a = none) (hact : f.pool.act c a = some f'.pool)
      (hproducers : f'.producers = f.producers) (hconsumers : f'.consumers = f.consumers)

inductive Reachable (c : Collaborators σ) : Floor σ → Prop
  | made (around : σ) (now workers drudgers maxBackoff capacity threshold : Nat) : Reachable c {
      pool := .ofLimits around now workers drudgers maxBackoff capacity threshold
      producers := .replicate workers .up
      consumers := .replicate drudgers .up }
  | step {f f' : Floor σ} : Reachable c f → f.Step c f' → Reachable c f'

end Floor

namespace Pool

variable {σ : Type} {c : Collaborators σ} {p p' : Pool σ} {w : Nat} {log : List Event}

private theorem WorkerSection.deed {x : Worker} (hx : p.workers[w]? = some x)
    (h : WorkerSection c p w x p') :
    (p.workerDeed? w = none ∧ p'.queue = p.queue) ∨
    ∃ deed, p.workerDeed? w = some deed ∧ deed.Leads p.queue p'.queue ∧
      ((∃ job, deed = .push w ⟨job, w⟩) ∨ deed = .use .kick) := by
  have hw := phase?_of_get hx
  cases h with
  | @handOver t z batch job left hphase _ hdrudgers hroom hopen =>
    refine .inr ⟨.push w ⟨job, w⟩, by simp [workerDeed?, hw, hphase, hdrudgers], ?_, .inl ⟨job, rfl⟩⟩
    simp [Deed.Leads, Visit.attempt, hroom, HandoffQueue.push, hopen]
  | @refuse t z batch job left hphase _ hdrudgers hclosed =>
    refine .inr ⟨.push w ⟨job, w⟩, by simp [workerDeed?, hw, hphase, hdrudgers], ?_, .inl ⟨job, rfl⟩⟩
    simp [Deed.Leads, Visit.attempt, HandoffQueue.isFull, HandoffQueue.push, hclosed]
  | wait hphase _ hjobs hdrudgers =>
    exact .inr ⟨.use .kick, by simp [workerDeed?, hw, hphase, hjobs, hdrudgers], rfl, .inr rfl⟩
  | signInline hphase _ hinline => exact .inl ⟨by simp [workerDeed?, hw, hphase, hinline], rfl⟩
  | @collect t z batch tally hphase _ htally =>
    refine .inl ⟨?_, by simp [Pool.collect]⟩
    rcases htally with ⟨hjobs, -⟩ | ⟨hinline, -⟩
    · simp [workerDeed?, hw, hphase, hjobs]
    · simp [workerDeed?, hw, hphase, hinline]
  | gather hphase => exact .inl ⟨by simp [workerDeed?, hw, hphase], by simp [Pool.collect]⟩
  | @settle t z o hphase =>
    obtain ⟨_, _, _, he⟩ := p.settle_eq w t o z
    exact .inl ⟨by simp [workerDeed?, hw, hphase], by rw [he]; rfl⟩
  | @tell drained hphase =>
    obtain ⟨_, he⟩ := p.tell_eq w drained
    exact .inl ⟨by simp [workerDeed?, hw, hphase], by rw [he]; rfl⟩
  | take hphase | leave hphase | prepare hphase | retreat hphase | appoint hphase | load hphase
  | read hphase | write hphase | giveUp hphase | publish hphase =>
    exact .inl ⟨by simp [workerDeed?, hw, hphase], by simp⟩

private theorem DrudgerSection.deed {d : Nat} {y : Drudger} (hy : p.drudgers[d]? = some y)
    (h : DrudgerSection c p d y p') :
    (p.drudgerDeed? d = none ∧ p'.queue = p.queue) ∨
    p.drudgerDeed? d = some (.pop d y.exit) ∧ (Deed.pop d y.exit).Leads p.queue p'.queue := by
  obtain ⟨phase, exit⟩ := y
  cases h with
  | pop hphase hexit hopen hitems =>
    obtain rfl := hphase
    obtain rfl := hexit
    refine .inr ⟨by simp [drudgerDeed?, hy], ?_⟩
    simp [Deed.Leads, Visit.attempt, HandoffQueue.isBare, HandoffQueue.pop, HandoffQueue.tryPop,
      hitems, hopen]
  | leave hphase hend =>
    obtain rfl := hphase
    refine .inr ⟨by simp [drudgerDeed?, hy], ?_⟩
    rcases hend with hexit | hclosed
    · obtain rfl := hexit
      simp [Deed.Leads, Visit.attempt, HandoffQueue.isBare, HandoffQueue.pop]
    · simp [Deed.Leads, Visit.attempt, HandoffQueue.isBare, HandoffQueue.pop, hclosed]
  | sign hphase | report hphase =>
    obtain rfl := hphase
    exact .inl ⟨by simp [drudgerDeed?, hy], rfl⟩

/-- What an act does to the queue: nothing, or what it says. -/
theorem deed_of_act {a : Act σ} (hact : p.act c a = some p') :
    (p.deed? a = none ∧ p'.queue = p.queue) ∨
    ∃ deed, p.deed? a = some deed ∧ deed.Leads p.queue p'.queue := by
  cases a with
  | worker w =>
    obtain ⟨x, hx, hsection⟩ := workerSection_of_step hact
    exact (hsection.deed hx).imp_right (.imp fun _ h => ⟨h.1, h.2.1⟩)
  | drudger d =>
    obtain ⟨y, hy, hsection⟩ := drudgerSection_of_step hact
    exact (hsection.deed hy).imp_right fun hleads => ⟨_, hleads⟩
  | dispatch w batch =>
    obtain ⟨_, _, _, _, _, _, rfl⟩ := dispatch_eq_some hact
    exact .inl ⟨rfl, rfl⟩
  | start =>
    obtain ⟨-, rfl⟩ := start_eq_ok (act_start_eq_some hact)
    exact .inl ⟨rfl, rfl⟩
  | use what =>
    cases hact
    exact .inr ⟨_, rfl, rfl⟩
  | tellWorkers told | tellDrudgers told | elsewhere rest =>
    cases hact
    exact .inl ⟨rfl, rfl⟩

private theorem WorkerSection.awaiting {x : Worker} {t : Task} {batch : Batch}
    (hx : p.workers[w]? = some x) (h : WorkerSection c p w x p')
    (hphase' : p'.phase? w = some (.stepping t (.awaiting batch))) :
    p.workerDeed? w = some (.use .kick) := by
  have hw := phase?_of_get hx
  cases h with
  | wait hphase _ hjobs hdrudgers => simp [workerDeed?, hw, hphase, hjobs, hdrudgers]
  | collect | gather =>
    obtain ⟨⟨⟩⟩ | ⟨_, ⟨⟩⟩ := eq_of_phase?_collect hphase'
  | settle =>
    obtain ⟨_, ⟨⟩⟩ := eq_of_phase?_settle hphase'
  | tell => cases eq_of_phase?_tell hphase'
  | take | leave | appoint => cases eq_of_phase?_setWorker hphase'
  | prepare | retreat | load | read | write | signInline | handOver | refuse | giveUp | publish =>
    cases eq_of_phase?_goTo hphase'

/-- As long as a worker waits for drudgers, it hands nothing over. Here `a` is what is done. -/
theorem awaiting_of_act {a : Act σ} {t : Task} {batch : Batch} (hact : p.act c a = some p')
    (hphase' : p'.phase? w = some (.stepping t (.awaiting batch))) :
    p.deed? a = some (.use .kick) ∨
    p.phase? w = some (.stepping t (.awaiting batch)) ∧
      ∀ h ∈ p'.queue.items, h.owner = w → h ∈ p.queue.items := by
  have hsame (hq : p'.queue = p.queue) : ∀ h ∈ p'.queue.items, h.owner = w → h ∈ p.queue.items := by
    rw [hq]
    exact fun h hmem _ => hmem
  cases a with
  | worker v =>
    obtain ⟨x, hx, hsection⟩ := workerSection_of_step hact
    by_cases hv : w = v
    · subst hv
      exact .inl (hsection.awaiting hx hphase')
    · refine .inr ⟨hsection.phase?_other hx hv ▸ hphase', ?_⟩
      rcases hsection.queue with hq | ⟨-, job, hq⟩
      · exact hsame hq
      · rw [hq]
        intro h hmem howner
        refine (List.mem_append.mp hmem).resolve_right fun hnew => hv ?_
        rw [← howner, List.mem_singleton.mp hnew]
  | drudger d =>
    obtain ⟨y, hy, hsection⟩ := drudgerSection_of_step hact
    refine .inr ⟨hsection.frame.2.2.2.2 w ▸ hphase', fun h hmem _ => ?_⟩
    cases hsection with
    | pop _ _ _ hitems => exact hitems ▸ List.mem_cons_of_mem _ hmem
    | leave => exact hmem
    | sign => exact hmem
    | report => exact hmem
  | dispatch v b =>
    obtain ⟨x, u, z, hx, hphase, -, rfl⟩ := dispatch_eq_some hact
    refine .inr ⟨?_, hsame rfl⟩
    rw [phase?_setWorker p v w x.phase _ (phase?_of_get hx)] at hphase'
    split at hphase' <;> simp_all
  | start =>
    rw [phase?_start (act_start_eq_some hact)] at hphase'
    obtain ⟨_, -, he⟩ := Option.map_eq_some_iff.mp hphase'
    cases he
  | use what =>
    cases hact
    exact .inr ⟨hphase', fun h hmem _ => (what.items_apply_suffix _).subset hmem⟩
  | tellWorkers told =>
    cases hact
    exact .inr ⟨by simpa [phase?, Function.comp_def] using hphase', hsame rfl⟩
  | tellDrudgers told | elsewhere rest =>
    cases hact
    exact .inr ⟨hphase', hsame rfl⟩

/-- A drudger of a running pool goes only if it is told to or the queue is closed. -/
theorem Runs.drudger_off (h : Runs c p log) {y : Drudger} (hy : y ∈ p.drudgers)
    (hoff : y.phase = .off) : p.started = false ∨ y.exit ∨ p.queue.closed := by
  induction h generalizing y with
  | made => exact .inl rfl
  | @act p p' log a _ hact ih =>
    cases a with
    | worker w =>
      obtain ⟨x, hx, hsection⟩ := workerSection_of_step hact
      rw [hsection.drudgers hx] at hy
      rw [hsection.started hx, hsection.closed]
      exact ih hy hoff
    | drudger d =>
      obtain ⟨y', hy', hsection⟩ := drudgerSection_of_step hact
      have hold := List.mem_of_getElem? hy'
      rw [hsection.frame.2.2.2.1, hsection.closed]
      cases hsection with
      | leave hphase hend =>
        rcases List.mem_or_eq_of_mem_set hy with hy | rfl
        · exact ih hy hoff
        · exact .inr hend
      | pop | sign | report =>
        rcases List.mem_or_eq_of_mem_set hy with hy | rfl
        · exact ih hy hoff
        · cases hoff
    | dispatch w batch =>
      obtain ⟨_, _, _, _, _, _, rfl⟩ := dispatch_eq_some hact
      exact ih hy hoff
    | start =>
      obtain ⟨-, rfl⟩ := start_eq_ok (act_start_eq_some hact)
      obtain ⟨_, -, rfl⟩ := List.mem_map.mp hy
      cases hoff
    | use what =>
      cases hact
      exact (ih hy hoff).imp_right (.imp_right (what.closed_apply ·))
    | tellDrudgers told =>
      cases hact
      obtain ⟨i, hi, rfl⟩ := List.mem_mapIdx.mp hy
      have hcases := ih (List.getElem_mem hi) hoff
      exact hcases.imp_right (.imp_left fun hexit => by simp [hexit])
    | tellWorkers told | elsewhere rest =>
      cases hact
      exact ih hy hoff

/-- A drudger goes on while there is something to take, unless it has gone. -/
theorem stepDrudger_eq_some {d : Nat} {y : Drudger} (c : Collaborators σ)
    (hy : p.drudgers[d]? = some y) (hitems : p.queue.items ≠ []) (hoff : y.phase ≠ .off) :
    ∃ p', p.stepDrudger c d = some p' := by
  simp only [stepDrudger, hy]
  cases hphase : y.phase with
  | idle =>
    have hbare : p.queue.isBare y.exit = false := by simp [HandoffQueue.isBare, hitems]
    simp only [hbare]
    rcases p.queue.pop y.exit with ⟨_ | handoff, queue, wakes⟩
    · exact ⟨_, rfl⟩
    · exact ⟨_, rfl⟩
  | holding handoff => exact ⟨_, rfl⟩
  | reporting owner signed => exact ⟨_, rfl⟩
  | off => exact absurd hphase hoff

end Pool

namespace Floor

variable {σ : Type} {c : Collaborators σ} {f f' : Floor σ}

namespace Reachable

/-- Who waits at the queue of a pool is a crowd. -/
theorem crowd (h : f.Reachable c) : f.crowd.Reachable := by
  induction h with
  | made _ _ workers drudgers _ capacity threshold =>
    exact .initial capacity threshold workers drudgers
  | @step f f' _ hstep ih =>
    cases hstep with
    | visit _ _ hcrowd => exact ih.step hcrowd
    | doze _ _ _ hcrowd => exact ih.step hcrowd
    | other hdeed hact hproducers hconsumers =>
      rcases Pool.deed_of_act hact with ⟨-, hqueue⟩ | ⟨deed, hsome, -⟩
      · have hsame : f'.crowd = f.crowd := by simp only [Floor.crowd, hqueue, hproducers, hconsumers]
        rwa [hsame]
      · rw [hdeed] at hsome
        cases hsome

/-- To sleep is nothing that a pool does. -/
theorem runs (h : f.Reachable c) : ∃ log, Pool.Runs c f.pool log := by
  induction h with
  | made => exact ⟨[], .made ..⟩
  | step _ hstep ih =>
    obtain ⟨log, hruns⟩ := ih
    cases hstep with
    | visit _ hact => exact ⟨_, hruns.act hact⟩
    | doze _ _ hpool => exact ⟨log, hpool ▸ hruns⟩
    | other _ hact => exact ⟨_, hruns.act hact⟩

/-- While a worker waits for drudgers and a job of it is queued, no drudger is asleep. -/
theorem awake (h : f.Reachable c) {w : Nat} {t : Task} {batch : Batch} {handoff : Handoff}
    (hphase : f.pool.phase? w = some (.stepping t (.awaiting batch)))
    (hmem : handoff ∈ f.pool.queue.items) (howner : handoff.owner = w) : .asleep ∉ f.consumers := by
  induction h generalizing w t batch handoff with
  | made => cases hmem
  | @step f f' hreach hstep ih =>
    intro hasleep
    cases hstep with
    | visit hdeed hact hcrowd =>
      rcases Pool.awaiting_of_act hact hphase with hkick | ⟨hbefore, hitems⟩
      · obtain rfl := Option.some.inj (hdeed.symm.trans hkick)
        exact List.ne_nil_of_mem hmem (hcrowd.items_of_kick hasleep)
      · rcases hcrowd.asleep_of_mem hasleep with hasleep | hnil
        · exact ih hbefore (hitems _ hmem howner) howner hasleep
        · exact List.ne_nil_of_mem hmem hnil
    | doze _ _ hpool hcrowd =>
      rw [hpool] at hphase hmem
      rcases hcrowd.asleep_of_mem hasleep with hasleep | hnil
      · exact ih hphase hmem howner hasleep
      · rw [show f'.crowd.queue = f.pool.queue from congrArg Pool.queue hpool] at hnil
        exact List.ne_nil_of_mem hmem hnil
    | other hdeed hact _ hconsumers =>
      rw [hconsumers] at hasleep
      rcases Pool.awaiting_of_act hact hphase with hkick | ⟨hbefore, hitems⟩
      · rw [hdeed] at hkick
        cases hkick
      · exact ih hbefore (hitems _ hmem howner) howner hasleep

end Reachable

def allUp (p : Pool σ) : Floor σ where
  pool := p
  producers := .replicate p.workers.length .up
  consumers := .replicate p.drudgers.length .up

private theorem length_of_act {p p' : Pool σ} {a : Act σ} (h : p.act c a = some p') :
    p'.workers.length = p.workers.length ∧ p'.drudgers.length = p.drudgers.length := by
  cases a with
  | worker w =>
    obtain ⟨x, hx, hsection⟩ := Pool.workerSection_of_step h
    obtain ⟨⟨y, hworkers, -⟩, hdrudgers, -⟩ := hsection.frame hx
    rw [hworkers, hdrudgers, List.length_set]
    exact ⟨rfl, rfl⟩
  | drudger d =>
    obtain ⟨y, -, hsection⟩ := Pool.drudgerSection_of_step h
    cases hsection <;> simp [Pool.report]
  | dispatch w batch =>
    obtain ⟨_, _, _, _, _, _, rfl⟩ := Pool.dispatch_eq_some h
    simp [Pool.setWorker]
  | start =>
    obtain ⟨-, rfl⟩ := Pool.start_eq_ok (Pool.act_start_eq_some h)
    simp
  | use what | tellWorkers told | tellDrudgers told | elsewhere rest =>
    cases h
    simp

/-- Only workers append, and only drudgers have to wait to take. -/
theorem within_of_deed? {p : Pool σ} {a : Act σ} {deed : Deed Handoff}
    (h : p.deed? a = some deed) : deed.Within p.workers.length p.drudgers.length := by
  cases a with
  | worker w =>
    have hw : w < p.workers.length := by
      refine Nat.lt_of_not_le fun hle => ?_
      simp [Pool.deed?, Pool.workerDeed?, Pool.phase?, List.getElem?_eq_none hle] at h
    simp only [Pool.deed?, Pool.workerDeed?] at h
    split at h
    · split at h <;> cases h
      exact hw
    · split at h <;> cases h
      trivial
    · cases h
  | drudger d =>
    simp only [Pool.deed?, Pool.drudgerDeed?] at h
    split at h <;> cases h
    next hd => exact (List.getElem?_eq_some_iff.mp hd).1
  | use what =>
    cases h
    trivial
  | dispatch | start | tellWorkers | tellDrudgers | elsewhere => cases h

/-- Whatever a pool does, it can do while nobody waits. -/
theorem reachable_of_runs {p : Pool σ} {log : List Event} (h : Pool.Runs c p log) :
    (allUp p).Reachable c := by
  induction h with
  | made around now workers drudgers maxBackoff capacity threshold =>
    have hmade := Reachable.made (c := c) around now workers drudgers maxBackoff capacity threshold
    simpa only [allUp, Pool.ofLimits, List.length_replicate] using hmade
  | @act p p' log a _ hact ih =>
    obtain ⟨hworkers, hdrudgers⟩ := length_of_act hact
    refine ih.step ?_
    rcases Pool.deed_of_act hact with ⟨hnone, -⟩ | ⟨deed, hdeed, hleads⟩
    · exact .other hnone hact (by rw [allUp, hworkers]; rfl) (by rw [allUp, hdrudgers]; rfl)
    · have hup : (allUp p).crowd.AllUp :=
        ⟨fun s hs => (List.mem_replicate.mp hs).2, fun s hs => (List.mem_replicate.mp hs).2⟩
      have hwithin := within_of_deed? hdeed
      refine .visit hdeed hact ?_
      have hstep := hup.step hleads (by simpa only [crowd, allUp, List.length_replicate] using hwithin)
      simpa only [crowd, allUp, hworkers, hdrudgers] using hstep

/-- No wake-up is lost. However many producers and consumers a queue has, and whatever they do: a
consumer that is asleep, and has not been woken, finds the queue open and fewer items in it than wake
the consumers; a producer that is asleep, and has not been woken, finds the queue open and no more
room in it than those producers may take who have been woken. The threads of a pool are such
producers and consumers; and when a worker waits for drudgers while a job of it is queued, none of
them is asleep, and all of them can go on unless the queue is closed or they are told to go. -/
theorem no_wakeup_lost :
    (∀ {α : Type} {cr : Crowd α}, cr.Reachable →
      (∀ {i : Nat}, cr.consumers[i]? = some .asleep →
        cr.queue.closed = false ∧ cr.queue.size < cr.queue.threshold) ∧
      ∀ {i : Nat}, cr.producers[i]? = some .asleep → cr.queue.closed = false ∧
        cr.queue.capacity - cr.queue.size ≤ cr.producers.count .woken) ∧
    ∀ {σ : Type} {c : Collaborators σ} {f : Floor σ}, f.Reachable c → f.crowd.Reachable ∧
      ∀ {w : Nat} {t : Task} {batch : Batch} {handoff : Handoff},
        f.pool.phase? w = some (.stepping t (.awaiting batch)) →
        handoff ∈ f.pool.queue.items → handoff.owner = w → .asleep ∉ f.consumers ∧
          (f.pool.queue.closed = false → (∀ y ∈ f.pool.drudgers, y.exit = false) →
            ∀ d < f.pool.drudgers.length, ∃ p', f.pool.stepDrudger c d = some p') := by
  refine ⟨fun {α cr} h => ⟨fun {i} hi => ?_, fun {i} hi => ?_⟩, fun {σ c f} h => ⟨h.crowd,
    fun {w t batch handoff} hphase hmem howner => ⟨h.awake hphase hmem howner, ?_⟩⟩⟩
  · exact (Crowd.sound_of_reachable h).consumers (List.mem_of_getElem? hi)
  · obtain ⟨hopen, hroom⟩ := (Crowd.sound_of_reachable h).producers (List.mem_of_getElem? hi)
    exact ⟨hopen, by omega⟩
  · intro hopen hstay d hd
    obtain ⟨log, hruns⟩ := h.runs
    have hy := List.getElem?_eq_getElem hd
    refine Pool.stepDrudger_eq_some c hy (List.ne_nil_of_mem hmem) fun hoff => ?_
    obtain ⟨x, hx, hstep⟩ := Option.map_eq_some_iff.mp hphase
    rcases hruns.drudger_off (List.getElem_mem hd) hoff with hstarted | hexit | hclosed
    · rw [hruns.allKept.resting hstarted hx] at hstep
      cases hstep
    · rw [hstay _ (List.getElem_mem hd)] at hexit
      cases hexit
    · rw [hopen] at hclosed
      cases hclosed

/-- Two producers append, three find the queue full, and two of them are woken. Then the consumer
finds it bare. -/
def crowding : List (Deed Nat) :=
  [.push 0 1, .push 1 2, .push 2 3, .push 3 4, .push 4 5, .pop 0 false, .pop 0 false, .pop 0 false]

def shortBatch : Batch where
  jobs := [⟨"a", "a", 7, 60⟩]
  serial := 7
  resignSecs := 60

def shortQueue : HandoffQueue Handoff where
  capacity := 2
  threshold := 2
  items := [⟨⟨"a", "a", 7, 60⟩, 0⟩]

/-- A drudger sleeps until the worker kicks the queue. -/
theorem no_wakeup_lost_shortBatch :
    (∃ cr : Crowd Nat, cr.Reachable ∧ cr.consumers[0]? = some .asleep ∧
      cr.producers[4]? = some .asleep ∧ cr.queue.size < cr.queue.threshold ∧
      cr.queue.capacity - cr.queue.size ≤ cr.producers.count .woken) ∧
    ∃ f : Floor FileWorld, f.Reachable fileCollaborators ∧ f.pool.queue = shortQueue ∧
      f.consumers.length = 1 ∧ .asleep ∉ f.consumers ∧
      ∃ p', f.pool.stepDrudger fileCollaborators 0 = some p' := by
  constructor
  · have hcrowd : ((Crowd.ofLimits 2 2 5 1).follow crowding).any fun cr =>
        cr.consumers[0]? = some .asleep ∧ cr.producers[4]? = some .asleep := by decide
    obtain ⟨cr, hcr, hcrowd⟩ := (Option.any_eq_true _ _).mp hcrowd
    obtain ⟨hconsumer, hproducer⟩ := of_decide_eq_true hcrowd
    have hreach := (Crowd.Reachable.initial 2 2 5 1).follow hcr
    obtain ⟨hconsumers, hproducers⟩ := no_wakeup_lost.1 hreach
    exact ⟨cr, hreach, hconsumer, hproducer, (hconsumers hconsumer).2, (hproducers hproducer).2⟩
  · have hrun : (Moment.oneZone.follow fileCollaborators Moment.firstPass).any fun m =>
        ((Pool.ofLimits m.pool.around 7 1 1 3600 2 2).acts fileCollaborators
            [.elsewhere m.pool, .start, .worker 0, .dispatch 0 shortBatch]).any fun p =>
          (p.act fileCollaborators (.worker 0)).any fun p₁ =>
            (p₁.act fileCollaborators (.worker 0)).any fun p₂ =>
              (p.workers.length = 1 ∧ p.drudgers.length = 1 ∧ p.queue = .ofLimits 2 2 ∧
                p.deed? (.drudger 0) = some (.pop 0 false) ∧
                (p.act fileCollaborators (.drudger 0)).isNone ∧
                p.deed? (.worker 0) = some (.push 0 ⟨⟨"a", "a", 7, 60⟩, 0⟩)) ∧
              (p₁.queue = shortQueue ∧ p₁.deed? (.worker 0) = some (.use .kick)) ∧
              p₂.queue = shortQueue ∧ p₂.drudgers = [{ phase := .idle }] ∧
              (p₂.held? 0).any fun t => p₂.phase? 0 = some (.stepping t (.awaiting shortBatch)) := by
      decide +kernel
    obtain ⟨m, hm, hrun⟩ := (Option.any_eq_true _ _).mp hrun
    obtain ⟨p, hp, hrun⟩ := (Option.any_eq_true _ _).mp hrun
    obtain ⟨p₁, hp₁, hrun⟩ := (Option.any_eq_true _ _).mp hrun
    obtain ⟨p₂, hp₂, hrun⟩ := (Option.any_eq_true _ _).mp hrun
    obtain ⟨⟨hworkers, hdrudgers, hbare, hpop, hwait, hpush⟩, ⟨hqueue₁, hkick⟩, hqueue₂, hthreads,
      hawaiting⟩ := of_decide_eq_true hrun
    obtain ⟨log, hruns⟩ := (Pool.Runs.made m.pool.around 7 1 1 3600 2 2).acts hp
    have hup : (allUp p).crowd = ⟨.ofLimits 2 2, [.up], [.up]⟩ := by
      simp [crowd, allUp, hworkers, hdrudgers, hbare]
    -- The drudger falls asleep, the worker appends its only job, and then it kicks the queue.
    have hdoze : (allUp p).Step fileCollaborators ⟨p, [.up], [.asleep]⟩ := by
      refine .doze hpop (Option.isNone_iff_eq_none.mp hwait) rfl ?_
      rw [hup]
      simp only [crowd, hbare]
      exact Crowd.step_of_next rfl
    have happend : Step fileCollaborators ⟨p, [.up], [.asleep]⟩ ⟨p₁, [.up], [.asleep]⟩ := by
      refine .visit hpush hp₁ ?_
      simp only [crowd, hbare, hqueue₁]
      exact Crowd.step_of_next rfl
    have hwake : Step fileCollaborators ⟨p₁, [.up], [.asleep]⟩ ⟨p₂, [.up], [.woken]⟩ := by
      refine .visit hkick hp₂ ?_
      simp only [crowd, hqueue₁, hqueue₂]
      exact Crowd.step_of_next rfl
    have hreach := (((reachable_of_runs hruns).step hdoze).step happend).step hwake
    obtain ⟨t, -, hphase⟩ := (Option.any_eq_true _ _).mp hawaiting
    have hmem : (⟨⟨"a", "a", 7, 60⟩, 0⟩ : Handoff) ∈ p₂.queue.items := by simp [hqueue₂, shortQueue]
    obtain ⟨hawake, hgo⟩ := (no_wakeup_lost.2 hreach).2 (of_decide_eq_true hphase) hmem rfl
    have hnext := hgo (by simp [hqueue₂, shortQueue]) (by simp [hthreads]) 0 (by simp [hthreads])
    exact ⟨_, hreach, hqueue₂, rfl, hawake, hnext⟩

end Floor

end ZoneSigning
