import ZoneSigning.Proofs.SigningCalls

/-!
A worker that hands jobs over gets what it would get if it signed them itself. Whatever batches the
workers hand over, and whoever else uses the queue: a worker counts the answers to the jobs of its
present batch and nothing else, and without an answer to each of them it gets a tally at no moment.
-/
namespace ZoneSigning.Pool

variable {σ : Type} {c : Collaborators σ} {p p' : Pool σ} {w : Nat} {x y : Worker}
  {log : List Event}

/-- What is known of a worker's jobs, whatever batch it has come to. -/
structure Kept (p : Pool σ) (log : List Event) (w : Nat) (x : Worker) : Prop where
  call : ∀ {t batch left}, x.phase.call? = some (t, batch, left) →
    ∃ s, presentStep? w log = some s ∧ s.task = t ∧ (p.Counts w batch left s.answers ∨
      -- Jobs of an earlier batch may still be around, but none of this one gets away.
      p.queue.closed ∧ p.drudgers ≠ [] ∧ x.phase = .stepping t (.signing batch batch.jobs))
  /-- A worker that has given up without having to hands no jobs over any more. -/
  rests : x.phase.call? = none → p.Rests w ∨ x.exit ∧ x.phase.isHolding = false

/-- What is known of the jobs of all workers. -/
structure AllKept (p : Pool σ) (log : List Event) : Prop where
  kept : ∀ {w : Nat} {x : Worker}, p.workers[w]? = some x → p.Kept log w x
  inline : p.drudgers = [] → p.queue.items = []
  resting : p.started = false → ∀ {w : Nat} {x : Worker}, p.workers[w]? = some x → x.phase = .off

namespace Kept

/-- As long as a worker does not go on, what is known of its jobs remains. -/
theorem flows {new : List Event} (h : p.Kept log w x) (hf : p.Flows p' w (answersTo w new))
    (hnew : ∀ t z, .began w t z ∉ new) (hphase : y.phase = x.phase) (hexit : x.exit → y.exit) :
    p'.Kept (new ++ log) w y where
  call hcall := by
    rw [hphase] at hcall ⊢
    obtain ⟨s, hs, htask, hcounts⟩ := h.call hcall
    refine ⟨{ s with answers := answersTo w new ++ s.answers }, ?_, htask, ?_⟩
    · rw [presentStep?_append hnew, hs]
      rfl
    · rcases hcounts with hcounts | ⟨hclosed, hdrudgers, hstale⟩
      · exact .inl (hcounts.flows hf)
      · exact .inr ⟨hf.closed hclosed, fun hnil => hdrudgers (hf.inline.mp hnil), hstale⟩
  rests hnone := by
    rw [hphase] at hnone ⊢
    exact (h.rests hnone).imp (·.flows hf) (And.imp_left hexit)

private theorem of_rests (hphase : y.phase.call? = none) (hheld : y.phase.isHolding = false)
    (h : p.Rests w ∨ y.exit) : p.Kept log w y where
  call hcall := by
    rw [hphase] at hcall
    cases hcall
  rests _ := h.imp_right fun hexit => ⟨hexit, hheld⟩

private theorem of_call {t : Task} {batch : Batch} {left : List SignJob} {s : Progress}
    (hcall : y.phase.call? = some (t, batch, left)) (hs : presentStep? w log = some s)
    (htask : s.task = t) (h : p.Counts w batch left s.answers ∨
      p.queue.closed ∧ p.drudgers ≠ [] ∧ y.phase = .stepping t (.signing batch batch.jobs)) :
    p.Kept log w y where
  call hcall' := by
    cases Option.some.inj (hcall.symm.trans hcall')
    exact ⟨s, hs, htask, h⟩
  rests hnone := by
    rw [hcall] at hnone
    cases hnone

end Kept

namespace AllKept

private theorem kept_appoint {t : Task} {z : Zone} {batch : Batch} (h : p.AllKept log)
    (hx : p.workers[w]? = some x) (hphase : x.phase = .holding t)
    (hp : p' = p.setWorker w { x with
      phase := .stepping t (.signing batch batch.jobs)
      tally := { appointed := batch.jobs.length } })
    (hy : p'.workers[w]? = some y) : p'.Kept (.began w t z :: log) w y := by
  subst hp
  rw [setWorker, List.getElem?_set_self (List.getElem?_eq_some_iff.mp hx).1] at hy
  obtain rfl := Option.some.inj hy
  refine .of_call (s := { task := t, zone := z }) rfl (by simp [presentStep?]) rfl ?_
  by_cases hdrudgers : p.drudgers = []
  · exact .inl (.appoint (.of_inline (h.inline hdrudgers) hdrudgers) hx _)
  · have hrests := ((h.kept hx).rests (by rw [hphase]; rfl)).resolve_right
      fun hexit => by simp [hphase, WorkerPhase.isHolding] at hexit
    exact hrests.imp (.appoint · hx _) fun hclosed => ⟨hclosed, hdrudgers, rfl⟩

private theorem rests_collecting {t : Task} {batch : Batch} {tally : JobTally} (h : p.AllKept log)
    (hx : p.workers[w]? = some x) (hphase : x.phase = .stepping t (.signing batch []))
    (htally : batch.jobs = [] ∧ tally = {} ∨ p.signsInline ∧ tally = x.tally) : p.Rests w := by
  rcases htally with ⟨hjobs, -⟩ | ⟨hinline, -⟩
  · obtain ⟨s, -, -, hcounts⟩ := (h.kept hx).call (by rw [hphase]; rfl)
    exact hcounts.imp (fun hcounts => (hcounts.of_nil hjobs).1) And.left
  · have hnil := List.isEmpty_iff.mp hinline
    exact .inl (.of_inline (h.inline hnil) hnil)

private theorem rests_gather {t : Task} {batch : Batch} (h : p.AllKept log)
    (hx : p.workers[w]? = some x) (hphase : x.phase = .stepping t (.awaiting batch))
    (hdone : x.tally.isOutstanding = false) : p.Rests w := by
  obtain ⟨s, -, -, hcounts⟩ := (h.kept hx).call (by rw [hphase]; rfl)
  have hcounts := hcounts.resolve_right fun hstale => by simp [hphase] at hstale
  exact .inl (hcounts.returned (by simp [tally?, hx]) hdone).1

private theorem kept_self (h : p.AllKept log) (hx : p.workers[w]? = some x)
    (hsection : WorkerSection c p w x p') (hy : p'.workers[w]? = some y) :
    p'.Kept (p.workerEvents c w ++ log) w y := by
  have hk := h.kept hx
  have hafter := phase?_of_get hy
  have hexit := hsection.exit_eq hx hy
  have hd := hsection.drudgers hx
  have hend {next : WorkerPhase} (he : next = y.phase) (hnext : next.call? = none)
      (hheld : next.isHolding = false) (hrests : p'.Rests w ∨ x.exit) :
      p'.Kept (p.workerEvents c w ++ log) w y :=
    .of_rests (he ▸ hnext) (he ▸ hheld) (hexit ▸ hrests)
  -- A worker that has no jobs signed has as many with others as before.
  have hquiet {next : WorkerPhase} (hcall : x.phase.call? = none) (he : next = y.phase)
      (hnext : next.call? = none) (hheld : next.isHolding = false) (hq : p'.queue = p.queue) :
      p'.Kept (p.workerEvents c w ++ log) w y :=
    hend he hnext hheld ((hk.rests hcall).imp (·.congr hq hd) And.left)
  have hcollect {t : Task} {z : Zone} {batch : Batch} {tally : JobTally}
      (hp : p' = p.collect w t batch tally z) (hrests : p.Rests w) :
      p'.Kept (p.workerEvents c w ++ log) w y := by
    have hrests : p'.Rests w ∨ x.exit := .inl (hrests.congr (by simp [hp, Pool.collect]) hd)
    rw [hp] at hafter
    rcases eq_of_phase?_collect hafter with he | ⟨e, he⟩
    · exact hend he rfl rfl hrests
    · exact hend he rfl rfl hrests
  cases hsection with
  | take hphase hstay =>
    have he := eq_of_phase?_setWorker hafter
    have hrests := (hk.rests (by rw [hphase]; rfl)).resolve_right fun hexit => by simp [hstay] at hexit
    exact ⟨fun hcall => (by rw [← he] at hcall; cases hcall), fun _ => .inl (hrests.congr rfl rfl)⟩
  | leave hphase =>
    exact hquiet (by rw [hphase]; rfl) (eq_of_phase?_setWorker hafter) rfl rfl rfl
  | prepare hphase | retreat hphase | load hphase | read hphase | write hphase | publish hphase =>
    exact hquiet (by rw [hphase]; rfl) (eq_of_phase?_goTo hafter) rfl rfl (by simp)
  | @settle t z o hphase =>
    obtain ⟨_, _, _, he⟩ := p.settle_eq w t o z
    rw [he] at hafter
    exact hquiet (by rw [hphase]; rfl) (eq_of_phase?_goTo hafter) rfl rfl (by rw [he]; rfl)
  | @tell drained hphase =>
    obtain ⟨_, he⟩ := p.tell_eq w drained
    rw [he] at hafter
    exact hquiet (by rw [hphase]; rfl) (eq_of_phase?_goTo hafter) rfl rfl (by rw [he]; rfl)
  | @appoint t z batch hphase hz =>
    rw [workerEvents_holding hx hphase hz]
    exact h.kept_appoint hx hphase rfl hy
  | @signInline t z batch job left answer around hphase _ hinline hsign =>
    obtain ⟨s, hs, htask, hcounts⟩ := hk.call (by rw [hphase]; rfl)
    have hnil := List.isEmpty_iff.mp hinline
    have hcounts := hcounts.resolve_right fun hstale => hstale.2.1 hnil
    rw [workerEvents_signInline hx hphase hinline hsign]
    exact .of_call (s := { s with answers := (job, answer.isOk) :: s.answers })
      (by rw [← eq_of_phase?_goTo hafter]; rfl) (by simp [presentStep?, hs]) htask
      (.inl (hcounts.signInline hnil _))
  | handOver hphase _ hdrudgers _ hopen =>
    obtain ⟨s, hs, htask, hcounts⟩ := hk.call (by rw [hphase]; rfl)
    have hcounts := hcounts.resolve_right fun hstale => by simp [hopen] at hstale
    rw [workerEvents_eq_nil hx hphase (by simp) fun _ _ _ _ _ => hdrudgers]
    exact .of_call (by rw [← eq_of_phase?_goTo hafter]; rfl) hs htask
      (.inl (hcounts.handOver (by simpa [signsInline] using hdrudgers) _))
  | wait hphase _ hjobs =>
    obtain ⟨s, hs, htask, hcounts⟩ := hk.call (by rw [hphase]; rfl)
    have hcounts := hcounts.resolve_right fun hstale => hjobs (by simpa [hphase] using hstale.2.2)
    rw [workerEvents_eq_nil hx hphase (by simp) (by simp)]
    exact .of_call (by rw [← eq_of_phase?_goTo hafter]; rfl) hs htask
      (.inl (hcounts.congr (tally?_goTo ..) rfl rfl))
  | refuse _ _ _ hclosed => exact hend (eq_of_phase?_goTo hafter) rfl rfl (.inl (.inr hclosed))
  | giveUp _ _ _ hgone =>
    exact hend (eq_of_phase?_goTo hafter) rfl rfl (hgone.symm.imp_left .inr)
  | collect hphase _ htally => exact hcollect rfl (h.rests_collecting hx hphase htally)
  | gather hphase _ hdone => exact hcollect rfl (h.rests_gather hx hphase hdone)

/-- In a pool that has just been made, all jobs are kept track of. -/
theorem ofLimits (around : σ) (now workers drudgers maxBackoff capacity threshold : Nat) :
    (Pool.ofLimits around now workers drudgers maxBackoff capacity threshold).AllKept [] where
  kept hx := by
    have hoff := (worker_ofLimits _ _ _ _ _ _ _ hx).1
    exact .of_rests (by rw [hoff]; rfl) (by rw [hoff]; rfl) (.inl (.inl (.ofLimits ..)))
  inline _ := rfl
  resting _ _ _ hx := (worker_ofLimits _ _ _ _ _ _ _ hx).1

private theorem of_self (h : p.AllKept log) (hx : p.workers[w]? = some x) (hrunning : x.phase ≠ .off)
    (hself : ∀ {y : Worker}, p'.workers[w]? = some y → p'.Kept (p.workerEvents c w ++ log) w y)
    (hothers : ∀ {v}, v ≠ w → p'.workers[v]? = p.workers[v]? ∧ p.Flows p' v [])
    (hinline : p'.drudgers = [] → p'.queue.items = []) (hstarted : p'.started = p.started) :
    p'.AllKept (p.workerEvents c w ++ log) where
  kept {v y} hy := by
    by_cases hv : v = w
    · subst hv
      exact hself hy
    · obtain ⟨hsame, hflows⟩ := hothers hv
      rw [hsame] at hy
      refine (h.kept hy).flows ?_ (fun t z hmem => ?_) rfl id
      · rwa [WorkerSection.answersTo_other c p hv]
      · exact hv (WorkerSection.began_of_mem_events hmem)
  inline := hinline
  resting hoff := absurd (h.resting (hstarted ▸ hoff) hx) hrunning

private theorem of_others (new : List Event) (h : p.AllKept log) (hphase : ∀ v, p'.phase? v = p.phase? v)
    (hexit : ∀ {v : Nat} {x y : Worker}, p.workers[v]? = some x → p'.workers[v]? = some y →
      x.exit → y.exit)
    (hflows : ∀ v, p.Flows p' v (answersTo v new)) (hnew : ∀ {v t z}, .began v t z ∉ new)
    (hinline : p'.drudgers = [] → p'.queue.items = []) (hstarted : p'.started = p.started) :
    p'.AllKept (new ++ log) := by
  have hbefore {v : Nat} {y : Worker} (hy : p'.workers[v]? = some y) :
      ∃ x, p.workers[v]? = some x ∧ x.phase = y.phase :=
    Option.map_eq_some_iff.mp ((hphase v).symm.trans (phase?_of_get hy))
  constructor
  case kept =>
    intro v y hy
    obtain ⟨x, hx, hsame⟩ := hbefore hy
    exact (h.kept hx).flows (hflows v) (fun t z => hnew) hsame.symm (hexit hx hy)
  case inline => exact hinline
  case resting =>
    intro hoff v y hy
    obtain ⟨x, hx, hsame⟩ := hbefore hy
    exact hsame.symm.trans (h.resting (hstarted ▸ hoff) hx)

private theorem worker (h : p.AllKept log) (hstep : p.stepWorker c w = some p') :
    p'.AllKept (p.workerEvents c w ++ log) := by
  obtain ⟨x, hx, hsection⟩ := workerSection_of_step hstep
  exact h.of_self hx hsection.phase_ne_off (h.kept_self hx hsection)
    (fun hv => ⟨hsection.worker_other hx hv, hsection.flows_other hx hv⟩)
    (hsection.queue_inline hx h.inline) (hsection.started hx)

private theorem dispatch {batch : Batch} (h : p.AllKept log)
    (hstep : p.dispatch w batch = some p') : p'.AllKept (p.workerEvents c w ++ log) := by
  obtain ⟨x, t, z, hx, hphase, hz, hp⟩ := dispatch_eq_some hstep
  refine h.of_self hx (by simp [hphase]) (fun hy => ?_) (fun {v} hv => ?_) ?_ ?_
  · rw [workerEvents_holding hx hphase hz]
    exact h.kept_appoint hx hphase hp hy
  · have hworker : p'.workers[v]? = p.workers[v]? := by
      rw [hp, setWorker, List.getElem?_set_ne hv.symm]
    refine ⟨hworker, .of_eq (fun q => ?_) (fun b => ?_) ?_ ?_ ?_⟩
    · exact Nat.le_of_eq (pending_congr (by rw [hp]; rfl) (by rw [hp]; rfl))
    · rw [hp]
      rfl
    · rw [tally?, hworker, tally?]
    · rw [hp]
      exact id
    · rw [hp]
      rfl
  · rw [hp]
    exact h.inline
  · rw [hp]
    rfl

private theorem drudger {d : Nat} (h : p.AllKept log) (hstep : p.stepDrudger c d = some p') :
    p'.AllKept (p.drudgerEvents c d ++ log) := by
  obtain ⟨y, hy, hsection⟩ := drudgerSection_of_step hstep
  obtain ⟨-, -, -, hstarted, hphase⟩ := hsection.frame
  refine h.of_others _ hphase (fun hx hx' hexit => ?_) (hsection.flows hy)
    DrudgerSection.began_not_mem_events (fun hnil => ?_) hstarted
  · obtain ⟨x'', hx'', he⟩ := hsection.exit_eq hx'
    obtain rfl := Option.some.inj (hx.symm.trans hx'')
    exact he.trans hexit
  · rw [(hsection.flows hy 0).inline] at hnil
    exact absurd hnil (DrudgerSection.drudgers_ne_nil hy)

private theorem start (h : p.AllKept log) (hstart : p.start = .ok p') : p'.AllKept log := by
  obtain ⟨hoff, hp⟩ := start_eq_ok hstart
  constructor
  case kept =>
    intro w y hy
    rw [hp, List.getElem?_map, Option.map_eq_some_iff] at hy
    obtain ⟨x, hx, rfl⟩ := hy
    have hrests := (h.kept hx).rests (by rw [h.resting hoff hx]; rfl)
    refine .of_rests rfl rfl (hrests.imp (fun hrests => ?_) And.left)
    exact hrests.imp (·.start hstart) fun hclosed => by rw [hp]; exact hclosed
  case inline =>
    intro hnil
    rw [hp] at hnil ⊢
    exact h.inline (List.map_eq_nil_iff.mp hnil)
  case resting =>
    intro hfalse
    rw [hp] at hfalse
    cases hfalse

private theorem use (h : p.AllKept log) (what : QueueUse) :
    AllKept { p with queue := (what.apply p.queue).1 } log := by
  have hsuffix := what.items_apply_suffix p.queue
  refine h.of_others [] (fun _ => rfl) (fun hx hy => ?_) (fun v => ?_) List.not_mem_nil
    (fun hnil => ?_) rfl
  · obtain rfl := Option.some.inj (hx.symm.trans hy)
    exact id
  · refine .of_eq (fun q => ?_) (fun b => rfl) rfl (what.closed_apply ·) Iff.rfl
    exact Nat.add_le_add_right (hsuffix.sublist.countP_le) _
  · rw [h.inline hnil] at hsuffix
    exact List.suffix_nil.mp hsuffix

private theorem tellWorkers (h : p.AllKept log) (told : Nat → Bool) : AllKept { p with
    workers := p.workers.mapIdx fun w x => { x with exit := x.exit || told w } } log := by
  refine h.of_others [] (fun v => ?_) (fun hx hy => ?_) (fun v => ?_) List.not_mem_nil
    h.inline rfl
  · simp [phase?, Function.comp_def]
  · simp only [List.getElem?_mapIdx, hx, Option.map_some, Option.some.injEq] at hy
    simp +contextual [← hy]
  · refine .of_eq (fun q => Nat.le_refl _) (fun b => rfl) ?_ id Iff.rfl
    simp [tally?, Function.comp_def]

private theorem tellDrudgers (h : p.AllKept log) (told : Nat → Bool) : AllKept { p with
    drudgers := p.drudgers.mapIdx fun d y => { y with exit := y.exit || told d } } log := by
  have hsame (f : DrudgerPhase → Bool) : (p.drudgers.mapIdx fun d y =>
      { y with exit := y.exit || told d }).countP (f ·.phase) = p.drudgers.countP (f ·.phase) := by
    have hphases : (p.drudgers.mapIdx fun d y => { y with exit := y.exit || told d }).map (·.phase) =
        p.drudgers.map (·.phase) := List.ext_getElem? fun i => by simp [Function.comp_def]
    have hcount := congrArg (List.countP f) hphases
    rwa [List.countP_map, List.countP_map] at hcount
  refine h.of_others [] (fun v => rfl) (fun hx hy => ?_) (fun v => ?_) List.not_mem_nil
    (fun hnil => h.inline (by simpa using hnil)) rfl
  · obtain rfl := Option.some.inj (hx.symm.trans hy)
    exact id
  · refine .of_eq (fun q => ?_) (fun b => hsame _) rfl id (by simp)
    exact Nat.le_of_eq (congrArg (_ + ·) (hsame _))

/-- Every act keeps track of all jobs. -/
theorem act {a : Act σ} (h : p.AllKept log) (hact : p.act c a = some p') :
    p'.AllKept (p.actEvents c a ++ log) := by
  cases a with
  | worker w => exact h.worker hact
  | drudger d => exact h.drudger hact
  | dispatch w batch => exact h.dispatch hact
  | start => exact h.start (act_start_eq_some hact)
  | use what =>
    cases hact
    exact h.use what
  | tellWorkers told =>
    cases hact
    exact h.tellWorkers told
  | tellDrudgers told =>
    cases hact
    exact h.tellDrudgers told
  | elsewhere rest =>
    cases hact
    refine h.of_others [] (fun _ => rfl) (fun hx hy => ?_) (fun v => ?_) List.not_mem_nil
      h.inline rfl
    · obtain rfl := Option.some.inj (hx.symm.trans hy)
      exact id
    · exact .of_eq (fun q => Nat.le_refl _) (fun b => rfl) rfl id Iff.rfl

end AllKept

/-- At every point of a run, all jobs are kept track of. -/
theorem Runs.allKept (h : Runs c p log) : p.AllKept log := by
  induction h with
  | made => exact .ofLimits ..
  | act _ hact ih => exact ih.act hact

namespace Counts

variable {batch : Batch} {answers : List (SignJob × Bool)} {tally : JobTally}

/-- If as many jobs have been answered as there are, each has been answered once. -/
theorem perm (h : p.Counts w batch [] answers) (hall : batch.jobs.length ≤ answers.length) :
    (answers.map (·.1)).Perm batch.jobs := by
  refine List.perm_iff_count.mpr fun job => ?_
  have hthis := h.once (· == job)
  have hothers := h.once fun other => !(other == job)
  have hjobs := List.length_eq_countP_add_countP (· == job) (l := batch.jobs)
  have hanswers := List.length_eq_countP_add_countP (·.1 == job) (l := answers)
  simp only [List.countP_nil, Bool.not_eq_true, Bool.decide_eq_false] at hthis hothers hjobs hanswers
  rw [List.count_eq_countP, List.count_eq_countP, List.countP_map]
  simp only [Function.comp_def]
  omega

/-- When no job is outstanding, the tally is that of the answers. -/
theorem tally_eq (h : p.Counts w batch [] answers) (ht : p.tally? w = some tally)
    (hdone : tally.isOutstanding = false) :
    tally = .ofAnswers batch.jobs.length answers := by
  obtain ⟨hclear, -⟩ := h.returned ht hdone
  obtain ⟨u, hu, happointed, hcount⟩ := h.tally
  obtain rfl := Option.some.inj (ht.symm.trans hu)
  have hcompleted := hcount true
  have hfailed := hcount false
  rw [hclear.2] at hcompleted hfailed
  cases tally
  simp only [JobTally.of, if_true, Bool.false_eq_true, if_false, Nat.add_zero] at hcompleted hfailed
  simp only [JobTally.ofAnswers, JobTally.mk.injEq]
  exact ⟨happointed, hcompleted, hfailed⟩

end Counts

/-- The signer has been asked once for each job of the batch and for nothing else, and the tally is
that of its answers. A worker that signs by itself and is answered the same, in whatever order, gets
the same tally. -/
structure Tallies (batch : Batch) (answers : List (SignJob × Bool)) (tally : JobTally) : Prop where
  once : (answers.map (·.1)).Perm batch.jobs
  appointed : tally.appointed = batch.jobs.length
  completed : tally.completed = answers.countP (·.2 == true)
  failed : tally.failed = answers.countP (·.2 == false)
  all : tally.completed + tally.failed = tally.appointed
  inline : ∀ {τ : Type} (c' : Collaborators τ) (q : Pool τ) (v : Nat),
    q.SignsAlone v batch batch.jobs { appointed := batch.jobs.length } →
    (answersInTurn c' batch.jobs q.around).Perm answers →
    ∃ q', q.alone c' v batch.jobs.length = some q' ∧ q'.returns? v = some (.ok tally)

private theorem tallies_ofAnswers {batch : Batch} {answers : List (SignJob × Bool)}
    (honce : (answers.map (·.1)).Perm batch.jobs) :
    Tallies batch answers (.ofAnswers batch.jobs.length answers) where
  once := honce
  appointed := rfl
  completed := rfl
  failed := rfl
  all := by
    have hlength := honce.length_eq
    rw [List.length_map] at hlength
    rw [JobTally.ofAnswers, Counts.countP_signed, hlength]
  inline c' q v halone hperm := by
    obtain ⟨q', hrun, hreturns⟩ := returns_alone (c := c') halone
    exact ⟨q', hrun, hreturns.trans (by rw [JobTally.ofAnswers_perm hperm])⟩

/-- In a pool with drudgers, and whatever the threads, the users of the queue and everybody else have
done, the tally of a worker that has jobs signed and what is on its way to it are the answers that
its jobs have been given since the step began, and of its batch no job is in two places: it is left,
pending or answered. This fails only where the queue is closed before a job is handed over. When the
worker gets a tally, the signer has been asked once for each of the jobs, and the tally is the one
that the worker would get for these answers if it signed by itself. It gets none only if the queue is
closed or it is told to go. -/
theorem handed_over_as_signed_inline (h : Runs c p log) (hdrudgers : p.drudgers ≠ []) {t : Task}
    {batch : Batch} {left : List SignJob} (hx : p.workers[w]? = some x)
    (hcall : x.phase.call? = some (t, batch, left)) :
    ∃ s, presentStep? w log = some s ∧ s.task = t ∧
      (p.Counts w batch left s.answers ∨ p.queue.closed ∧ left = batch.jobs) ∧
      (∀ tally, p.returns? w = some (.ok tally) →
        ∃ answers, (batch.jobs ≠ [] → answers = s.answers) ∧ Tallies batch answers tally) ∧
      (∀ e, p.returns? w = some (.error e) → e = .shutdown ∧ (p.queue.closed ∨ x.exit)) ∧
      ∀ z p', p.zone? t = some z → p.stepWorker c w = some p' →
        (∃ answer, p.returns? w = some answer ∧ p' = p.returned w t batch z answer) ∨
        p.returns? w = none ∧ ∃ phase left', p'.phase? w = some phase ∧
          phase.call? = some (t, batch, left') := by
  obtain ⟨s, hs, htask, hcounts⟩ := (h.allKept.kept hx).call hcall
  refine ⟨s, hs, htask, ?_, fun tally hreturns => ?_, fun e => returns?_eq_error hx,
    fun z p' hz => stepWorker_of_call hx hcall hz⟩
  · rcases hcounts with hcounts | ⟨hclosed, -, hphase⟩
    · exact .inl hcounts
    · rw [hphase] at hcall
      cases hcall
      exact .inr ⟨hclosed, rfl⟩
  · rcases returns?_eq_ok hx hcall hdrudgers hreturns with ⟨hjobs, rfl⟩ | ⟨hphase, hdone, rfl⟩
    · refine ⟨[], fun hsome => absurd hjobs hsome, ?_⟩
      have htallies : Tallies batch [] _ := tallies_ofAnswers (by rw [hjobs]; rfl)
      rwa [JobTally.ofAnswers, hjobs] at htallies
    · have hcounts := hcounts.resolve_right fun hstale => by simp [hphase] at hstale
      rw [hphase] at hcall
      cases hcall
      have htally : p.tally? w = some x.tally := by simp [tally?, hx]
      rw [hcounts.tally_eq htally hdone]
      exact ⟨s.answers, fun _ => rfl, tallies_ofAnswers (hcounts.perm (hcounts.returned htally hdone).2)⟩

def halfGoodBatch : Batch where
  jobs := [⟨"a", "a", 7, 60⟩, ⟨"a", "b", 7, 0⟩]
  serial := 7
  resignSecs := 60

def handingOver : List (Act FileWorld) :=
  [.dispatch 0 halfGoodBatch] ++ List.replicate 3 (.worker 0) ++ List.replicate 6 (.drudger 0)

/-- In the engine for one zone, a worker gets a tally of one signature and one failure. -/
theorem handed_over_as_signed_inline_oneZone : ∃ p log answers, Runs fileCollaborators p log ∧
    p.drudgers ≠ [] ∧
    p.returns? 0 = some (.ok { appointed := 2, completed := 1, failed := 1 }) ∧
    Tallies halfGoodBatch answers { appointed := 2, completed := 1, failed := 1 } := by
  have hrun : (Moment.oneZone.follow fileCollaborators
      (Moment.firstPass ++ List.replicate 11 (.worker 0))).any fun m =>
        (m.pool.acts fileCollaborators handingOver).any fun p =>
          (p.phase? 0).any fun phase => (p.returns? 0).any fun answer =>
            phase.call?.any (·.2.1 = halfGoodBatch) ∧ p.drudgers ≠ [] ∧
              answer.toOption = some { appointed := 2, completed := 1, failed := 1 } := by
    decide +kernel
  obtain ⟨m, hm, hrun⟩ := (Option.any_eq_true _ _).mp hrun
  obtain ⟨p, hp, hrun⟩ := (Option.any_eq_true _ _).mp hrun
  obtain ⟨phase, hphase, hrun⟩ := (Option.any_eq_true _ _).mp hrun
  obtain ⟨answer, hreturns, hrun⟩ := (Option.any_eq_true _ _).mp hrun
  obtain ⟨hcall, hdrudgers, htally⟩ := of_decide_eq_true hrun
  obtain ⟨⟨t, batch, left⟩, hcall, hbatch⟩ := (Option.any_eq_true _ _).mp hcall
  obtain rfl : batch = halfGoodBatch := of_decide_eq_true hbatch
  obtain ⟨x, hx, rfl⟩ := Option.map_eq_some_iff.mp hphase
  cases answer with
  | error e => cases htally
  | ok tally =>
    obtain rfl := Option.some.inj htally
    obtain ⟨_, hlogged⟩ := (Moment.Logged.initial Moment.oneZone_initial).follow hm
    obtain ⟨log, hruns⟩ := hlogged.runs.acts hp
    obtain ⟨s, -, -, -, hok, -⟩ := handed_over_as_signed_inline hruns hdrudgers hx hcall
    obtain ⟨answers, -, htallies⟩ := hok _ hreturns
    exact ⟨p, log, answers, hruns, hdrudgers, hreturns, htallies⟩

end ZoneSigning.Pool
