import ZoneSigning.Proofs.LoggedRuns
import ZoneSigning.Proofs.WholePasses
import ZoneSigning.Report

/-!
What an engine does as a whole is a run of sections: requests, signals, the work of its threads, its
start and its end. So what holds of all runs holds of every engine that is used in these ways, in
any order.
-/
namespace ZoneSigning

/-- Whichever thread goes on while nothing happens around it, it does a section. -/
theorem Pool.step_of_stepAny {σ : Type} {c : Collaborators σ} {p p' : Pool σ}
    (h : p.stepAny c (fun _ p => p) = some p') :
    (∃ w, p.stepWorker c w = some p') ∨ ∃ d, p.stepDrudger c d = some p' := by
  rcases Option.or_eq_some_iff.mp h with hworker | ⟨-, hdrudger⟩
  · obtain ⟨w, -, hw⟩ := List.exists_of_findSome?_eq_some hworker
    refine .inl ⟨w, ?_⟩
    cases hcall : p.call? w <;> rw [hcall] at hw <;> exact hw
  · obtain ⟨d, -, hd⟩ := List.exists_of_findSome?_eq_some hdrudger
    exact .inr ⟨d, hd⟩

namespace Engine

variable {σ : Type} [HasFiles σ] {c : Collaborators σ} {e : Engine σ}

def idle {σ : Type} (e : Engine σ) : Moment σ := { engine := e }

omit [HasFiles σ] in
private theorem pool_idle (e : Engine σ) : e.idle.pool = e.pool := rfl

/-- Moves that do not belong to the end lead from one engine to the other. -/
def Reaches (c : Collaborators σ) (e e' : Engine σ) : Prop := Moment.Reaches c e.idle e'.idle

private theorem reaches_withLiveZone (what : ZoneRequest) (name : String)
    {act : Zone → Except ScheduleError Unit × Engine σ}
    (hact : ∀ z, Moment.Reaches c (e.idle.turn (.serving what e.pool.now z)) (act z).2.idle) :
    e.Reaches c (e.withLiveZone name act).2 := by
  have hstep : e.idle.step c (.request what name) = some (e.idle.receive what name) := rfl
  refine .step _ rfl hstep ?_
  unfold Moment.receive withLiveZone
  rw [pool_idle]
  cases e.pool.zones.find? name with
  | none => exact .refl
  | some z =>
    by_cases hstatus : z.status = .removed
    · simp only [if_pos hstatus]
      exact .refl
    · simp only [if_neg hstatus]
      exact hact z

/-- A request to flush a zone is the run of its sections. -/
theorem reaches_flushZone (e : Engine σ) (name : String) : e.Reaches c (e.flushZone name).2 :=
  reaches_withLiveZone .flush name fun _ => .proceed rfl .refl

omit [HasFiles σ] in
private theorem snd_flushMoved (z : Zone) (s : Schedule) :
    (flushMoved z s).2 = (s.flushZone z.key).2 := by
  unfold flushMoved
  rcases s.flushZone z.key with ⟨⟨e⟩ | ⟨⟩, s'⟩
  · dsimp only
    split <;> rfl
  · rfl

/-- A request to sign a zone is the run of its sections. -/
theorem reaches_signZone (e : Engine σ) (name : String) : e.Reaches c (e.signZone name).2 := by
  refine reaches_withLiveZone .sign name fun z => ?_
  have hserve : (e.idle.turn (.serving .sign e.pool.now z)).proceed =
      some ((e.idle.turn (.serving .sign e.pool.now z)).serve e.pool.now z .sign) := rfl
  refine .proceed hserve ?_
  unfold moveToRead
  simp only [Moment.serve, Moment.pool_turn, pool_idle]
  rcases e.pool.schedule.reschedule z.key .read e.pool.now with ⟨⟨error⟩ | ⟨⟩, s⟩
  · by_cases hmissing : error.failure = .notFound
    · simp only [if_pos hmissing]
      refine .proceed rfl ?_
      change Moment.Reaches c (e.withSchedule (s.schedule (Moment.signingTask e.pool.now z)).2).idle _
      unfold Moment.signingTask
      rcases s.schedule _ with ⟨⟨refusal⟩ | ⟨⟩, s'⟩
      · exact .refl
      · exact .refl
    · simp only [if_neg hmissing]
      exact .refl
  · refine .proceed rfl ?_
    dsimp only
    rw [snd_flushMoved]
    exact .refl

private theorem reaches_flushAll (e : Engine σ) : e.Reaches c e.flushAll.2 :=
  .step .flushAll rfl rfl .refl

private theorem reaches_requestReload (e : Engine σ) : e.Reaches c e.requestReload :=
  .step .reload rfl rfl .refl

/-- Every command but the one to stop is a run of sections. -/
theorem reaches_execute (e : Engine σ) {command : Command} (hstop : command ≠ .stop) :
    e.Reaches c (e.execute command).2 := by
  cases command with
  | help => exact .refl
  | zones => exact .refl
  | queue => exact .refl
  | flush zone =>
    cases zone with
    | none => exact reaches_flushAll e
    | some zone =>
      have hflush : e.Reaches c _ := reaches_flushZone e zone
      simp only [execute]
      generalize e.flushZone zone = answered at hflush ⊢
      rcases answered with ⟨⟨error⟩ | ⟨⟩, e'⟩
      · exact hflush
      · exact hflush
  | sign zone =>
    have hsign : e.Reaches c _ := reaches_signZone e zone
    simp only [execute]
    generalize e.signZone zone = answered at hsign ⊢
    rcases answered with ⟨⟨error⟩ | ⟨⟩, e'⟩
    · exact hsign
    · exact hsign
  | reload => exact reaches_requestReload e
  | stop => exact absurd rfl hstop
  | stats => exact .refl

/-- A whole pass is made of moves. -/
theorem reaches_pass (hrec : e.idle.Recorded) : e.Reaches c (e.pass e.pool.now).2 :=
  .step .pass rfl rfl (Moment.reaches_pass hrec rfl e.pool.now)

/-- Taking up a signal is the run of its sections. -/
theorem reaches_heed (hrec : e.idle.Recorded) {s : Signal} {rest : List Signal}
    (hsignals : e.pool.signals = s :: rest) :
    e.Reaches c (({ e with pool := { e.pool with signals := rest } } : Engine σ).heed s).2 := by
  have hstep : e.idle.step c .heed =
      some (({ e with pool := { e.pool with signals := rest } } : Engine σ).idle.heed s) := by
    simp only [Moment.step, pool_idle, hsignals]
    rfl
  have hpool {p : Pool σ} (hzones : p.zones = e.pool.zones) (hretired : p.retired = e.pool.retired) :
      p.Recorded := by
    have hf : e.pool.Follows (fun _ _ => True) (fun _ => False) p :=
      .refl hrec.pool (fun _ => trivial) hzones hretired
    exact hrec.pool.follows hf
  refine .step _ rfl hstep ?_
  cases s with
  | reload =>
    refine Moment.reaches_pass ⟨hpool rfl rfl, fun hfresh => ?_⟩ rfl _
    cases hfresh
  | workerIdle => exact Moment.reaches_evictDrained (hpool rfl rfl).keyed
  | shutdown => exact .refl

/-- Whichever thread goes on, the threads do nothing but sections. -/
theorem reaches_run (e : Engine σ) (fuel : Nat) :
    e.Reaches c { e with pool := e.pool.run c (fun _ p => p) fuel } := by
  induction fuel generalizing e with
  | zero => exact .refl
  | succ fuel ih =>
    unfold Pool.run
    cases hstep : e.pool.stepAny c fun _ p => p with
    | none => exact .refl
    | some p =>
      refine Relation.ReflTransGen.head ?_ (ih { e with pool := p })
      rcases Pool.step_of_stepAny hstep with ⟨w, hw⟩ | ⟨d, hd⟩
      · exact ⟨.worker w, rfl, congrArg (Option.map _) hw⟩
      · exact ⟨.drudger d, rfl, congrArg (Option.map _) hd⟩

private theorem reaches_work (e : Engine σ) : e.Reaches c (e.work c) := reaches_run e patience

/-- An engine that serves does nothing but sections. -/
theorem reaches_serve (hrec : e.idle.Recorded) (fuel : Nat) : e.Reaches c (e.serve c fuel).2 := by
  induction fuel generalizing e with
  | zero => exact .refl
  | succ fuel ih =>
    have hwork : e.Reaches c (e.work c) := reaches_work e
    have hrec' := Moment.Reaches.recorded hwork hrec
    refine hwork.trans ?_
    unfold serve
    dsimp only
    cases hsignals : (e.work c).pool.signals with
    | nil => exact .refl
    | cons s rest =>
      have hheed : (e.work c).Reaches c _ := reaches_heed hrec' hsignals
      dsimp only
      cases hgoesOn : ({ e.work c with
        pool := { (e.work c).pool with signals := rest } } : Engine σ).heed s with
      | mk goesOn e' =>
        rw [hgoesOn] at hheed
        cases goesOn with
        | true => exact hheed.trans (ih (Moment.Reaches.recorded hheed hrec'))
        | false => exact hheed

private theorem socket_pass (e : Engine σ) (now : Nat) : (e.pass now).2.socket = e.socket := by
  unfold pass
  split <;> rfl

private theorem reaches_openSocket (e : Engine σ) :
    e.Reaches c { e.openSocket.2 with socket := e.socket } := by
  unfold openSocket
  cases e.config.commandSocket with
  | none => exact .refl
  | some path =>
    dsimp only
    rcases (HasFiles.files e.pool.around).bindSocket path with ⟨⟨error⟩ | ⟨⟩, files⟩
    · exact .step (.happen _) rfl rfl .refl
    · exact .step (.happen _) rfl rfl .refl

/-- The start of an engine is the run of a pass and a few sections, apart from where the engine
listens, which none of them looks at. -/
theorem reaches_start (hrec : e.idle.Recorded) :
    e.Reaches c { e.start.2 with socket := e.socket } := by
  have hpass : e.Reaches c (e.pass e.pool.now).2 := reaches_pass hrec
  have hsocket := e.socket_pass e.pool.now
  unfold start
  cases hpassed : e.pass e.pool.now with
  | mk answer e' =>
    rw [hpassed] at hpass hsocket
    rw [← hsocket]
    cases answer with
    | error error => exact hpass
    | ok update =>
      refine Relation.ReflTransGen.trans hpass ?_
      dsimp only
      cases hstart : e'.pool.start with
      | error error => exact .refl
      | ok pool =>
        have hstep : e'.idle.step c .start = some ({ e' with pool := pool } : Engine σ).idle := by
          simp only [Moment.step, pool_idle, hstart]
          rfl
        exact Moment.Reaches.step _ rfl hstep (reaches_openSocket _)

private theorem pass_withSocket (e : Engine σ) (now : Nat) (socket : Option Path) :
    ({ e with socket := socket } : Engine σ).pass now =
      ((e.pass now).1, { (e.pass now).2 with socket := socket }) := by
  unfold pass
  dsimp only
  cases e.pool.zones.updateFrom (HasFiles.files e.pool.around) e.config.zonelist <;> rfl

private theorem start_withSocket (e : Engine σ) (socket socket' : Option Path) :
    ({ ({ e with socket := socket } : Engine σ).start.2 with socket := socket' } : Engine σ) =
      { e.start.2 with socket := socket' } := by
  unfold start
  rw [pass_withSocket]
  cases e.pass e.pool.now with
  | mk answer e' =>
    cases answer with
    | error error => rfl
    | ok update =>
      dsimp only
      cases e'.pool.start with
      | error error => rfl
      | ok pool =>
        dsimp only
        unfold openSocket
        cases e'.config.commandSocket with
        | none => rfl
        | some path =>
          dsimp only
          rcases (HasFiles.files pool.around).bindSocket path with ⟨⟨error⟩ | ⟨⟩, files⟩
          · rfl
          · rfl

/-- An engine that has been made and started is at a moment that can be reached. -/
theorem reachable_start {config : EngineConfig} {processors now : Nat} {around : σ}
    (h : ofConfig config processors now around = .ok e) : Moment.Reachable c e.start.2.idle := by
  -- The same start, of an engine that says from the beginning where it is going to listen.
  have hinitial : ({ e with socket := e.start.2.socket } : Engine σ).idle.Initial :=
    ⟨⟨config, processors, now, around, e, h, rfl⟩, rfl⟩
  have hstart := reaches_start (c := c) (Moment.recorded_initial hinitial)
  rw [start_withSocket] at hstart
  exact Moment.Reaches.reachable hstart (.initial hinitial)

/-- To look at the time and at what surrounds the engine takes two moves. -/
theorem reaches_look (e : Engine σ) (now : Nat) (around : σ) :
    e.Reaches c { e with pool := { e.pool with now := now, around := around } } :=
  .step (.tick now) rfl rfl (.step (.happen around) rfl rfl .refl)

/-- The engines that the program can have between two things that it does with an engine, before it
lets the engine stop. -/
inductive InUse (c : Collaborators σ) : Engine σ → Prop where
  | start {config : EngineConfig} {processors now : Nat} {around : σ} {e : Engine σ} :
      ofConfig config processors now around = .ok e → InUse c e.start.2
  | execute {e : Engine σ} {command : Command} : InUse c e → command ≠ .stop →
      InUse c (e.execute command).2
  | serve {e : Engine σ} (fuel : Nat) : InUse c e → InUse c (e.serve c fuel).2
  | look {e : Engine σ} (now : Nat) (around : σ) : InUse c e →
      InUse c { e with pool := { e.pool with now := now, around := around } }

/-- What holds of all moments that can be reached holds of every engine in use. -/
theorem InUse.reachable (h : InUse c e) : Moment.Reachable c e.idle := by
  induction h with
  | start hconfig => exact reachable_start hconfig
  | execute _ hstop ih => exact Moment.Reaches.reachable (reaches_execute _ hstop) ih
  | serve fuel _ ih =>
    exact Moment.Reaches.reachable (reaches_serve (Moment.recorded_of_reachable ih) fuel) ih
  | look now around _ ih =>
    exact Moment.Reaches.reachable (reaches_look _ now around) ih

/-- An engine that stops listening may change what surrounds it. -/
theorem closeSocket_eq (e : Engine σ) : ∃ around,
    e.closeSocket = { e with socket := none, pool := { e.pool with around := around } } := by
  unfold closeSocket
  split
  · next hsocket => exact ⟨e.pool.around, by rw [← hsocket]⟩
  · exact ⟨_, rfl⟩

/-- A queue that is closed stays so. -/
theorem closed_of_reaches {m m' : Moment σ} (h : Moment.Reaches c m m')
    (hclosed : m.pool.queue.closed) : m'.pool.queue.closed := by
  induction h with
  | refl => exact hclosed
  | tail _ hstep ih =>
    obtain ⟨move, hmove, hstep⟩ := hstep
    exact (Moment.closed_eq_of_step hmove hstep).trans ih

private theorem logged_of_reaches {m m' : Moment σ} {log : List Event} (h : Moment.Reaches c m m')
    (hlogged : Moment.Logged c m log) : ∃ log', Moment.Logged c m' log' := by
  induction h with
  | refl => exact ⟨log, hlogged⟩
  | tail _ hstep ih =>
    obtain ⟨move, -, hstep⟩ := hstep
    obtain ⟨log', hlogged⟩ := ih
    exact ⟨_, hlogged.step hstep⟩

private theorem logged_shutdownPool {log : List Event} (h : Moment.Logged c e.idle log)
    (fuel : Nat) :
    ∃ log', Moment.Logged c ({ e with pool := e.pool.shutdown c fuel } : Engine σ).idle log' := by
  unfold Pool.shutdown
  cases hstarted : e.pool.started with
  | false => exact ⟨log, h⟩
  | true =>
    have hdismissed : Moment.Logged c ({ e with pool := e.pool.dismissDrudgers } : Engine σ).idle
        log :=
      (h.close .closeQueue rfl).close .tellDrudgers rfl
    have hrun := reaches_run (c := c) { e with pool := e.pool.dismissDrudgers } fuel
    have hclosed : (e.pool.dismissDrudgers.run c (fun _ p => p) fuel).queue.closed :=
      closed_of_reaches hrun rfl
    obtain ⟨log', hlogged⟩ := logged_of_reaches hrun hdismissed
    have htold := hlogged.close .tellWorkers (if_pos hclosed)
    exact logged_of_reaches (reaches_run { e with
      pool := (e.pool.dismissDrudgers.run c (fun _ p => p) fuel).dismissWorkers } fuel) htold

/-- The end of an engine is a run of sections, apart from what the engine says of its state and where
it listens. -/
theorem logged_shutdown {log : List Event} (h : Moment.Logged c e.idle log) :
    ∃ (e' : Engine σ) (log' : List Event),
      e'.pool = (e.shutdown c).pool ∧ Moment.Logged c e'.idle log' := by
  obtain ⟨around, he⟩ := ({ e with lifecycle := .shutdownRequested } : Engine σ).closeSocket_eq
  have hpool : ({ e with lifecycle := .shutdownRequested } : Engine σ).closeSocket.pool =
      { e.pool with around := around } := congrArg Engine.pool he
  obtain ⟨_, hlooked⟩ := logged_of_reaches (reaches_look e e.pool.now around) h
  obtain ⟨_, hlogged⟩ := logged_shutdownPool hlooked patience
  refine ⟨_, _, ?_, ((hlogged.close .drainQueue rfl).close .clearSchedule rfl).close .clearZones rfl⟩
  simp only [shutdown, hpool]
  rfl

end Engine

end ZoneSigning
