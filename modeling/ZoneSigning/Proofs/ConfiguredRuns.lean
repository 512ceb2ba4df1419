import ZoneSigning.Proofs.DequeueOrder
import ZoneSigning.Proofs.IdleSleeps
import ZoneSigning.Proofs.KeptLimits
import ZoneSigning.Proofs.TaskBounds

/-!
Runs of an engine with a configuration whose values are right. Threads and queue are as configured,
all backoffs and sleeps keep to the longest backoff, and all times are times that there are. Only
the deadline for the next pass can lie beyond the clock.
-/
namespace ZoneSigning

/-- A worker that looks for a task and sleeps has found that the one that goes next is not due, or
that none waits. -/
theorem Schedule.Consistent.look_sleep {s s' : Schedule} {exit : Bool} {now seconds : Nat}
    {idle idle' : IdleBackoff} (h : s.Consistent)
    (hlook : s.look exit now idle = (.sleep seconds, s', idle')) :
    exit = false ∧ s' = s ∧
      ((∃ t, s.Foremost t ∧ seconds = max (t.due - now) 1 ∧ idle' = idle) ∨
        s.waiting = [] ∧ (seconds, idle') = idle.nextTimeout) := by
  cases exit with
  | true => cases hlook
  | false =>
    refine ⟨rfl, ?_⟩
    simp only [look, Bool.false_eq_true, if_false] at hlook
    rcases h.next_cases now with he | ⟨t, -, -, he⟩ <;> simp only [he] at hlook
    · rcases h.peek_cases with ⟨hnone, hempty⟩ | ⟨before, t, behind, hfound, hleads⟩
      · have hpeek : s.peek = (none, s) := Prod.ext hnone h.peek_snd
        simp only [hpeek] at hlook
        cases hlook
        exact ⟨rfl, .inr ⟨hempty, rfl⟩⟩
      · have hpeek : s.peek = (some t, s) := Prod.ext hfound h.peek_snd
        simp only [hpeek] at hlook
        cases hlook
        exact ⟨rfl, .inl ⟨t, h.foremost hleads, rfl, rfl⟩⟩
    · cases hlook

namespace Pool

variable {σ : Type} {p p' : Pool σ} {w : Nat}

/-- Let a worker sleep that looks for a task and finds none to take: for how many seconds, and the
pool while it sleeps. -/
def doze (p : Pool σ) (w : Nat) : Option (Nat × Pool σ) :=
  p.workers[w]?.bind fun x =>
    match x.phase, p.schedule.look x.exit p.now x.idle with
    | .idle, (.sleep seconds, s, idle) =>
      some (seconds, { p with schedule := s }.setWorker w { x with idle := idle })
    | _, _ => none

/-- A worker that looks for a task sleeps exactly when it has to wait. -/
theorem doze_eq_none_iff (c : Collaborators σ) (h : p.phase? w = some .idle) :
    p.doze w = none ↔ ∃ p', p.stepWorker c w = some p' := by
  obtain ⟨x, hx, hphase⟩ := Option.map_eq_some_iff.mp h
  simp only [doze, stepWorker, hx, Option.bind_some, hphase, take]
  rcases p.schedule.look x.exit p.now x.idle with ⟨_ | _ | _, s, idle⟩ <;> simp

private theorem setWorker_self {x : Worker} (hx : p.workers[w]? = some x) :
    p.setWorker w x = p := by
  obtain ⟨hw, rfl⟩ := List.getElem?_eq_some_iff.mp hx
  simp [setWorker]

/-- A worker that sleeps keeps its place. Its sleeps become longer only if no task waits. -/
theorem doze_eq_some {seconds : Nat} (hs : p.schedule.Consistent)
    (h : p.doze w = some (seconds, p')) :
    ∃ x, p.workers[w]? = some x ∧ x.phase = .idle ∧
      ((∃ t, p.schedule.Foremost t ∧ seconds = max (t.due - p.now) 1 ∧ p' = p) ∨
        p.schedule.waiting = [] ∧ seconds = x.idle.nextTimeout.1 ∧
          p' = p.setWorker w { x with idle := x.idle.nextTimeout.2 }) := by
  obtain ⟨x, hx, h⟩ := Option.bind_eq_some_iff.mp h
  refine ⟨x, hx, ?_⟩
  split at h
  · next seconds s idle hphase hlook =>
    obtain ⟨-, rfl, hcases⟩ := hs.look_sleep hlook
    cases h
    refine ⟨hphase, hcases.imp ?_ ?_⟩
    · rintro ⟨t, ht, hseconds, rfl⟩
      exact ⟨t, ht, hseconds, setWorker_self hx⟩
    · rintro ⟨hempty, hnext⟩
      exact ⟨hempty, congrArg Prod.fst hnext, by rw [← congrArg Prod.snd hnext]⟩
  · cases h

end Pool

/-- A configuration whose values are right gives an engine with the limits that it asks for. -/
theorem Engine.ofConfig_of_valid {σ : Type} {config : EngineConfig} (h : config.Valid)
    (processors now : Nat) (around : σ) :
    ∃ e, Engine.ofConfig config processors now around = .ok e ∧ e.config = config ∧
      e.pool.limits = config.limits processors ∧
      e.pool = .ofLimits around now (config.workers.getD (max processors 1)) config.drudgers
        config.maxBackoff config.queueCapacity config.queueThreshold := by
  unfold ofConfig
  rw [EngineConfig.valid_iff.mpr h]
  exact ⟨_, rfl, rfl, Pool.limits_ofLimits _ _ _ _ _ h.threshold.1 h.threshold.2, rfl⟩

namespace Moment

variable {σ : Type} [HasFiles σ] {c : Collaborators σ} {e : Engine σ} {config : EngineConfig}
  {processors : Nat} {m m' : Moment σ} {naps : Nat → Nat}

/-- The moments that the engine `e` can come to, its end included, while the clock shows times that
there are; and how often each worker has slept since it last had a task, because none waited. -/
inductive Lasts (c : Collaborators σ) (e : Engine σ) : Moment σ → (Nat → Nat) → Prop
  | made (socket : Option Path) : Lasts c e { engine := { e with socket := socket } } fun _ => 0
  | move {m m' : Moment σ} {naps : Nat → Nat} {move : Move σ} : Lasts c e m naps →
      (∀ now, move = .tick now → now ≤ maxTime) → m.step c move = some m' →
      Lasts c e m' fun w => if (m'.pool.held? w).isSome then 0 else naps w
  | doze {m : Moment σ} {naps : Nat → Nat} {w seconds : Nat} {p : Pool σ} : Lasts c e m naps →
      m.pool.doze w = some (seconds, p) →
      Lasts c e (m.withPool p) fun v =>
        if v = w ∧ m.pool.schedule.waiting = [] then naps v + 1 else naps v

/-- What all runs keep. -/
structure Bounded (config : EngineConfig) (processors : Nat) (m : Moment σ) (naps : Nat → Nat) :
    Prop where
  configured : m.engine.config = config
  limited : m.pool.limits = config.limits processors
  consistent : m.pool.schedule.Consistent
  now : m.pool.now ≤ maxTime
  time : ∀ {now}, m.errand.now? = some now → now ≤ maxTime
  tasks : m.pool.TasksInRange config.maxBackoff
  idle : ∀ {w idle}, m.pool.idle? w = some idle → idle = .slept config.maxBackoff (naps w)
  awake : ∀ {w}, (m.pool.held? w).isSome → naps w = 0

namespace Bounded

omit [HasFiles σ] in
/-- An engine that has just been made is within the limits of its configuration, and nobody has
slept. -/
theorem made (e : Engine σ) {now : Nat} {around : σ} {workers drudgers capacity threshold : Nat}
    (hnow : now ≤ maxTime) (he : e.config = config)
    (hlimits : e.pool.limits = config.limits processors)
    (hpool : e.pool = .ofLimits around now workers drudgers config.maxBackoff capacity threshold)
    (socket : Option Path) :
    Bounded config processors { engine := { e with socket := socket } } fun _ => 0 := by
  have hnone (w : Nat) : e.pool.held? w = none := by
    rw [hpool]
    exact Pool.held?_ofLimits ..
  constructor
  case configured => exact he
  case limited => exact hlimits
  case consistent =>
    change e.pool.schedule.Consistent
    rw [hpool]
    exact Schedule.consistent_empty
  case now =>
    change e.pool.now ≤ maxTime
    rw [hpool]
    exact hnow
  case time => nofun
  case tasks =>
    change e.pool.TasksInRange _
    refine ⟨?_, fun {w t} ht => ?_⟩
    · rw [hpool]
      exact Schedule.inRange_empty _
    · rw [hnone] at ht
      cases ht
  case idle =>
    intro w idle hidle
    change e.pool.idle? w = some idle at hidle
    rw [hpool] at hidle
    exact Pool.idle?_ofLimits hidle
  case awake => exact fun _ => rfl

/-- A move keeps to the limits; a worker that holds a task then has not slept since it has got it.
-/
theorem move {move : Move σ} (h : m.Bounded config processors naps)
    (hlimit : config.maxBackoff ≤ maxTime) (hclock : ∀ now, move = .tick now → now ≤ maxTime)
    (hstep : m.step c move = some m') :
    m'.Bounded config processors fun w => if (m'.pool.held? w).isSome then 0 else naps w := by
  have hcontinues := continues_step hstep
  have hbackoff : m.pool.maxBackoff = config.maxBackoff := congrArg Limits.maxBackoff h.limited
  constructor
  case configured => exact (config_step hstep).trans h.configured
  case limited => exact hcontinues.limits.trans h.limited
  case consistent => exact consistent_step h.consistent hstep
  case now =>
    rw [hcontinues.now]
    cases move with
    | tick now => exact hclock now rfl
    | _ => exact h.now
  case time =>
    intro now hnow
    rcases now_step hstep hnow with hbefore | rfl
    · exact h.time hbefore
    · exact h.now
  case tasks =>
    have htasks := h.tasks
    rw [← hbackoff] at htasks hlimit ⊢
    exact tasksInRange_step htasks h.consistent hlimit h.now (fun _ => h.time) hstep
  case idle =>
    intro w idle hidle
    rcases hcontinues.idle w with ⟨hsame, hheld⟩ | ⟨hreset, hheld⟩
    · rw [h.idle (hsame.symm.trans hidle)]
      split
      · next hsome => rw [h.awake (hheld hsome)]
      · rfl
    · rw [hreset] at hidle
      obtain ⟨before, hbefore, rfl⟩ := Option.map_eq_some_iff.mp hidle
      rw [h.idle hbefore, IdleBackoff.reset_slept, if_pos hheld]
  case awake => exact fun {w} hw => if_pos hw

omit [HasFiles σ] in
/-- A worker sleeps until the task that it has found is due, or, if no task waits, for a minute
first and then twice as long each time, up to the longest backoff. -/
theorem sleep {w seconds : Nat} {p : Pool σ} (h : m.Bounded config processors naps)
    (hlimit : 1 ≤ config.maxBackoff) (hdoze : m.pool.doze w = some (seconds, p)) :
    (∃ t, m.pool.schedule.Foremost t ∧ seconds = max (t.due - m.pool.now) 1) ∨
      m.pool.schedule.waiting = [] ∧
        seconds = min (firstBackoff * 2 ^ naps w) config.maxBackoff := by
  obtain ⟨x, hx, -, hcases⟩ := Pool.doze_eq_some h.consistent hdoze
  refine hcases.imp (fun ⟨t, ht, hseconds, _⟩ => ⟨t, ht, hseconds⟩) ?_
  rintro ⟨hempty, hseconds, -⟩
  rw [h.idle (Pool.idle?_of_get hx), IdleBackoff.timeout_slept, Nat.max_eq_left hlimit] at hseconds
  exact ⟨hempty, hseconds⟩

omit [HasFiles σ] in
/-- A sleep keeps to the limits, and counts if no task waits. -/
theorem doze {w seconds : Nat} {p : Pool σ} (h : m.Bounded config processors naps)
    (hlimit : config.maxBackoff ≤ maxTime) (hdoze : m.pool.doze w = some (seconds, p)) :
    (m.withPool p).Bounded config processors fun v =>
      if v = w ∧ m.pool.schedule.waiting = [] then naps v + 1 else naps v := by
  obtain ⟨x, hx, hphase, hcases⟩ := Pool.doze_eq_some h.consistent hdoze
  rcases hcases with ⟨t, ht, -, rfl⟩ | ⟨hempty, -, rfl⟩
  · have hsome : m.pool.schedule.waiting ≠ [] := List.ne_nil_of_mem ht.waits
    simp only [hsome, and_false, if_false]
    exact h
  · simp only [hempty, and_true]
    have hheld (v : Nat) :
        (m.pool.setWorker w { x with idle := x.idle.nextTimeout.2 }).held? v = m.pool.held? v := by
      rw [Pool.held?_setWorker hx]
      split
      · next hv => rw [hv, Pool.held?_of_phase? (Pool.phase?_of_get hx)]
      · rfl
    constructor
    case configured => exact h.configured
    case limited => simpa [Pool.limits, Pool.setWorker] using h.limited
    case consistent => exact h.consistent
    case now => exact h.now
    case time => exact h.time
    case tasks => exact h.tasks.of_held h.tasks.schedule hheld
    case idle =>
      intro v idle hidle
      rw [pool_withPool, Pool.idle?_setWorker hx] at hidle
      split at hidle
      · next hv =>
        subst hv
        rw [← Option.some.inj hidle, if_pos rfl, h.idle (Pool.idle?_of_get hx)]
        exact IdleBackoff.nextTimeout_slept hlimit _
      · next hv =>
        rw [if_neg hv]
        exact h.idle hidle
    case awake =>
      intro v hv
      rw [pool_withPool, hheld] at hv
      have hne : v ≠ w := by
        rintro rfl
        rw [Pool.held?_of_phase? (Pool.phase?_of_get hx), hphase] at hv
        cases hv
      rw [if_neg hne]
      exact h.awake hv

end Bounded

private theorem Lasts.bounded (h : Lasts c e m naps) (hlong : config.maxBackoff ≤ maxTime)
    (hmade : ∀ socket,
      Bounded config processors { engine := { e with socket := socket } } fun _ => 0) :
    m.Bounded config processors naps := by
  induction h with
  | made socket => exact hmade socket
  | move _ hclock hstep ih => exact ih.move hlong hclock hstep
  | doze _ hdoze ih => exact ih.doze hlong hdoze

/-- An engine can be made with every configuration whose values are right, and then, through all its
runs and to its end:
* It has the threads, the queue and the longest backoff that the configuration asks for.
* The backoff of a task is zero or lies between a minute and the longest backoff. So does the
  backoff that follows when the task fails, which is a minute if there has been none before.
* All times in tasks and requests are times that there are.
* A worker sleeps until the task that it has found is due, or, if no task waits, for a minute first
  and then twice as long each time, up to the longest backoff.
* The next pass has a deadline if the clock goes so far, and none otherwise. -/
theorem limits_are_kept {config : EngineConfig} (hvalid : config.invalid? = none)
    (hlong : config.maxBackoff ≤ maxTime) (processors : Nat) {now : Nat} (hnow : now ≤ maxTime)
    (around : σ) : ∃ e, Engine.ofConfig config processors now around = .ok e ∧
      ∀ (c : Collaborators σ) m naps, Lasts c e m naps →
        m.pool.limits = config.limits processors ∧
        (∀ t, m.pool.Owns t →
          (t.backoff = 0 ∨ 60 ≤ t.backoff ∧ t.backoff ≤ config.maxBackoff) ∧
          (t.due ≤ maxTime ∧ t.interruptDue ≤ maxTime ∧ t.haltedDue ≤ maxTime) ∧
          ∀ later, 60 ≤ (t.fail later m.pool.maxBackoff).backoff ∧
            (t.fail later m.pool.maxBackoff).backoff ≤ config.maxBackoff ∧
            (t.backoff = 0 → (t.fail later m.pool.maxBackoff).backoff = 60)) ∧
        (∀ z asked, m.pool.schedule.inFlight.get? z = some asked → asked.interruptDue ≤ maxTime) ∧
        (∀ w seconds p, m.pool.doze w = some (seconds, p) →
          (∃ t, m.pool.schedule.Foremost t ∧ seconds = max (t.due - m.pool.now) 1 ∧
            seconds ≤ maxTime) ∨
          m.pool.schedule.waiting = [] ∧ seconds = min (60 * 2 ^ naps w) config.maxBackoff ∧
            60 ≤ seconds ∧ (naps w = 0 → seconds = 60)) ∧
        ∀ clock, m.engine.deadline? clock =
          if clock + config.maxSleep < 2 ^ 63 then some (clock + config.maxSleep) else none := by
  have hconfig := EngineConfig.valid_iff.mp hvalid
  obtain ⟨e, hmade, he, hlimits, hpool⟩ := Engine.ofConfig_of_valid hconfig processors now around
  refine ⟨e, hmade, fun c m naps hlasts => ?_⟩
  have h := hlasts.bounded hlong (Bounded.made e hnow he hlimits hpool)
  have hbackoff : m.pool.maxBackoff = config.maxBackoff := congrArg Limits.maxBackoff h.limited
  refine ⟨h.limited, fun t ht => ?_, fun z asked => h.tasks.schedule.requests h.consistent, ?_, ?_⟩
  · have hrange := h.tasks.owned h.consistent ht
    rw [hbackoff]
    exact ⟨hrange.backoff_bounds hconfig.maxBackoff, ⟨hrange.due, hrange.interruptDue,
      hrange.haltedDue⟩, hrange.failing hconfig.maxBackoff hlong⟩
  · intro w seconds p hdoze
    have hpositive : 1 ≤ config.maxBackoff := Nat.le_trans (by decide) hconfig.maxBackoff
    rcases h.sleep hpositive hdoze with ⟨t, ht, hseconds⟩ | ⟨hempty, hseconds⟩
    · have hdue := (h.tasks.schedule.mem_waiting h.consistent ht.waits).due
      have hlatest : 1 ≤ maxTime := by decide
      exact .inl ⟨t, ht, hseconds, by omega⟩
    · refine .inr ⟨hempty, hseconds, ?_, fun hzero => ?_⟩
      · rw [hseconds]
        exact firstBackoff_le_backoffAfter hconfig.maxBackoff (naps w)
      · rw [hseconds, hzero]
        exact backoffAfter_one hconfig.maxBackoff
  · intro clock
    rw [Engine.deadline?, h.configured]
    rfl

/-- Moves lead from a moment that the engine can come to to another one. -/
theorem Lasts.follow {moves : List (Move σ)} (h : Lasts c e m naps)
    (hclock : ∀ now, .tick now ∈ moves → now ≤ maxTime) (hfollow : m.follow c moves = some m') :
    ∃ naps', Lasts c e m' naps' := by
  induction moves generalizing m naps with
  | nil =>
    cases hfollow
    exact ⟨naps, h⟩
  | cons move moves ih =>
    obtain ⟨n, hstep, hrest⟩ := Option.bind_eq_some_iff.mp hfollow
    have hn := h.move (fun now hmove => hclock now (hmove ▸ List.mem_cons_self)) hstep
    exact ih hn (fun now hmem => hclock now (List.mem_cons_of_mem _ hmem)) hrest

def briefConfig : EngineConfig := { zonelist := ⟨"z"⟩, workers := some 1, maxBackoff := 100 }

def contentless : FileWorld where
  files := { oneZoneFiles with nodes := oneZoneFiles.nodes.erase ["i"] }

def briefEngine : Engine FileWorld where
  config := briefConfig
  pool := .ofLimits contentless 7 1 0 100 1000 1

/-- The threads start, a pass gives the zone a task, and the worker configures the zone and cannot
read it. -/
def failedReading : List (Move FileWorld) := firstPass ++ List.replicate 10 (.worker 0)

/-- The worker sleeps for the second time, or hands its task back. -/
theorem limits_are_kept_brief :
    briefConfig.invalid? = none ∧ briefConfig.maxBackoff ≤ maxTime ∧ 7 ≤ maxTime ∧
      Engine.ofConfig briefConfig 1 7 contentless = .ok briefEngine ∧
      (∃ m naps seconds p, Lasts fileCollaborators briefEngine m naps ∧ naps 0 = 1 ∧
        m.pool.doze 0 = some (seconds, p) ∧ seconds = 100) ∧
      ∃ m naps t, Lasts fileCollaborators briefEngine m naps ∧ m.pool.Owns t ∧ t.backoff = 60 ∧
        60 ≤ (t.fail 67 m.pool.maxBackoff).backoff ∧ (t.fail 67 m.pool.maxBackoff).backoff ≤ 100 ∧
        m.pool.limits = ⟨1, 0, 100, 1000, 1⟩ ∧ m.engine.deadline? 5 = some 3605 := by
  have hvalid : briefConfig.invalid? = none := by decide
  have hlong : briefConfig.maxBackoff ≤ maxTime := by decide
  have hnow : 7 ≤ maxTime := by decide
  have hmade : Engine.ofConfig briefConfig 1 7 contentless = .ok briefEngine := rfl
  obtain ⟨e, he, hkept⟩ := limits_are_kept hvalid hlong 1 hnow contentless
  obtain rfl := Except.ok.inj (hmade.symm.trans he)
  refine ⟨hvalid, hlong, hnow, hmade, ?_, ?_⟩
  · have hsleeps : ((⟨briefEngine, .none⟩ : Moment FileWorld).step fileCollaborators .start).any
        fun m => m.pool.schedule.waiting = [] &&
          (m.pool.doze 0).any fun r => r.2.schedule.waiting = [] && (r.2.doze 0).isSome := by
      decide +kernel
    obtain ⟨m, hstep, hm⟩ := (Option.any_eq_true _ _).mp hsleeps
    simp only [Bool.and_eq_true, decide_eq_true_eq] at hm
    obtain ⟨hempty, hdozes⟩ := hm
    obtain ⟨⟨first, p⟩, hdoze, hagain⟩ := (Option.any_eq_true _ _).mp hdozes
    simp only [Bool.and_eq_true, decide_eq_true_eq] at hagain
    obtain ⟨hstill, hsome⟩ := hagain
    obtain ⟨⟨seconds, q⟩, hsecond⟩ := Option.isSome_iff_exists.mp hsome
    have hstarted := (Lasts.made (c := fileCollaborators) (e := briefEngine) none).move
      (fun _ htick => by cases htick) hstep
    have hlasts := hstarted.doze hdoze
    refine ⟨_, _, seconds, q, hlasts, by simp [hempty], hsecond, ?_⟩
    obtain ⟨-, -, -, hsleep, -⟩ := hkept _ _ _ hlasts
    rcases hsleep 0 seconds q hsecond with ⟨t, ht, -⟩ | ⟨-, hseconds, -⟩
    · have hwaits := ht.waits
      rw [pool_withPool, hstill] at hwaits
      cases hwaits
    · simpa [hempty, briefConfig] using hseconds
  · have hfails : ((⟨briefEngine, .none⟩ : Moment FileWorld).follow fileCollaborators
        failedReading).any fun m => m.pool.schedule.waiting.any (·.backoff = 60) := by
      decide +kernel
    obtain ⟨m, hfollow, hm⟩ := (Option.any_eq_true _ _).mp hfails
    obtain ⟨t, ht, hbackoff⟩ := List.any_eq_true.mp hm
    obtain ⟨naps, hlasts⟩ := (Lasts.made (c := fileCollaborators) (e := briefEngine) none).follow
      (by simp [failedReading, firstPass]) hfollow
    obtain ⟨hlimits, htasks, -, -, hdeadline⟩ := hkept _ m naps hlasts
    obtain ⟨-, -, hfailing⟩ := htasks t (.inl ht)
    exact ⟨m, naps, t, hlasts, .inl ht, of_decide_eq_true hbackoff, (hfailing 67).1,
      (hfailing 67).2.1, hlimits, hdeadline 5⟩

/-- A configuration that asks for the longest time between two passes that a document can give. -/
def endlessSleep : EngineConfig := { zonelist := ⟨"z"⟩, workers := some 1, maxSleep := maxTime }

def endlessEngine : Engine FileWorld where
  config := endlessSleep
  pool := .ofLimits { files := oneZoneFiles } 7 1 0 3600 1000 1

/-- The values are right, and the engine starts; but the next pass never has a deadline. -/
theorem valid_limits_overflow : endlessSleep.invalid? = none ∧
    Engine.ofConfig endlessSleep 1 7 { files := oneZoneFiles } = .ok endlessEngine ∧
    endlessEngine.start.1.isOk ∧
    ∀ m naps, Lasts fileCollaborators endlessEngine m naps →
      ∀ clock, m.engine.deadline? clock = none := by
  refine ⟨by decide, rfl, by decide +kernel, fun m naps hlasts clock => ?_⟩
  have hnow : 7 ≤ maxTime := by decide
  have hmade (socket : Option Path) :
      Bounded endlessSleep 1 { engine := { endlessEngine with socket := socket } } fun _ => 0 :=
    .made endlessEngine hnow rfl rfl rfl socket
  have hconfig : m.engine.config = endlessSleep := (hlasts.bounded (by decide) hmade).configured
  have hend : clockEnd ≤ endlessSleep.maxSleep := by decide
  rw [Engine.deadline?, hconfig]
  exact if_neg (Nat.not_lt.mpr (Nat.le_trans hend (Nat.le_add_left _ _)))

end Moment

end ZoneSigning
