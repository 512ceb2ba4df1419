import ZoneSigning.Proofs.WholeEngines

/-!
The end of an engine, part by part, while others still make requests. The threads go first. Then
the queue, the schedule and the list of zones are emptied one after the other, each under its own
lock, so that a request may come between any two parts. Nothing undoes what a part has achieved,
with one exception: a request to sign that holds the list when the schedule has already been emptied
gives its zone a task again, and that task stays.
-/
namespace ZoneSigning

namespace Schedule

/-- What there may be in a schedule that has been emptied: nothing is taken, and a task waits
exactly if a request has come `late`. -/
structure Remnant (s : Schedule) (late : Bool) : Prop where
  consistent : s.Consistent
  untaken : ∀ z, s.isInFlight z = false
  empty : late = false → s = {}
  kept : late = true → ∃ z, s.hasTask z

namespace Remnant

variable {s s' : Schedule} {late : Bool}

private theorem of_empty : ({} : Schedule).Remnant false where
  consistent := consistent_empty
  untaken _ := rfl
  empty _ := rfl
  kept hlate := by cases hlate

private theorem samePlaces (h : s.Remnant late) (hsame : s.SamePlaces s') (hs : s'.Consistent)
    (hempty : s = {} → s' = {}) : s'.Remnant late where
  consistent := hs
  untaken z := (hsame.isInFlight z).trans (h.untaken z)
  empty hlate := hempty (h.empty hlate)
  kept hlate := by
    obtain ⟨z, hz⟩ := h.kept hlate
    exact ⟨z, (hsame.hasTask z).trans hz⟩

/-- To flush a zone's task adds nothing to what is left in a schedule. -/
theorem flushZone (h : s.Remnant late) (z : ZoneKey) : (s.flushZone z).2.Remnant late := by
  refine h.samePlaces (h.consistent.samePlaces_flushZone z)
    (h.consistent.ask Task.zone_flushed _ z) ?_
  rintro rfl
  rfl

/-- To move a zone's task adds nothing to what is left in a schedule. -/
theorem reschedule (h : s.Remnant late) (z : ZoneKey) (what : TaskKind) (due : Nat) :
    (s.reschedule z what due).2.Remnant late := by
  refine h.samePlaces (h.consistent.samePlaces_reschedule z what due)
    (h.consistent.ask (Task.zone_retarget what due) _ z) ?_
  rintro rfl
  rfl

/-- To flush all tasks adds nothing to what is left in a schedule. -/
theorem flushAll (h : s.Remnant late) : s.flushAll.2.Remnant late := by
  refine h.samePlaces ⟨fun _ => rfl, fun _ => rfl⟩ h.consistent.flushAll ?_
  rintro rfl
  rfl

/-- Whoever schedules a task comes late. -/
theorem schedule (h : s.Remnant late) (t : Task) : (s.schedule t).2.Remnant true where
  consistent := h.consistent.schedule t
  untaken z := (h.consistent.isInFlight_schedule t z).trans (h.untaken z)
  empty hlate := by cases hlate
  kept _ := ⟨t.zone, by simp [h.consistent.hasTask_schedule]⟩

private theorem eq_empty_iff (h : s.Remnant late) : s = {} ↔ late = false := by
  refine ⟨?_, h.empty⟩
  rintro rfl
  refine Bool.eq_false_iff.mpr fun hlate => ?_
  obtain ⟨z, hz⟩ := h.kept hlate
  cases hz

end Remnant

end Schedule

namespace Pool

variable {σ : Type} {c : Collaborators σ} {p p' : Pool σ} {w d : Nat}

def allOff (p : Pool σ) : Bool := p.workers.all (·.phase = .off) && p.drudgers.all (·.phase = .off)

private theorem not_worker_of_allOff (hoff : p.allOff) : p.stepWorker c w ≠ some p' := by
  intro hstep
  obtain ⟨x, hx, hsection⟩ := workerSection_of_step hstep
  have hall := List.all_eq_true.mp (Bool.and_eq_true_iff.mp hoff).1 x (List.mem_of_getElem? hx)
  exact hsection.phase_ne_off (of_decide_eq_true hall)

private theorem not_drudger_of_allOff (hoff : p.allOff) : p.stepDrudger c d ≠ some p' := by
  intro hstep
  obtain ⟨y, hy, hsection⟩ := drudgerSection_of_step hstep
  have hall := List.all_eq_true.mp (Bool.and_eq_true_iff.mp hoff).2 y (List.mem_of_getElem? hy)
  exact hsection.phase_ne_off (of_decide_eq_true hall)

private theorem run_of_allOff (hoff : p.allOff) (fuel : Nat) : p.run c (fun _ p => p) fuel = p := by
  cases fuel with
  | zero => rfl
  | succ fuel =>
    unfold run
    cases hstep : p.stepAny c fun _ p => p with
    | none => rfl
    | some p' =>
      rcases step_of_stepAny hstep with ⟨w, hw⟩ | ⟨d, hd⟩
      · exact absurd hw (not_worker_of_allOff hoff)
      · exact absurd hd (not_drudger_of_allOff hoff)

/-- Threads that have been told to go and are gone are not told again. -/
theorem shutdown_of_allOff (hoff : p.allOff)
    (htold : p.started → (∀ y ∈ p.drudgers, y.exit) ∧ p.queue.closed ∧ ∀ x ∈ p.workers, x.exit)
    (fuel : Nat) : p.shutdown c fuel = p := by
  unfold shutdown
  cases hstarted : p.started with
  | false => rfl
  | true =>
    obtain ⟨hdrudgers, hclosed, hworkers⟩ := htold hstarted
    have hd : p.dismissDrudgers = p := by
      have hqueue : p.queue.close.1 = p.queue := by rw [HandoffQueue.close, ← hclosed]
      have hmap : p.drudgers.map (fun y => { y with exit := true }) = p.drudgers :=
        (List.map_congr_left fun y hy => by rw [← hdrudgers y hy]).trans (List.map_id' _)
      rw [dismissDrudgers, hqueue, hmap]
    have hw : p.dismissWorkers = p := by
      have hmap : p.workers.map (fun x => { x with exit := true }) = p.workers :=
        (List.map_congr_left fun x hx => by rw [← hworkers x hx]).trans (List.map_id' _)
      rw [dismissWorkers, hmap]
    dsimp only
    rw [hd, run_of_allOff hoff, hw, run_of_allOff hoff]
    rfl

end Pool

namespace Errand

/-- Whether the list of zones is free, or held for a request. -/
def isRequest : Errand → Bool
  | none | serving .. | admitting .. | flushing _ => true
  | reading .. | merging .. | acting .. | judged .. | lacking .. | evicting .. | leaving ..
  | settling _ => false

def admits : Errand → Bool
  | admitting .. => true
  | _ => false

end Errand

namespace Closing

def emptyings : List Closing := [.drainQueue, .clearSchedule, .clearZones]

/-- What is done at the end, in this order. A pool that has not been started has no threads that
have to be told to go. -/
def parts (started : Bool) : List Closing :=
  (if started then [.tellDrudgers, .closeQueue, .tellWorkers] else []) ++ emptyings

end Closing

/-- An engine whose end has begun. -/
structure Teardown (σ : Type) where
  moment : Moment σ
  left : List Closing
  /-- Whether a request has come to schedule a task after the schedule has been emptied. -/
  late : Bool := false

namespace Teardown

variable {σ : Type} {c : Collaborators σ} {d d' : Teardown σ} {m m' : Moment σ}

/-- What a part of the end has achieved once it is done. Threads could undo what the last three have
achieved, so that these remember that there are none any more. -/
def Achieved (d : Teardown σ) : Closing → Prop
  | .request => d.moment.engine.lifecycle = .shutdownRequested ∧ d.moment.engine.socket = none
  | .tellDrudgers => ∀ y ∈ d.moment.pool.drudgers, y.exit
  | .closeQueue => d.moment.pool.queue.closed
  | .tellWorkers => ∀ x ∈ d.moment.pool.workers, x.exit
  | .drainQueue => d.moment.pool.allOff ∧ d.moment.pool.queue.items = []
  | .clearSchedule => d.moment.pool.allOff ∧ d.moment.pool.schedule.Remnant d.late
  | .clearZones => d.moment.pool.allOff ∧ d.moment.errand = .none ∧
      d.moment.pool.zones = d.moment.pool.zones.cleared

private theorem Achieved.close {what next : Closing} {left : List Closing} (h : d.Achieved what)
    (hne : what ≠ next) (hclose : d.moment.close next = some m) :
    ({ d with moment := m, left := left } : Teardown σ).Achieved what := by
  have hoff {p : Pool σ} (hp : p.allOff) :
      ({ p with drudgers := p.drudgers.map fun y => { y with exit := true } } : Pool σ).allOff ∧
        p.dismissWorkers.allOff := by
    simpa [Pool.allOff, Pool.dismissWorkers] using hp
  cases next with
  | request =>
    cases hclose
    cases what with
    | request => exact ⟨rfl, h.2⟩
    | _ => exact h
  | tellDrudgers =>
    cases hclose
    cases what with
    | tellDrudgers => exact absurd rfl hne
    | drainQueue | clearSchedule | clearZones => exact ⟨(hoff h.1).1, h.2⟩
    | _ => exact h
  | closeQueue =>
    cases hclose
    cases what with
    | closeQueue => exact absurd rfl hne
    | _ => exact h
  | tellWorkers =>
    simp only [Moment.close, Option.ite_none_right_eq_some, Option.some.injEq] at hclose
    obtain ⟨-, rfl⟩ := hclose
    cases what with
    | tellWorkers => exact absurd rfl hne
    | drainQueue | clearSchedule | clearZones => exact ⟨(hoff h.1).2, h.2⟩
    | _ => exact h
  | drainQueue =>
    cases hclose
    cases what with
    | drainQueue => exact absurd rfl hne
    | _ => exact h
  | clearSchedule =>
    cases hclose
    cases what with
    | clearSchedule => exact absurd rfl hne
    | _ => exact h
  | clearZones =>
    simp only [Moment.close] at hclose
    obtain ⟨-, rfl⟩ := Moment.seize_eq_some hclose
    cases what with
    | clearZones => exact absurd rfl hne
    | _ => exact h

/-- Each part achieves what it is for. -/
theorem achieved_close {next : Closing} {left : List Closing} (hnext : next ≠ .request)
    (hoff : next = .drainQueue ∨ next = .clearSchedule ∨ next = .clearZones → d.moment.pool.allOff)
    (hlate : next = .clearSchedule → d.late = false) (hclose : d.moment.close next = some m) :
    ({ d with moment := m, left := left } : Teardown σ).Achieved next := by
  cases next with
  | request => exact absurd rfl hnext
  | tellDrudgers =>
    cases hclose
    intro y hy
    obtain ⟨x, -, rfl⟩ := List.mem_map.mp hy
    rfl
  | closeQueue =>
    cases hclose
    rfl
  | tellWorkers =>
    simp only [Moment.close, Option.ite_none_right_eq_some, Option.some.injEq] at hclose
    obtain ⟨-, rfl⟩ := hclose
    intro y hy
    obtain ⟨x, -, rfl⟩ := List.mem_map.mp hy
    rfl
  | drainQueue =>
    cases hclose
    exact ⟨hoff (.inl rfl), rfl⟩
  | clearSchedule =>
    cases hclose
    refine ⟨hoff (.inr (.inl rfl)), ?_⟩
    rw [hlate rfl]
    exact .of_empty
  | clearZones =>
    simp only [Moment.close] at hclose
    obtain ⟨hfree, rfl⟩ := Moment.seize_eq_some hclose
    exact ⟨hoff (.inr (.inr rfl)), hfree, rfl⟩

private theorem Achieved.worker {what : Closing} {w : Nat} {p : Pool σ} (h : d.Achieved what)
    (hstep : d.moment.pool.stepWorker c w = some p) :
    ({ d with moment := d.moment.withPool p } : Teardown σ).Achieved what := by
  obtain ⟨x, hx, hsection⟩ := Pool.workerSection_of_step hstep
  cases what with
  | request => exact h
  | tellDrudgers =>
    intro y hy
    exact h y (hsection.drudgers hx ▸ hy)
  | closeQueue => exact hsection.closed.trans h
  | tellWorkers =>
    obtain ⟨⟨x', hx', hexit⟩, -⟩ := hsection.frame hx
    intro y hy
    rw [Moment.pool_withPool, hx'] at hy
    rcases List.mem_or_eq_of_mem_set hy with hy | rfl
    · exact h y hy
    · exact hexit.trans (h x (List.mem_of_getElem? hx))
  | drainQueue | clearSchedule | clearZones => exact absurd hstep (Pool.not_worker_of_allOff h.1)

private theorem Achieved.drudger {what : Closing} {i : Nat} {p : Pool σ} (h : d.Achieved what)
    (hstep : d.moment.pool.stepDrudger c i = some p) :
    ({ d with moment := d.moment.withPool p } : Teardown σ).Achieved what := by
  obtain ⟨y, hy, hsection⟩ := Pool.drudgerSection_of_step hstep
  cases what with
  | request => exact h
  | tellDrudgers =>
    obtain ⟨phase, hset⟩ := hsection.drudgers_eq
    intro y' hy'
    rw [Moment.pool_withPool, hset] at hy'
    rcases List.mem_or_eq_of_mem_set hy' with hy' | rfl
    · exact h y' hy'
    · exact h y (List.mem_of_getElem? hy)
  | closeQueue => exact hsection.closed.trans h
  | tellWorkers =>
    intro x hx
    obtain ⟨v, hv⟩ := List.mem_iff_getElem?.mp hx
    obtain ⟨x', hx', hexit⟩ := hsection.exit_eq hv
    exact hexit.trans (h x' (List.mem_of_getElem? hx'))
  | drainQueue | clearSchedule | clearZones => exact absurd hstep (Pool.not_drudger_of_allOff h.1)

private theorem Achieved.beside {what : Closing} {s : Schedule} {now : Nat} {around : σ}
    (h : d.Achieved what)
    (hengine : d'.moment.engine = { d.moment.engine with
      pool := { d.moment.pool with schedule := s, now := now, around := around } })
    (hs : what = .clearSchedule → d.moment.pool.schedule.Remnant d.late → s.Remnant d'.late)
    (hfree : d.moment.errand = .none → d.moment.pool.zones = d.moment.pool.zones.cleared →
      d'.moment.errand = .none) : d'.Achieved what := by
  have hpool : d'.moment.pool =
      { d.moment.pool with schedule := s, now := now, around := around } :=
    congrArg Engine.pool hengine
  cases what with
  | request =>
    unfold Achieved
    rw [hengine]
    exact h
  | tellDrudgers | closeQueue | tellWorkers | drainQueue =>
    unfold Achieved
    rw [hpool]
    exact h
  | clearSchedule =>
    unfold Achieved
    rw [hpool]
    exact ⟨h.1, hs rfl h.2⟩
  | clearZones =>
    unfold Achieved
    rw [hpool]
    exact ⟨h.1, hfree h.2.1 h.2.2, h.2.2⟩

/-- What is left and what has been done fit together. -/
structure Underway (d : Teardown σ) : Prop where
  order : d.left <:+ Closing.parts d.moment.pool.started
  request : d.moment.errand.isRequest
  ended : d.Achieved .request
  achieved : ∀ what ∈ Closing.parts d.moment.pool.started, what ∉ d.left → d.Achieved what
  early : .clearSchedule ∈ d.left → d.late = false

/-- The queue is emptied before the schedule and the list are. -/
theorem drained_before {started : Bool} {next : Closing} {left : List Closing}
    (horder : next :: left <:+ Closing.parts started)
    (hnext : next = .clearSchedule ∨ next = .clearZones) : .drainQueue ∉ next :: left := by
  rcases hnext with rfl | rfl <;> cases started <;>
    simp [Closing.parts, Closing.emptyings, List.suffix_cons_iff] at horder <;> simp [horder]

private theorem frame_close {what : Closing} {m m' : Moment σ} (hclose : m.close what = some m') :
    m'.pool.started = m.pool.started ∧ m'.errand = m.errand := by
  cases what with
  | tellWorkers =>
    simp only [Moment.close, Option.ite_none_right_eq_some, Option.some.injEq] at hclose
    obtain ⟨-, rfl⟩ := hclose
    exact ⟨rfl, rfl⟩
  | clearZones =>
    simp only [Moment.close] at hclose
    obtain ⟨-, rfl⟩ := Moment.seize_eq_some hclose
    exact ⟨rfl, rfl⟩
  | request | tellDrudgers | closeQueue | drainQueue | clearSchedule =>
    cases hclose
    exact ⟨rfl, rfl⟩

namespace Underway

/-- When nothing is left to do, every part has achieved what it is for. -/
theorem all (h : d.Underway) (hdone : d.left = []) {what : Closing}
    (hwhat : what ∈ Closing.parts d.moment.pool.started) : d.Achieved what :=
  h.achieved what hwhat (hdone ▸ List.not_mem_nil)

private theorem emptied (h : d.Underway) (hdone : d.left = []) {what : Closing}
    (hwhat : what ∈ Closing.emptyings) : d.Achieved what :=
  h.all hdone (List.mem_append_right _ hwhat)

private theorem allOff (h : d.Underway) (hdone : .drainQueue ∉ d.left) : d.moment.pool.allOff :=
  (h.achieved .drainQueue (List.mem_append_right _ List.mem_cons_self) hdone).1

private theorem request_not_mem (h : d.Underway) : .request ∉ d.left := by
  intro hmem
  have hpart := h.order.subset hmem
  cases hs : d.moment.pool.started <;> simp [hs, Closing.parts, Closing.emptyings] at hpart

private theorem keep (h : d.Underway) (hleft : d'.left = d.left)
    (hstarted : d'.moment.pool.started = d.moment.pool.started)
    (hrequest : d'.moment.errand.isRequest)
    (hlate : .clearSchedule ∈ d.left → d'.late = d.late)
    (hachieved : ∀ what ∉ d.left, d.Achieved what → d'.Achieved what) : d'.Underway where
  order := by
    rw [hleft, hstarted]
    exact h.order
  request := hrequest
  ended := hachieved .request h.request_not_mem h.ended
  achieved := by
    rw [hleft, hstarted]
    exact fun what hwhat hdone => hachieved what hdone (h.achieved what hwhat hdone)
  early := by
    rw [hleft]
    exact fun hmem => (hlate hmem).trans (h.early hmem)

private theorem close {what : Closing} {left : List Closing} (h : d.Underway)
    (hleft : d.left = what :: left) (hoff : what = .drainQueue → d.moment.pool.allOff)
    (hclose : d.moment.close what = some m) :
    ({ d with moment := m, left := left } : Teardown σ).Underway := by
  have hsame := frame_close hclose
  have horder : what :: left <:+ Closing.parts d.moment.pool.started := hleft ▸ h.order
  have hnext : what ≠ .request := by
    rintro rfl
    exact h.request_not_mem (hleft ▸ List.mem_cons_self)
  constructor
  case order =>
    rw [hsame.1]
    exact (List.suffix_cons what left).trans horder
  case request =>
    rw [hsame.2]
    exact h.request
  case ended => exact h.ended.close hnext.symm hclose
  case early => exact fun hmem => h.early (hleft ▸ List.mem_cons_of_mem what hmem)
  case achieved =>
    rw [hsame.1]
    intro other hother hdone
    by_cases hwhat : other = what
    · subst hwhat
      refine achieved_close hnext (fun hlast => ?_) (fun hschedule => ?_) hclose
      · rcases hlast with rfl | hlast
        · exact hoff rfl
        · exact h.allOff (hleft ▸ drained_before horder hlast)
      · exact h.early (by rw [hleft, hschedule]; exact List.mem_cons_self)
    · have hdone' : other ∉ d.left := by
        rw [hleft]
        exact List.not_mem_cons_of_ne_of_not_mem hwhat hdone
      exact (h.achieved other hother hdone').close hwhat hclose

end Underway

variable [HasFiles σ]

/-- The end begins: the engine says so, and stops listening. -/
def ofMoment (m : Moment σ) : Teardown σ where
  moment := { m with engine := { m.engine with lifecycle := .shutdownRequested }.closeSocket }
  left := Closing.parts m.pool.started

/-- Let the engine do the next part of its end, or let a thread or a request go on. Nothing if that
has to wait. Nothing is emptied before all threads are gone. The thread that ends the engine does no
passes meanwhile, and nobody asks for one. -/
def step (c : Collaborators σ) (d : Teardown σ) : Move σ → Option (Teardown σ)
  | .closing what =>
    match d.left with
    | [] => none
    | next :: left =>
      if what ≠ next ∨ what = .drainQueue ∧ !d.moment.pool.allOff then none
      else (d.moment.close what).map ({ d with moment := ·, left := left })
  | .proceed =>
    d.moment.proceed.map ({ d with
      moment := ·
      late := d.late || d.moment.errand.admits && .clearSchedule ∉ d.left })
  | .pass | .heed | .start | .reload => none
  | move => (d.moment.step c move).map ({ d with moment := · })

def run (c : Collaborators σ) (d : Teardown σ) (moves : List (Move σ)) : Option (Teardown σ) :=
  moves.foldlM (·.step c ·) d

/-- What a move at the end comes to. -/
inductive Section (c : Collaborators σ) (d : Teardown σ) : Teardown σ → Prop
  | close {what : Closing} {left : List Closing} {m : Moment σ} (hleft : d.left = what :: left)
      (hoff : what = .drainQueue → d.moment.pool.allOff) (hclose : d.moment.close what = some m) :
      Section c d { d with moment := m, left := left }
  | worker {w : Nat} {p : Pool σ} (hstep : d.moment.pool.stepWorker c w = some p) :
      Section c d { d with moment := d.moment.withPool p }
  | drudger {i : Nat} {p : Pool σ} (hstep : d.moment.pool.stepDrudger c i = some p) :
      Section c d { d with moment := d.moment.withPool p }
  | proceed {m : Moment σ} (hproceed : d.moment.proceed = some m) :
      Section c d { d with
        moment := m
        late := d.late || d.moment.errand.admits && .clearSchedule ∉ d.left }
  | receive (what : ZoneRequest) (name : String) :
      Section c d { d with moment := d.moment.receive what name }
  | flushAll :
      Section c d { d with moment := d.moment.withSchedule d.moment.pool.schedule.flushAll.2 }
  | look (now : Nat) (around : σ) :
      Section c d { d with
        moment := d.moment.withPool { d.moment.pool with now := now, around := around } }

private theorem section_of_step {move : Move σ} (h : d.step c move = some d') : Section c d d' := by
  cases move with
  | closing what =>
    simp only [step] at h
    split at h
    · cases h
    · next next left hleft =>
      split at h
      · cases h
      · next hnext =>
        obtain ⟨hwhat, hoff⟩ := not_or.mp hnext
        obtain ⟨m, hclose, rfl⟩ := Option.map_eq_some_iff.mp h
        obtain rfl : what = next := not_not.mp hwhat
        exact .close hleft (by simpa using hoff) hclose
  | proceed =>
    obtain ⟨m, hproceed, rfl⟩ := Option.map_eq_some_iff.mp h
    exact .proceed hproceed
  | worker w =>
    obtain ⟨m, hstep, rfl⟩ := Option.map_eq_some_iff.mp h
    obtain ⟨p, hp, rfl⟩ := Option.map_eq_some_iff.mp hstep
    exact .worker hp
  | drudger i =>
    obtain ⟨m, hstep, rfl⟩ := Option.map_eq_some_iff.mp h
    obtain ⟨p, hp, rfl⟩ := Option.map_eq_some_iff.mp hstep
    exact .drudger hp
  | request what name =>
    obtain ⟨m, hstep, rfl⟩ := Option.map_eq_some_iff.mp h
    have hseize : d.moment.seize (·.receive what name) = some m := hstep
    obtain ⟨-, rfl⟩ := Moment.seize_eq_some hseize
    exact .receive what name
  | flushAll =>
    cases h
    exact .flushAll
  | tick now =>
    cases h
    exact .look now d.moment.pool.around
  | happen around =>
    cases h
    exact .look d.moment.pool.now around
  | pass | heed | start | reload => cases h

private theorem started_ofMoment (m : Moment σ) :
    (ofMoment m).moment.pool.started = m.pool.started := by
  obtain ⟨around, he⟩ :=
    ({ m.engine with lifecycle := .shutdownRequested } : Engine σ).closeSocket_eq
  exact congrArg (·.pool.started) he

private theorem underway_ofMoment (hrequest : m.errand.isRequest) : (ofMoment m).Underway := by
  obtain ⟨around, he⟩ :=
    ({ m.engine with lifecycle := .shutdownRequested } : Engine σ).closeSocket_eq
  have hended : (ofMoment m).Achieved .request :=
    ⟨congrArg Engine.lifecycle he, congrArg Engine.socket he⟩
  refine ⟨?_, hrequest, hended, ?_, fun _ => rfl⟩ <;> rw [started_ofMoment]
  · exact List.suffix_refl _
  · exact fun what hwhat hdone => absurd hwhat hdone

private theorem proceed_request (he : m.errand.isRequest) (hproceed : m.proceed = some m') :
    m'.errand.isRequest ∧ ∃ s, m'.engine = m.engine.withSchedule s ∧
      ∀ late, m.pool.schedule.Remnant late → s.Remnant (late || m.errand.admits) := by
  cases Moment.proceeded_of_proceed hproceed with
  | flush herrand | flushMoved herrand =>
    refine ⟨rfl, _, rfl, fun late h => ?_⟩
    simp only [herrand, Errand.admits, Bool.or_false]
    exact h.flushZone _
  | askRead herrand | refuse herrand | askReadInVain herrand =>
    refine ⟨rfl, _, rfl, fun late h => ?_⟩
    simp only [herrand, Errand.admits, Bool.or_false]
    exact h.reschedule _ .read _
  | grant herrand =>
    refine ⟨rfl, _, rfl, fun late h => ?_⟩
    simp only [herrand, Errand.admits, Bool.or_true]
    exact h.schedule _
  | _ herrand =>
    rw [herrand] at he
    cases he

omit [HasFiles σ] in
private theorem receive_request (he : m.errand.isRequest) (what : ZoneRequest) (name : String) :
    (m.receive what name).engine = m.engine ∧ (m.receive what name).errand.isRequest ∧
      (m.pool.zones = m.pool.zones.cleared → m.receive what name = m) := by
  rcases m.receive_cases what name with hn | ⟨z, hz, -, hn⟩ <;> rw [hn]
  · exact ⟨rfl, he, fun _ => rfl⟩
  · refine ⟨rfl, rfl, fun hzones => ?_⟩
    rw [hzones] at hz
    cases hz

/-- Every move keeps together what has been done. -/
theorem underway_step (h : d.Underway) (hsection : Section c d d') : d'.Underway := by
  cases hsection with
  | close hleft hoff hclose => exact h.close hleft hoff hclose
  | worker hstep =>
    obtain ⟨x, hx, hsection⟩ := Pool.workerSection_of_step hstep
    exact h.keep rfl (hsection.started hx) h.request (fun _ => rfl)
      fun _ _ hachieved => hachieved.worker hstep
  | drudger hstep =>
    obtain ⟨y, hy, hsection⟩ := Pool.drudgerSection_of_step hstep
    exact h.keep rfl hsection.frame.2.2.2.1 h.request (fun _ => rfl)
      fun _ _ hachieved => hachieved.drudger hstep
  | proceed hproceed =>
    obtain ⟨hrequest, s, hengine, hs⟩ := proceed_request h.request hproceed
    refine h.keep rfl (congrArg (·.pool.started) hengine) hrequest (fun hmem => by simp [hmem])
      fun what hdone hachieved => hachieved.beside hengine ?_ ?_
    · rintro rfl hremnant
      simpa [hdone] using hs d.late hremnant
    · intro hfree _
      simp [Moment.proceed, hfree] at hproceed
  | receive what name =>
    obtain ⟨hengine, hrequest, hgone⟩ := receive_request h.request what name
    refine h.keep rfl (congrArg (·.pool.started) hengine) hrequest (fun _ => rfl)
      fun _ _ hachieved => hachieved.beside hengine (fun _ => id) fun hfree hzones => ?_
    dsimp only
    rw [hgone hzones, hfree]
  | flushAll =>
    exact h.keep rfl rfl h.request (fun _ => rfl)
      fun _ _ hachieved => hachieved.beside rfl (fun _ hremnant => hremnant.flushAll)
        fun hfree _ => hfree
  | look now around =>
    exact h.keep rfl rfl h.request (fun _ => rfl)
      fun _ _ hachieved => hachieved.beside rfl (fun _ => id) fun hfree _ => hfree

private theorem underway_run {moves : List (Move σ)} (h : d.Underway) (hrun : d.run c moves = some d') :
    d'.Underway := by
  induction moves generalizing d with
  | nil =>
    cases hrun
    exact h
  | cons move moves ih =>
    obtain ⟨e, hstep, hrest⟩ := Option.bind_eq_some_iff.mp hrun
    exact ih (underway_step h (section_of_step hstep)) hrest

private theorem run_append {e : Teardown σ} {moves moves' : List (Move σ)}
    (h : d.run c moves = some e) (h' : e.run c moves' = some d') :
    d.run c (moves ++ moves') = some d' := by
  unfold run at *
  rw [List.foldlM_append, h]
  exact h'

private theorem run_threads (m : Moment σ) (p : Pool σ) (left : List Closing) (fuel : Nat) :
    ∃ moves, ({ moment := m.withPool p, left := left } : Teardown σ).run c moves =
      some { moment := m.withPool (p.run c (fun _ p => p) fuel), left := left } := by
  induction fuel generalizing p with
  | zero => exact ⟨[], rfl⟩
  | succ fuel ih =>
    unfold Pool.run
    cases hstep : p.stepAny c fun _ p => p with
    | none => exact ⟨[], rfl⟩
    | some p' =>
      obtain ⟨moves, hmoves⟩ := ih p'
      rcases Pool.step_of_stepAny hstep with ⟨w, hw⟩ | ⟨i, hi⟩
      · refine ⟨.worker w :: moves, Option.bind_eq_some_iff.mpr ⟨_, ?_, hmoves⟩⟩
        simp only [step, Moment.step, Moment.pool_withPool, hw]
        rfl
      · refine ⟨.drudger i :: moves, Option.bind_eq_some_iff.mpr ⟨_, ?_, hmoves⟩⟩
        simp only [step, Moment.step, Moment.pool_withPool, hi]
        rfl

private theorem run_pool (m : Moment σ) (fuel : Nat) :
    ∃ moves, ({ moment := m, left := Closing.parts m.pool.started } : Teardown σ).run c moves =
      some { moment := m.withPool (m.pool.shutdown c fuel), left := Closing.emptyings } := by
  unfold Pool.shutdown
  cases m.pool.started with
  | false => exact ⟨[], rfl⟩
  | true =>
    have hfirst : ({ moment := m, left := Closing.parts true } : Teardown σ).run c
        [.closing .tellDrudgers, .closing .closeQueue] = some {
          moment := m.withPool m.pool.dismissDrudgers
          left := .tellWorkers :: Closing.emptyings } := rfl
    obtain ⟨moves, hmoves⟩ :=
      run_threads (c := c) m m.pool.dismissDrudgers (.tellWorkers :: Closing.emptyings) fuel
    have hclosed : (m.pool.dismissDrudgers.run c (fun _ p => p) fuel).queue.closed :=
      Engine.closed_of_reaches
        (Engine.reaches_run { m.engine with pool := m.pool.dismissDrudgers } fuel) rfl
    dsimp only
    generalize m.pool.dismissDrudgers.run c (fun _ p => p) fuel = p at hmoves hclosed ⊢
    have hclose : (m.withPool p).close .tellWorkers = some (m.withPool p.dismissWorkers) :=
      if_pos hclosed
    have htell : ({
          moment := m.withPool p
          left := .tellWorkers :: Closing.emptyings } : Teardown σ).run c [.closing .tellWorkers] =
        some { moment := m.withPool p.dismissWorkers, left := Closing.emptyings } := by
      simp [run, step, hclose]
    obtain ⟨moves', hmoves'⟩ := run_threads (c := c) m p.dismissWorkers Closing.emptyings fuel
    exact ⟨_, run_append (run_append (run_append hfirst hmoves) htell) hmoves'⟩

private theorem run_emptyings (he : m.errand = .none) (hoff : m.pool.allOff) :
    ({ moment := m, left := Closing.emptyings } : Teardown σ).run c
      (Closing.emptyings.map .closing) =
        some {
          moment := { m with engine := m.engine.drainQueue.clearSchedule.clearZones }
          left := [] } := by
  simp [run, step, Closing.emptyings, hoff, Moment.close, Moment.seize, he]

/-- To shut an engine down is such an end, in which the threads go on and nobody else does
anything. -/
theorem run_shutdown {e : Engine σ} (hoff : (e.shutdown c).pool.allOff) :
    ∃ moves, (ofMoment e.idle).run c moves =
      some { moment := (e.shutdown c).idle, left := [] } := by
  obtain ⟨moves, hmoves⟩ := run_pool (c := c) (ofMoment e.idle).moment Engine.patience
  rw [started_ofMoment] at hmoves
  exact ⟨_, run_append hmoves (run_emptyings rfl hoff)⟩

private theorem shutdown_of_empty {e : Engine σ} (hlifecycle : e.lifecycle = .shutdownRequested)
    (hsocket : e.socket = none) (hpool : e.pool.shutdown c Engine.patience = e.pool)
    (hitems : e.pool.queue.items = []) (hzones : e.pool.zones = e.pool.zones.cleared) :
    e.shutdown c = e.withSchedule {} := by
  have hclosed : ({ e with lifecycle := .shutdownRequested } : Engine σ).closeSocket = e := by
    rw [← hlifecycle]
    unfold Engine.closeSocket
    split
    · rfl
    · next hpath =>
      rw [hsocket] at hpath
      cases hpath
  have hqueue : e.pool.queue.drain.2.1 = e.pool.queue := by rw [HandoffQueue.drain, ← hitems]
  have hretired : e.pool.retired ++ e.pool.zones.all = e.pool.retired := by
    rw [hzones]
    exact List.append_nil _
  unfold Engine.shutdown
  rw [hclosed]
  dsimp only
  rw [hpool]
  simp only [Engine.drainQueue, Engine.clearSchedule, Engine.clearZones, Engine.withSchedule,
    Schedule.clear, hqueue, hretired, ← hzones]

/-- Nothing is left when the end has come but what there may be in the schedule. -/
theorem Underway.shutdown_eq (h : d.Underway) (hdone : d.left = []) :
    d.moment.engine.shutdown c = d.moment.engine.withSchedule {} := by
  obtain ⟨hlifecycle, hsocket⟩ := h.ended
  obtain ⟨hoff, hitems⟩ : d.Achieved .drainQueue := h.emptied hdone (by decide)
  obtain ⟨-, -, hzones⟩ : d.Achieved .clearZones := h.emptied hdone (by decide)
  refine shutdown_of_empty hlifecycle hsocket (Pool.shutdown_of_allOff hoff ?_ _) hitems hzones
  intro hstarted
  have hdrudgers : d.Achieved .tellDrudgers := h.all hdone (by simp [Closing.parts, hstarted])
  have hclosed : d.Achieved .closeQueue := h.all hdone (by simp [Closing.parts, hstarted])
  have hworkers : d.Achieved .tellWorkers := h.all hdone (by simp [Closing.parts, hstarted])
  exact ⟨hdrudgers, hclosed, hworkers⟩

/-- To shut an engine down twice in a row is to do so once, if its threads are gone after the first
time. -/
theorem shutdown_twice {e : Engine σ} (hoff : (e.shutdown c).pool.allOff) :
    (e.shutdown c).shutdown c = e.shutdown c := by
  obtain ⟨moves, hrun⟩ := run_shutdown hoff
  have h := underway_run (underway_ofMoment rfl) hrun
  exact h.shutdown_eq rfl

/-- Once the end of an engine has come, whatever the threads, requests and the clock do meanwhile,
the queue and the list of zones are empty, nobody holds the list, no task is taken, and no request
finds its zone. But the schedule is empty, and to shut the engine down again changes nothing,
exactly if no request to sign has come to schedule a task between the emptying of the schedule and
that of the list. Such a task is there for good, until the engine is shut down again. -/
theorem shutdown_leaves_nothing {moves : List (Move σ)} (hrequest : m.errand.isRequest)
    (hrun : (ofMoment m).run c moves = some d) (hdone : d.left = []) :
    (d.moment.pool.queue.items = [] ∧ d.moment.pool.zones.all = [] ∧ d.moment.errand = .none ∧
      ∀ z, d.moment.pool.schedule.isInFlight z = false) ∧
    (∀ name, ∃ e : ScheduleError, e.failure = .notFound ∧
      d.moment.engine.signZone name = (.error e, d.moment.engine) ∧
      d.moment.engine.flushZone name = (.error e, d.moment.engine)) ∧
    (d.moment.pool.schedule = {} ↔ d.late = false) ∧
    (d.moment.engine.shutdown c = d.moment.engine ↔ d.late = false) := by
  have h := underway_run (underway_ofMoment hrequest) hrun
  obtain ⟨-, hitems⟩ : d.Achieved .drainQueue := h.emptied hdone (by decide)
  obtain ⟨-, hschedule⟩ : d.Achieved .clearSchedule := h.emptied hdone (by decide)
  obtain ⟨-, hfree, hzones⟩ : d.Achieved .clearZones := h.emptied hdone (by decide)
  refine ⟨⟨hitems, ?_, hfree, hschedule.untaken⟩, fun name => ?_, hschedule.eq_empty_iff, ?_⟩
  · rw [hzones]
    rfl
  · have hunknown : d.moment.engine.pool.zones.find? name = none := by
      have hpool : d.moment.engine.pool.zones = d.moment.pool.zones.cleared := hzones
      rw [hpool]
      rfl
    refine ⟨.unknownZone name, rfl, ?_, ?_⟩
    · rw [Engine.signZone, Engine.withLiveZone, hunknown]
    · rw [Engine.flushZone, Engine.withLiveZone, hunknown]
  · rw [h.shutdown_eq hdone, ← hschedule.eq_empty_iff]
    constructor
    · exact fun he => (congrArg (·.pool.schedule) he).symm
    · intro he
      have hpool : d.moment.engine.pool.schedule = {} := he
      rw [Engine.withSchedule, ← hpool]

/-- The end of the engine for one zone, when some moves come between the emptying of the schedule
and that of the list. -/
def endOfOneZone (between : List (Move FileWorld)) : List (Move FileWorld) :=
  [.closing .tellDrudgers, .closing .closeQueue, .drudger 0, .closing .tellWorkers, .worker 0,
    .closing .drainQueue, .closing .clearSchedule] ++ between ++ [.closing .clearZones]

/-- Requests to flush the zone and everything find nothing to flush between the two. -/
theorem shutdown_leaves_nothing_oneZone : ∃ (m : Moment FileWorld) (d : Teardown FileWorld),
    m.Reachable fileCollaborators ∧ m.pool.schedule.size = 1 ∧ m.pool.zones.size = 1 ∧
      (ofMoment m).run fileCollaborators
        (endOfOneZone [.request .flush "a", .flushAll, .proceed]) = some d ∧ d.late = false ∧
      d.moment.pool.schedule = {} ∧
      d.moment.engine.shutdown fileCollaborators = d.moment.engine := by
  have hfirst : (Moment.oneZone.follow fileCollaborators Moment.firstPass).any fun m =>
      m.errand.isRequest && m.pool.schedule.size = 1 && m.pool.zones.size = 1 &&
        ((ofMoment m).run fileCollaborators
          (endOfOneZone [.request .flush "a", .flushAll, .proceed])).any fun d =>
            d.left.isEmpty && !d.late := by
    decide +kernel
  obtain ⟨m, hm, hm'⟩ := (Option.any_eq_true _ _).mp hfirst
  simp only [Bool.and_eq_true, decide_eq_true_eq] at hm'
  obtain ⟨⟨⟨hrequest, hsize⟩, hzones⟩, hrun⟩ := hm'
  obtain ⟨d, hrun, hd⟩ := (Option.any_eq_true _ _).mp hrun
  simp only [Bool.and_eq_true, List.isEmpty_iff, Bool.not_eq_true'] at hd
  obtain ⟨hdone, hlate⟩ := hd
  have hreachable : m.Reachable fileCollaborators :=
    (Moment.Reachable.initial Moment.oneZone_initial).follow (by decide) hm
  obtain ⟨-, -, hschedule, hagain⟩ := shutdown_leaves_nothing hrequest hrun hdone
  exact ⟨m, d, hreachable, hsize, hzones, hrun, hlate, hschedule.mpr hlate, hagain.mpr hlate⟩

/-- A request to sign that comes between the two gives the zone a task that stays behind, although
all threads are gone and nobody holds the list any more. To shut the engine down again removes
it. -/
theorem late_request_leaves_a_task : ∃ (m : Moment FileWorld) (d : Teardown FileWorld),
    m.Reachable fileCollaborators ∧
      (ofMoment m).run fileCollaborators
        (endOfOneZone [.request .sign "a", .proceed, .proceed]) = some d ∧
      d.left = [] ∧ d.moment.errand = .none ∧ d.moment.pool.allOff ∧
      d.moment.pool.schedule.waiting.map (fun t => (t.zone, t.what, t.flush)) =
        [(.of "a" .internet, .read, true)] ∧
      d.moment.engine.shutdown fileCollaborators ≠ d.moment.engine := by
  have hfirst : (Moment.oneZone.follow fileCollaborators Moment.firstPass).any fun m =>
      m.errand.isRequest && ((ofMoment m).run fileCollaborators
        (endOfOneZone [.request .sign "a", .proceed, .proceed])).any fun d =>
          d.left.isEmpty &&
            d.moment.pool.schedule.waiting.map (fun t => (t.zone, t.what, t.flush)) =
              [(.of "a" .internet, .read, true)] := by
    decide +kernel
  obtain ⟨m, hm, hm'⟩ := (Option.any_eq_true _ _).mp hfirst
  obtain ⟨hrequest, hrun⟩ := Bool.and_eq_true_iff.mp hm'
  obtain ⟨d, hrun, hd⟩ := (Option.any_eq_true _ _).mp hrun
  simp only [Bool.and_eq_true, List.isEmpty_iff, decide_eq_true_eq] at hd
  obtain ⟨hdone, hwaiting⟩ := hd
  have hreachable : m.Reachable fileCollaborators :=
    (Moment.Reachable.initial Moment.oneZone_initial).follow (by decide) hm
  obtain ⟨hoff, hfree, -⟩ : d.Achieved .clearZones :=
    (underway_run (underway_ofMoment hrequest) hrun).emptied hdone (by decide)
  refine ⟨m, d, hreachable, hrun, hdone, hfree, hoff, hwaiting, fun hagain => ?_⟩
  have hempty : d.moment.pool.schedule = {} := (congrArg (·.pool.schedule) hagain).symm
  rw [hempty] at hwaiting
  cases hwaiting

end Teardown

end ZoneSigning
