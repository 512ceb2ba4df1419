import Mathlib.Logic.Basic
import ZoneSigning.Proofs.RememberedRemovals

/-!
An engine that serves, between two sections. What the engine says of its state and what it has been
told are two records without a common lock: a caller writes the one and then adds to the other, and
the loop takes from the other and then writes the one, each with anything in between. Only the loop
does passes, and only between two looks at what it has been told.
-/
namespace ZoneSigning

/-- What a caller asks of an engine as a whole. -/
inductive Wish where
  | reload
  | shutdown
deriving DecidableEq, Repr

namespace Wish

def lifecycle : Wish → Lifecycle
  | reload => .reloadRequested
  | shutdown => .shutdownRequested

def signal : Wish → Signal
  | reload => .reload
  | shutdown => .shutdown

end Wish

/-- What the thread of an engine has to do next. -/
inductive Station where
  | starting
  | waiting
  | trying
  | woken
  | due
  | leaving
  | gone
deriving DecidableEq, Repr

namespace Station

def after : Signal → Station
  | .reload => woken
  | .workerIdle => trying
  | .shutdown => leaving

def serves : Station → Bool
  | starting | waiting | trying | woken | due => true
  | leaving | gone => false

/-- How many passes the loop is still going to do before it looks at what it has been told. -/
def owed : Station → Nat
  | woken | due => 1
  | starting | waiting | trying | leaving | gone => 0

/-- Whether a move may be made beside the loop. The loop takes up all signals and does all passes but
the first one, callers make requests in two parts, and the end comes when the loop is over. -/
def allows {σ : Type} (s : Station) : Move σ → Bool
  | .heed | .reload | .closing .request => false
  | .pass | .start => s = starting
  | .closing _ => s = gone
  | .worker _ | .drudger _ | .proceed | .request .. | .flushAll | .tick _ | .happen _ => true

end Station

/-- The loop of an engine, and what it has done. -/
structure Loop where
  station : Station := .starting
  /-- The signals that it has taken up, oldest first. -/
  taken : List Signal := []
  /-- How many passes it has begun. -/
  passes : Nat := 0
  /-- How often it has waited for as long as it ever waits, and has been told nothing. -/
  periods : Nat := 0

/-- An engine that serves, between two sections. -/
structure Serving (σ : Type) where
  moment : Moment σ
  /-- What callers have still to tell the engine. They have already written its state. -/
  calls : List Signal := []
  loop : Loop := {}

namespace Serving

variable {σ : Type}

/-- One section of a caller, of the loop or of some other thread. -/
inductive Act (σ : Type) where
  | call (what : Wish)
  | send (index : Nat)
  | notice (s : Signal)
  | begin
  | fail
  | take
  | timeout
  | say
  | pass
  | evict
  /-- The end begins. Once the loop is over, this may happen more than once. -/
  | leave
  /-- A move that is made beside the loop, or belongs to a pass of the loop. -/
  | other (move : Move σ)

def state (w : Serving σ) : Lifecycle := w.moment.engine.lifecycle

def signals (w : Serving σ) : List Signal := w.moment.pool.signals

/-- All that the engine has ever been told, in this order. -/
def told (w : Serving σ) : List Signal := w.loop.taken ++ w.signals

def withState (w : Serving σ) (l : Lifecycle) : Serving σ :=
  { w with moment := { w.moment with engine := { w.moment.engine with lifecycle := l } } }

def tell (w : Serving σ) (s : Signal) : Serving σ :=
  { w with moment := { w.moment with engine := w.moment.engine.signal s } }

def turn (w : Serving σ) (s : Station) : Serving σ := { w with loop := { w.loop with station := s } }

def listens (w : Serving σ) : Bool := w.loop.station = .waiting && !w.moment.errand.evicts

def step [HasFiles σ] (c : Collaborators σ) (w : Serving σ) : Act σ → Option (Serving σ)
  | .call what => some { w.withState what.lifecycle with calls := w.calls ++ [what.signal] }
  | .send index => w.calls[index]?.map fun s => { w.tell s with calls := w.calls.eraseIdx index }
  | .notice s => some (w.tell s)
  | .begin => if w.loop.station = .starting then some (w.turn .waiting) else none
  | .fail => if w.loop.station = .starting then some (w.turn .leaving) else none
  | .take =>
    match w.listens, w.signals with
    | true, s :: rest => some { w with
        moment := w.moment.withPool { w.moment.pool with signals := rest }
        loop := { w.loop with station := .after s, taken := w.loop.taken ++ [s] } }
    | _, _ => none
  | .timeout =>
    match w.listens, w.signals with
    | true, [] => some { w with
        loop := { w.loop with station := .woken, periods := w.loop.periods + 1 } }
    | _, _ => none
  | .say => if w.loop.station = .woken then some ((w.withState .run).turn .due) else none
  | .pass =>
    if w.loop.station = .due then
      (w.moment.seize fun m => m.beginPass m.pool.now).map fun m => { w with
        moment := m
        loop := { w.loop with station := .waiting, passes := w.loop.passes + 1 } }
    else none
  | .evict =>
    if w.loop.station = .trying then
      (w.moment.seize (·.heed .workerIdle)).map fun m => { w.turn .waiting with moment := m }
    else none
  | .leave =>
    if w.loop.station.serves then none else some ((w.withState .shutdownRequested).turn .gone)
  | .other move =>
    if w.loop.station.allows move then (w.moment.step c move).map fun m => { w with moment := m }
    else none

def follow [HasFiles σ] (c : Collaborators σ) (w : Serving σ) (acts : List (Act σ)) :
    Option (Serving σ) :=
  acts.foldlM (·.step c ·) w

/-- An engine whose loop has still to begin, whatever it has been told and asked before. -/
def ofMoment (m : Moment σ) : Serving σ := { moment := m }

end Serving

namespace Moment

variable {σ : Type} [HasFiles σ] {c : Collaborators σ} {m m' : Moment σ} {move : Move σ}

omit [HasFiles σ] in
private theorem seize_of_free {f : Moment σ → Moment σ} (h : m.errand = .none) : m.seize f = some (f m) := by
  rw [seize, h]

/-- A move that is made beside the loop says nothing of the state of the engine, and at most tells the
engine something, behind all that it has been told. -/
theorem told_of_allowed {s : Station} (hallowed : s.allows move) (hstep : m.step c move = some m') :
    m'.engine.lifecycle = m.engine.lifecycle ∧
      ∃ more, m'.pool.signals = m.pool.signals ++ more := by
  have hsame (hstate : m'.engine.lifecycle = m.engine.lifecycle)
      (h : m'.pool.signals = m.pool.signals) : m'.engine.lifecycle = m.engine.lifecycle ∧
        ∃ more, m'.pool.signals = m.pool.signals ++ more :=
    ⟨hstate, [], by rw [h, List.append_nil]⟩
  cases moved_of_step hstep with
  | heed | reload => cases hallowed
  | worker hp =>
    obtain ⟨x, -, hsection⟩ := Pool.workerSection_of_step hp
    rcases hsection.signals with h | ⟨drained, -, rfl⟩
    · exact hsame rfl h
    · obtain ⟨more, he⟩ := m.pool.tell_eq _ drained
      exact ⟨rfl, more, by rw [pool_withPool, he]; rfl⟩
  | drudger hp =>
    obtain ⟨y, -, hsection⟩ := Pool.drudgerSection_of_step hp
    exact hsame rfl (by cases hsection <;> rfl)
  | proceed hproceed =>
    obtain ⟨⟨_, _, _, _, hpool⟩, -⟩ := pool_proceed hproceed
    exact hsame (by rw [engine_proceed hproceed]) (by rw [hpool])
  | pass => exact hsame (by rw [engine_beginPass]) (by rw [pool_beginPass])
  | request => exact hsame (by rw [engine_receive]) (by rw [pool_receive])
  | start hp => exact hsame rfl (by rw [(Pool.start_eq_ok hp).2]; rfl)
  | flushAll | tick | happen => exact hsame rfl rfl
  | closing hclose =>
    cases hclose with
    | request => cases hallowed
    | _ => exact hsame rfl rfl

/-- If nobody else does anything, the holder of the list comes to an end. -/
inductive LetsGo : Moment σ → Prop where
  | free {m : Moment σ} (h : m.errand = .none) : LetsGo m
  | proceed {m m' : Moment σ} (h : m.proceed = some m') (next : LetsGo m') : LetsGo m

private theorem letsGo_settling {left : List ZoneKey} (h : m.errand = .settling left) :
    m.LetsGo := by
  induction left generalizing m with
  | nil => exact .proceed (by rw [proceed, h]) (.free rfl)
  | cons key left ih => exact .proceed (by rw [proceed, h]) (ih rfl)

private theorem letsGo_evicting {inPass : Bool} {doomed left : List ZoneKey}
    (h : m.errand = .evicting inPass doomed left) : m.LetsGo := by
  induction left generalizing m doomed with
  | nil =>
    refine .proceed (by rw [proceed, h]) ?_
    cases inPass with
    | false => exact .free rfl
    | true => exact letsGo_settling rfl
  | cons key left ih =>
    refine .proceed (by rw [proceed, h]) ?_
    unfold tryEvict
    dsimp only
    split
    · exact ih rfl
    · split
      · exact .proceed rfl (ih rfl)
      · exact ih rfl

omit [HasFiles σ] in
private theorem errand_judge (m : Moment σ) (now : Nat) (z : Zone) (left : List ZoneKey) :
    (m.judge now z left).errand = .acting now left ∨
      (m.judge now z left).errand = .lacking now z left := by
  unfold judge
  split
  · exact .inl rfl
  · split
    · exact .inl rfl
    · exact (ite_eq_or_eq _ _ _).symm
  · exact ite_eq_or_eq _ _ _
  · exact ite_eq_or_eq _ _ _

private theorem letsGo_acting {now : Nat} {left : List ZoneKey} (h : m.errand = .acting now left) :
    m.LetsGo := by
  induction left generalizing m with
  | nil => exact .proceed (by rw [proceed, h]) (letsGo_evicting rfl)
  | cons key left ih =>
    refine .proceed (by rw [proceed, h]) ?_
    unfold act
    dsimp only
    split
    · exact ih rfl
    · next z hz =>
      refine .proceed rfl ?_
      rcases errand_judge (m.turn (.judged now z left)) now z left with hjudged | hjudged
      · exact ih hjudged
      · exact .proceed (by rw [proceed, hjudged]) (ih rfl)

private theorem letsGo_merging {now : Nat} {time : FileTime} {fresh : ZoneList}
    {counts : MergeCounts} {left : List ZoneKey}
    (h : m.errand = .merging now time fresh counts left) : m.LetsGo := by
  induction left generalizing m counts with
  | nil => exact .proceed (by rw [proceed, h]) (letsGo_acting rfl)
  | cons key left ih => exact .proceed (by rw [proceed, h]) (ih rfl)

/-- Whatever the holder of the list has to do, it comes to an end. -/
theorem letsGo (m : Moment σ) : m.LetsGo := by
  cases h : m.errand with
  | none => exact .free h
  | reading now time =>
    refine .proceed (by rw [proceed, h]) ?_
    unfold readInventory
    split
    · exact .free rfl
    · exact letsGo_merging rfl
  | merging => exact letsGo_merging h
  | acting => exact letsGo_acting h
  | judged now z left =>
    refine .proceed (by rw [proceed, h]) ?_
    rcases m.errand_judge now z left with hjudged | hjudged
    · exact letsGo_acting hjudged
    · exact .proceed (by rw [proceed, hjudged]) (letsGo_acting rfl)
  | lacking => exact .proceed (by rw [proceed, h]) (letsGo_acting rfl)
  | evicting => exact letsGo_evicting h
  | leaving => exact .proceed (by rw [proceed, h]) (letsGo_evicting rfl)
  | settling => exact letsGo_settling h
  | serving what now z =>
    refine .proceed (by rw [proceed, h]) ?_
    cases what with
    | flush => exact .free rfl
    | sign =>
      unfold serve
      dsimp only
      split
      · exact .proceed rfl (.free rfl)
      · next e s hs =>
        rcases ite_eq_or_eq (e.failure = .notFound) (Errand.admitting now z) .none with
          hadmit | hnone
        · exact .proceed (by rw [proceed, turn, hadmit]) (.free rfl)
        · exact .free hnone
  | admitting => exact .proceed (by rw [proceed, h]) (.free rfl)
  | flushing => exact .proceed (by rw [proceed, h]) (.free rfl)

end Moment

namespace Serving

variable {σ : Type} {w v : Serving σ} {act : Act σ}

@[simp] theorem state_withState (w : Serving σ) (l : Lifecycle) : (w.withState l).state = l := rfl

@[simp] theorem signals_withState (w : Serving σ) (l : Lifecycle) :
    (w.withState l).signals = w.signals := rfl

@[simp] theorem loop_withState (w : Serving σ) (l : Lifecycle) : (w.withState l).loop = w.loop := rfl

@[simp] theorem state_tell (w : Serving σ) (s : Signal) : (w.tell s).state = w.state := rfl

@[simp] theorem signals_tell (w : Serving σ) (s : Signal) :
    (w.tell s).signals = w.signals ++ [s] := rfl

@[simp] theorem loop_tell (w : Serving σ) (s : Signal) : (w.tell s).loop = w.loop := rfl

@[simp] theorem state_turn (w : Serving σ) (s : Station) : (w.turn s).state = w.state := rfl

@[simp] theorem signals_turn (w : Serving σ) (s : Station) : (w.turn s).signals = w.signals := rfl

@[simp] theorem loop_turn (w : Serving σ) (s : Station) :
    (w.turn s).loop = { w.loop with station := s } := rfl

/-- The loop listens while it waits, unless it holds the list for a pass or for evictions. -/
theorem listens_iff : w.listens ↔ w.loop.station = .waiting ∧ w.moment.errand.evicts = false := by
  simp [listens]

/-- What a section does to the loop, to what the engine has been told and to what it says of its
state. -/
inductive Effect (w v : Serving σ) : Act σ → Prop where
  | call {what : Wish} (hloop : v.loop = w.loop) (hsignals : v.signals = w.signals)
      (hstate : v.state = what.lifecycle) : Effect w v (.call what)
  /-- Others than the loop and than whoever writes the state at most tell the engine something. -/
  | beside {act : Act σ} (hloop : v.loop = w.loop) (more : List Signal)
      (hsignals : v.signals = w.signals ++ more) (hstate : v.state = w.state)
      (hcall : ∀ what, act ≠ .call what) : Effect w v act
  | begin (hstation : w.loop.station = .starting)
      (hloop : v.loop = { w.loop with station := .waiting })
      (hsignals : v.signals = w.signals) (hstate : v.state = w.state) : Effect w v .begin
  | fail (hstation : w.loop.station = .starting)
      (hloop : v.loop = { w.loop with station := .leaving })
      (hsignals : v.signals = w.signals) (hstate : v.state = w.state) : Effect w v .fail
  | take {s : Signal} (hlistens : w.listens)
      (hloop : v.loop = { w.loop with station := .after s, taken := w.loop.taken ++ [s] })
      (hsignals : w.signals = s :: v.signals) (hstate : v.state = w.state) : Effect w v .take
  | timeout (hlistens : w.listens)
      (hloop : v.loop = { w.loop with station := .woken, periods := w.loop.periods + 1 })
      (hempty : w.signals = []) (hsignals : v.signals = []) (hstate : v.state = w.state) :
      Effect w v .timeout
  | say (hstation : w.loop.station = .woken) (hloop : v.loop = { w.loop with station := .due })
      (hsignals : v.signals = w.signals) (hstate : v.state = .run) : Effect w v .say
  | pass (hstation : w.loop.station = .due)
      (hloop : v.loop = { w.loop with station := .waiting, passes := w.loop.passes + 1 })
      (hsignals : v.signals = w.signals) (hstate : v.state = w.state) : Effect w v .pass
  | evict (hstation : w.loop.station = .trying)
      (hloop : v.loop = { w.loop with station := .waiting })
      (hsignals : v.signals = w.signals) (hstate : v.state = w.state) : Effect w v .evict
  | leave (hstation : w.loop.station.serves = false)
      (hloop : v.loop = { w.loop with station := .gone })
      (hsignals : v.signals = w.signals) (hstate : v.state = .shutdownRequested) :
      Effect w v .leave

variable [HasFiles σ] {c : Collaborators σ}

/-- A section does to the loop what `Serving.Effect` says. -/
theorem effect_of_step (hstep : w.step c act = some v) : w.Effect v act := by
  cases act with
  | call what =>
    cases hstep
    exact .call rfl rfl rfl
  | send index =>
    obtain ⟨s, -, rfl⟩ := Option.map_eq_some_iff.mp hstep
    exact .beside rfl [s] rfl rfl nofun
  | notice s =>
    cases hstep
    exact .beside rfl [s] rfl rfl nofun
  | begin =>
    simp only [step, Option.ite_none_right_eq_some, Option.some.injEq] at hstep
    obtain ⟨hstation, rfl⟩ := hstep
    exact .begin hstation rfl rfl rfl
  | fail =>
    simp only [step, Option.ite_none_right_eq_some, Option.some.injEq] at hstep
    obtain ⟨hstation, rfl⟩ := hstep
    exact .fail hstation rfl rfl rfl
  | take =>
    simp only [step] at hstep
    split at hstep
    · next s rest hlistens hsignals =>
      cases hstep
      exact .take hlistens rfl hsignals rfl
    · cases hstep
  | timeout =>
    simp only [step] at hstep
    split at hstep
    · next hlistens hsignals =>
      cases hstep
      exact .timeout hlistens rfl hsignals hsignals rfl
    · cases hstep
  | say =>
    simp only [step, Option.ite_none_right_eq_some, Option.some.injEq] at hstep
    obtain ⟨hstation, rfl⟩ := hstep
    exact .say hstation rfl rfl rfl
  | pass =>
    simp only [step, Option.ite_none_right_eq_some] at hstep
    obtain ⟨hstation, hstep⟩ := hstep
    obtain ⟨m, hm, rfl⟩ := Option.map_eq_some_iff.mp hstep
    obtain ⟨-, rfl⟩ := Moment.seize_eq_some hm
    exact .pass hstation rfl (congrArg Pool.signals (Moment.pool_beginPass _ _))
      (congrArg Engine.lifecycle (Moment.engine_beginPass _ _))
  | evict =>
    simp only [step, Option.ite_none_right_eq_some] at hstep
    obtain ⟨hstation, hstep⟩ := hstep
    obtain ⟨m, hm, rfl⟩ := Option.map_eq_some_iff.mp hstep
    obtain ⟨-, rfl⟩ := Moment.seize_eq_some hm
    exact .evict hstation rfl rfl rfl
  | leave =>
    simp only [step, Option.ite_none_left_eq_some, Option.some.injEq, Bool.not_eq_true] at hstep
    obtain ⟨hstation, rfl⟩ := hstep
    exact .leave hstation rfl rfl rfl
  | other move =>
    simp only [step, Option.ite_none_right_eq_some] at hstep
    obtain ⟨hallowed, hstep⟩ := hstep
    obtain ⟨m, hm, rfl⟩ := Option.map_eq_some_iff.mp hstep
    obtain ⟨hstate, more, hsignals⟩ := Moment.told_of_allowed hallowed hm
    exact .beside rfl more hsignals hstate nofun

private theorem step_take {s : Signal} {rest : List Signal} (hlistens : w.listens)
    (hsignals : w.signals = s :: rest) : w.step c .take = some { w with
      moment := w.moment.withPool { w.moment.pool with signals := rest }
      loop := { w.loop with station := .after s, taken := w.loop.taken ++ [s] } } := by
  simp only [step, hlistens, hsignals]

private theorem step_say (h : w.loop.station = .woken) :
    w.step c .say = some ((w.withState .run).turn .due) := if_pos h

private theorem step_pass (h : w.loop.station = .due) (hfree : w.moment.errand = .none) :
    w.step c .pass = some { w with
      moment := w.moment.beginPass w.moment.pool.now
      loop := { w.loop with station := .waiting, passes := w.loop.passes + 1 } } := by
  rw [step, if_pos h, Moment.seize_of_free hfree]
  rfl

private theorem step_evict (h : w.loop.station = .trying) (hfree : w.moment.errand = .none) :
    w.step c .evict = some { w.turn .waiting with moment := w.moment.heed .workerIdle } := by
  rw [step, if_pos h, Moment.seize_of_free hfree]
  rfl

private theorem follow_cons (c : Collaborators σ) (w : Serving σ) (act : Act σ) (acts : List (Act σ)) :
    w.follow c (act :: acts) = (w.step c act).bind (follow c · acts) := rfl

/-- Sections are made one after the other. -/
theorem follow_cons_eq_some {acts : List (Act σ)} : w.follow c (act :: acts) = some v ↔
    ∃ u, w.step c act = some u ∧ u.follow c acts = some v :=
  Option.bind_eq_some_iff

private theorem follow_append (c : Collaborators σ) (w : Serving σ) (acts more : List (Act σ)) :
    w.follow c (acts ++ more) = (w.follow c acts).bind (follow c · more) :=
  List.foldlM_append

/-- A caller that is not interrupted does what the request does as a whole. -/
theorem follow_call (c : Collaborators σ) (w : Serving σ) (what : Wish) :
    w.follow c [.call what, .send w.calls.length] =
      some { w with moment := { w.moment with engine := match what with
        | .reload => w.moment.engine.requestReload
        | .shutdown => w.moment.engine.requestShutdown } } := by
  cases what <;> simp [follow, step, tell, withState, Wish.signal, Wish.lifecycle,
    Engine.requestReload, Engine.requestShutdown, List.eraseIdx_append_of_length_le]

def sections : Signal → List (Act σ)
  | .reload => [.take, .say, .pass]
  | .workerIdle => [.take, .evict]
  | .shutdown => [.take]

/-- A loop that is not interrupted takes up a signal as it does as a whole. -/
theorem follow_sections {m : Moment σ} {s : Signal} {rest : List Signal}
    (hwaiting : w.loop.station = .waiting) (hsignals : w.signals = s :: rest)
    (hheed : w.moment.step c .heed = some m) :
    w.follow c (sections s) = some { w with
      moment := m
      loop := {
        station := if s = .shutdown then .leaving else .waiting
        taken := w.loop.taken ++ [s]
        passes := w.loop.passes + if s = .reload then 1 else 0
        periods := w.loop.periods } } := by
  have hpool : w.moment.pool.signals = s :: rest := hsignals
  simp only [Moment.step, hpool] at hheed
  obtain ⟨hfree, rfl⟩ := Moment.seize_eq_some hheed
  have htake := step_take (c := c) (listens_iff.mpr ⟨hwaiting, by rw [hfree]; rfl⟩) hsignals
  cases s with
  | reload =>
    rw [sections, follow_cons, htake, Option.bind_some, follow_cons, step_say rfl,
      Option.bind_some, follow_cons, step_pass rfl (by exact hfree)]
    rfl
  | workerIdle =>
    rw [sections, follow_cons, htake, Option.bind_some, follow_cons,
      step_evict rfl (by exact hfree)]
    rfl
  | shutdown =>
    rw [sections, follow_cons, htake]
    rfl

def Act.isOwn : Act σ → Bool
  | begin | take | say | pass | evict | other .proceed => true
  | call _ | send _ | notice _ | fail | timeout | leave | other _ => false

/-- The loop comes from the one to the other if it goes on alone, but for the holder of the list, for
whom it may have to wait. -/
def GoesOn (c : Collaborators σ) (w v : Serving σ) : Prop :=
  ∃ acts, (∀ act ∈ acts, act.isOwn) ∧ w.follow c acts = some v

/-- The loop can always stay where it is. -/
theorem GoesOn.refl (w : Serving σ) : w.GoesOn c w := ⟨[], List.forall_mem_nil _, rfl⟩

/-- The loop goes on from where it has come to. -/
theorem GoesOn.trans {u : Serving σ} (h : w.GoesOn c v) (h' : v.GoesOn c u) : w.GoesOn c u := by
  obtain ⟨acts, howns, hfollow⟩ := h
  obtain ⟨more, hmore, hfollow'⟩ := h'
  refine ⟨acts ++ more, ?_, by rw [follow_append, hfollow]; exact hfollow'⟩
  exact List.forall_mem_append.mpr ⟨howns, hmore⟩

/-- One section of the loop's own lets it go on. -/
theorem GoesOn.step (howns : act.isOwn) (hstep : w.step c act = some v) : w.GoesOn c v :=
  ⟨[act], by simpa using howns, by rw [follow_cons, hstep]; rfl⟩

/-- The holder of the list lets go of it, and leaves all else of the loop alone. -/
theorem goesOn_free (c : Collaborators σ) (w : Serving σ) : ∃ v, w.GoesOn c v ∧
    v.moment.errand = .none ∧ v.loop = w.loop ∧ v.signals = w.signals := by
  suffices hfree : ∀ m : Moment σ, m.LetsGo → ∀ w : Serving σ, w.moment = m → ∃ v, w.GoesOn c v ∧
      v.moment.errand = .none ∧ v.loop = w.loop ∧ v.signals = w.signals from
    hfree w.moment (Moment.letsGo _) w rfl
  intro m hm
  induction hm with
  | free h =>
    rintro w rfl
    exact ⟨w, .refl w, h, rfl, rfl⟩
  | @proceed m m' h _ ih =>
    rintro w rfl
    have hstep : w.step c (.other .proceed) = some { w with moment := m' } := by
      have hallowed : w.loop.station.allows (.proceed : Move σ) = true := rfl
      have hmove : w.moment.step c .proceed = some m' := h
      rw [step, if_pos hallowed, hmove]
      rfl
    obtain ⟨v, hv, hfree, hloop, hsignals⟩ := ih { w with moment := m' } rfl
    obtain ⟨⟨_, _, _, _, hpool⟩, -⟩ := Moment.pool_proceed h
    have hsame : m'.pool.signals = w.signals := by
      rw [hpool]
      rfl
    exact ⟨v, (GoesOn.step rfl hstep).trans hv, hfree, hloop, hsignals.trans hsame⟩

/-- The loop gets to look at what the engine has been told. -/
theorem goesOn_waiting (hserves : w.loop.station.serves) : ∃ v, w.GoesOn c v ∧
    v.loop.station = .waiting ∧ v.loop.taken = w.loop.taken ∧ v.signals = w.signals := by
  have hpass {w : Serving σ} (hdue : w.loop.station = .due) : ∃ v, w.GoesOn c v ∧
      v.loop.station = .waiting ∧ v.loop.taken = w.loop.taken ∧ v.signals = w.signals := by
    obtain ⟨v, hv, hfree, hloop, hsignals⟩ := goesOn_free c w
    have hstep := step_pass (c := c) (w := v) (by rw [hloop, hdue]) hfree
    refine ⟨_, hv.trans (GoesOn.step rfl hstep), rfl, by rw [hloop], ?_⟩
    exact (congrArg Pool.signals (Moment.pool_beginPass _ _)).trans hsignals
  cases hstation : w.loop.station with
  | starting =>
    have hstep : w.step c .begin = some (w.turn .waiting) := if_pos hstation
    exact ⟨_, GoesOn.step rfl hstep, rfl, rfl, rfl⟩
  | waiting => exact ⟨w, .refl w, hstation, rfl, rfl⟩
  | trying =>
    obtain ⟨v, hv, hfree, hloop, hsignals⟩ := goesOn_free c w
    have hstep := step_evict (c := c) (w := v) (by rw [hloop, hstation]) hfree
    exact ⟨_, hv.trans (GoesOn.step rfl hstep), rfl, congrArg (·.taken) hloop, hsignals⟩
  | woken =>
    obtain ⟨v, hv, hwaiting, htaken, hsignals⟩ := hpass (w := (w.withState .run).turn .due) rfl
    exact ⟨v, (GoesOn.step rfl (step_say hstation)).trans hv, hwaiting, htaken, hsignals⟩
  | due => exact hpass hstation
  | leaving | gone =>
    rw [hstation] at hserves
    cases hserves

/-- The loop gets to take up what is to end it. -/
theorem goesOn_shutdown (hserves : w.loop.station.serves) (h : .shutdown ∈ w.signals) :
    ∃ v, w.GoesOn c v ∧ .shutdown ∈ v.loop.taken := by
  obtain ⟨signals, hsignals⟩ : ∃ signals, w.signals = signals := ⟨_, rfl⟩
  rw [hsignals] at h
  induction signals generalizing w with
  | nil => cases h
  | cons s rest ih =>
    obtain ⟨v, hv, hwaiting, -, hv'⟩ := goesOn_waiting (c := c) hserves
    obtain ⟨u, hu, hfree, hloop, hu'⟩ := goesOn_free c v
    have hlistens : u.listens := listens_iff.mpr ⟨by rw [hloop, hwaiting], by rw [hfree]; rfl⟩
    have hstep := step_take (c := c) hlistens (hu'.trans (hv'.trans hsignals))
    have hgoes := (hv.trans hu).trans (GoesOn.step rfl hstep)
    have hlater (hs : (Station.after s).serves) (hrest : .shutdown ∈ rest) :
        ∃ v, w.GoesOn c v ∧ .shutdown ∈ v.loop.taken := by
      obtain ⟨x, hx, htaken⟩ := ih (w := { u with
        moment := u.moment.withPool { u.moment.pool with signals := rest }
        loop := { u.loop with station := .after s, taken := u.loop.taken ++ [s] } }) hs hrest rfl
      exact ⟨x, hgoes.trans hx, htaken⟩
    cases s with
    | shutdown => exact ⟨_, hgoes, List.mem_append_right _ (List.mem_singleton_self _)⟩
    | reload => exact hlater rfl (by simpa using h)
    | workerIdle => exact hlater rfl (by simpa using h)

end Serving

end ZoneSigning
