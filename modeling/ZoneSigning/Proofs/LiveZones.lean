import ZoneSigning.Proofs.Adapters
import ZoneSigning.Proofs.AnchoredTasks
import ZoneSigning.Proofs.OwedTasks

/-!
No zone that can be signed is forgotten. Between passes every listed zone that has a configuration
and has not been removed owns one task; during a pass, the holder of the list may still owe it one.
A zone loses its task only by being removed, or by a step that cannot load the zone's first
configuration.
-/
namespace ZoneSigning

namespace Pool

variable {σ : Type} {c : Collaborators σ} {p p' : Pool σ} {k : ZoneKey} {w : Nat}

def tasksOf (p : Pool σ) (k : ZoneKey) : List Task :=
  (p.schedule.waiting ++ p.workers.filterMap Worker.current).filter (·.zone == k)

private theorem held?_eq_current (p : Pool σ) (w : Nat) :
    p.held? w = p.workers[w]?.bind Worker.current := by
  unfold held? phase?
  cases p.workers[w]? with
  | none => rfl
  | some x => exact x.current_eq.symm

private theorem mem_current {t : Task} :
    t ∈ p.workers.filterMap Worker.current ↔ ∃ w, p.held? w = some t := by
  simp only [List.mem_filterMap, held?_eq_current, Option.bind_eq_some_iff]
  constructor
  · rintro ⟨x, hx, ht⟩
    obtain ⟨w, hw⟩ := List.mem_iff_getElem?.mp hx
    exact ⟨w, x, hw, ht⟩
  · rintro ⟨w, x, hx, ht⟩
    exact ⟨x, List.mem_of_getElem? hx, ht⟩

/-- The tasks of a zone are those that wait for it or are held for it. -/
theorem mem_tasksOf {t : Task} : t ∈ p.tasksOf k ↔ p.Owns t ∧ t.zone = k := by
  rw [tasksOf, List.mem_filter, List.mem_append, mem_current, beq_iff_eq, Owns]

private theorem current_nodup (h : p.Owned) :
    ((p.workers.filterMap Worker.current).map Task.zone).Nodup := by
  rw [List.Nodup, List.pairwise_map, List.pairwise_filterMap, List.pairwise_iff_getElem]
  intro v w hv hw hlt t ht u hu hz
  have hheld {w : Nat} (hw : w < p.workers.length) {t : Task}
      (ht : p.workers[w].current = some t) : p.held? w = some t := by
    rw [held?_eq_current, List.getElem?_eq_getElem hw]
    exact ht
  exact Nat.ne_of_lt hlt (h.alone (hheld hv ht) (hheld hw hu) hz)

/-- A zone that owns a task owns one only. -/
theorem length_tasksOf (h : p.Owned) (hk : p.schedule.hasTask k) : (p.tasksOf k).length = 1 := by
  have hnodup : ((p.schedule.waiting ++ p.workers.filterMap Worker.current).map Task.zone).Nodup := by
    rw [List.map_append, List.nodup_append]
    refine ⟨h.consistent.zones_nodup, current_nodup h, ?_⟩
    intro k hk l hl heq
    obtain ⟨t, ht, rfl⟩ := List.mem_map.mp hk
    obtain ⟨u, hu, rfl⟩ := List.mem_map.mp hl
    obtain ⟨w, hu⟩ := mem_current.mp hu
    have hfree := h.consistent.not_isInFlight ht
    rw [heq, h.marked hu] at hfree
    cases hfree
  have hmem : k ∈ (p.schedule.waiting ++ p.workers.filterMap Worker.current).map Task.zone := by
    obtain ⟨t, ht, rfl⟩ := h.hasTask_iff.mp hk
    refine List.mem_map_of_mem (List.mem_append.mpr ?_)
    exact ht.imp_right mem_current.mpr
  have hcount := hnodup.count (a := k)
  rw [if_pos hmem, List.count, List.countP_map, List.countP_eq_length_filter] at hcount
  exact hcount

/-- The zone has no configuration, if it is listed at all. -/
def Bare (p : Pool σ) (k : ZoneKey) : Prop :=
  ∀ {z}, p.zones.get? k = some z → z.state.config = none

namespace Touch

variable {x : Worker} {t : Task} {z : Zone} {s : ZoneState}

/-- To publish a zone touches neither its configuration nor its status. -/
theorem published_frame {s s' : ZoneState} {serial : Option Nat} {resignSecs : Nat}
    {answer : Except StepError Unit} {o : Outcome}
    (h : s.published serial resignSecs answer = (o, s')) :
    s'.config = s.config ∧ s'.status = s.status := by
  unfold ZoneState.published at h
  split at h <;> cases h <;> exact ⟨rfl, rfl⟩

/-- To load a configuration never leaves a zone without the one that it has, and does not touch its
status. -/
theorem configured_frame {s s' : ZoneState} {answer : Except StepError ConfigStatus}
    {o : Outcome} (h : s.configured answer = (o, s')) :
    (s.config.isSome → s'.config.isSome) ∧ s'.status = s.status := by
  cases ZoneState.configured_of_eq h with
  | reloaded => exact ⟨fun _ => rfl, rfl⟩
  | kept | bare => exact ⟨id, rfl⟩

private theorem isSome_config (h : Touch c p x t z s) (hc : c.Careful) (hz : z.state.config.isSome) :
    s.config.isSome := by
  cases h with
  | load _ ho => exact (configured_frame ho).1 hz
  | read _ hread =>
    have hconfig := hc.config_read z p.around hz
    rwa [hread] at hconfig
  | count => exact hz
  | write _ _ hwrite ho | publish _ hwrite ho =>
    have hconfig := hc.config_write z p.around hz
    rw [hwrite] at hconfig
    rwa [(published_frame ho).1]

/-- A collaborator does not take back the removal of a zone. -/
theorem removed (h : Touch c p x t z s) (hc : c.Careful) (hz : z.status = .removed) :
    s.status = .removed := by
  cases h with
  | load _ ho => exact (configured_frame ho).2.trans hz
  | read _ hread =>
    have hremoved := hc.removed_read z p.around hz
    rwa [hread] at hremoved
  | count => exact hz
  | write _ _ hwrite ho | publish _ hwrite ho =>
    have hremoved := hc.removed_write z p.around hz
    rw [hwrite] at hremoved
    rwa [(published_frame ho).2]

end Touch

namespace Works

variable {z z' : Zone}

private theorem isSome_config (h : p.Works c w z z') (hc : c.Careful) (hz : z.state.config.isSome) :
    z'.state.config.isSome := by
  rcases h with rfl | ⟨x, t, -, -, -, hs, -⟩
  · exact hz
  · exact hs.isSome_config hc hz

/-- No section of a worker takes back the removal of a zone. -/
theorem removed (h : p.Works c w z z') (hc : c.Careful) (hz : z.status = .removed) :
    z'.status = .removed := by
  rcases h with rfl | ⟨x, t, -, -, -, hs, -⟩
  · exact hz
  · exact hs.removed hc hz

end Works

private theorem hasTask_settle {t : Task} {z : Zone} {o : Outcome} (h : p.Owned)
    (hk : p.schedule.hasTask k) : (p.settle w t o z).schedule.hasTask k ∨
      t.zone = k ∧ (z.status = .removed ∨ ∃ e, o = .fatal e) := by
  rw [settle_schedule]
  split
  · next hremoved => exact (Outcome.hasTask_release t hk).imp_right fun hkt => ⟨hkt, .inl hremoved⟩
  · exact (Outcome.hasTask_settle h.consistent o t p.now p.maxBackoff hk).imp_right
      fun ⟨hkt, hfatal⟩ => ⟨hkt, .inr hfatal⟩

/-- A worker's section leaves a zone its task, unless it hands back the task of a zone that has been
removed, or one whose step has failed for good. -/
theorem hasTask_worker (h : p.Owned) (hstep : p.stepWorker c w = some p')
    (hk : p.schedule.hasTask k) :
    p'.schedule.hasTask k ∨ ∃ t z o, p.phase? w = some (.stepping t (.settling o)) ∧ t.zone = k ∧
      p.zone? t = some z ∧ p'.zones = p.zones ∧ (z.status = .removed ∨ ∃ e, o = .fatal e) := by
  obtain ⟨x, hx, hsection⟩ := workerSection_of_step hstep
  rcases hsection.ownership hx with
    ⟨t, s, -, hnext, rfl, -⟩ | ⟨t, z, o, hphase, hz, rfl⟩ | ⟨hs, -⟩
  · rcases h.consistent.next_cases p.now with he | ⟨u, hu, -, he⟩ <;> rw [hnext] at he
    · cases congrArg Prod.fst he
    · rw [(Prod.mk.inj he).2, h.consistent.hasTask_take hu]
      exact .inl hk
  · refine (hasTask_settle h hk).imp_right fun ⟨hkt, hwhy⟩ => ?_
    have hzones : (p.settle w t o z).zones = p.zones := by
      obtain ⟨_, _, _, he⟩ := p.settle_eq w t o z
      rw [he]
      rfl
    exact ⟨t, z, o, hphase ▸ phase?_of_get hx, hkt, hz, hzones, hwhy⟩
  · rw [hs]
    exact .inl hk

end Pool

namespace Moment

variable {σ : Type} {c : Collaborators σ} {m m' : Moment σ} {move : Move σ} {k : ZoneKey}

/-- A move that changes a zone is a worker's, or does what the holder of the list may do to it. -/
theorem changes_cases {z z' : Zone} (h : m.Changes c move z z') :
    (∃ w, move = .worker w ∧ m.pool.Works c w z z') ∨ m.Keeps z z' := by
  cases move with
  | worker w => exact .inl ⟨w, rfl, h⟩
  | _ => exact .inr h

/-- A step that fails for good has found its zone without a configuration. -/
def FailsBare (m : Moment σ) : Prop :=
  ∀ {w t e z}, m.pool.phase? w = some (.stepping t (.settling (.fatal e))) →
    m.pool.zone? t = some z → t.what = .configure ∧ z.state.config = none

section FailsBare

variable [HasFiles σ]

/-- A zone gets a configuration only from the worker that has its task. -/
theorem bare_step (hanchored : m.Anchored) (hrec : m.Recorded) (hstep : m.step c move = some m')
    (hother : ∀ {w t}, move = .worker w → m.pool.held? w = some t → t.zone ≠ k)
    (h : m.pool.Bare k) : m'.pool.Bare k := by
  intro z' hz'
  rcases (step_follows hrec hstep).1.listed hz' with ⟨z, hz, -, hchanges⟩ | ⟨-, -, -, -, hnone⟩
  · rcases changes_cases hchanges with ⟨w, hw, rfl | ⟨x, t, -, ht, hzone, -⟩⟩ | hkeeps
    · exact h hz
    · -- The task was made for the listed record, and so for this zone.
      obtain ⟨y, hy, hlisted⟩ := Pool.zone?_of_lists (hanchored.tasks (.inr ⟨w, ht⟩))
      obtain rfl := Option.some.inj (hzone.symm.trans hy)
      exact absurd (hrec.pool.listed_eq hlisted hz rfl) (hother hw ht)
    · rw [hkeeps.1, h hz]
  · exact hnone

private theorem fatal_stays (h : m.FailsBare) (hanchored : m.Anchored) (hown : m.pool.Owned)
    (hrec : m.Recorded) (hstep : m.step c move = some m') {w : Nat} (hother : move ≠ .worker w)
    {t : Task} {e : StepError} (hphase : m.pool.phase? w = some (.stepping t (.settling (.fatal e))))
    {z' : Zone} (hz' : m'.pool.zones.get? t.zone = some z') :
    t.what = .configure ∧ z'.state.config = none := by
  have hheld := Pool.held?_of_phase? hphase
  obtain ⟨z, hzone, hz⟩ := Pool.zone?_of_lists (hanchored.tasks (.inr ⟨w, hheld⟩))
  obtain ⟨hwhat, hnone⟩ := h hphase hzone
  refine ⟨hwhat, bare_step hanchored hrec hstep (fun {v u} hv hu hkey => ?_) (fun hy => ?_) hz'⟩
  · -- Another worker would hold a task of the same zone.
    rw [hown.alone hu hheld hkey] at hv
    exact hother hv
  · rw [← Option.some.inj (hz.symm.trans hy), hnone]

private theorem failsBare_step (h : m.FailsBare) (hanchored : m.Anchored) (hown : m.pool.Owned)
    (hrec : m.Recorded) (hmove : move.isClosing = false) (hstep : m.step c move = some m') :
    m'.FailsBare := by
  intro w t e z' hphase hz'
  have hlisted : m'.pool.zones.get? t.zone = some z' := by
    have hanchored' := anchored_step hanchored hown hrec hmove hstep
    have hheld := Pool.held?_of_phase? hphase
    obtain ⟨y, hy, hlisted⟩ := Pool.zone?_of_lists (hanchored'.tasks (.inr ⟨w, hheld⟩))
    obtain rfl := Option.some.inj (hz'.symm.trans hy)
    exact hlisted
  rcases step_cases hmove hstep with ⟨v, p', rfl, hp, rfl⟩ | ⟨p', rfl, hp, rfl⟩ | ⟨hother, haside⟩
  · obtain ⟨x, hx, hsection⟩ := Pool.workerSection_of_step hp
    by_cases hv : w = v
    · subst hv
      obtain ⟨z, s, hheld, hzone, hwhat, -, hnone, hzones⟩ := hsection.fatal hx hphase
      obtain ⟨y, hy, hz⟩ := Pool.zone?_of_lists (hanchored.tasks (.inr ⟨w, hheld⟩))
      obtain rfl := Option.some.inj (hzone.symm.trans hy)
      rw [pool_withPool, hzones, Pool.Follows.setState_of_listed hrec.pool hz,
        ZoneList.get?_put, if_pos (hrec.pool.keyed hz).symm] at hlisted
      obtain rfl := Option.some.inj hlisted
      exact ⟨hwhat, hnone⟩
    · rw [pool_withPool, hsection.phase?_other hx hv] at hphase
      exact fatal_stays h hanchored hown hrec hstep (fun he => hv (Move.worker.inj he).symm) hphase
        hlisted
  · rw [pool_withPool, Pool.phase?_start hp] at hphase
    obtain ⟨_, -, hidle⟩ := Option.map_eq_some_iff.mp hphase
    cases hidle
  · rw [haside.phase?_eq] at hphase
    exact fatal_stays h hanchored hown hrec hstep (hother w) hphase hlisted

omit [HasFiles σ] in
private theorem failsBare_initial (h : m.Initial) : m.FailsBare := by
  obtain ⟨_, _, _, _, _, _, _, hpool⟩ := h.pool_eq
  intro w t e z hphase
  have hmark := (owned_initial h).marked (Pool.held?_of_phase? hphase)
  rw [hpool] at hmark
  cases hmark

/-- Steps that fail for good have found their zones without configurations. -/
theorem failsBare_of_reachable (h : Reachable c m) : m.FailsBare := by
  induction h with
  | initial h => exact failsBare_initial h
  | step hreach hmove hstep ih =>
    exact failsBare_step ih (anchored_of_reachable hreach) (owned_of_reachable hreach)
      (recorded_of_reachable hreach) hmove hstep

end FailsBare

private theorem isSome_config_of_changes {z z' : Zone} (h : m.Changes c move z z')
    (hc : c.Careful) (hz : z.state.config.isSome) : z'.state.config.isSome := by
  rcases changes_cases h with ⟨w, -, hworks⟩ | hkeeps
  · exact hworks.isSome_config hc hz
  · rw [hkeeps.1]
    exact hz

private theorem removed_of_changes {z z' : Zone} (h : m.Changes c move z z') (hc : c.Careful)
    (hfresh : m.errand.fresh? = .none) (hz : z.status = .removed) : z'.status = .removed := by
  rcases changes_cases h with ⟨w, -, hworks⟩ | hkeeps
  · exact hworks.removed hc hz
  · exact (hkeeps.removed_iff hfresh).mpr hz

/-- Every zone that can be signed is cared for; a removal stays in view; and a step fails for good
only where there is no configuration. -/
structure Mindful (m : Moment σ) : Prop where
  cares : ∀ {k z}, m.pool.zones.get? k = some z → z.status ≠ .removed → z.state.config.isSome →
    m.Cares k
  seen : ∀ {z z'}, m.errand.zone? = some z → z.status = .removed →
    m.pool.zones.get? z.key = some z' → z'.status = .removed
  fatal : m.FailsBare

private theorem cares_before (h : m.Mindful) (hanchored : m.Anchored) (hown : m.pool.Owned)
    (hrec : m.Recorded) {z z' : Zone} (hz : m.pool.zones.get? k = some z)
    (hchanges : m.Changes c move z z') (hlive : z'.status ≠ .removed)
    (hconfig : z'.state.config.isSome) : m.Cares k := by
  rcases changes_cases hchanges with ⟨w, -, rfl | ⟨x, t, -, ht, hzone, -, -⟩⟩ | hkeeps
  · exact h.cares hz hlive hconfig
  · -- The worker holds a task for the zone.
    obtain ⟨y, hy, hkey⟩ := Pool.zone?_of_lists (hanchored.tasks (.inr ⟨w, ht⟩))
    obtain rfl := Option.some.inj (hzone.symm.trans hy)
    obtain rfl := hrec.pool.listed_eq hkey hz rfl
    exact .inl (hown.hasTask_iff.mpr ⟨t, .inr ⟨w, ht⟩, rfl⟩)
  · cases hfresh : m.errand.fresh? with
    | none =>
      refine h.cares hz (fun hremoved => hlive ?_) (hkeeps.1 ▸ hconfig)
      exact (hkeeps.removed_iff hfresh).mpr hremoved
    | some fresh => exact .inr (m.errand.owes_of_fresh? (by simp [hfresh]) k)

private theorem removed_stays (hc : c.Careful) {gone : ZoneKey → Prop}
    (hf : m.pool.Follows (m.Changes c move) gone m'.pool) (hfresh : m.errand.fresh? = .none)
    {z z' : Zone} (hz : m.pool.zones.get? k = some z) (hremoved : z.status = .removed)
    (hz' : m'.pool.zones.get? k = some z') : z'.status = .removed := by
  rcases hf.listed hz' with ⟨y, hy, -, hchanges⟩ | ⟨hnone, -⟩
  · obtain rfl := Option.some.inj (hz.symm.trans hy)
    exact removed_of_changes hchanges hc hfresh hremoved
  · rw [hz] at hnone
    cases hnone

private theorem removed_in_view (h : m.Mindful) (hanchored : m.Anchored) (hc : c.Careful)
    {gone : ZoneKey → Prop} (hf : m.pool.Follows (m.Changes c move) gone m'.pool) {y z' : Zone}
    (hy : m.errand.zone? = some y) (hremoved : y.status = .removed)
    (hz' : m'.pool.zones.get? y.key = some z') : z'.status = .removed := by
  obtain ⟨z, hz, -⟩ := hanchored.seen hy
  exact removed_stays hc hf (m.errand.fresh?_of_zone? hy) hz (h.seen hy hremoved hz) hz'

/-- A worker takes a task from a listed zone only if the zone has been removed, or has no
configuration to go on with. -/
theorem lost_worker (h : m.Mindful) (hanchored : m.Anchored) (hown : m.pool.Owned)
    {w : Nat} {p' : Pool σ} (hp : m.pool.stepWorker c w = some p')
    (hk : m.pool.schedule.hasTask k) {z' : Zone} (hz' : p'.zones.get? k = some z') :
    p'.schedule.hasTask k ∨ z'.status = .removed ∨
      ∃ t e, m.pool.phase? w = some (.stepping t (.settling (.fatal e))) ∧ t.zone = k ∧
        t.what = .configure ∧ z'.state.config = none := by
  rcases Pool.hasTask_worker hown hp hk with hk | ⟨t, y, o, hphase, hkey, hzone, hzones, hwhy⟩
  · exact .inl hk
  · right
    have hheld := Pool.held?_of_phase? hphase
    obtain ⟨z, hz, hlisted⟩ := Pool.zone?_of_lists (hanchored.tasks (.inr ⟨w, hheld⟩))
    obtain rfl := Option.some.inj (hzone.symm.trans hz)
    rw [hzones, ← hkey, hlisted] at hz'
    obtain rfl := Option.some.inj hz'
    rcases hwhy with hremoved | ⟨e, rfl⟩
    · exact .inl hremoved
    · exact .inr ⟨t, e, hphase, hkey, h.fatal hphase hzone⟩

variable [HasFiles σ]

/-- A listed zone loses its task only by being removed, or by a step that finds no configuration to
go on with. -/
theorem lost_step (h : m.Mindful) (hanchored : m.Anchored) (hown : m.pool.Owned)
    (hrec : m.Recorded) (hc : c.Careful) (hmove : move.isClosing = false)
    (hstep : m.step c move = some m') (hk : m.pool.schedule.hasTask k) {z' : Zone}
    (hz' : m'.pool.zones.get? k = some z') :
    m'.pool.schedule.hasTask k ∨ z'.status = .removed ∨
      ∃ w t e, move = .worker w ∧ m.pool.phase? w = some (.stepping t (.settling (.fatal e))) ∧
        t.zone = k ∧ t.what = .configure ∧ z'.state.config = none := by
  have hf := (step_follows hrec hstep).1
  rcases step_cases hmove hstep with ⟨w, p', rfl, hp, rfl⟩ | ⟨p', -, hp, rfl⟩ | ⟨-, haside⟩
  · rcases lost_worker h hanchored hown hp hk hz' with hk | hremoved | ⟨t, e, hfatal⟩
    · exact .inl hk
    · exact .inr (.inl hremoved)
    · exact .inr (.inr ⟨w, t, e, rfl, hfatal⟩)
  · rw [pool_withPool, (Pool.start_eq_ok hp).2]
    exact .inl hk
  · rcases hasTask_aside haside hown.consistent hk with hk | ⟨y, hy, rfl, hremoved⟩
    · exact .inl hk
    · exact .inr (.inl (removed_in_view h hanchored hc hf hy hremoved hz'))

private theorem mindful_cares (h : m.Mindful) (hanchored : m.Anchored) (hown : m.pool.Owned)
    (hrec : m.Recorded) (hc : c.Careful) (hmove : move.isClosing = false)
    (hstep : m.step c move = some m') {z' : Zone} (hz' : m'.pool.zones.get? k = some z')
    (hlive : z'.status ≠ .removed) (hconfig : z'.state.config.isSome) : m'.Cares k := by
  have hf := (step_follows hrec hstep).1
  rcases hf.listed hz' with ⟨z, hz, -, hchanges⟩ | ⟨-, -, -, -, hnone⟩
  · rcases cares_before h hanchored hown hrec hz hchanges hlive hconfig with hk | hk
    · rcases lost_step h hanchored hown hrec hc hmove hstep hk hz' with
        hk | hremoved | ⟨w, t, e, -, -, -, -, hnone⟩
      · exact .inl hk
      · exact absurd hremoved hlive
      · rw [hnone] at hconfig
        cases hconfig
    · rcases cares_of_owes hown.consistent hrec.pool hmove hstep hk (fun _ => hz) hz' with
        hk | ⟨y, hy, rfl, hremoved⟩
      · exact hk
      · exact absurd (removed_in_view h hanchored hc hf hy hremoved hz') hlive
  · rw [hnone] at hconfig
    cases hconfig

private theorem mindful_seen (h : m.Mindful) (hanchored : m.Anchored) (hrec : m.Recorded)
    (hc : c.Careful) (hmove : move.isClosing = false) (hstep : m.step c move = some m')
    {z z' : Zone} (hz : m'.errand.zone? = some z) (hremoved : z.status = .removed)
    (hz' : m'.pool.zones.get? z.key = some z') : z'.status = .removed := by
  have hf := (step_follows hrec hstep).1
  rcases (step_turns hrec hmove hstep).seen hz with hview | ⟨hfresh, -, hlisted⟩
  · exact removed_in_view h hanchored hc hf hview hremoved hz'
  · exact removed_stays hc hf hfresh hlisted hremoved hz'

omit [HasFiles σ] in
private theorem mindful_initial (h : m.Initial) : m.Mindful := by
  obtain ⟨_, _, _, _, _, _, _, hpool⟩ := h.pool_eq
  constructor
  case cares =>
    intro k z hz
    rw [hpool] at hz
    cases hz
  case seen =>
    intro z z' hz
    rw [h.2] at hz
    cases hz
  case fatal => exact failsBare_initial h

private theorem mindful_of_reachable (hc : c.Careful) (h : Reachable c m) : m.Mindful := by
  induction h with
  | initial h => exact mindful_initial h
  | step hreach hmove hstep ih =>
    have hown := owned_of_reachable hreach
    have hrec := recorded_of_reachable hreach
    have hanchored := anchored_of_reachable hreach
    exact ⟨mindful_cares ih hanchored hown hrec hc hmove hstep,
      mindful_seen ih hanchored hrec hc hmove hstep,
      failsBare_of_reachable (hreach.step hmove hstep)⟩

/-- A configuration that has been loaded is never lost. -/
theorem configured_follow (hc : c.Careful) (h : m.Recorded) {moves : List (Move σ)}
    (hfollow : m.follow c moves = some m') {z : Zone} (hz : m.pool.Has z)
    (hconfig : z.state.config.isSome) :
    ∃ z', m'.pool.Has z' ∧ z'.record = z.record ∧ z'.state.config.isSome := by
  induction moves generalizing m z with
  | nil =>
    cases hfollow
    exact ⟨z, hz, rfl, hconfig⟩
  | cons move moves ih =>
    obtain ⟨n, hstep, hrest⟩ := Option.bind_eq_some_iff.mp hfollow
    obtain ⟨hf, hn⟩ := step_follows h hstep
    obtain ⟨y, hy, hsame, hchanges⟩ := hf.carried hz
    obtain ⟨z', hz', hrecord, hconfig⟩ := ih hn hrest hy (isSome_config_of_changes hchanges hc hconfig)
    exact ⟨z', hz', hrecord.trans hsame.2, hconfig⟩

/-- Whatever the way on which the engine has come to this moment, the record with this number has
never had a configuration. -/
def NeverConfigured (c : Collaborators σ) (m : Moment σ) (record : Nat) : Prop :=
  ∀ {m₀ moves z}, Reachable c m₀ → m₀.follow c moves = some m → m₀.pool.Has z →
    z.record = record → z.state.config = none

private theorem neverConfigured (hc : c.Careful) (hrec : m.Recorded) {z : Zone}
    (hz : m.pool.Has z) (hnone : z.state.config = none) : m.NeverConfigured c z.record := by
  intro m₀ moves y hreach hfollow hy hrecord
  cases hconfig : y.state.config with
  | none => rfl
  | some config =>
    obtain ⟨z', hz', hsame, hsome⟩ :=
      configured_follow hc (recorded_of_reachable hreach) hfollow hy (by simp [hconfig])
    obtain rfl := hrec.pool.eq_of_record_eq hz' hz (hsame.trans hrecord)
    rw [hnone] at hsome
    cases hsome

/-- While no pass is in progress, every listed zone that has a configuration and has not been
removed owns exactly one task, which waits or is in the hands of a worker. And at any moment, a
listed zone loses its task only by being removed, or because the task's configuring step has failed
and the zone has never had a configuration. -/
theorem live_zones_keep_tasks (hc : c.Careful) (h : Reachable c m) :
    (m.errand.inPass = false → ∀ {k z}, m.pool.zones.get? k = some z → z.status ≠ .removed →
      z.state.config.isSome → (m.pool.tasksOf k).length = 1) ∧
    ∀ {move m' k z'}, move.isClosing = false → m.step c move = some m' →
      m.pool.schedule.hasTask k → m'.pool.schedule.hasTask k = false →
      m'.pool.zones.get? k = some z' → z'.status = .removed ∨
        ∃ w t e, move = .worker w ∧
          m.pool.phase? w = some (.stepping t (.settling (.fatal e))) ∧ t.zone = k ∧
          t.what = .configure ∧ m'.NeverConfigured c z'.record := by
  have hmindful := mindful_of_reachable hc h
  have hown := owned_of_reachable h
  constructor
  · intro hidle k z hz hlive hconfig
    have hk := (hmindful.cares hz hlive hconfig).resolve_right (Errand.not_owes hidle k)
    exact Pool.length_tasksOf hown hk
  · intro move m' k z' hmove hstep hk hk' hz'
    have hrec' := recorded_of_reachable (h.step hmove hstep)
    rcases lost_step hmindful (anchored_of_reachable h) hown (recorded_of_reachable h) hc hmove hstep
      hk hz' with hk | hremoved | ⟨w, t, e, hworker, hphase, hkey, hwhat, hnone⟩
    · rw [hk'] at hk
      cases hk
    · exact .inl hremoved
    · exact .inr ⟨w, t, e, hworker, hphase, hkey, hwhat,
        neverConfigured hc hrec' (.inl ⟨k, hz'⟩) hnone⟩

/-- When the engine for one zone has loaded the zone's configuration, the zone owns one task. -/
theorem live_zones_keep_tasks_oneZone :
    ∃ m, oneZone.follow fileCollaborators (firstPass ++ List.replicate 5 (.worker 0)) = some m ∧
      (m.pool.zones.get? (.of "a" .internet)).any
        (fun z => z.status ≠ .removed ∧ z.state.config.isSome) ∧
      (m.pool.tasksOf (.of "a" .internet)).length = 1 := by
  have hlive : (oneZone.follow fileCollaborators (firstPass ++ List.replicate 5 (.worker 0))).any
      (fun m => m.errand.inPass = false ∧ (m.pool.zones.get? (.of "a" .internet)).any
        fun z => z.status ≠ .removed ∧ z.state.config.isSome) := by decide +kernel
  obtain ⟨m, hm, hlive⟩ := (Option.any_eq_true _ _).mp hlive
  obtain ⟨hidle, hany⟩ := of_decide_eq_true hlive
  obtain ⟨z, hz, hzone⟩ := (Option.any_eq_true _ _).mp hany
  have hreach : Reachable fileCollaborators m :=
    (Reachable.initial oneZone_initial).follow (by decide) hm
  obtain ⟨hstatus, hconfig⟩ := of_decide_eq_true hzone
  exact ⟨m, hm, hany, (live_zones_keep_tasks fileCollaborators_onFiles.careful hreach).1 hidle hz
    hstatus hconfig⟩

end Moment

end ZoneSigning
