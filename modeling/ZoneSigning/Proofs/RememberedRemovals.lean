import ZoneSigning.Proofs.Histories

/-!
A removed zone that cannot be evicted yet is not forgotten. As long as a worker has its task, the
zone stays; the worker that drops the task tells the engine of it; and the engine that takes this up
evicts the zone. At no moment is there a gap between the three.
-/
namespace ZoneSigning

namespace Pool

variable {σ : Type} {c : Collaborators σ} {p p' : Pool σ} {w : Nat} {x : Worker}

/-- Only a worker that is done with a step signals something, behind all that has been signalled. -/
theorem WorkerSection.signals (h : WorkerSection c p w x p') : p'.signals = p.signals ∨
    ∃ drained, x.phase = .reporting drained ∧ p' = p.tell w drained := by
  cases h with
  | tell hphase => exact .inr ⟨_, hphase, rfl⟩
  | @settle t z o =>
    obtain ⟨_, _, _, he⟩ := p.settle_eq w t o z
    exact .inl (by rw [he]; rfl)
  | load | read | write | publish => exact .inl (by rw [setState_eq]; rfl)
  | collect | gather => exact .inl (by rw [Pool.collect, setState_eq]; rfl)
  | take | leave | prepare | retreat | appoint | signInline | handOver | refuse | wait | giveUp =>
    exact .inl rfl

private theorem mem_signals_tell {s : Signal} (drained : Bool) (h : s ∈ p.signals) :
    s ∈ (p.tell w drained).signals := by
  obtain ⟨more, he⟩ := p.tell_eq w drained
  rw [he]
  exact List.mem_append_left more h

/-- A worker that has dropped a task tells the engine that a zone may be evicted. -/
theorem workerIdle_tell : .workerIdle ∈ (p.tell w true).signals := by
  simp [tell, goTo]

end Pool

/-- Whether the holder of the list will still look whether this zone can be evicted. -/
def Errand.StillTries : Errand → ZoneKey → Prop
  | merging .., _ | acting .., _ | judged .., _ | lacking .., _ => True
  | evicting _ doomed left, k => k ∈ doomed ∨ k ∈ left
  | leaving _ key doomed left, k => k = key ∨ k ∈ doomed ∨ k ∈ left
  | none, _ | reading .., _ | settling .., _ | serving .., _ | admitting .., _ | flushing .., _ =>
    False

def Errand.evicts : Errand → Bool
  | none | serving .. | admitting .. | flushing .. => false
  | reading .. | merging .. | acting .. | judged .. | lacking .. | evicting .. | leaving ..
  | settling .. => true

private theorem Errand.not_stillTries {e : Errand} (h : e.evicts = false) (k : ZoneKey) :
    ¬ e.StillTries k := by
  cases e <;> first | exact not_false | cases h

namespace Moment

variable {σ : Type} {c : Collaborators σ} {m m' : Moment σ} {move : Move σ} {k : ZoneKey} {z : Zone}
  {past : List (Moment σ × Move σ)}

/-- The last that this worker has done is to drop the task of this zone, which it has found to be
removed. -/
inductive HasDropped (k : ZoneKey) (w : Nat) : List (Moment σ × Move σ) → Prop
  | now {m : Moment σ} {t : Task} {o : Outcome} {z : Zone} {past : List (Moment σ × Move σ)}
      (hphase : m.pool.phase? w = some (.stepping t (.settling o))) (hzone : t.zone = k)
      (hz : m.pool.zone? t = some z) (hremoved : z.status = .removed) :
      HasDropped k w ((m, .worker w) :: past)
  | before {m : Moment σ} {move : Move σ} {past : List (Moment σ × Move σ)}
      (hmove : move ≠ .worker w) (h : HasDropped k w past) : HasDropped k w ((m, move) :: past)

/-- The eviction of a zone is going to be tried again: a worker has its task, or the engine has been
told to evict zones, or the worker that has dropped the task is about to tell it. -/
def Announced (past : List (Moment σ × Move σ)) (m : Moment σ) (k : ZoneKey) : Prop :=
  m.pool.schedule.isInFlight k ∨ .workerIdle ∈ m.pool.signals ∨
    ∃ w, m.pool.phase? w = some (.reporting true) ∧ HasDropped k w past

private theorem signals_cases [HasFiles σ] (hmove : move.isClosing = false)
    (hstep : m.step c move = some m') (hother : ∀ w, move ≠ .worker w) :
    (∃ more, m'.pool.signals = m.pool.signals ++ more) ∨
    ∃ s, m.pool.signals = s :: m'.pool.signals ∧
      (s = .workerIdle → m'.errand = .evicting false [] m.keys) := by
  have hsame (h : m'.pool.signals = m.pool.signals) :
      ∃ more, m'.pool.signals = m.pool.signals ++ more := ⟨[], by rw [h, List.append_nil]⟩
  cases moved_of_step hstep with
  | worker => exact absurd rfl (hother _)
  | closing => cases hmove
  | proceed hproceed =>
    obtain ⟨⟨_, _, _, _, hpool⟩, -⟩ := pool_proceed hproceed
    exact .inl (hsame (by rw [hpool]))
  | pass => exact .inl (hsame (by rw [pool_beginPass]))
  | request => exact .inl (hsame (by rw [pool_receive]))
  | heed _ hsignals =>
    refine .inr ⟨_, hsignals.trans (congrArg _ (by rw [pool_heed]; rfl)), ?_⟩
    rintro rfl
    rfl
  | drudger hp =>
    obtain ⟨y, -, hsection⟩ := Pool.drudgerSection_of_step hp
    exact .inl (hsame (by cases hsection <;> rfl))
  | start hp => exact .inl (hsame (by rw [(Pool.start_eq_ok hp).2]; rfl))
  | reload => exact .inl ⟨[.reload], rfl⟩
  | flushAll | tick | happen => exact .inl (hsame rfl)

/-- Only a merge lists a zone. -/
theorem get?_before [HasFiles σ] (hrec : m.Recorded) (hmove : move.isClosing = false)
    (hstep : m.step c move = some m') (hfresh : m.errand.fresh? = .none)
    (hz : m'.pool.zones.get? k = some z) : ∃ y, m.pool.zones.get? k = some y := by
  have hmade : m'.pool.zones.made = m.pool.zones.made := by
    rcases errand_cases hmove hstep with
      ⟨w, p', -, hp, rfl⟩ | ⟨-, hproceed⟩ | ⟨-, -, hzones, -⟩ | ⟨-, hzones, -⟩
    · obtain ⟨x, hx, hsection⟩ := Pool.workerSection_of_step hp
      exact hsection.made hx
    · exact (pool_proceed hproceed).2 hfresh
    · rw [hzones]
    · rw [hzones]
  rcases (step_follows hrec hstep).1.listed hz with ⟨y, hy, -⟩ | ⟨-, -, hle, hlt, -⟩
  · exact ⟨y, hy⟩
  · rw [hmade] at hlt
    exact absurd hlt (Nat.not_lt_of_le hle)

private theorem announced_of_isInFlight {w : Nat} {x : Worker} {p' : Pool σ} (hown : m.pool.Owned)
    (hanchored : m.Anchored) (hx : m.pool.workers[w]? = some x)
    (hsection : Pool.WorkerSection c m.pool w x p') (hz : m.pool.zones.get? k = some z)
    (hremoved : z.status = .removed) (hflight : m.pool.schedule.isInFlight k) :
    (m.withPool p').Announced ((m, .worker w) :: past) k := by
  rcases hsection.ownership hx with
    ⟨t, s, -, hnext, hs, -⟩ | ⟨t, y, o, hphase, hy, rfl⟩ | ⟨hs, -⟩
  · refine .inl ?_
    change p'.schedule.isInFlight k
    rcases hown.consistent.next_cases m.pool.now with he | ⟨u, hu, -, he⟩ <;> rw [hnext] at he
    · cases congrArg Prod.fst he
    · rw [hs, (Prod.mk.inj he).2, Schedule.isInFlight_taken, Schedule.isInFlight_without, hflight,
        Bool.or_true]
  · have hphase : m.pool.phase? w = some (.stepping t (.settling o)) :=
      hphase ▸ Pool.phase?_of_get hx
    have hheld : m.pool.held? w = some t := Pool.held?_of_phase? hphase
    by_cases hkey : t.zone = k
    · -- The record that the worker finds is the one that is listed.
      obtain ⟨y', hy', hlisted⟩ := Pool.zone?_of_lists (hanchored.tasks (.inr ⟨w, hheld⟩))
      obtain rfl := Option.some.inj (hy'.symm.trans hy)
      rw [hkey] at hlisted
      obtain rfl := Option.some.inj (hlisted.symm.trans hz)
      refine .inr (.inr ⟨w, ?_, .now hphase hkey hy hremoved⟩)
      rw [pool_withPool, Pool.settle, if_pos hremoved]
      exact Pool.phase?_goTo_self hx rfl _
    · refine .inl ?_
      have hmark := hown.marked hheld
      rw [pool_withPool, Pool.settle_schedule]
      split
      · rw [Schedule.isInFlight_release, hflight, Bool.and_true]
        simpa using Ne.symm hkey
      · rw [Outcome.isInFlight_settle hown.consistent hmark, hflight, Bool.and_true]
        simpa using Ne.symm hkey
  · exact .inl ((congrArg (Schedule.isInFlight · k) hs).trans hflight)

/-- A worker that moves does not make anything forgotten: what the engine has been told stays, and
what a worker is going to tell is told. -/
theorem announced_worker {w : Nat} {p' : Pool σ} (hown : m.pool.Owned)
    (hanchored : m.Anchored) (hp : m.pool.stepWorker c w = some p')
    (hz : m.pool.zones.get? k = some z) (hremoved : z.status = .removed)
    (h : m.Announced past k) : (m.withPool p').Announced ((m, .worker w) :: past) k := by
  obtain ⟨x, hx, hsection⟩ := Pool.workerSection_of_step hp
  rcases h with hflight | hsignal | ⟨v, hphase, hdropped⟩
  · exact announced_of_isInFlight hown hanchored hx hsection hz hremoved hflight
  · refine .inr (.inl ?_)
    rw [pool_withPool]
    rcases hsection.signals with hs | ⟨drained, -, rfl⟩
    · rwa [hs]
    · exact Pool.mem_signals_tell drained hsignal
  · by_cases hv : v = w
    · subst hv
      have hreporting : x.phase = .reporting true :=
        Option.some.inj ((Pool.phase?_of_get hx).symm.trans hphase)
      refine .inr (.inl ?_)
      rw [pool_withPool]
      cases hsection with
      | tell hx' =>
        obtain rfl : true = _ := by simpa using hreporting.symm.trans hx'
        exact Pool.workerIdle_tell
      | _ => simp_all only [reduceCtorEq]
    · refine .inr (.inr ⟨v, (hsection.phase?_other hx hv).trans hphase, .before ?_ hdropped⟩)
      rintro ⟨rfl⟩
      exact hv rfl

private theorem frame_other [HasFiles σ] (hown : m.pool.Owned) (hmove : move.isClosing = false)
    (hstep : m.step c move = some m') (hother : ∀ w, move ≠ .worker w) :
    m'.pool.schedule.isInFlight k = m.pool.schedule.isInFlight k ∧
      ∀ {w}, m.pool.phase? w = some (.reporting true) →
        m'.pool.phase? w = some (.reporting true) := by
  rcases step_cases hmove hstep with ⟨w, _, rfl, -⟩ | ⟨p', -, hp, rfl⟩ | ⟨-, haside⟩
  · exact absurd rfl (hother w)
  · obtain ⟨hoff, hp⟩ := Pool.start_eq_ok hp
    refine ⟨by rw [hp]; rfl, fun hphase => ?_⟩
    cases hown.resting hoff hphase
  · refine ⟨?_, fun hphase => (haside.phase?_eq _).trans hphase⟩
    rcases haside.asked with hs | ⟨op, hop, hs⟩ <;> rw [hs]
    exact hop.isInFlight_apply hown.consistent k

/-- Others than the workers leave what is announced alone, until the engine takes up that a zone may
be evicted and tries all that are listed. -/
theorem announced_other [HasFiles σ] (hown : m.pool.Owned) (hmove : move.isClosing = false)
    (hstep : m.step c move = some m') (hother : ∀ w, move ≠ .worker w)
    (hz : m.pool.zones.get? k = some z) (h : m.Announced past k) :
    m'.Announced ((m, move) :: past) k ∨ m'.errand.StillTries k := by
  obtain ⟨hflight, hphase⟩ := frame_other hown hmove hstep hother
  rcases h with h | h | ⟨w, hreporting, hdropped⟩
  · exact .inl (.inl (hflight.trans h))
  · rcases signals_cases hmove hstep hother with ⟨more, hmore⟩ | ⟨s, hs, htries⟩
    · refine .inl (.inr (.inl ?_))
      rw [hmore]
      exact List.mem_append_left _ h
    · rw [hs] at h
      rcases List.mem_cons.mp h with rfl | h
      · right
        rw [htries rfl]
        exact .inr (OrderedMap.mem_keys.mpr ⟨z, hz⟩)
      · exact .inl (.inr (.inl h))
  · exact .inl (.inr (.inr ⟨w, hphase hreporting, .before (hother w) hdropped⟩))

/-- The holder of the list does not drop a removed zone that it has still to try, unless the zone
leaves the list or is in flight. -/
theorem tries_proceed [HasFiles σ] (hguarded : m.Guarded) (hstep : m.proceed = some m')
    (h : m.errand.StillTries k)
    (hz : m.errand.fresh? = .none → ∃ z, m.pool.zones.get? k = some z ∧ z.status = .removed)
    {z' : Zone} (hz' : m'.pool.zones.get? k = some z') :
    m'.errand.StillTries k ∨ m.pool.schedule.isInFlight k := by
  have hevicted {doomed : List ZoneKey} (hdoomed : k ∈ doomed)
      (hz' : (m.pool.evict doomed).zones.get? k = some z') : False := by
    have hkept := (OrderedMap.get?_filter _ _ _).symm.trans hz'
    simpa [hdoomed] using (Option.filter_eq_some_iff.mp hkept).2
  cases proceeded_of_proceed hstep with
  | keep | addNew | look | miss | drop | ask | askInVain | content | lack | give =>
    exact .inl trivial
  | actedOn he =>
    obtain ⟨z, hz, -⟩ := hz (congrArg Errand.fresh? he)
    exact .inl (.inr (OrderedMap.mem_keys.mpr ⟨z, hz⟩))
  | skip he hlive =>
    obtain ⟨z, hz, hremoved⟩ := hz (congrArg Errand.fresh? he)
    rw [he] at h
    refine .inl (h.imp_right fun hk => List.mem_of_ne_of_mem ?_ hk)
    rintro rfl
    exact hlive z hz hremoved
  | suspect he =>
    rw [he] at h
    rcases h with h | h
    · exact .inl (.inr (.inl h))
    · exact .inl ((List.mem_cons.mp h).imp_right .inr)
  | evict he | evictInPass he =>
    rw [he] at h
    exact absurd hz' (hevicted (h.resolve_right List.not_mem_nil))
  | spare he htask =>
    -- The task of a removed zone does not wait any more.
    obtain ⟨z, hz, hremoved⟩ := hz (congrArg Errand.fresh? he)
    rw [he] at h
    rcases h with rfl | h
    · right
      refine (Bool.or_eq_true_iff.mp htask).resolve_left fun hscheduled => ?_
      have howes := hguarded.dropped hscheduled hz hremoved
      rw [he] at howes
      exact howes
    · exact .inl h
  | doom he =>
    rw [he] at h
    rcases h with rfl | h | h
    · exact .inl (.inl List.mem_cons_self)
    · exact .inl (.inl (List.mem_cons_of_mem _ h))
    · exact .inl (.inr h)
  | _ he =>
    rw [he] at h
    cases h

variable [HasFiles σ]

/-- Every removed zone is announced, or the holder of the list has still to try it. -/
def Remembers (past : List (Moment σ × Move σ)) (m : Moment σ) : Prop :=
  ∀ {k z}, m.pool.zones.get? k = some z → z.status = .removed →
    m.Announced past k ∨ m.errand.StillTries k

private theorem remembers_step (hpast : Past c m past) (hc : c.KeepsStatus)
    (h : m.Remembers past) (hmove : move.isClosing = false) (hstep : m.step c move = some m') :
    m'.Remembers ((m, move) :: past) := by
  have hreach := hpast.reachable
  have hown := owned_of_reachable hreach
  have hrec := recorded_of_reachable hreach
  have hanchored := anchored_of_reachable hreach
  have hguarded := guarded_of_reachable hc hreach
  intro k z' hz' hremoved'
  -- While there is nothing to be merged, the zone has been listed and removed before.
  have hbefore (hfresh : m.errand.fresh? = .none) :
      ∃ z, m.pool.zones.get? k = some z ∧ z.status = .removed := by
    obtain ⟨z, hz⟩ := get?_before hrec hmove hstep hfresh hz'
    exact ⟨z, hz, (removed_iff_step hrec hc hstep hfresh hz hz').mp hremoved'⟩
  have htries (h : m.errand.StillTries k) :
      m'.Announced ((m, move) :: past) k ∨ m'.errand.StillTries k := by
    rcases errand_cases hmove hstep with
      ⟨w, p', -, -, rfl⟩ | ⟨rfl, hproceed⟩ | ⟨he, -⟩ | ⟨he, -⟩
    · exact .inr h
    · rcases tries_proceed hguarded hproceed h hbefore hz' with h | hflight
      · exact .inr h
      · exact .inl (.inl ((frame_other hown hmove hstep nofun).1.trans hflight))
    · rw [he] at h
      exact absurd h not_false
    · exact .inr (he ▸ h)
  cases hfresh : m.errand.fresh? with
  | some fresh =>
    refine htries ?_
    cases he : m.errand <;> rw [he] at hfresh <;> cases hfresh
    trivial
  | none =>
    obtain ⟨z, hz, hremoved⟩ := hbefore hfresh
    rcases h hz hremoved with hannounced | h
    · by_cases hworker : ∃ w, move = .worker w
      · obtain ⟨w, rfl⟩ := hworker
        obtain ⟨p', hp, rfl⟩ := Option.map_eq_some_iff.mp hstep
        exact .inl (announced_worker hown hanchored hp hz hremoved hannounced)
      · exact announced_other hown hmove hstep (fun w hw => hworker ⟨w, hw⟩) hz hannounced
    · exact htries h

private theorem remembers_of_past (hc : c.KeepsStatus) (h : Past c m past) : m.Remembers past := by
  induction h with
  | initial h =>
    obtain ⟨_, _, _, _, _, _, _, hpool⟩ := h.pool_eq
    intro k z hz
    rw [hpool] at hz
    cases hz
  | step hpast hmove hstep ih => exact remembers_step hpast hc ih hmove hstep

private theorem tells_of_reporting {w : Nat} (hphase : m.pool.phase? w = some (.reporting true)) :
    ∃ m', m.step c (.worker w) = some m' ∧ .workerIdle ∈ m'.pool.signals := by
  obtain ⟨x, hx, hreporting⟩ := Option.map_eq_some_iff.mp hphase
  refine ⟨m.withPool (m.pool.tell w true), ?_, Pool.workerIdle_tell⟩
  simp [step, Pool.stepWorker, hx, hreporting]

omit [HasFiles σ] in
/-- Taking up that a zone may be evicted evicts every removed zone that is not in flight. -/
theorem get?_evictDrained (hguarded : m.Guarded) (hrec : m.pool.Recorded)
    (hidle : m.errand.inPass = false) (hz : m.pool.zones.get? k = some z)
    (hremoved : z.status = .removed) (hflight : m.pool.schedule.isInFlight k = false) :
    (Engine.evictDrained m.pool).zones.get? k = none := by
  have hwaits : m.pool.schedule.isScheduled k = false := by
    refine Bool.eq_false_iff.mpr fun hk => ?_
    exact Errand.not_owes hidle k (hguarded.dropped hk hz hremoved)
  have htask : m.pool.schedule.hasTask z.key = false := by
    rw [hrec.keyed hz, Schedule.hasTask, hwaits, hflight, Bool.or_false]
  refine (OrderedMap.get?_filter _ _ _).trans ?_
  have hz : m.pool.zones.zones.get? k = some z := hz
  rw [hz, Option.filter_some, ZoneList.isEvictable, hremoved, htask]
  rfl

/-- No removed zone is forgotten: whatever the order in which everybody moves, at every moment at
which nobody does a pass or evicts zones, each removed zone that is still listed is in flight, or the
engine has been told that a zone may be evicted, or the worker that has just dropped the zone's task
is about to tell it. The worker can tell it, and taking that up evicts all that are not in flight. -/
theorem removals_are_remembered (hc : c.KeepsStatus) (h : Past c m past)
    (hidle : m.errand.evicts = false) (hz : m.pool.zones.get? k = some z)
    (hremoved : z.status = .removed) :
    (m.pool.schedule.isInFlight k ∨ .workerIdle ∈ m.pool.signals ∨
      ∃ w, m.pool.phase? w = some (.reporting true) ∧ HasDropped k w past ∧
        ∃ m', m.step c (.worker w) = some m' ∧ .workerIdle ∈ m'.pool.signals) ∧
    (m.pool.schedule.isInFlight k = false →
      (m.engine.heed .workerIdle).2.pool.zones.get? k = none) := by
  have hreach := h.reachable
  constructor
  · rcases remembers_of_past hc h hz hremoved with hannounced | htries
    · refine hannounced.imp_right fun hannounced => hannounced.imp_right ?_
      rintro ⟨w, hphase, hdropped⟩
      exact ⟨w, hphase, hdropped, tells_of_reporting hphase⟩
    · exact absurd htries (Errand.not_stillTries hidle k)
  · have hpass : m.errand.inPass = false := by
      cases he : m.errand <;> rw [he] at hidle <;> first | rfl | cases hidle
    exact get?_evictDrained (guarded_of_reachable hc hreach) (recorded_of_reachable hreach).pool hpass
      hz hremoved

def droppedTask : List (Move FileWorld) :=
  firstPass ++ [.worker 0, .happen { files := oneZoneGone }, .pass] ++ List.replicate 11 .proceed ++
    List.replicate 3 (.worker 0)

/-- The engine for one zone has removed the zone while its worker had the task. When the worker has
dropped the task, only the worker still knows of it. -/
theorem removals_are_remembered_oneZone :
    ∃ m past z, Past fileCollaborators m past ∧ m.errand.evicts = false ∧
      m.pool.zones.get? (.of "a" .internet) = some z ∧ z.status = .removed ∧
      m.pool.schedule.isInFlight (.of "a" .internet) = false ∧ .workerIdle ∉ m.pool.signals ∧
      (∃ w, m.pool.phase? w = some (.reporting true) ∧ HasDropped (.of "a" .internet) w past) ∧
      (m.engine.heed .workerIdle).2.pool.zones.get? (.of "a" .internet) = none := by
  have hrun : (oneZone.follow fileCollaborators droppedTask).any fun m =>
      m.errand.evicts = false ∧ m.pool.schedule.isInFlight (.of "a" .internet) = false ∧
        .workerIdle ∉ m.pool.signals ∧
        (m.pool.zones.get? (.of "a" .internet)).any (·.status = .removed) := by decide +kernel
  obtain ⟨m, hm, hrun⟩ := (Option.any_eq_true _ _).mp hrun
  obtain ⟨hidle, hflight, hsignals, hzone⟩ := of_decide_eq_true hrun
  obtain ⟨z, hz, hremoved⟩ := (Option.any_eq_true _ _).mp hzone
  have hremoved := of_decide_eq_true hremoved
  have hpast : Past fileCollaborators m (trace fileCollaborators oneZone droppedTask []) :=
    (Past.initial oneZone_initial).follow (by decide) hm
  obtain ⟨hannounced, hevicted⟩ :=
    removals_are_remembered fileCollaborators_onFiles.keepsStatus hpast hidle hz hremoved
  refine ⟨m, _, z, hpast, hidle, hz, hremoved, hflight, hsignals, ?_, hevicted hflight⟩
  rcases hannounced with h | h | ⟨w, hphase, hdropped, -⟩
  · rw [hflight] at h
    cases h
  · exact absurd h hsignals
  · exact ⟨w, hphase, hdropped⟩

end Moment

end ZoneSigning
