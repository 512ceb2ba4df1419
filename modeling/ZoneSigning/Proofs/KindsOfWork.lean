import ZoneSigning.Proofs.Bystanders

/-!
Which kinds of work there are in a running engine. Tasks are made and moved for configuring and
reading, and steps go on to configuring, reading and signing; so no task ever comes to write a zone
as it is, at whatever point of its end the engine may be.
-/
namespace ZoneSigning

namespace Schedule

variable {s : Schedule} {t : Task} {k : TaskKind}

/-- A kind of work that a waiting task involves, or that has been asked of a taken one. -/
def Involves (s : Schedule) (k : TaskKind) : Prop :=
  (∃ t ∈ s.waiting, t.Involves k) ∨ ∃ z p, s.inFlight.get? z = some p ∧ p.interrupt = some k

private theorem involves_release {z : ZoneKey} (h : (s.release z).2.Involves k) : s.Involves k := by
  rcases h with h | ⟨y, p, hp, hk⟩
  · exact .inl h
  · by_cases hy : y = z
    · subst hy
      simp [release] at hp
    · refine .inr ⟨y, p, ?_, hk⟩
      rwa [release, OrderedMap.get?_erase_of_ne _ hy] at hp

private theorem involves_schedule (hs : s.Consistent) (h : (s.schedule t).2.Involves k) :
    s.Involves k ∨ t.Involves k := by
  rw [hs.schedule_eq] at h
  split at h
  · exact .inl h
  · next hfree =>
    have hfree := (Bool.or_eq_false_iff.mp (Bool.eq_false_iff.mpr hfree)).1
    rcases h with ⟨u, hu, hk⟩ | h
    · rcases (hs.mem_added hfree).mp hu with rfl | hu
      · exact .inr hk
      · exact .inl (.inl ⟨u, hu, hk⟩)
    · exact .inl (.inr h)

private theorem involves_without (hs : s.Consistent) (ht : t ∈ s.waiting)
    (h : (s.without t).Involves k) : s.Involves k := by
  rcases h with ⟨u, hu, hk⟩ | h
  · exact .inl ⟨u, ((hs.mem_without ht).mp hu).1, hk⟩
  · exact .inr h

private theorem involves_taken {z : ZoneKey} (h : (s.taken z).Involves k) : s.Involves k := by
  rcases h with h | ⟨y, p, hp, hk⟩
  · exact .inl h
  · by_cases hy : y = z
    · subst hy
      simp only [taken, OrderedMap.get?_insert_self, Option.some.injEq] at hp
      subst hp
      cases hk
    · refine .inr ⟨y, p, ?_, hk⟩
      rwa [taken, OrderedMap.get?_insert_of_ne _ _ hy] at hp

private theorem involves_noted {z : ZoneKey} {p : Pending} (h : (s.noted z p).Involves k) :
    s.Involves k ∨ p.interrupt = some k := by
  rcases h with h | ⟨y, q, hq, hk⟩
  · exact .inl (.inl h)
  · by_cases hy : y = z
    · subst hy
      simp only [noted, OrderedMap.get?_insert_self, Option.some.injEq] at hq
      subst hq
      exact .inr hk
    · refine .inl (.inr ⟨y, q, ?_, hk⟩)
      rwa [noted, OrderedMap.get?_insert_of_ne _ _ hy] at hq

private theorem involves_ask (hs : s.Consistent) {f : Task → Task} {g : Pending → Pending}
    {z : ZoneKey} {new : Prop} (hzone : ∀ t, (f t).zone = t.zone)
    (hf : ∀ t, (f t).Involves k → t.Involves k ∨ new)
    (hg : ∀ p, (g p).interrupt = some k → p.interrupt = some k ∨ new)
    (h : (s.ask z f g).2.Involves k) : s.Involves k ∨ new := by
  rcases hs.ask_cases hzone g z with ⟨t, ht, -, he⟩ | ⟨p, -, hp, he⟩ | ⟨-, he⟩ <;> rw [he] at h
  · rcases h with ⟨u, hu, hk⟩ | h
    · rcases (hs.mem_replace ht (hzone { t with flush := false })).mp hu with rfl | ⟨hu, -⟩
      · exact (hf _ hk).imp_left fun hk => .inl ⟨t, ht, hk⟩
      · exact .inl (.inl ⟨u, hu, hk⟩)
    · exact .inl (.inr h)
  · rcases involves_noted h with h | hk
    · exact .inl h
    · exact (hg p hk).imp_left fun hk => .inr ⟨z, p, hp, hk⟩
  · exact .inl h

/-- Those who leave taken tasks alone only ask for configuring and reading. -/
theorem Op.Mild.involves_apply {op : Op} {view : Option Zone} (hop : op.Mild view)
    (hs : s.Consistent) (h : (op.apply s).Involves k) :
    s.Involves k ∨ k = .configure ∨ k = .read := by
  cases hop with
  | schedule _ _ _ hwhat hinterrupt hhalted =>
    refine (involves_schedule hs h).imp_right fun hk => ?_
    rcases hk with rfl | hk | hk
    · exact hwhat
    · rw [hinterrupt] at hk
      cases hk
    · rw [hhalted] at hk
      cases hk
  | @unscheduleZone z =>
    obtain hz | ⟨t, ht, hkey⟩ := hs.scheduled_cases z.key
    · rw [apply, unscheduleZone_of_not_isScheduled hz] at h
      exact .inl h
    · rw [apply, ← hkey, hs.unscheduleZone_eq ht] at h
      exact .inl (involves_without hs ht h)
  | reschedule y due hwhat =>
    refine involves_ask hs (Task.zone_retarget _ due) (fun t hk => ?_) (fun p hk => ?_) h
    · rcases Task.involves_retarget hk with hk | rfl
      · exact .inl hk
      · exact .inr hwhat
    · cases hk
      exact .inr hwhat
  | flushZone y =>
    exact involves_ask hs (f := ({ · with flush := true })) (g := ({ · with flush := true }))
      (fun _ => rfl) (fun _ => .inl) (fun _ => .inl) h
  | flushAll =>
    rcases h with ⟨u, hu, hk⟩ | h
    · rw [apply, Consistent.waiting_flushAll] at hu
      obtain ⟨t, ht, rfl⟩ := List.mem_map.mp hu
      exact .inl (.inl ⟨t, ht, hk⟩)
    · exact .inl (.inr h)

private theorem involves_next (hs : s.Consistent) {now : Nat} {s' : Schedule}
    (hnext : s.next now = (some t, s')) (h : s'.Involves k ∨ t.Involves k) : s.Involves k := by
  rcases hs.next_cases now with he | ⟨u, hu, -, he⟩ <;> rw [hnext] at he
  · cases congrArg Prod.fst he
  · obtain ⟨ht, rfl⟩ := Prod.mk.inj he
    obtain rfl := Option.some.inj ht
    rcases h with h | hk
    · exact involves_without hs hu (involves_taken h)
    · exact .inl ⟨u, hu, hk⟩

private theorem involves_resubmit (hs : s.Consistent) {f : Task → Task}
    (h : (s.resubmit t f).2.Involves k) : s.Involves k ∨ (s.returned t f).Involves k := by
  rw [Consistent.resubmit_eq] at h
  exact (involves_schedule (hs.release t.zone) h).imp_left involves_release

private theorem involves_settle (hs : s.Consistent) {o : Outcome} {now maxBackoff : Nat}
    (h : (o.settle t now maxBackoff s).Involves k) :
    s.Involves k ∨ t.Involves k ∨ o.next? = some k := by
  unfold Outcome.settle at h
  split at h
  · next f hf =>
    rcases involves_resubmit hs h with h | hk
    · exact .inl h
    · unfold returned at hk
      cases hp : s.inFlight.get? t.zone with
      | none =>
        rw [hp] at hk
        exact .inr (Outcome.involves_transition hf hk)
      | some p =>
        rw [hp] at hk
        rcases Outcome.involves_transition hf hk with hk | hk
        · rcases Task.involves_fold hk with hk | hk
          · exact .inr (.inl hk)
          · exact .inl (.inr ⟨t.zone, p, hp, hk⟩)
        · exact .inr (.inr hk)
  · exact .inl (involves_release h)

end Schedule

namespace Pool

variable {σ : Type} {c : Collaborators σ} {p p' : Pool σ} {w : Nat} {k : TaskKind}

/-- A kind of work that the schedule involves, or the task of a worker, or to which a decided step
goes on. -/
def Involves (p : Pool σ) (k : TaskKind) : Prop :=
  p.schedule.Involves k ∨ (∃ w t, p.held? w = some t ∧ t.Involves k) ∨
    ∃ w t o, p.phase? w = some (.stepping t (.settling o)) ∧ o.next? = some k

/-- In the beginning there is no work at all. -/
theorem not_involves_ofLimits (around : σ)
    (now workers drudgers maxBackoff capacity threshold : Nat) :
    ¬ (ofLimits around now workers drudgers maxBackoff capacity threshold).Involves k := by
  rintro ((⟨t, ht, -⟩ | ⟨z, q, hq, -⟩) | ⟨w, t, ht, -⟩ | ⟨w, t, o, hphase, -⟩)
  · cases ht
  · cases hq
  · rw [held?_ofLimits] at ht
    cases ht
  · cases phase?_ofLimits _ _ _ _ _ _ _ hphase

private theorem Decided.next_ne_write {t : Task} {o : Outcome} (h : Decided p w t p' o) :
    o.next? ≠ some .write := by
  intro hwrite
  cases h with
  | retreat hfirst => rcases hfirst with rfl | rfl <;> cases hwrite
  | @load z _ _ _ _ _ _ ho =>
    cases ZoneState.configured_of_eq ho with
    | reloaded | bare => cases hwrite
    | kept =>
      revert hwrite
      simp only [Outcome.next?, ZoneState.afterUnchanged]
      split <;> nofun
  | @read answer _ ho =>
    subst ho
    cases answer <;> cases hwrite
  | @publish _ _ _ _ answer _ ho =>
    cases answer <;> cases ho <;> cases hwrite
  | retry e => cases hwrite

private theorem schedule_involves_worker {x : Worker} (hs : p.schedule.Consistent)
    (hx : p.workers[w]? = some x) (hsection : WorkerSection c p w x p')
    (h : p'.schedule.Involves k) : p.Involves k := by
  rcases hsection.ownership hx with
    ⟨t, s, -, hnext, rfl, -⟩ | ⟨t, z, o, hphase, -, rfl⟩ | ⟨hsame, -⟩
  · exact .inl (Schedule.involves_next hs hnext (.inl h))
  · have hsettling : p.phase? w = some (.stepping t (.settling o)) := hphase ▸ phase?_of_get hx
    have hheld : p.held? w = some t := held?_of_phase? hsettling
    rw [settle_schedule] at h
    split at h
    · exact .inl (Schedule.involves_release h)
    · rcases Schedule.involves_settle hs h with h | h | h
      · exact .inl h
      · exact .inr (.inl ⟨w, t, hheld, h⟩)
      · exact .inr (.inr ⟨w, t, o, hsettling, h⟩)
  · exact .inl (hsame ▸ h)

private theorem held_involves_worker {x : Worker} (hs : p.schedule.Consistent)
    (hx : p.workers[w]? = some x) (hsection : WorkerSection c p w x p') {v : Nat} {t : Task}
    (hheld : p'.held? v = some t) (h : t.Involves k) : p.Involves k := by
  rcases hsection.ownership hx with
    ⟨u, s, -, hnext, -, hafter⟩ | ⟨u, z, o, -, -, rfl⟩ | ⟨-, hafter⟩
  · rw [hafter] at hheld
    split at hheld
    · cases hheld
      exact .inl (Schedule.involves_next hs hnext (.inr h))
    · exact .inr (.inl ⟨v, t, hheld, h⟩)
  · rw [held?_settle] at hheld
    split at hheld
    · cases hheld
    · exact .inr (.inl ⟨v, t, hheld, h⟩)
  · exact .inr (.inl ⟨v, t, (hafter v).symm.trans hheld, h⟩)

/-- A worker that goes on comes to no kind of work but those that there are, and those that follow
on its step. -/
theorem involves_worker (hs : p.schedule.Consistent) (hstep : p.stepWorker c w = some p')
    (h : p'.Involves .write) : p.Involves .write := by
  obtain ⟨x, hx, hsection⟩ := workerSection_of_step hstep
  rcases h with h | ⟨v, t, hheld, h⟩ | ⟨v, t, o, hphase, h⟩
  · exact schedule_involves_worker hs hx hsection h
  · exact held_involves_worker hs hx hsection hheld h
  · by_cases hv : v = w
    · subst hv
      exact absurd h (hsection.decided hx hphase).next_ne_write
    · refine .inr (.inr ⟨v, t, o, ?_, h⟩)
      rwa [hsection.phase?_other hx hv] at hphase

private theorem involves_of_phase? (hphase : ∀ v, p'.phase? v = p.phase? v)
    (h : p'.Involves k) : p'.schedule.Involves k ∨ p.Involves k := by
  rcases h with h | ⟨v, t, hheld, h⟩ | ⟨v, t, o, hsettling, h⟩
  · exact .inl h
  · simp only [held?, hphase] at hheld
    exact .inr (.inr (.inl ⟨v, t, hheld, h⟩))
  · rw [hphase] at hsettling
    exact .inr (.inr (.inr ⟨v, t, o, hsettling, h⟩))

private theorem involves_start (hstart : p.start = .ok p') (h : p'.Involves k) : p.Involves k := by
  rcases h with h | ⟨v, t, hheld, -⟩ | ⟨v, t, o, hphase, -⟩
  · rw [(start_eq_ok hstart).2] at h
    exact .inl h
  · rw [held?_start hstart] at hheld
    cases hheld
  · rw [phase?_start hstart] at hphase
    obtain ⟨_, -, hidle⟩ := Option.map_eq_some_iff.mp hphase
    cases hidle

end Pool

namespace Moment

variable {σ : Type} {c : Collaborators σ} {m m' : Moment σ}

/-- The end of the engine leaves the threads at what they are doing, and tasks alone or forgotten. -/
theorem close_frame {what : Closing} (hstep : m.close what = some m') :
    (∀ w, m'.pool.phase? w = m.pool.phase? w) ∧ m'.pool.started = m.pool.started ∧
      (m'.pool.schedule = m.pool.schedule ∨ m'.pool.schedule = {}) := by
  cases closed_of_close hstep with
  | tellWorkers =>
    refine ⟨fun w => ?_, rfl, .inl rfl⟩
    simp [Pool.phase?, Pool.dismissWorkers, Function.comp_def]
  | clearSchedule => exact ⟨fun _ => rfl, rfl, .inr rfl⟩
  | _ => exact ⟨fun _ => rfl, rfl, .inl rfl⟩

/-- A move is a worker's section, the start of the threads, part of the end, or somebody's who leaves
the workers and what they have taken alone. -/
theorem move_cases [HasFiles σ] {move : Move σ} (hstep : m.step c move = some m') :
    (∃ w p', move = .worker w ∧ m.pool.stepWorker c w = some p' ∧ m' = m.withPool p') ∨
    (∃ p', move = .start ∧ m.pool.start = .ok p' ∧ m' = m.withPool p') ∨
    (∃ what, move = .closing what ∧ m.close what = some m') ∨
    (∀ w, move ≠ .worker w) ∧ m.Aside m' := by
  cases hmove : move.isClosing with
  | true =>
    cases move with
    | closing what => exact .inr (.inr (.inl ⟨what, rfl, hstep⟩))
    | _ => cases hmove
  | false =>
    rcases step_cases hmove hstep with hworker | hstart | haside
    · exact .inl hworker
    · exact .inr (.inl hstart)
    · exact .inr (.inr (.inr haside))

variable [HasFiles σ] {move : Move σ}

/-- The parts of the schedule agree also at the end. -/
theorem consistent_step (hs : m.pool.schedule.Consistent) (hstep : m.step c move = some m') :
    m'.pool.schedule.Consistent := by
  rcases move_cases hstep with
    ⟨w, p', -, hp, rfl⟩ | ⟨p', -, hp, rfl⟩ | ⟨what, -, hclose⟩ | ⟨-, haside⟩
  · obtain ⟨x, hx, hsection⟩ := Pool.workerSection_of_step hp
    rcases hsection.ownership hx with
      ⟨t, s, -, hnext, hs', -⟩ | ⟨t, z, o, -, -, rfl⟩ | ⟨hs', -⟩
    · have hafter := hs.next m.pool.now
      rw [hnext] at hafter
      exact hs' ▸ hafter
    · rw [pool_withPool, Pool.settle_schedule]
      split
      · exact hs.release _
      · exact Outcome.settle_consistent hs o t _ _
    · rw [pool_withPool, hs']
      exact hs
  · rw [pool_withPool, (Pool.start_eq_ok hp).2]
    exact hs
  · rcases (close_frame hclose).2.2 with hs' | hs' <;> rw [hs']
    · exact hs
    · exact Schedule.consistent_empty
  · rcases haside.asked with hs' | ⟨op, -, hs'⟩ <;> rw [hs']
    · exact hs
    · exact hs.apply op

/-- Nobody ever asks for a zone to be written as it is. -/
theorem involves_step (hs : m.pool.schedule.Consistent) (hstep : m.step c move = some m')
    (h : m'.pool.Involves .write) : m.pool.Involves .write := by
  rcases move_cases hstep with
    ⟨w, p', -, hp, rfl⟩ | ⟨p', -, hp, rfl⟩ | ⟨what, -, hclose⟩ | ⟨-, haside⟩
  · exact Pool.involves_worker hs hp h
  · exact Pool.involves_start hp h
  · obtain ⟨hphase, -, hs'⟩ := close_frame hclose
    rcases Pool.involves_of_phase? hphase h with h | h
    · rcases hs' with hs' | hs' <;> rw [hs'] at h
      · exact .inl h
      · rcases h with ⟨t, ht, -⟩ | ⟨z, p, hp, -⟩
        · cases ht
        · cases hp
    · exact h
  · rcases Pool.involves_of_phase? haside.phase?_eq h with h | h
    · rcases haside.asked with hs' | ⟨op, hop, hs'⟩ <;> rw [hs'] at h
      · exact .inl h
      · rcases hop.involves_apply hs h with h | h | h
        · exact .inl h
        · cases h
        · cases h
    · exact h

end Moment

end ZoneSigning
