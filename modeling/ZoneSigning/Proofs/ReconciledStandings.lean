import ZoneSigning.Proofs.Standings
import ZoneSigning.Proofs.WholePasses

/-!
What a pass makes of what the schedule has for one zone. A pass acts on the zones one after the other;
as it touches what the schedule has for one zone only each time, every zone gets exactly what its own
status calls for.
-/
namespace ZoneSigning

def Zone.configuring (z : Zone) (now : Nat) : Task :=
  { zone := z.key, record := z.record, what := .configure, due := now }

/-- The task moved to loading the configuration now. What it was to do before, and when, is halted,
unless it was that very kind of work, or something is halted already. -/
def Task.reconfiguring (t : Task) (now : Nat) : Task :=
  { t with
    what := .configure
    due := now
    flush := false
    halted := if t.what ≠ .configure ∧ t.halted = none then some t.what else t.halted
    haltedDue := if t.what ≠ .configure ∧ t.halted = none then t.due else t.haltedDue }

private theorem Task.retarget_configure (t : Task) (now : Nat) :
    ({ t with flush := false } : Task).retarget .configure now = t.reconfiguring now := by
  unfold retarget reconfiguring
  by_cases h : t.what ≠ .configure ∧ t.halted = none
  · have h' : TaskKind.configure ≠ t.what ∧ t.halted = none := ⟨h.1.symm, h.2⟩
    simp only [if_pos h, if_pos h']
  · have h' : ¬ (TaskKind.configure ≠ t.what ∧ t.halted = none) := fun h' => h ⟨h'.1.symm, h'.2⟩
    simp only [if_neg h, if_neg h']

/-- What a pass at the time `now` makes of what the schedule has for the zone `z`. -/
def Standing.reconciled (now : Nat) (z : Zone) (x : Standing) : Standing :=
  match z.status, x with
  | .removed, waiting _ => free
  | .updated, waiting t => waiting (t.reconfiguring now)
  | .updated, taken p => taken { p with interrupt := some .configure, interruptDue := now }
  | .added, free | .updated, free | .ok, free => waiting (z.configuring now)
  | _, x => x

namespace Standing

variable {now : Nat} {z : Zone} {x : Standing}

private theorem reconciled_taken_iff : (∃ p, x.reconciled now z = taken p) ↔ ∃ p, x = taken p := by
  cases x <;> cases hz : z.status <;> simp [reconciled, hz]

/-- No task of a removed zone is left waiting. -/
theorem reconciled_ne_waiting (hz : z.status = .removed) (t : Task) :
    x.reconciled now z ≠ waiting t := by
  cases x <;> simp [reconciled, hz]

/-- Every other zone has a task. -/
theorem reconciled_ne_free (hz : z.status ≠ .removed) : x.reconciled now z ≠ free := by
  cases x <;> cases hstatus : z.status <;> simp_all [reconciled]

private theorem reconciled_of_removed (hz : z.status = .removed) : x.reconciled now z = x.dropped := by
  cases x <;> simp only [reconciled, dropped, hz]

/-- A zone without a task gets one, unless it is removed. -/
theorem reconciled_free (hz : z.status ≠ .removed) :
    free.reconciled now z = waiting (z.configuring now) := by
  cases hstatus : z.status <;> simp_all [reconciled]

/-- A task is left alone, unless the zone is updated or removed. -/
theorem reconciled_of_kept (hz : z.status = .added ∨ z.status = .ok) (hx : x ≠ free) :
    x.reconciled now z = x := by
  rcases hz with hz | hz <;> cases x <;> simp_all [reconciled]

end Standing

namespace Schedule.Consistent

variable {s : Schedule} {k : ZoneKey}

private theorem sets_scheduleConfigure (h : s.Consistent) {now : Nat} {z : Zone}
    (hz : s.hasTask z.key = false) :
    s.Sets (Engine.scheduleConfigure now z s) z.key (.waiting (z.configuring now)) := by
  have hsets := h.sets_schedule (z.configuring now)
  have hfree : s.standing (z.configuring now).zone = .free := standing_of_free hz
  rw [hfree] at hsets
  exact hsets

private theorem sets_removed (h : s.Consistent) (now : Nat) {z : Zone} (hz : z.status = .removed) :
    s.Sets (Engine.reconcileTask now s z) z.key ((s.standing z.key).reconciled now z) := by
  rw [Standing.reconciled_of_removed hz]
  simp only [Engine.reconcileTask, hz]
  exact h.sets_unscheduleZone z.key

private theorem sets_updated (h : s.Consistent) (now : Nat) {z : Zone} (hz : z.status = .updated) :
    s.Sets (Engine.reconcileTask now s z) z.key ((s.standing z.key).reconciled now z) := by
  simp only [Engine.reconcileTask, hz]
  rcases h.reschedule_cases z.key .configure now with
    ⟨t, ht, hkey, he⟩ | ⟨p, hs, hp, he⟩ | ⟨hfree, he⟩ <;> simp only [he]
  · rw [t.retarget_configure, ← hkey, h.standing_of_mem ht]
    simp only [Standing.reconciled, hz]
    exact h.sets_replace ht rfl
  · rw [standing_of_taken hs hp]
    simp only [Standing.reconciled, hz]
    exact h.sets_noted hs (OrderedMap.contains_iff.mpr ⟨p, hp⟩) _
  · have hfailure : (ScheduleError.noTaskOf z.key).failure = .notFound := rfl
    rw [standing_of_free hfree, if_pos hfailure]
    simp only [Standing.reconciled, hz]
    exact h.sets_scheduleConfigure hfree

private theorem sets_kept (h : s.Consistent) (now : Nat) {z : Zone}
    (hz : z.status = .added ∨ z.status = .ok) :
    s.Sets (Engine.reconcileTask now s z) z.key ((s.standing z.key).reconciled now z) := by
  have htask : Engine.reconcileTask now s z =
      if s.hasTask z.key then s else Engine.scheduleConfigure now z s := by
    rcases hz with hz | hz <;> simp only [Engine.reconcileTask, hz]
  rw [htask]
  split
  · next hk =>
    have hx : s.standing z.key ≠ .free := fun hx => by simp [h.hasTask_of_standing hx] at hk
    rw [Standing.reconciled_of_kept hz hx]
    exact h.sets_self
  · next hk =>
    have hfree := Bool.eq_false_iff.mpr hk
    have hlive : z.status ≠ .removed := by rcases hz with hz | hz <;> simp [hz]
    rw [standing_of_free hfree, Standing.reconciled_free hlive]
    exact h.sets_scheduleConfigure hfree

/-- A pass touches only what the schedule has for the zone that it acts on. -/
theorem sets_reconcileTask (h : s.Consistent) (now : Nat) (z : Zone) :
    s.Sets (Engine.reconcileTask now s z) z.key ((s.standing z.key).reconciled now z) := by
  cases hz : z.status with
  | removed => exact h.sets_removed now hz
  | updated => exact h.sets_updated now hz
  | added => exact h.sets_kept now (.inl hz)
  | ok => exact h.sets_kept now (.inr hz)

private theorem standing_foldl {l : ZoneList} (hkeyed : ∀ {k z}, l.get? k = some z → z.key = k)
    (now : Nat) {keys : List ZoneKey} (hkeys : keys.Nodup) (h : s.Consistent) :
    (keys.foldl (fun s k => (l.get? k).elim s (Engine.reconcileTask now s)) s).Consistent ∧
      ∀ k, (keys.foldl (fun s k => (l.get? k).elim s (Engine.reconcileTask now s)) s).standing k =
        if k ∈ keys then (l.get? k).elim (s.standing k) fun z => (s.standing k).reconciled now z
        else s.standing k := by
  induction keys generalizing s with
  | nil => exact ⟨h, fun k => by simp⟩
  | cons key keys ih =>
    obtain ⟨hkey, hkeys⟩ := List.nodup_cons.mp hkeys
    rw [List.foldl_cons]
    cases hz : l.get? key with
    | none =>
      obtain ⟨hs, hall⟩ := ih hkeys h
      refine ⟨hs, fun k => (hall k).trans ?_⟩
      by_cases hk : k = key
      · simp [hk, hz]
      · simp [hk]
    | some z =>
      obtain ⟨hs, hself, hother⟩ := h.sets_reconcileTask now z
      rw [hkeyed hz] at hself hother
      obtain ⟨hs, hall⟩ := ih hkeys hs
      refine ⟨hs, fun k => (hall k).trans ?_⟩
      by_cases hk : k = key
      · subst hk
        simp [hkey, hz, hself]
      · simp [hk, hother hk]

/-- Acting on all listed zones gives each of them what its status calls for, and touches no other. -/
theorem standing_reconcile (h : s.Consistent) {l : ZoneList}
    (hkeyed : ∀ {k z}, l.get? k = some z → z.key = k) (now : Nat) :
    (l.all.foldl (Engine.reconcileTask now) s).Consistent ∧
      ∀ k, (l.all.foldl (Engine.reconcileTask now) s).standing k =
        (l.get? k).elim (s.standing k) fun z => (s.standing k).reconciled now z := by
  obtain ⟨hs, hall⟩ := h.standing_foldl hkeyed now l.keys_nodup
  have hfold : l.zones.keys.foldl (fun s k => (l.get? k).elim s (Engine.reconcileTask now s)) s =
      l.all.foldl (Engine.reconcileTask now) s := l.zones.foldl_keys _ _
  rw [hfold] at hs hall
  refine ⟨hs, fun k => (hall k).trans ?_⟩
  cases hz : l.get? k with
  | none => simp
  | some z => simp [OrderedMap.mem_keys.mpr ⟨z, hz⟩]

variable {l : ZoneList} {now : Nat} {y : Zone}

/-- No task is taken or handed back. -/
theorem isInFlight_reconcile (h : s.Consistent) (hkeyed : ∀ {k z}, l.get? k = some z → z.key = k)
    (now : Nat) (k : ZoneKey) :
    (l.all.foldl (Engine.reconcileTask now) s).isInFlight k = s.isInFlight k := by
  obtain ⟨hs, hall⟩ := h.standing_reconcile hkeyed now
  rw [Bool.eq_iff_iff, hs.isInFlight_iff_standing, h.isInFlight_iff_standing, hall]
  cases l.get? k with
  | none => rfl
  | some z => exact Standing.reconciled_taken_iff

/-- When a pass has acted on all zones, no task of a removed one waits. -/
theorem isScheduled_reconcile (h : s.Consistent) (hkeyed : ∀ {k z}, l.get? k = some z → z.key = k)
    (hy : l.get? k = some y) (hremoved : y.status = .removed) :
    (l.all.foldl (Engine.reconcileTask now) s).isScheduled k = false := by
  obtain ⟨hs, hall⟩ := h.standing_reconcile hkeyed now
  refine Bool.eq_false_iff.mpr fun hk => ?_
  obtain ⟨t, ht, rfl⟩ := hs.isScheduled_iff.mp hk
  have hx := hall t.zone
  rw [hy, hs.standing_of_mem ht] at hx
  exact Standing.reconciled_ne_waiting hremoved t hx.symm

/-- When a pass has acted on all zones, every live one owns a task. -/
theorem hasTask_reconcile (h : s.Consistent) (hkeyed : ∀ {k z}, l.get? k = some z → z.key = k)
    (hy : l.get? k = some y) (hlive : y.status ≠ .removed) :
    (l.all.foldl (Engine.reconcileTask now) s).hasTask k := by
  obtain ⟨hs, hall⟩ := h.standing_reconcile hkeyed now
  rw [← Bool.not_eq_false]
  intro hk
  have hx := hall k
  rw [hy, standing_of_free hk] at hx
  exact Standing.reconciled_ne_free hlive hx.symm

end Schedule.Consistent

end ZoneSigning
