import ZoneSigning.Proofs.SafeEvictions
import ZoneSigning.Proofs.ReconciledStandings
import ZoneSigning.Proofs.Successes

/-!
A pass does exactly what is due. After it, every zone has what its status in the reconciled list
calls for, and there is nothing left for another pass to do as long as the inventory stays as it is;
a pass that fails has done nothing.
-/
namespace ZoneSigning

namespace ZoneList

variable {l l' fresh : ZoneList} {k : ZoneKey} {z : Zone} {busy : Zone → Bool}

/-- A reconciled list has the zones of the list, reconciled, and the new ones. -/
theorem get?_merge (l : ZoneList) (hkeyed : ∀ {k z}, fresh.get? k = some z → z.key = k)
    (k : ZoneKey) : (l.merge fresh).get? k =
      ((l.get? k).map (fresh.keep k)).or ((fresh.get? k).map (·.withStatus .added)) := by
  have hadd := get?_addNew (l := { l with zones := l.zones.mapValues fresh.keep }) {} 0 hkeyed k
  rw [addNew, admitted_mapValues] at hadd
  refine hadd.trans (congrArg (Option.or · _) ?_)
  exact OrderedMap.get?_mapValues _ _ _

/-- A list is brought up to date only if the inventory has been modified since the last time. -/
theorem updateFrom_cases {files : FileStore} {path : Path} {update : ZoneListUpdate}
    (h : l.updateFrom files path = .ok (update, l')) :
    ∃ time, files.modified path = .ok time ∧ l'.modified.any (time ≤ ·) ∧
      (update = .unchanged ∧ l' = l ∨ update = .merged l'.counts ∧
        (∀ last, l.modified = some last → last < time) ∧
        ∃ entries, Inventory.read files path = .ok entries ∧
          l' = { l.merge (ofEntries l.made entries) with modified := some time }) := by
  simp only [updateFrom, bind_eq_ok, mapError_eq_ok] at h
  obtain ⟨time, htime, h⟩ := h
  refine ⟨time, htime, ?_⟩
  split at h
  · next hold =>
    cases pure_eq_ok.mp h
    exact ⟨hold, .inl ⟨rfl, rfl⟩⟩
  · next hlater =>
    simp only [bind_eq_ok, pure_eq_ok] at h
    obtain ⟨entries, hread, h⟩ := h
    cases h
    refine ⟨by simp, .inr ⟨rfl, fun last hlast => ?_, entries, hread, rfl⟩⟩
    rw [hlast, Option.any_some, decide_eq_true_eq] at hlater
    exact Nat.lt_of_not_le hlater

/-- A list that is up to date stays as it is. -/
theorem updateFrom_of_current {files : FileStore} {path : Path} {time : FileTime}
    (htime : files.modified path = .ok time) (hcurrent : l.modified.any (time ≤ ·)) :
    l.updateFrom files path = .ok (.unchanged, l) := by
  simp [updateFrom, htime, hcurrent, Except.mapError, bind, Except.bind, pure, Except.pure]

private theorem keyed_updateFrom {files : FileStore} {path : Path} {update : ZoneListUpdate}
    (hkeyed : ∀ {k z}, l.get? k = some z → z.key = k)
    (h : l.updateFrom files path = .ok (update, l')) (hz : l'.get? k = some z) : z.key = k := by
  obtain ⟨time, -, -, ⟨-, rfl⟩ | ⟨-, -, entries, -, rfl⟩⟩ := updateFrom_cases h
  · exact hkeyed hz
  · have hfresh := freshFrom_ofEntries l.made entries
    have hz' := (get?_merge l hfresh.keyed k).symm.trans hz
    rw [Option.or_eq_some_iff, Option.map_eq_some_iff, Option.map_eq_some_iff] at hz'
    rcases hz' with ⟨y, hy, rfl⟩ | ⟨-, y, hy, rfl⟩
    · exact ((ofEntries l.made entries).sameRecord_keep k y).1.trans (hkeyed hy)
    · have hkey : y.key = k := hfresh.keyed hy
      exact hkey

/-- What is listed after a pass: all but the evicted zones, settled. -/
theorem get?_drained (l : ZoneList) (busy : Zone → Bool) (k : ZoneKey) :
    (l.evict busy).2.takeCounts.2.settle.get? k =
      ((l.get? k).filter fun z => !isEvictable busy z).map
        fun z => z.withStatus z.status.settled := by
  refine (OrderedMap.get?_mapValues _ _ _).trans (congrArg _ ?_)
  exact OrderedMap.get?_filter _ _ _

private theorem removed_settle (l : ZoneList) : l.settle.removed.isEmpty = l.removed.isEmpty := by
  have hall : l.settle.all = l.all.map fun z => z.withStatus z.status.settled :=
    OrderedMap.values_mapValues _ _
  have hsame (z : Zone) :
      ((z.withStatus z.status.settled).status == .removed) = (z.status == .removed) := by
    rw [Bool.eq_iff_iff, beq_iff_eq, beq_iff_eq]
    exact z.status.settled_eq_removed_iff
  rw [removed, removed, hall, List.filter_map, List.isEmpty_map]
  congr 2
  funext z
  exact hsame z

end ZoneList

namespace Pool

variable {σ : Type} {p : Pool σ} {l : ZoneList} {now : Nat} {k : ZoneKey} {z : Zone}

def afterPass (p : Pool σ) (l : ZoneList) (now : Nat) : Pool σ :=
  let q := Engine.evictDrained { p with
    zones := l
    schedule := l.all.foldl (Engine.reconcileTask now) p.schedule }
  { q with zones := q.zones.takeCounts.2.settle }

/-- What a pass at the time `now` has done, where the schedule has been `s` before and the list has
been brought up to date to `l`. -/
structure PassDone (now : Nat) (s : Schedule) (l : ZoneList) (p : Pool σ) : Prop where
  /-- The pass has acted on all zones that are listed, and nothing is left to be counted. -/
  settled : ∀ {k z}, p.zones.get? k = some z → z.status = .ok ∨ z.status = .removed
  counts : p.zones.counts = {}
  /-- A zone that is listed and not removed owns exactly one task. -/
  owned : ∀ {k z}, p.zones.get? k = some z → z.status ≠ .removed → (p.tasksOf k).length = 1
  /-- A removed zone that is still listed is in flight, and not scheduled. -/
  draining : ∀ {k z}, p.zones.get? k = some z → z.status = .removed →
    p.schedule.isInFlight k ∧ p.schedule.isScheduled k = false
  /-- A removed zone that was not in flight is gone, together with its task. -/
  evicted : ∀ {k z}, l.get? k = some z → z.status = .removed → s.isInFlight k = false →
    p.zones.get? k = none ∧ p.schedule.hasTask k = false
  /-- All others stay, and are the same but for their status. -/
  stays : ∀ {k z}, l.get? k = some z → z.status ≠ .removed ∨ s.isInFlight k →
    p.zones.get? k = some (z.withStatus z.status.settled)
  /-- The task of an updated zone is to load the configuration now. -/
  updated : ∀ {k z}, l.get? k = some z → z.status = .updated →
    (∀ {t}, s.get? k = some t → p.schedule.get? k = some (t.reconfiguring now)) ∧
    (∀ {asked}, s.inFlight.get? k = some asked → p.schedule.inFlight.get? k =
      some { asked with interrupt := some .configure, interruptDue := now }) ∧
    (s.hasTask k = false → p.schedule.get? k = some (z.configuring now))
  /-- Any other zone keeps its task as it is, or gets one. -/
  kept : ∀ {k z}, l.get? k = some z → z.status = .added ∨ z.status = .ok →
    (s.hasTask k → p.schedule.get? k = s.get? k ∧
      p.schedule.inFlight.get? k = s.inFlight.get? k) ∧
    (s.hasTask k = false → p.schedule.get? k = some (z.configuring now))
  /-- What is not listed is left alone. -/
  unlisted : ∀ {k}, l.get? k = none → p.zones.get? k = none ∧
    p.schedule.get? k = s.get? k ∧ p.schedule.inFlight.get? k = s.inFlight.get? k
  /-- Workers are to tell about drained zones exactly if there is one to wait for. -/
  reloading : p.reloading = !p.zones.removed.isEmpty

private theorem get?_afterPass_none (hnone : l.get? k = none) : (p.afterPass l now).zones.get? k = none := by
  have hdrained := l.get?_drained
    (fun z => (l.all.foldl (Engine.reconcileTask now) p.schedule).hasTask z.key) k
  rw [hnone] at hdrained
  exact hdrained

section AfterPass

variable (hown : p.Owned) (hkeyed : ∀ {k z}, l.get? k = some z → z.key = k)
include hown hkeyed

/-- Only removed zones without a task are not listed any more. -/
theorem get?_afterPass (hz : l.get? k = some z) : (p.afterPass l now).zones.get? k =
    if z.status = .removed ∧ p.schedule.isInFlight k = false then none
    else some (z.withStatus z.status.settled) := by
  have hdrained := l.get?_drained
    (fun z => (l.all.foldl (Engine.reconcileTask now) p.schedule).hasTask z.key) k
  refine hdrained.trans ?_
  rw [hz, Option.filter_some, ZoneList.isEvictable, hkeyed hz]
  by_cases hremoved : z.status = .removed
  · rw [Schedule.hasTask, hown.consistent.isScheduled_reconcile hkeyed hz hremoved,
      hown.consistent.isInFlight_reconcile hkeyed]
    cases p.schedule.isInFlight k <;> simp [hremoved]
  · simp [hremoved]

private theorem owned_afterPass (now : Nat) : (p.afterPass l now).Owned :=
  hown.of_eq (hown.consistent.standing_reconcile hkeyed now).1
    (hown.consistent.isInFlight_reconcile hkeyed now) (fun _ => rfl) hown.resting

/-- The schedule has for each zone what its status calls for. -/
theorem standing_afterPass (now : Nat) (k : ZoneKey) : (p.afterPass l now).schedule.standing k =
    (l.get? k).elim (p.schedule.standing k) fun z => (p.schedule.standing k).reconciled now z :=
  (hown.consistent.standing_reconcile hkeyed now).2 k

private theorem listed_afterPass {z' : Zone} (hz' : (p.afterPass l now).zones.get? k = some z') :
    ∃ z, l.get? k = some z ∧ (z.status = .removed → p.schedule.isInFlight k) ∧
      z' = z.withStatus z.status.settled := by
  cases hz : l.get? k with
  | none =>
    rw [get?_afterPass_none hz] at hz'
    cases hz'
  | some z =>
    rw [get?_afterPass hown hkeyed hz] at hz'
    split at hz'
    · cases hz'
    · next hstays =>
      refine ⟨z, rfl, fun hremoved => ?_, (Option.some.inj hz').symm⟩
      rw [← Bool.not_eq_false]
      exact fun hidle => hstays ⟨hremoved, hidle⟩

private theorem given_afterPass (hz : l.get? k = some z) (hlive : z.status ≠ .removed)
    (hfree : p.schedule.hasTask k = false) :
    (p.afterPass l now).schedule.get? k = some (z.configuring now) := by
  have hx := standing_afterPass hown hkeyed now k
  rw [hz, Option.elim_some, Schedule.standing_of_free hfree, Standing.reconciled_free hlive] at hx
  exact (owned_afterPass hown hkeyed now).consistent.get?_of_standing hx

private theorem updated_afterPass (hz : l.get? k = some z) (hupdated : z.status = .updated) :
    (∀ {t}, p.schedule.get? k = some t →
      (p.afterPass l now).schedule.get? k = some (t.reconfiguring now)) ∧
    (∀ {asked}, p.schedule.inFlight.get? k = some asked →
      (p.afterPass l now).schedule.inFlight.get? k =
        some { asked with interrupt := some .configure, interruptDue := now }) ∧
    (p.schedule.hasTask k = false →
      (p.afterPass l now).schedule.get? k = some (z.configuring now)) := by
  have hs := (owned_afterPass hown hkeyed now).consistent
  have hx := standing_afterPass hown hkeyed now k
  rw [hz, Option.elim_some] at hx
  refine ⟨fun {t} ht => ?_, fun {asked} hasked => ?_,
    given_afterPass hown hkeyed hz (by simp [hupdated])⟩
  · obtain ⟨hmem, rfl⟩ := hown.consistent.get?_eq_some_iff.mp ht
    rw [hown.consistent.standing_of_mem hmem] at hx
    simp only [Standing.reconciled, hupdated] at hx
    exact hs.get?_of_standing hx
  · have hflight : p.schedule.isInFlight k := OrderedMap.contains_iff.mpr ⟨asked, hasked⟩
    have hwait : p.schedule.isScheduled k = false :=
      Bool.eq_false_iff.mpr fun hk => hown.consistent.apart hk hflight
    rw [Schedule.standing_of_taken hwait hasked] at hx
    simp only [Standing.reconciled, hupdated] at hx
    exact (hs.inFlight_of_standing hx).2

private theorem kept_afterPass (hz : l.get? k = some z)
    (hkept : z.status = .added ∨ z.status = .ok) :
    (p.schedule.hasTask k → (p.afterPass l now).schedule.get? k = p.schedule.get? k ∧
      (p.afterPass l now).schedule.inFlight.get? k = p.schedule.inFlight.get? k) ∧
    (p.schedule.hasTask k = false →
      (p.afterPass l now).schedule.get? k = some (z.configuring now)) := by
  have hs := (owned_afterPass hown hkeyed now).consistent
  have hx := standing_afterPass hown hkeyed now k
  rw [hz, Option.elim_some] at hx
  have hlive : z.status ≠ .removed := by rcases hkept with h | h <;> simp [h]
  refine ⟨fun hk => ?_, given_afterPass hown hkeyed hz hlive⟩
  refine hown.consistent.get?_congr hs (hx.trans (Standing.reconciled_of_kept hkept ?_))
  intro hfree
  rw [hown.consistent.hasTask_of_standing hfree] at hk
  cases hk

private theorem keyed_afterPass {z' : Zone} (hz' : (p.afterPass l now).zones.get? k = some z') :
    z'.key = k := by
  obtain ⟨z, hz, -, rfl⟩ := listed_afterPass hown hkeyed hz'
  have hkey : z.key = k := hkeyed hz
  exact hkey

private theorem passDone_afterPass (now : Nat) : PassDone now p.schedule l (p.afterPass l now) where
  settled := by
    intro k z' hz'
    obtain ⟨z, -, -, rfl⟩ := listed_afterPass hown hkeyed hz'
    exact z.status.settled_cases
  counts := rfl
  owned := by
    intro k z' hz' hlive
    obtain ⟨z, hz, -, rfl⟩ := listed_afterPass hown hkeyed hz'
    refine length_tasksOf (owned_afterPass hown hkeyed now) ?_
    refine hown.consistent.hasTask_reconcile hkeyed hz fun hremoved => hlive ?_
    exact z.status.settled_eq_removed_iff.mpr hremoved
  draining := by
    intro k z' hz' hremoved
    obtain ⟨z, hz, hflight, rfl⟩ := listed_afterPass hown hkeyed hz'
    have hremoved := z.status.settled_eq_removed_iff.mp hremoved
    exact ⟨(hown.consistent.isInFlight_reconcile hkeyed now k).trans (hflight hremoved),
      hown.consistent.isScheduled_reconcile hkeyed hz hremoved⟩
  evicted := by
    intro k z hz hremoved hidle
    refine ⟨(get?_afterPass hown hkeyed hz).trans (if_pos ⟨hremoved, hidle⟩), ?_⟩
    exact Bool.or_eq_false_iff.mpr ⟨hown.consistent.isScheduled_reconcile hkeyed hz hremoved,
      (hown.consistent.isInFlight_reconcile hkeyed now k).trans hidle⟩
  stays := by
    intro k z hz hstays
    refine (get?_afterPass hown hkeyed hz).trans (if_neg ?_)
    rintro ⟨hremoved, hidle⟩
    rcases hstays with hlive | hflight
    · exact hlive hremoved
    · rw [hidle] at hflight
      cases hflight
  updated := updated_afterPass hown hkeyed
  kept := kept_afterPass hown hkeyed
  unlisted := by
    intro k hnone
    have hx := standing_afterPass hown hkeyed now k
    rw [hnone, Option.elim_none] at hx
    have hs := (owned_afterPass hown hkeyed now).consistent
    exact ⟨get?_afterPass_none hnone, hown.consistent.get?_congr hs hx⟩
  reloading := congrArg (!·) (ZoneList.removed_settle _).symm

end AfterPass

private theorem reconcileTask_eq_self {s : Schedule} (later : Nat)
    (h : z.status = .ok ∧ s.hasTask z.key ∨ z.status = .removed ∧ s.isScheduled z.key = false) :
    Engine.reconcileTask later s z = s := by
  rcases h with ⟨hz, hk⟩ | ⟨hz, hk⟩
  · simp only [Engine.reconcileTask, hz, if_pos hk]
  · simp only [Engine.reconcileTask, hz, Schedule.unscheduleZone_of_not_isScheduled hk]

private theorem foldl_reconcileTask {s : Schedule} (later : Nat) {zs : List Zone}
    (h : ∀ z ∈ zs, Engine.reconcileTask later s z = s) :
    zs.foldl (Engine.reconcileTask later) s = s := by
  induction zs with
  | nil => rfl
  | cons z zs ih =>
    obtain ⟨hz, hzs⟩ := List.forall_mem_cons.mp h
    rw [List.foldl_cons, hz, ih hzs]

private theorem settle_eq_self (hcounts : l.counts = {})
    (hsettled : ∀ {k z}, l.get? k = some z → z.status = .ok ∨ z.status = .removed) :
    l.takeCounts.2.settle = l := by
  have hzones : (l.zones.mapValues fun _ z => z.withStatus z.status.settled) = l.zones := by
    refine OrderedMap.mapValues_eq_self fun {k z} hz => ?_
    have hstatus : z.status.settled = z.status := by
      rcases hsettled hz with hstatus | hstatus <;> rw [hstatus] <;> rfl
    rw [hstatus]
    rfl
  have hl : l = { l with counts := {} } := by rw [← hcounts]
  simp only [ZoneList.takeCounts, ZoneList.settle, hzones, ← hl]

/-- There is nothing left to do for another pass over the same list, whenever it comes. -/
theorem PassDone.afterPass_eq_self {s : Schedule} (h : PassDone now s l p) (hown : p.Owned)
    (hkeyed : ∀ {k z}, p.zones.get? k = some z → z.key = k) (later : Nat) :
    p.afterPass p.zones later = p := by
  have htask {k : ZoneKey} {z : Zone} (hz : p.zones.get? k = some z) (hlive : z.status ≠ .removed) :
      p.schedule.hasTask k := by
    obtain ⟨t, ht⟩ := List.length_eq_one_iff.mp (h.owned hz hlive)
    exact hown.hasTask_iff.mpr ⟨t, mem_tasksOf.mp (ht ▸ List.mem_singleton_self t)⟩
  have hfold : p.zones.all.foldl (Engine.reconcileTask later) p.schedule = p.schedule := by
    refine foldl_reconcileTask later fun z hz => reconcileTask_eq_self later ?_
    obtain ⟨k, hz⟩ := OrderedMap.mem_values.mp hz
    rw [hkeyed hz]
    rcases h.settled hz with hok | hremoved
    · exact .inl ⟨hok, htask hz (by simp [hok])⟩
    · exact .inr ⟨hremoved, (h.draining hz hremoved).2⟩
  have hbusy {k : ZoneKey} {z : Zone} (hz : p.zones.get? k = some z) :
      ZoneList.isEvictable (fun z => p.schedule.hasTask z.key) z = false := by
    rw [ZoneList.isEvictable, hkeyed hz]
    rcases h.settled hz with hok | hremoved
    · simp [hok]
    · simp [Schedule.hasTask, (h.draining hz hremoved).1]
  have hevict : p.zones.evict (fun z => p.schedule.hasTask z.key) = ([], p.zones) := by
    have hleave : p.zones.all.filter
        (ZoneList.isEvictable fun z => p.schedule.hasTask z.key) = [] := by
      refine List.filter_eq_nil_iff.mpr fun z hz => ?_
      obtain ⟨k, hz⟩ := OrderedMap.mem_values.mp hz
      simp [hbusy hz]
    have hstay : (p.zones.zones.filter fun _ z =>
        !ZoneList.isEvictable (fun z => p.schedule.hasTask z.key) z) = p.zones.zones :=
      OrderedMap.filter_eq_self fun hz => by rw [hbusy hz]; rfl
    simp only [ZoneList.evict, hleave, hstay]
  simp only [afterPass, Engine.evictDrained, hfold, hevict, List.append_nil, ← h.reloading,
    settle_eq_self h.counts h.settled]

end Pool

/-- Whether a pass may still have to settle the zone with this key. -/
def Errand.Unsettled : Errand → ZoneKey → Prop
  | merging .., _ | acting .., _ | judged .., _ | lacking .., _ => True
  | evicting inPass _ _, _ | leaving inPass _ _ _, _ => inPass
  | settling left, k => k ∈ left
  | none, _ | reading .., _ | serving .., _ | admitting .., _ | flushing .., _ => False

namespace Moment

variable {σ : Type} {c : Collaborators σ} {m m' : Moment σ} {move : Move σ} {k : ZoneKey}

/-- Between passes, the engine has acted on the status of every listed zone. -/
def Settled (m : Moment σ) : Prop :=
  ∀ k z, m.pool.zones.get? k = some z →
    (z.status = .ok ∨ z.status = .removed) ∨ m.errand.Unsettled k

/-- A worker changes no status, and lists no zone. -/
theorem settled_worker (h : m.Settled) (hrec : m.Recorded) (hc : c.KeepsStatus) {w : Nat}
    {p' : Pool σ} (hp : m.pool.stepWorker c w = some p') : (m.withPool p').Settled := by
  obtain ⟨x, hx, hsection⟩ := Pool.workerSection_of_step hp
  intro k z' hz'
  rcases (hsection.follows hrec.pool hx).listed hz' with ⟨z, hz, -, hworks⟩ | ⟨-, -, hle, hlt, -⟩
  · rw [hworks.status_eq hc]
    exact h k z hz
  · rw [hsection.made hx] at hlt
    exact absurd hlt (Nat.not_lt.mpr hle)

variable [HasFiles σ]

private theorem settled_proceed (h : m.Settled) (hstep : m.proceed = some m') : m'.Settled := by
  have hsame (hzones : m'.pool.zones = m.pool.zones)
      (hstill : ∀ k, m.errand.Unsettled k → m'.errand.Unsettled k) : m'.Settled := by
    intro k z hz
    rw [hzones] at hz
    exact (h k z hz).imp_right (hstill k)
  have hbusy (hall : ∀ k, m'.errand.Unsettled k) : m'.Settled := fun k _ _ => .inr (hall k)
  cases proceeded_of_proceed hstep with
  | keep | addNew | look | miss | drop | ask | askInVain | content | lack | give =>
    exact hbusy fun _ => trivial
  | actedOn => exact hbusy fun _ => rfl
  | skip he | suspect he | spare he | doom he =>
    exact hsame rfl fun _ hk => by rwa [he] at hk
  | evict he =>
    intro k z hz
    have hz := (OrderedMap.get?_filter _ _ k).symm.trans hz
    have hstatus := h k z (Option.filter_eq_some_iff.mp hz).1
    rw [he] at hstatus
    exact .inl (hstatus.resolve_right nofun)
  | evictInPass => exact fun k z hz => .inr (OrderedMap.mem_keys.mpr ⟨z, hz⟩)
  | settle he =>
    intro k z' hz'
    have hz' := (ZoneList.get?_alter _ _ _ _).symm.trans hz'
    obtain ⟨z, hz, rfl⟩ := Option.map_eq_some_iff.mp hz'
    split
    · exact .inl z.status.settled_cases
    · next hne =>
      have hstatus := h k z hz
      rw [he] at hstatus
      exact hstatus.imp_right fun hk => List.mem_of_ne_of_mem hne hk
  | _ he =>
    -- Of what is left, only the last section of a settlement had something to settle.
    refine hsame rfl fun k hk => ?_
    rw [he] at hk
    cases hk

private theorem settled_of_reachable (hc : c.KeepsStatus) (h : Reachable c m) : m.Settled := by
  induction h with
  | initial h =>
    obtain ⟨_, _, _, _, _, _, _, hpool⟩ := h.pool_eq
    intro k z hz
    rw [hpool] at hz
    cases hz
  | step hreach hmove hstep ih =>
    rcases errand_cases hmove hstep with
      ⟨w, p', -, hp, rfl⟩ | ⟨-, hproceed⟩ | ⟨he, -, hzones, -⟩ | ⟨he, hzones, -⟩
    · exact settled_worker ih (recorded_of_reachable hreach) hc hp
    · exact settled_proceed ih hproceed
    · intro k z hz
      rw [hzones] at hz
      have hstatus := ih k z hz
      rw [he] at hstatus
      exact .inl (hstatus.resolve_right not_false)
    · intro k z hz
      rw [hzones] at hz
      rw [he]
      exact ih k z hz

end Moment

namespace Engine

variable {σ : Type} [HasFiles σ] {e : Engine σ}

/-- A pass that can read the inventory, or does not have to, acts on all zones and evicts what it
can. -/
theorem pass_of_ok (now : Nat) {update : ZoneListUpdate} {l : ZoneList}
    (h : e.pool.zones.updateFrom (HasFiles.files e.pool.around) e.config.zonelist =
      .ok (update, l)) : e.pass now = (.ok update, { e with pool := e.pool.afterPass l now }) := by
  simp only [pass, h]
  rfl

/-- A pass that cannot read the inventory changes nothing. -/
theorem pass_of_error (now : Nat) {err : ZoneListError}
    (h : e.pool.zones.updateFrom (HasFiles.files e.pool.around) e.config.zonelist = .error err) :
    e.pass now = (.error err, e) := by
  simp only [pass, h]

end Engine

namespace Moment

variable {σ : Type} [HasFiles σ] {c : Collaborators σ} {m : Moment σ}

/-- A pass that nobody interrupts does exactly what is due. It brings the list up to date, and then
every zone gets what its status in that list calls for; another pass over the same inventory changes
nothing. If the inventory cannot be read, the pass changes nothing at all. And as far as adapters
leave the status of a zone alone, the engine has acted on every status before, so that a zone is
only marked as added or updated if this very pass has found it so. -/
theorem pass_does_what_is_due (h : Reachable c m) (hidle : m.errand = .none) (now : Nat) :
    (∀ {update}, (m.engine.pass now).1 = .ok update → ∃ l,
      m.pool.zones.updateFrom (HasFiles.files m.pool.around) m.engine.config.zonelist =
        .ok (update, l) ∧
      (m.engine.pass now).2.pool.PassDone now m.pool.schedule l ∧
      ∀ later, (m.engine.pass now).2.pass later = (.ok .unchanged, (m.engine.pass now).2)) ∧
    (∀ {e}, (m.engine.pass now).1 = .error e → (m.engine.pass now).2 = m.engine) ∧
    (c.KeepsStatus → ∀ {k z}, m.pool.zones.get? k = some z →
      z.status = .ok ∨ z.status = .removed) := by
  have hown := owned_of_reachable h
  have hrec := recorded_of_reachable h
  have hsettled : c.KeepsStatus → ∀ {k z}, m.pool.zones.get? k = some z →
      z.status = .ok ∨ z.status = .removed := by
    intro hc k z hz
    have hstatus := settled_of_reachable hc h k z hz
    rw [hidle] at hstatus
    exact hstatus.resolve_right not_false
  cases hupdate : m.pool.zones.updateFrom (HasFiles.files m.pool.around)
      m.engine.config.zonelist with
  | error err =>
    rw [Engine.pass_of_error now hupdate]
    refine ⟨fun {update} hok => ?_, fun _ => rfl, fun hc => hsettled hc⟩
    cases hok
  | ok result =>
    obtain ⟨update, l⟩ := result
    have hkeyed {k : ZoneKey} {z : Zone} (hz : l.get? k = some z) : z.key = k :=
      ZoneList.keyed_updateFrom hrec.pool.keyed hupdate hz
    have hdone := Pool.passDone_afterPass hown hkeyed now
    rw [Engine.pass_of_ok now hupdate]
    refine ⟨fun {found} hok => ?_, fun {err} herror => ?_, fun hc => hsettled hc⟩
    case refine_2 => cases herror
    cases hok
    refine ⟨l, rfl, hdone, fun later => ?_⟩
    obtain ⟨time, htime, hcurrent, -⟩ := ZoneList.updateFrom_cases hupdate
    have hagain := ZoneList.updateFrom_of_current
      (l := (m.pool.afterPass l now).zones) htime hcurrent
    refine (Engine.pass_of_ok later hagain).trans ?_
    have hsame := hdone.afterPass_eq_self (Pool.owned_afterPass hown hkeyed now)
      (Pool.keyed_afterPass hown hkeyed) later
    exact congrArg (fun p : Pool σ =>
      (Except.ok ZoneListUpdate.unchanged, ({ m.engine with pool := p } : Engine σ))) hsame

def twoZoneFiles : FileStore :=
  { oneZoneFiles with
    nodes := oneZoneFiles.nodes.insert ["z"] (.file (.text (
      "[\x7b\"name\":\"a\",\"signconf\":\"d\",\"input\":\x7b\"uri\":\"i\"\x7d," ++
        "\"output\":\x7b\"uri\":\"o\"\x7d\x7d," ++
      "\x7b\"name\":\"b\",\"signconf\":\"d\",\"input\":\x7b\"uri\":\"i\"\x7d," ++
        "\"output\":\x7b\"uri\":\"o\"\x7d\x7d]")) 3)
    clock := 4 }

/-- While the worker holds the task of the only zone, the inventory changes. A pass then adds one zone
and updates the other, and a second pass changes nothing. -/
theorem pass_does_what_is_due_twoZones :
    ∃ m l, oneZone.follow fileCollaborators
        (firstPass ++ [.worker 0, .happen { files := twoZoneFiles }]) = some m ∧
      (m.engine.pass 9).1.toOption = some (.merged { added := 1, updated := 1 }) ∧
      m.pool.schedule.isInFlight (.of "a" .internet) ∧
      (m.engine.pass 9).2.pool.PassDone 9 m.pool.schedule l ∧
      (m.engine.pass 9).2.pass 9 = (.ok .unchanged, (m.engine.pass 9).2) := by
  have hrun : (oneZone.follow fileCollaborators
      (firstPass ++ [.worker 0, .happen { files := twoZoneFiles }])).any fun m =>
        (m.seize id).isSome ∧
        (m.engine.pass 9).1.toOption = some (.merged { added := 1, updated := 1 }) ∧
        m.pool.schedule.isInFlight (.of "a" .internet) := by decide +kernel
  obtain ⟨m, hm, hrun⟩ := (Option.any_eq_true _ _).mp hrun
  obtain ⟨hseize, hupdate, hflight⟩ := of_decide_eq_true hrun
  obtain ⟨m', hseize⟩ := Option.isSome_iff_exists.mp hseize
  have hidle := (seize_eq_some hseize).1
  have hreach : Reachable fileCollaborators m :=
    (Reachable.initial oneZone_initial).follow (by decide) hm
  have hok : (m.engine.pass 9).1 = .ok (.merged { added := 1, updated := 1 }) := by
    cases hanswer : (m.engine.pass 9).1 with
    | error e =>
      rw [hanswer] at hupdate
      cases hupdate
    | ok update =>
      rw [hanswer] at hupdate
      exact congrArg Except.ok (Option.some.inj hupdate)
  obtain ⟨l, -, hdone, hagain⟩ := (pass_does_what_is_due hreach hidle 9).1 hok
  exact ⟨m, l, hm, hupdate, hflight, hdone, hagain 9⟩

end Moment

end ZoneSigning
