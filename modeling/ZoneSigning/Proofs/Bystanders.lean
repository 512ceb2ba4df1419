import ZoneSigning.Proofs.ScheduleRuns
import ZoneSigning.Proofs.TaskTransitions
import ZoneSigning.Proofs.ThreadSections
import ZoneSigning.Proofs.ZoneRecords

/-!
What everyone but the workers does to the pool: passes, evictions, requests, drudgers and the world
around. They may add, remove and change waiting tasks, but they take none and hand none back; they
leave the workers at what they are doing, and of a zone they only change what the inventory says.
-/
namespace ZoneSigning

namespace Schedule

/-- The operations of those who neither take tasks nor hand them back, and have `view` in view. A
task that they add is made for that zone, and one that they remove is the task of that zone, which
has been removed. -/
inductive Op.Mild (view : Option Zone) : Op → Prop
  | schedule {z : Zone} {t : Task} (hview : view = some z) (hzone : t.zone = z.key)
      (hrecord : t.record = z.record) (hwhat : t.what = .configure ∨ t.what = .read)
      (hinterrupt : t.interrupt = none) (hhalted : t.halted = none) : Mild view (.schedule t)
  | unscheduleZone {z : Zone} (hview : view = some z) (hremoved : z.status = .removed) :
      Mild view (.unscheduleZone z.key)
  | reschedule (z : ZoneKey) {what : TaskKind} (due : Nat)
      (hwhat : what = .configure ∨ what = .read) : Mild view (.reschedule z what due)
  | flushZone (z : ZoneKey) : Mild view (.flushZone z)
  | flushAll : Mild view .flushAll

namespace Op.Mild

variable {s : Schedule} {op : Op} {view : Option Zone}

private theorem isInFlight_unscheduleZone (h : s.Consistent) (y z : ZoneKey) :
    (s.unscheduleZone y).2.isInFlight z = s.isInFlight z := by
  obtain hy | ⟨t, ht, rfl⟩ := h.scheduled_cases y
  · rw [unscheduleZone_of_not_isScheduled hy]
  · rw [h.unscheduleZone_eq ht]
    rfl

/-- Mild operations leave it as it is which tasks are taken. -/
theorem isInFlight_apply (hop : op.Mild view) (h : s.Consistent) (z : ZoneKey) :
    (op.apply s).isInFlight z = s.isInFlight z := by
  cases hop with
  | schedule => exact h.isInFlight_schedule _ z
  | unscheduleZone => exact isInFlight_unscheduleZone h _ z
  | reschedule y due => exact (h.samePlaces_reschedule y _ due).isInFlight z
  | flushZone y => exact (h.samePlaces_flushZone y).isInFlight z
  | flushAll => rfl

private theorem stems_ask (h : s.Consistent) {f : Task → Task} {note : Pending → Pending}
    (hf : ∀ t, (f t).SameOrigin t) {y : ZoneKey} {u : Task}
    (hu : u ∈ (s.ask y f note).2.waiting) : ∃ t ∈ s.waiting, u.SameOrigin t := by
  have hzone (t : Task) : (f t).zone = t.zone := (hf t).1
  rcases h.ask_cases hzone note y with ⟨t, ht, rfl, he⟩ | ⟨p, -, -, he⟩ | ⟨-, he⟩ <;> rw [he] at hu
  · rcases (h.mem_replace ht (hzone { t with flush := false })).mp hu with rfl | ⟨hu, -⟩
    · exact ⟨t, ht, hf { t with flush := false }⟩
    · exact ⟨u, hu, rfl, rfl⟩
  · exact ⟨u, hu, rfl, rfl⟩
  · exact ⟨u, hu, rfl, rfl⟩

private theorem hasTask_unscheduleZone (h : s.Consistent) {y z : ZoneKey} (hz : s.hasTask z) :
    (s.unscheduleZone y).2.hasTask z ∨ y = z := by
  obtain hy | ⟨t, ht, rfl⟩ := h.scheduled_cases y
  · rw [unscheduleZone_of_not_isScheduled hy]
    exact .inl hz
  · by_cases hne : z = t.zone
    · exact .inr hne.symm
    · rw [h.unscheduleZone_eq ht]
      left
      simpa [hasTask, isScheduled_without, hne] using hz

/-- A zone loses its task only if it is in view and has been removed. -/
theorem hasTask_apply (hop : op.Mild view) (h : s.Consistent) {z : ZoneKey} (hz : s.hasTask z) :
    (op.apply s).hasTask z ∨ ∃ y, view = some y ∧ y.key = z ∧ y.status = .removed := by
  cases hop with
  | @schedule _ t =>
    rw [Op.apply, h.hasTask_schedule t z, hz, Bool.or_true]
    exact .inl rfl
  | unscheduleZone hview hremoved =>
    exact (hasTask_unscheduleZone h hz).imp_right fun hkey => ⟨_, hview, hkey, hremoved⟩
  | reschedule y due => exact .inl (((h.samePlaces_reschedule y _ due).hasTask z).trans hz)
  | flushZone y => exact .inl (((h.samePlaces_flushZone y).hasTask z).trans hz)
  | flushAll => exact .inl hz

/-- A task that waits afterwards is one that has waited before, or it is made for the zone in view. -/
theorem stems (hop : op.Mild view) (h : s.Consistent) {u : Task} (hu : u ∈ (op.apply s).waiting) :
    (∃ t ∈ s.waiting, u.SameOrigin t) ∨
      ∃ z, view = some z ∧ u.zone = z.key ∧ u.record = z.record := by
  cases hop with
  | @schedule z t hview hzone hrecord =>
    simp only [Op.apply, h.schedule_eq] at hu
    split at hu
    · exact .inl ⟨u, hu, rfl, rfl⟩
    · next hfree =>
      have hs := (Bool.or_eq_false_iff.mp (Bool.eq_false_iff.mpr hfree)).1
      rcases (h.mem_added hs).mp hu with rfl | hu
      · exact .inr ⟨z, hview, hzone, hrecord⟩
      · exact .inl ⟨u, hu, rfl, rfl⟩
  | @unscheduleZone z =>
    refine .inl ⟨u, ?_, rfl, rfl⟩
    obtain hz | ⟨t, ht, hkey⟩ := h.scheduled_cases z.key
    · rwa [Op.apply, unscheduleZone_of_not_isScheduled hz] at hu
    · rw [Op.apply, ← hkey, h.unscheduleZone_eq ht] at hu
      exact ((h.mem_without ht).mp hu).1
  | reschedule y due => exact .inl (stems_ask h (fun t => t.sameOrigin_retarget _ due) hu)
  | flushZone y =>
    exact .inl (stems_ask (f := ({ · with flush := true })) h (fun _ => ⟨rfl, rfl⟩) hu)
  | flushAll =>
    rw [Op.apply, Consistent.waiting_flushAll, List.mem_map] at hu
    obtain ⟨t, ht, rfl⟩ := hu
    exact .inl ⟨t, ht, rfl, rfl⟩

/-- A zone gets a task only if it is in view. -/
theorem isScheduled_of_apply (hop : op.Mild view) (h : s.Consistent) {z : ZoneKey}
    (hz : (op.apply s).isScheduled z) : s.isScheduled z ∨ ∃ y, view = some y ∧ y.key = z := by
  obtain ⟨u, hu, rfl⟩ := (h.apply op).isScheduled_iff.mp hz
  rcases hop.stems h hu with ⟨t, ht, hsame⟩ | ⟨y, hview, hkey, -⟩
  · exact .inl (h.isScheduled_iff.mpr ⟨t, ht, hsame.1.symm⟩)
  · exact .inr ⟨y, hview, hkey.symm⟩

end Op.Mild

end Schedule

/-- To be settled does not bring a removed zone back, and removes no other one. -/
theorem ZoneStatus.settled_eq_removed_iff (s : ZoneStatus) : s.settled = .removed ↔ s = .removed := by
  cases s <;> decide

/-- A settled zone is in order or removed. -/
theorem ZoneStatus.settled_cases (s : ZoneStatus) : s.settled = .ok ∨ s.settled = .removed := by
  cases s <;> decide

def Errand.zone? : Errand → Option Zone
  | judged _ z _ | lacking _ z _ | serving _ _ z | admitting _ z | flushing z => some z
  | none | reading .. | merging .. | acting .. | evicting .. | leaving .. | settling .. => .none

def Errand.fresh? : Errand → Option ZoneList
  | merging _ _ fresh _ _ => some fresh
  | none | reading .. | acting .. | judged .. | lacking .. | evicting .. | leaving .. | settling ..
  | serving .. | admitting .. | flushing .. => .none

def Errand.doomed : Errand → List ZoneKey
  | evicting _ doomed _ | leaving _ _ doomed _ => doomed
  | none | reading .. | merging .. | acting .. | judged .. | lacking .. | settling .. | serving ..
  | admitting .. | flushing .. => []

/-- Whoever evicts zones has none in view. -/
theorem Errand.zone?_of_mem_doomed {e : Errand} {k : ZoneKey} (h : k ∈ e.doomed) :
    e.zone? = .none := by
  cases e <;> first | rfl | cases h

/-- Whoever merges has no zone in view. -/
theorem Errand.fresh?_of_zone? {e : Errand} {z : Zone} (h : e.zone? = some z) :
    e.fresh? = .none := by
  cases e <;> first | rfl | cases h

/-- What somebody who takes the list is going to do first. -/
inductive Errand.Begins : Errand → Prop
  | nothing : Begins .none
  | reading (now : Nat) (time : FileTime) : Begins (.reading now time)
  | acting (now : Nat) (left : List ZoneKey) : Begins (.acting now left)
  | evicting (left : List ZoneKey) : Begins (.evicting false [] left)
  | serving (what : ZoneRequest) (now : Nat) {z : Zone} (hlive : z.status ≠ .removed) :
      Begins (.serving what now z)

namespace Moment

variable {σ : Type} {c : Collaborators σ} {m m' : Moment σ}

section Frame

variable (m)

@[simp] theorem engine_turn (e : Errand) : (m.turn e).engine = m.engine := rfl

@[simp] theorem pool_turn (e : Errand) : (m.turn e).pool = m.pool := rfl

@[simp] theorem pool_withPool (p : Pool σ) : (m.withPool p).pool = p := rfl

@[simp] theorem errand_turn (e : Errand) : (m.turn e).errand = e := rfl

/-- That a pass begins does not touch the rest of the engine. -/
theorem engine_beginPass [HasFiles σ] (now : Nat) : (m.beginPass now).engine = m.engine := by
  rcases m.beginPass_cases now with he | ⟨_, he⟩ | he <;> rw [he] <;> rfl

/-- That a pass begins does not touch the pool. -/
theorem pool_beginPass [HasFiles σ] (now : Nat) : (m.beginPass now).pool = m.pool :=
  congrArg Engine.pool (m.engine_beginPass now)

/-- To take up a signal does not touch the pool. -/
theorem pool_heed [HasFiles σ] (s : Signal) : (m.heed s).pool = m.pool := by
  cases s with
  | reload =>
    rw [heed, pool_beginPass]
    rfl
  | workerIdle => rfl
  | shutdown => rfl

/-- That a request comes in does not touch the rest of the engine. -/
theorem engine_receive (what : ZoneRequest) (name : String) :
    (m.receive what name).engine = m.engine := by
  rcases m.receive_cases what name with he | ⟨_, -, -, he⟩ <;> rw [he]
  rfl

/-- That a request comes in does not touch the pool. -/
theorem pool_receive (what : ZoneRequest) (name : String) :
    (m.receive what name).pool = m.pool :=
  congrArg Engine.pool (m.engine_receive what name)

/-- The holder of the list only touches the zones and the schedule, and only a merge makes records. -/
theorem pool_proceed [HasFiles σ] {m : Moment σ} (hstep : m.proceed = some m') :
    (∃ schedule zones retired reloading, m'.pool = { m.pool with
      schedule := schedule, zones := zones, retired := retired, reloading := reloading }) ∧
    (m.errand.fresh? = .none → m'.pool.zones.made = m.pool.zones.made) := by
  cases proceeded_of_proceed hstep with
  | keep he | addNew he =>
    refine ⟨⟨_, _, _, _, rfl⟩, fun hfresh => ?_⟩
    rw [he] at hfresh
    cases hfresh
  | _ => exact ⟨⟨_, _, _, _, rfl⟩, fun _ => rfl⟩

/-- The holder of the list only changes the pool of the engine. -/
theorem engine_proceed [HasFiles σ] {m : Moment σ} (hstep : m.proceed = some m') :
    m'.engine = { m.engine with pool := m'.pool } := by
  cases proceeded_of_proceed hstep <;> rfl

end Frame

/-- Every record has one present state, and a list that is to be merged has new records. -/
structure Recorded (m : Moment σ) : Prop where
  pool : m.pool.Recorded
  fresh : ∀ {fresh}, m.errand.fresh? = some fresh → fresh.FreshFrom m.pool.zones.made

/-- What the holder of the list does to a zone. All but a merge only settle its status. -/
def Keeps (m : Moment σ) (z z' : Zone) : Prop :=
  z'.state.config = z.state.config ∧ z'.state.db = z.state.db ∧
    (m.errand.fresh? = .none → z'.status = z.status ∨ z'.status = z.status.settled)

/-- What the holder of the list goes on with: a list to be merged is new, a zone that it has looked at
is or was listed, and a zone that it is going to evict has or had no task. -/
structure Turns (m m' : Moment σ) : Prop where
  fresh : ∀ {fresh}, m'.errand.fresh? = some fresh → fresh.FreshFrom m'.pool.zones.made
  seen : ∀ {z}, m'.errand.zone? = some z → m.errand.zone? = some z ∨
    m.errand.fresh? = .none ∧ m.errand.doomed = [] ∧ m.pool.zones.get? z.key = some z
  doomed : ∀ {k}, k ∈ m'.errand.doomed → m.errand.zone? = .none ∧
    (k ∈ m.errand.doomed ∨ m.pool.schedule.hasTask k = false)

/-- Between two moments no worker has moved, and no task has been taken or handed back. -/
structure Aside (m m' : Moment σ) : Prop where
  asked : m'.pool.schedule = m.pool.schedule ∨
    ∃ op : Schedule.Op, op.Mild m.errand.zone? ∧ m'.pool.schedule = op.apply m.pool.schedule
  phase?_eq : ∀ w, m'.pool.phase? w = m.pool.phase? w
  started_eq : m'.pool.started = m.pool.started
  follows : m.Recorded → m.pool.Follows m.Keeps (· ∈ m.errand.doomed) m'.pool
  turns : m.Recorded → m.Turns m'

variable (m) in
/-- To leave a zone as it is is one of the things that may be done to it. -/
theorem keeps_refl (z : Zone) : m.Keeps z z := ⟨rfl, rfl, fun _ => .inl rfl⟩

/-- Only a merge removes a zone or takes back its removal. -/
theorem Keeps.removed_iff {z z' : Zone} (h : m.Keeps z z') (hfresh : m.errand.fresh? = .none) :
    z'.status = .removed ↔ z.status = .removed := by
  rcases h.2.2 hfresh with hstatus | hstatus <;> rw [hstatus]
  exact z.status.settled_eq_removed_iff

private theorem aside_of_op
    (hs : m'.pool.schedule = m.pool.schedule ∨
      ∃ op : Schedule.Op, op.Mild m.errand.zone? ∧ m'.pool.schedule = op.apply m.pool.schedule)
    (hphase : ∀ w, m'.pool.phase? w = m.pool.phase? w)
    (hstarted : m'.pool.started = m.pool.started) (hzones : m'.pool.zones = m.pool.zones)
    (hretired : m'.pool.retired = m.pool.retired) (hturns : m.Recorded → m.Turns m') :
    m.Aside m' where
  asked := hs
  phase?_eq := hphase
  started_eq := hstarted
  follows h := .refl h.pool m.keeps_refl hzones hretired
  turns := hturns

private theorem aside_of_pool_eq (hpool : m'.pool = m.pool) (hturns : m.Recorded → m.Turns m') :
    m.Aside m' :=
  aside_of_op (.inl (by rw [hpool])) (fun _ => by rw [hpool]) (by rw [hpool]) (by rw [hpool])
    (by rw [hpool]) hturns

private theorem turns_of_errand_eq (h : m.Recorded) (he : m'.errand = m.errand)
    (hzones : m'.pool.zones = m.pool.zones) : m.Turns m' where
  fresh hf := by
    rw [hzones]
    exact h.fresh (he ▸ hf)
  seen hz := .inl (he ▸ hz)
  doomed hk := by
    rw [he] at hk
    exact ⟨m.errand.zone?_of_mem_doomed hk, .inl hk⟩

private theorem turns_of_plain (hf : m'.errand.fresh? = .none) (hz : m'.errand.zone? = .none)
    (hk : m'.errand.doomed = []) : m.Turns m' where
  fresh h := by
    rw [hf] at h
    cases h
  seen h := by
    rw [hz] at h
    cases h
  doomed h := by
    rw [hk] at h
    cases h

private theorem turns_of_zone {z : Zone} (hf : m'.errand.fresh? = .none)
    (hz : m'.errand.zone? = some z) (hk : m'.errand.doomed = [])
    (hseen : m.errand.zone? = some z ∨
      m.errand.fresh? = .none ∧ m.errand.doomed = [] ∧ m.pool.zones.get? z.key = some z) :
    m.Turns m' where
  fresh h := by
    rw [hf] at h
    cases h
  seen h := by
    obtain rfl := Option.some.inj (hz.symm.trans h)
    exact hseen
  doomed h := by
    rw [hk] at h
    cases h

private theorem turns_of_evicting (hview : m.errand.zone? = .none) (hf : m'.errand.fresh? = .none)
    (hz : m'.errand.zone? = .none)
    (hk : ∀ k ∈ m'.errand.doomed, k ∈ m.errand.doomed ∨ m.pool.schedule.hasTask k = false) :
    m.Turns m' where
  fresh h := by
    rw [hf] at h
    cases h
  seen h := by
    rw [hz] at h
    cases h
  doomed h := ⟨hview, hk _ h⟩

private theorem aside_withSchedule {o : Schedule.Op} {e : Errand} (hop : o.Mild m.errand.zone?)
    (hturns : m.Recorded → m.Turns ((m.withSchedule (o.apply m.pool.schedule)).turn e)) :
    m.Aside ((m.withSchedule (o.apply m.pool.schedule)).turn e) :=
  aside_of_op (.inr ⟨o, hop, rfl⟩) (fun _ => rfl) rfl rfl rfl hturns

private theorem aside_beginPass [HasFiles σ] {n : Moment σ} (now : Nat) (he : n.errand = m.errand)
    (hs : n.pool.schedule = m.pool.schedule) (hphase : ∀ w, n.pool.phase? w = m.pool.phase? w)
    (hstarted : n.pool.started = m.pool.started) (hzones : n.pool.zones = m.pool.zones)
    (hretired : n.pool.retired = m.pool.retired) : m.Aside (n.beginPass now) := by
  refine aside_of_op (.inl ?_) ?_ ?_ ?_ ?_ fun h => ?_
  · rw [pool_beginPass, hs]
  · intro w
    rw [pool_beginPass, hphase]
  · rw [pool_beginPass, hstarted]
  · rw [pool_beginPass, hzones]
  · rw [pool_beginPass, hretired]
  · rcases n.beginPass_cases now with hn | ⟨_, hn⟩ | hn <;> rw [hn]
    · exact turns_of_errand_eq h he hzones
    · exact turns_of_plain rfl rfl rfl
    · exact turns_of_plain rfl rfl rfl

private theorem keeps_keep (hmerging : m.errand.fresh? ≠ .none) (fresh : ZoneList) (key : ZoneKey)
    (z : Zone) : z.SameRecord (fresh.keep key z) ∧ m.Keeps z (fresh.keep key z) := by
  refine ⟨fresh.sameRecord_keep key z, ?_⟩
  obtain ⟨_, he | ⟨_, he⟩⟩ := fresh.keep_cases key z <;> rw [he] <;>
    exact ⟨rfl, rfl, fun hnone => absurd hnone hmerging⟩

private theorem aside_keep {now : Nat} {time : FileTime} {fresh : ZoneList}
    {counts counts' : MergeCounts} {key : ZoneKey} {left : List ZoneKey}
    (he : m.errand = .merging now time fresh counts (key :: left)) :
    m.Aside ((m.withZones (m.pool.zones.alter key (fresh.keep key))).turn
      (.merging now time fresh counts' left)) where
  asked := .inl rfl
  phase?_eq _ := rfl
  started_eq := rfl
  follows h := .alter h.pool m.keeps_refl key (keeps_keep (by rw [he]; nofun) fresh key) rfl rfl
  turns h := by
    refine ⟨?_, nofun, nofun⟩
    intro _ hf
    cases hf
    exact h.fresh (congrArg Errand.fresh? he)

private theorem aside_addNew {now : Nat} {time : FileTime} {fresh : ZoneList} {counts : MergeCounts}
    {left : List ZoneKey} (he : m.errand = .merging now time fresh counts []) :
    m.Aside ((m.withZones (m.pool.zones.addNew fresh counts time)).turn (.acting now left)) where
  asked := .inl rfl
  phase?_eq _ := rfl
  started_eq := rfl
  follows h := .addNew h.pool m.keeps_refl (h.fresh (congrArg Errand.fresh? he)) rfl rfl
  turns _ := turns_of_plain rfl rfl rfl

private theorem aside_evict {inPass : Bool} {doomed : List ZoneKey} {l : ZoneList} {e : Errand}
    (hm : m.errand = .evicting inPass doomed []) (hzones : l.zones = (m.pool.evict doomed).zones.zones)
    (hmade : l.made = m.pool.zones.made)
    (hturns : m.Turns ((m.withPool { m.pool.evict doomed with zones := l }).turn e)) :
    m.Aside ((m.withPool { m.pool.evict doomed with zones := l }).turn e) where
  asked := .inl rfl
  phase?_eq _ := rfl
  started_eq := rfl
  follows h := by
    have hdoomed : m.errand.doomed = doomed := congrArg Errand.doomed hm
    rw [hdoomed]
    refine (Pool.Follows.evict h.pool m.keeps_refl doomed).congr (fun k => ?_) hmade rfl
    exact congrArg (OrderedMap.get? · k) hzones
  turns _ := hturns

private theorem keeps_settled (z : Zone) :
    z.SameRecord (z.withStatus z.status.settled) ∧ m.Keeps z (z.withStatus z.status.settled) :=
  ⟨⟨rfl, rfl⟩, rfl, rfl, fun _ => .inr rfl⟩

private theorem aside_settle {key : ZoneKey} {left : List ZoneKey} :
    m.Aside ((m.withZones (m.pool.zones.alter key fun z => z.withStatus z.status.settled)).turn
      (.settling left)) where
  asked := .inl rfl
  phase?_eq _ := rfl
  started_eq := rfl
  follows h := .alter h.pool m.keeps_refl key keeps_settled rfl rfl
  turns _ := turns_of_plain rfl rfl rfl

private theorem aside_receive {what : ZoneRequest} {name : String} (he : m.errand = .none) :
    m.Aside (m.receive what name) := by
  refine aside_of_pool_eq (m.pool_receive what name) fun h => ?_
  rcases m.receive_cases what name with hn | ⟨z, hz, -, hn⟩ <;> rw [hn]
  · exact turns_of_errand_eq h rfl rfl
  · refine turns_of_zone rfl rfl rfl
      (.inr ⟨congrArg Errand.fresh? he, congrArg Errand.doomed he, ?_⟩)
    unfold ZoneList.find? at hz
    split at hz
    · next hkey =>
      cases hz
      exact h.pool.get?_key hkey
    · obtain ⟨k, hk⟩ := OrderedMap.mem_values.mp (List.mem_of_find?_eq_some hz)
      exact h.pool.get?_key hk

/-- The holder of the list stands aside from what the workers do. -/
theorem aside_proceed [HasFiles σ] (hstep : m.proceed = some m') : m.Aside m' := by
  cases proceeded_of_proceed hstep with
  | unread | miss | actedOn | content | settled =>
    exact aside_of_pool_eq rfl fun _ => turns_of_plain rfl rfl rfl
  | read =>
    refine aside_of_pool_eq rfl fun _ => ⟨?_, nofun, nofun⟩
    intro fresh hf
    cases hf
    exact ZoneList.freshFrom_ofEntries _ _
  | keep he => exact aside_keep he
  | addNew he => exact aside_addNew he
  | look he hz =>
    exact aside_of_pool_eq rfl fun h => turns_of_zone rfl rfl rfl
      (.inr ⟨congrArg Errand.fresh? he, congrArg Errand.doomed he, h.pool.get?_key hz⟩)
  | lack he =>
    exact aside_of_pool_eq rfl fun _ => turns_of_zone rfl rfl rfl (.inl (congrArg Errand.zone? he))
  | drop he hremoved =>
    exact aside_withSchedule (.unscheduleZone (congrArg Errand.zone? he) hremoved)
      fun _ => turns_of_plain rfl rfl rfl
  | ask =>
    exact aside_withSchedule (.reschedule _ _ (.inl rfl)) fun _ => turns_of_plain rfl rfl rfl
  | askInVain he =>
    exact aside_withSchedule (.reschedule _ _ (.inl rfl))
      fun _ => turns_of_zone rfl rfl rfl (.inl (congrArg Errand.zone? he))
  | askRead he | askReadInVain he =>
    exact aside_withSchedule (.reschedule _ _ (.inr rfl))
      fun _ => turns_of_zone rfl rfl rfl (.inl (congrArg Errand.zone? he))
  | refuse =>
    exact aside_withSchedule (.reschedule _ _ (.inr rfl)) fun _ => turns_of_plain rfl rfl rfl
  | give he =>
    have hview := congrArg Errand.zone? he
    exact aside_withSchedule (o := .schedule _) (.schedule hview rfl rfl (.inl rfl) rfl rfl)
      fun _ => turns_of_plain rfl rfl rfl
  | grant he =>
    have hview := congrArg Errand.zone? he
    exact aside_withSchedule (o := .schedule _) (.schedule hview rfl rfl (.inr rfl) rfl rfl)
      fun _ => turns_of_plain rfl rfl rfl
  | flush | flushMoved =>
    exact aside_withSchedule (.flushZone _) fun _ => turns_of_plain rfl rfl rfl
  | skip he | suspect he | spare he =>
    exact aside_of_pool_eq rfl fun _ => turns_of_evicting (congrArg Errand.zone? he) rfl rfl
      fun k hk => .inl (by rw [he]; exact hk)
  | doom he htask =>
    refine aside_of_pool_eq rfl fun _ =>
      turns_of_evicting (congrArg Errand.zone? he) rfl rfl fun k hk => ?_
    rcases List.mem_cons.mp hk with rfl | hk
    · exact .inr (Bool.eq_false_iff.mpr htask)
    · exact .inl (by rw [he]; exact hk)
  | evict he | evictInPass he => exact aside_evict he rfl rfl (turns_of_plain rfl rfl rfl)
  | settle => exact aside_settle

private theorem aside_heed [HasFiles σ] (signals : List Signal) (s : Signal) :
    m.Aside ((m.withPool { m.pool with signals := signals }).heed s) := by
  cases s with
  | reload => exact aside_beginPass _ rfl rfl (fun _ => rfl) rfl rfl rfl
  | workerIdle => exact aside_of_op (.inl rfl) (fun _ => rfl) rfl rfl rfl fun _ =>
      turns_of_plain rfl rfl rfl
  | shutdown => exact aside_of_op (.inl rfl) (fun _ => rfl) rfl rfl rfl fun h =>
      turns_of_errand_eq h rfl rfl

/-- Before the end of the engine begins, a move is a worker's section, the start of the threads, or
somebody's who leaves the workers and what they have taken alone. -/
theorem step_cases [HasFiles σ] {move : Move σ} (hmove : move.isClosing = false)
    (hstep : m.step c move = some m') :
    (∃ w p', move = .worker w ∧ m.pool.stepWorker c w = some p' ∧ m' = m.withPool p') ∨
    (∃ p', move = .start ∧ m.pool.start = .ok p' ∧ m' = m.withPool p') ∨
    (∀ w, move ≠ .worker w) ∧ m.Aside m' := by
  -- Others than the holder of the list leave its errand as it is.
  have hstill {p : Pool σ} (hs : p.schedule = m.pool.schedule ∨ ∃ op : Schedule.Op,
      op.Mild m.errand.zone? ∧ p.schedule = op.apply m.pool.schedule)
      (hphase : ∀ w, p.phase? w = m.pool.phase? w) (hstarted : p.started = m.pool.started)
      (hzones : p.zones = m.pool.zones) (hretired : p.retired = m.pool.retired) :
      m.Aside (m.withPool p) :=
    aside_of_op hs hphase hstarted hzones hretired fun h => turns_of_errand_eq h rfl hzones
  cases moved_of_step hstep with
  | worker hp => exact .inl ⟨_, _, rfl, hp, rfl⟩
  | start hp => exact .inr (.inl ⟨_, rfl, hp, rfl⟩)
  | drudger hp =>
    obtain ⟨y, -, hsection⟩ := Pool.drudgerSection_of_step hp
    obtain ⟨hs, hzones, hretired, ht, hphase⟩ := hsection.frame
    exact .inr (.inr ⟨nofun, hstill (.inl hs) hphase ht hzones hretired⟩)
  | proceed hproceed => exact .inr (.inr ⟨nofun, aside_proceed hproceed⟩)
  | pass => exact .inr (.inr ⟨nofun, aside_beginPass _ rfl rfl (fun _ => rfl) rfl rfl rfl⟩)
  | heed => exact .inr (.inr ⟨nofun, aside_heed _ _⟩)
  | request hfree => exact .inr (.inr ⟨nofun, aside_receive hfree⟩)
  | flushAll =>
    exact .inr (.inr ⟨nofun, hstill (.inr ⟨_, .flushAll, rfl⟩) (fun _ => rfl) rfl rfl rfl⟩)
  | reload =>
    exact .inr (.inr ⟨nofun, aside_of_op (.inl rfl) (fun _ => rfl) rfl rfl rfl fun h =>
      turns_of_errand_eq h rfl rfl⟩)
  | tick | happen =>
    exact .inr (.inr ⟨nofun, hstill (.inl rfl) (fun _ => rfl) rfl rfl rfl⟩)
  | closing => cases hmove

private theorem begins_beginPass [HasFiles σ] (now : Nat) (he : m.errand = .none) :
    (m.beginPass now).errand.Begins := by
  rcases m.beginPass_cases now with hn | ⟨_, hn⟩ | hn <;> rw [hn]
  · exact he ▸ .nothing
  · exact .reading now _
  · exact .acting now _

private theorem begins_receive (what : ZoneRequest) (name : String) (he : m.errand = .none) :
    (m.receive what name).errand.Begins := by
  rcases m.receive_cases what name with hn | ⟨_, -, hlive, hn⟩ <;> rw [hn]
  · exact he ▸ .nothing
  · exact .serving what _ hlive

/-- Before the end of the engine begins, a worker moves, the holder of the list goes on, somebody
takes the list, or the errand of its holder, the zones and the places of the tasks stay as they
are. -/
theorem errand_cases [HasFiles σ] {move : Move σ} (hmove : move.isClosing = false)
    (hstep : m.step c move = some m') :
    (∃ w p', move = .worker w ∧ m.pool.stepWorker c w = some p' ∧ m' = m.withPool p') ∨
    (move = .proceed ∧ m.proceed = some m') ∨
    (m.errand = .none ∧ m'.errand.Begins ∧ m'.pool.zones = m.pool.zones ∧
      m'.pool.schedule = m.pool.schedule) ∨
    (m'.errand = m.errand ∧ m'.pool.zones = m.pool.zones ∧
      ∀ k, m'.pool.schedule.isScheduled k = m.pool.schedule.isScheduled k) := by
  cases moved_of_step hstep with
  | worker hp => exact .inl ⟨_, _, rfl, hp, rfl⟩
  | proceed hproceed => exact .inr (.inl ⟨rfl, hproceed⟩)
  | pass hfree =>
    exact .inr (.inr (.inl ⟨hfree, begins_beginPass _ hfree, by rw [pool_beginPass],
      by rw [pool_beginPass]⟩))
  | @heed s _ hfree =>
    refine .inr (.inr (.inl ⟨hfree, ?_, by rw [pool_heed]; rfl, by rw [pool_heed]; rfl⟩))
    cases s with
    | reload => exact begins_beginPass _ hfree
    | workerIdle => exact .evicting _
    | shutdown => exact hfree ▸ .nothing
  | request hfree =>
    exact .inr (.inr (.inl ⟨hfree, begins_receive _ _ hfree, by rw [pool_receive],
      by rw [pool_receive]⟩))
  | start hp =>
    have hp' := (Pool.start_eq_ok hp).2
    exact .inr (.inr (.inr ⟨rfl, by rw [hp']; rfl, fun k => by rw [hp']; rfl⟩))
  | drudger hp =>
    obtain ⟨y, -, hsection⟩ := Pool.drudgerSection_of_step hp
    obtain ⟨hs, hzones, -⟩ := hsection.frame
    exact .inr (.inr (.inr ⟨rfl, hzones, fun k => congrArg (Schedule.isScheduled · k) hs⟩))
  | flushAll | reload | tick | happen => exact .inr (.inr (.inr ⟨rfl, rfl, fun _ => rfl⟩))
  | closing => cases hmove

end Moment

end ZoneSigning
