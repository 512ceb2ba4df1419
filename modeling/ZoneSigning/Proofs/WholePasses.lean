import Mathlib.Data.List.Basic
import Mathlib.Logic.Relation
import ZoneSigning.Proofs.RecordedRuns

/-!
A pass is the run of its sections. If nobody else does anything between the sections, the holder of
the list does to the zones, one after the other, what the engine does to the list as a whole.
-/
namespace ZoneSigning

/-- Going through the keys of a map and looking each one up is going through the values. -/
theorem OrderedMap.foldl_keys {κ α β : Type} [Ord κ] [Std.TransOrd κ] [Std.LawfulEqOrd κ]
    (m : OrderedMap κ α) (f : β → α → β) (b : β) :
    m.keys.foldl (fun b k => (m.get? k).elim b (f b)) b = m.values.foldl f b := by
  rw [keys, values, List.foldl_map, List.foldl_map]
  refine List.foldl_ext _ _ _ fun b e he => ?_
  rw [get?_eq_some_iff.mpr he]
  rfl

namespace ZoneList

variable {l fresh : ZoneList}

def alterAll (l : ZoneList) (f : ZoneKey → Zone → Zone) (keys : List ZoneKey) : ZoneList :=
  keys.foldl (fun l k => l.alter k (f k)) l

private theorem get?_alterAll (f : ZoneKey → Zone → Zone) {keys : List ZoneKey} (hkeys : keys.Nodup)
    (k : ZoneKey) : (l.alterAll f keys).get? k =
      (l.get? k).map fun z => if k ∈ keys then f k z else z := by
  induction keys generalizing l with
  | nil => simp [alterAll]
  | cons key keys ih =>
    obtain ⟨hkey, hkeys⟩ := List.nodup_cons.mp hkeys
    change ((l.alter key (f key)).alterAll f keys).get? k = _
    rw [ih hkeys, get?_alter, Option.map_map]
    congr 1
    funext z
    by_cases hk : k = key
    · subst hk
      simp [hkey]
    · simp [hk]

private theorem alterAll_eq (f : ZoneKey → Zone → Zone) (keys : List ZoneKey) :
    l.alterAll f keys = { l with zones := (l.alterAll f keys).zones } := by
  induction keys generalizing l with
  | nil => rfl
  | cons key keys ih =>
    change (l.alter key (f key)).alterAll f keys = _
    rw [ih]
    rfl

/-- No key is listed twice. -/
theorem keys_nodup (l : ZoneList) : l.zones.keys.Nodup := by
  rw [OrderedMap.keys, List.Nodup, List.pairwise_map]
  refine l.zones.ascending.imp fun hlt heq => ?_
  rw [heq] at hlt
  simp at hlt

/-- Changing all zones one after the other is the same as changing them at once. -/
theorem alterAll_keys (f : ZoneKey → Zone → Zone) :
    l.alterAll f l.zones.keys = { l with zones := l.zones.mapValues f } := by
  rw [alterAll_eq]
  congr 1
  refine OrderedMap.ext_get? fun k => ?_
  change (l.alterAll f l.zones.keys).get? k = _
  rw [get?_alterAll f l.keys_nodup, OrderedMap.get?_mapValues]
  cases hz : l.zones.get? k with
  | none => simp [get?, hz]
  | some z =>
    have hk : k ∈ l.zones.keys := OrderedMap.mem_keys.mpr ⟨z, hz⟩
    simp [get?, hz, hk]

def countAll (l fresh : ZoneList) (counts : MergeCounts) (keys : List ZoneKey) : MergeCounts :=
  keys.foldl (fun counts k => (l.get? k).elim counts (countKept fresh counts k)) counts

private theorem countAll_congr {l' : ZoneList} {keys : List ZoneKey} (h : ∀ k ∈ keys, l'.get? k = l.get? k)
    (counts : MergeCounts) : l'.countAll fresh counts keys = l.countAll fresh counts keys := by
  refine List.foldl_ext _ _ _ fun counts k hk => ?_
  rw [h k hk]

/-- Counting zone by zone comes to what counting at once comes to. -/
theorem countAll_keys (hkeyed : ∀ {k z}, l.get? k = some z → z.key = k) :
    { l.countAll fresh {} l.zones.keys with added := (l.admitted fresh).length } =
      l.mergeCounts fresh := by
  have hcount (entries : List (ZoneKey × Zone)) (hentries : ∀ e ∈ entries, l.get? e.1 = some e.2)
      (counts : MergeCounts) : l.countAll fresh counts (entries.map (·.1)) =
        { counts with
          updated := counts.updated +
            (entries.map (·.2)).countP fun z => (fresh.get? z.key).any z.isUpdatedBy
          removed := counts.removed +
            (entries.map (·.2)).countP fun z =>
              (fresh.get? z.key).isNone && z.status != .removed } := by
    induction entries generalizing counts with
    | nil => rfl
    | cons e entries ih =>
      obtain ⟨he, hentries⟩ := List.forall_mem_cons.mp hentries
      simp only [countAll, List.map_cons, List.foldl_cons, he, Option.elim_some] at ih ⊢
      rw [ih hentries, countKept, List.countP_cons, List.countP_cons, hkeyed he]
      simp only [Nat.add_assoc, Nat.add_comm]
  have hentries (e : ZoneKey × Zone) (he : e ∈ l.zones.toList) : l.get? e.1 = some e.2 :=
    OrderedMap.get?_eq_some_iff.mpr he
  rw [OrderedMap.keys, hcount _ hentries]
  simp [mergeCounts, all, OrderedMap.values]

/-- Which zones are new to a list depends on its keys only. -/
theorem admitted_mapValues (f : ZoneKey → Zone → Zone) :
    ({ l with zones := l.zones.mapValues f } : ZoneList).admitted fresh = l.admitted fresh := by
  simp only [admitted]
  refine List.filter_congr fun z _ => ?_
  simp [OrderedMap.contains, OrderedMap.get?_mapValues]

/-- Reconciling zone by zone and then adding the new zones is reconciling the list. -/
theorem addNew_alterAll (hkeyed : ∀ {k z}, l.get? k = some z → z.key = k) (time : FileTime) :
    (l.alterAll fresh.keep l.zones.keys).addNew fresh (l.countAll fresh {} l.zones.keys) time =
      { l.merge fresh with modified := some time } := by
  rw [alterAll_keys, addNew, admitted_mapValues, countAll_keys hkeyed]
  rfl

end ZoneList

/-- Evicting the zones that have been found without tasks is evicting all that are drained. -/
theorem Pool.evict_eq {σ : Type} {p : Pool σ} {doomed : List ZoneKey}
    (hkeyed : ∀ {k z}, p.zones.get? k = some z → z.key = k)
    (hdoomed : ∀ {k z}, p.zones.get? k = some z →
      (k ∈ doomed ↔ z.status = .removed ∧ p.schedule.hasTask k = false)) :
    p.evict doomed = Engine.evictDrained p := by
  have hentry (e : ZoneKey × Zone) (he : e ∈ p.zones.zones.toList) : decide (e.1 ∈ doomed) =
      ZoneList.isEvictable (fun z => p.schedule.hasTask z.key) e.2 := by
    have hz : p.zones.get? e.1 = some e.2 := OrderedMap.get?_eq_some_iff.mpr he
    rw [Bool.eq_iff_iff, decide_eq_true_iff, hdoomed hz, ZoneList.isEvictable, hkeyed hz]
    simp
  have hstay : (p.zones.zones.filter fun k _ => k ∉ doomed) = p.zones.zones.filter fun _ z =>
      !ZoneList.isEvictable (fun z => p.schedule.hasTask z.key) z := by
    simp only [OrderedMap.filter, OrderedMap.mk.injEq]
    refine List.filter_congr fun e he => ?_
    rw [← hentry e he, decide_not]
  have hleave : (p.zones.zones.filter fun k _ => k ∈ doomed).values =
      p.zones.all.filter (ZoneList.isEvictable fun z => p.schedule.hasTask z.key) := by
    simp only [OrderedMap.filter, OrderedMap.values, ZoneList.all, List.filter_map]
    exact congrArg _ (List.filter_congr hentry)
  simp only [evict, Engine.evictDrained, ZoneList.evict, hstay, hleave]

namespace Moment

variable {σ : Type} [HasFiles σ] {c : Collaborators σ} {m m' n : Moment σ}

/-- Moves that do not belong to the end of the engine lead from one moment to the other. -/
def Reaches (c : Collaborators σ) : Moment σ → Moment σ → Prop :=
  Relation.ReflTransGen fun m m' => ∃ move : Move σ, move.isClosing = false ∧ m.step c move = some m'

namespace Reaches

/-- A move can be put in front of others. -/
theorem step (move : Move σ) (hmove : move.isClosing = false) (hstep : m.step c move = some m')
    (h : Reaches c m' n) : Reaches c m n :=
  h.head ⟨move, hmove, hstep⟩

/-- A section of the holder of the list can be put in front of moves. -/
theorem proceed (hstep : m.proceed = some m') (h : Reaches c m' n) : Reaches c m n :=
  h.step .proceed rfl hstep

/-- Moves leave every record one present state. -/
theorem recorded (h : Reaches c m m') (hrec : m.Recorded) : m'.Recorded := by
  induction h with
  | refl => exact hrec
  | tail _ hstep ih =>
    obtain ⟨move, -, hstep⟩ := hstep
    exact (step_follows ih hstep).2

/-- Moves lead from moments that can be reached to such moments. -/
theorem reachable (h : Reaches c m m') (hreach : Reachable c m) : Reachable c m' := by
  induction h with
  | refl => exact hreach
  | tail _ hstep ih =>
    obtain ⟨move, hmove, hstep⟩ := hstep
    exact ih.step hmove hstep

end Reaches

private theorem reaches_merging {now : Nat} {time : FileTime} {fresh : ZoneList} (l : ZoneList)
    (counts : MergeCounts) {left : List ZoneKey} (hleft : left.Nodup) :
    Reaches c ((m.withZones l).turn (.merging now time fresh counts left))
      ((m.withZones (l.alterAll fresh.keep left)).turn
        (.merging now time fresh (l.countAll fresh counts left) [])) := by
  induction left generalizing l counts with
  | nil => exact .refl
  | cons key left ih =>
    obtain ⟨hkey, hleft⟩ := List.nodup_cons.mp hleft
    refine .proceed rfl ?_
    have hcount : (l.alter key (fresh.keep key)).countAll fresh
        ((l.get? key).elim counts (ZoneList.countKept fresh counts key)) left =
          l.countAll fresh counts (key :: left) := by
      refine ZoneList.countAll_congr (fun k hk => ?_) _
      rw [ZoneList.get?_alter]
      have hne : k ≠ key := fun he => hkey (he ▸ hk)
      simp [hne]
    have hrest := ih (l.alter key (fresh.keep key))
      ((l.get? key).elim counts (ZoneList.countKept fresh counts key)) hleft
    rw [hcount] at hrest
    exact hrest

private theorem reaches_settling {l : ZoneList} {left : List ZoneKey} :
    Reaches c ((m.withZones l).turn (.settling left))
      ((m.withZones (l.alterAll (fun _ z => z.withStatus z.status.settled) left)).turn .none) := by
  induction left generalizing l with
  | nil => exact .proceed rfl .refl
  | cons key left ih => exact .proceed rfl ih

omit [HasFiles σ] in
private theorem judge_cases (m : Moment σ) (now : Nat) (z : Zone) (left : List ZoneKey) :
    m.judge now z left = (m.withSchedule (Engine.reconcileTask now m.pool.schedule z)).turn
        (.acting now left) ∨
      ∃ s, m.judge now z left = (m.withSchedule s).turn (.lacking now z left) ∧
        Engine.scheduleConfigure now z s = Engine.reconcileTask now m.pool.schedule z := by
  have hother : m.turn (if m.pool.schedule.hasTask z.key then .acting now left
      else .lacking now z left) = (m.withSchedule (if m.pool.schedule.hasTask z.key then
        m.pool.schedule else Engine.scheduleConfigure now z m.pool.schedule)).turn
          (.acting now left) ∨
      ∃ s, m.turn (if m.pool.schedule.hasTask z.key then .acting now left
        else .lacking now z left) = (m.withSchedule s).turn (.lacking now z left) ∧
          Engine.scheduleConfigure now z s = if m.pool.schedule.hasTask z.key then
            m.pool.schedule else Engine.scheduleConfigure now z m.pool.schedule := by
    by_cases hz : m.pool.schedule.hasTask z.key
    · simp only [if_pos hz]
      exact .inl rfl
    · simp only [if_neg hz]
      exact .inr ⟨m.pool.schedule, rfl, rfl⟩
  unfold judge Engine.reconcileTask
  cases z.status with
  | removed => exact .inl rfl
  | updated =>
    rcases m.pool.schedule.reschedule z.key .configure now with ⟨⟨e⟩ | ⟨⟩, s⟩
    · by_cases he : e.failure = .notFound
      · exact .inr ⟨s, by simp [he], by simp [he]⟩
      · exact .inl (by simp [he])
    · exact .inl rfl
  | added => exact hother
  | ok => exact hother

/-- The sections that act on one zone. -/
theorem reaches_judged {now : Nat} {z : Zone} {left : List ZoneKey} :
    Reaches c (m.turn (.judged now z left))
      ((m.withSchedule (Engine.reconcileTask now m.pool.schedule z)).turn (.acting now left)) := by
  have hjudge : (m.turn (.judged now z left)).proceed =
      some ((m.turn (.judged now z left)).judge now z left) := rfl
  rcases (m.turn (.judged now z left)).judge_cases now z left with he | ⟨s, he, hs⟩ <;>
    rw [he] at hjudge
  · exact .proceed hjudge .refl
  · refine .proceed hjudge (.proceed rfl ?_)
    change Reaches c ((m.withSchedule (Engine.scheduleConfigure now z s)).turn _) _
    rw [hs]
    exact .refl

private theorem reaches_acting {now : Nat} {left : List ZoneKey} :
    Reaches c (m.turn (.acting now left))
      ((m.withSchedule (left.foldl
        (fun s k => (m.pool.zones.get? k).elim s (Engine.reconcileTask now s)) m.pool.schedule)).turn
          (.acting now [])) := by
  induction left generalizing m with
  | nil => exact .refl
  | cons key left ih =>
    have hact : (m.turn (.acting now (key :: left))).proceed =
        some ((m.turn (.acting now (key :: left))).act now (key :: left)) := rfl
    rw [List.foldl_cons]
    cases hz : m.pool.zones.get? key with
    | none =>
      have hskip : (m.turn (.acting now (key :: left))).act now (key :: left) =
          m.turn (.acting now left) := by
        simp only [act, pool_turn, hz]
        rfl
      exact .proceed (hact.trans (congrArg some hskip)) ih
    | some z =>
      have hlook : (m.turn (.acting now (key :: left))).act now (key :: left) =
          m.turn (.judged now z left) := by
        simp only [act, pool_turn, hz]
        rfl
      exact .proceed (hact.trans (congrArg some hlook)) (reaches_judged.trans ih)

private theorem reaches_evicting (m : Moment σ) (inPass : Bool) (doomed left : List ZoneKey) :
    ∃ doomed', Reaches c (m.turn (.evicting inPass doomed left))
        (m.turn (.evicting inPass doomed' [])) ∧
      ∀ k, k ∈ doomed' ↔ k ∈ doomed ∨ k ∈ left ∧ ∃ z, m.pool.zones.get? k = some z ∧
        z.status = .removed ∧ m.pool.schedule.hasTask k = false := by
  induction left generalizing doomed with
  | nil => exact ⟨doomed, .refl, by simp⟩
  | cons key left ih =>
    have htry : (m.turn (.evicting inPass doomed (key :: left))).proceed = some
        ((m.turn (.evicting inPass doomed (key :: left))).tryEvict inPass doomed (key :: left)) :=
      rfl
    by_cases hgone : ∃ z, m.pool.zones.get? key = some z ∧ z.status = .removed
    · obtain ⟨z, hz, hremoved⟩ := hgone
      obtain ⟨doomed', hreaches, hdoomed⟩ :=
        ih (if m.pool.schedule.hasTask key then doomed else key :: doomed)
      have hleave : (m.turn (.evicting inPass doomed (key :: left))).tryEvict inPass doomed
          (key :: left) = m.turn (.leaving inPass key doomed left) := by
        simp only [tryEvict, pool_turn, hz, if_pos hremoved]
        rfl
      refine ⟨doomed', .proceed (htry.trans (congrArg some hleave)) (.proceed rfl hreaches),
        fun k => ?_⟩
      rw [hdoomed]
      by_cases hk : k = key
      · subst hk
        cases htask : m.pool.schedule.hasTask k <;> simp [hz, hremoved]
      · split <;> simp [hk]
    · obtain ⟨doomed', hreaches, hdoomed⟩ := ih doomed
      have hskip : (m.turn (.evicting inPass doomed (key :: left))).tryEvict inPass doomed
          (key :: left) = m.turn (.evicting inPass doomed left) := by
        simp only [tryEvict, pool_turn]
        cases hz : m.pool.zones.get? key with
        | none => rfl
        | some z =>
          simp only [if_neg fun hremoved => hgone ⟨z, hz, hremoved⟩]
          rfl
      refine ⟨doomed', .proceed (htry.trans (congrArg some hskip)) hreaches, fun k => ?_⟩
      rw [hdoomed]
      by_cases hk : k = key
      · subst hk
        have hstays : ¬ ∃ z, m.pool.zones.get? k = some z ∧ z.status = .removed ∧
            m.pool.schedule.hasTask k = false := by
          rintro ⟨z, hz, hremoved, -⟩
          exact hgone ⟨z, hz, hremoved⟩
        simp [hstays]
      · simp [hk]

private theorem reaches_drained (inPass : Bool)
    (hkeyed : ∀ {k z}, m.pool.zones.get? k = some z → z.key = k) :
    ∃ doomed, Reaches c (m.turn (.evicting inPass [] m.keys)) (m.turn (.evicting inPass doomed [])) ∧
      m.pool.evict doomed = Engine.evictDrained m.pool := by
  obtain ⟨doomed, hreaches, hdoomed⟩ :=
    reaches_evicting (c := c) m inPass [] m.keys
  refine ⟨doomed, hreaches, Pool.evict_eq hkeyed fun {k z} hz => ?_⟩
  have hk : k ∈ m.keys := OrderedMap.mem_keys.mpr ⟨z, hz⟩
  rw [hdoomed]
  simp [hk, hz]

/-- Trying all zones for eviction evicts those that are drained. -/
theorem reaches_evictDrained (hkeyed : ∀ {k z}, m.pool.zones.get? k = some z → z.key = k) :
    Reaches c (m.turn (.evicting false [] m.keys))
      ((m.withPool (Engine.evictDrained m.pool)).turn .none) := by
  obtain ⟨doomed, hreaches, hdoomed⟩ := reaches_drained (c := c) false hkeyed
  have hevict : (m.turn (.evicting false doomed [])).proceed =
      some ((m.withPool (m.pool.evict doomed)).turn .none) := rfl
  rw [hdoomed] at hevict
  exact hreaches.trans (Reaches.proceed hevict .refl)

/-- In a pass, the zones that are left are settled then. -/
theorem reaches_settled (hkeyed : ∀ {k z}, m.pool.zones.get? k = some z → z.key = k) :
    Reaches c (m.turn (.evicting true [] m.keys))
      ((m.withPool { Engine.evictDrained m.pool with
        zones := (Engine.evictDrained m.pool).zones.takeCounts.2.settle }).turn .none) := by
  obtain ⟨doomed, hreaches, hdoomed⟩ := reaches_drained (c := c) true hkeyed
  have hevict : (m.turn (.evicting true doomed [])).proceed =
      some (((m.withPool (m.pool.evict doomed)).withZones
        (m.pool.evict doomed).zones.takeCounts.2).turn
          (.settling (m.pool.evict doomed).zones.zones.keys)) := rfl
  rw [hdoomed] at hevict
  refine hreaches.trans (Reaches.proceed hevict (reaches_settling.trans ?_))
  have hsettle := (Engine.evictDrained m.pool).zones.takeCounts.2.alterAll_keys
    fun _ z => z.withStatus z.status.settled
  change Reaches c (((m.withPool (Engine.evictDrained m.pool)).withZones
    ((Engine.evictDrained m.pool).zones.takeCounts.2.alterAll _
      (Engine.evictDrained m.pool).zones.takeCounts.2.zones.keys)).turn .none) _
  rw [hsettle]
  exact .refl

def actOn (m : Moment σ) (now : Nat) : Moment σ :=
  let p := Engine.evictDrained { m.pool with
    schedule := m.pool.zones.all.foldl (Engine.reconcileTask now) m.pool.schedule }
  (m.withPool { p with zones := p.zones.takeCounts.2.settle }).turn .none

private theorem reaches_acted {now : Nat}
    (hkeyed : ∀ {k z}, m.pool.zones.get? k = some z → z.key = k) :
    Reaches c (m.turn (.acting now m.keys)) (m.actOn now) := by
  have hfold : m.keys.foldl (fun s k => (m.pool.zones.get? k).elim s (Engine.reconcileTask now s))
      m.pool.schedule = m.pool.zones.all.foldl (Engine.reconcileTask now) m.pool.schedule :=
    m.pool.zones.zones.foldl_keys _ _
  refine reaches_acting.trans ?_
  rw [hfold]
  exact Reaches.proceed rfl (reaches_settled hkeyed)

private theorem pass_of_ok (hidle : m.errand = .none) (now : Nat) {update : ZoneListUpdate}
    {zones : ZoneList} (h : m.pool.zones.updateFrom (HasFiles.files m.pool.around)
      m.engine.config.zonelist = .ok (update, zones)) :
    ({ m with engine := (m.engine.pass now).2 } : Moment σ) = (m.withZones zones).actOn now := by
  unfold pool at h
  simp only [Engine.pass, h, hidle]
  rfl

private theorem pass_of_error (now : Nat) {e : ZoneListError}
    (h : m.pool.zones.updateFrom (HasFiles.files m.pool.around) m.engine.config.zonelist =
      .error e) : ({ m with engine := (m.engine.pass now).2 } : Moment σ) = m := by
  unfold pool at h
  simp only [Engine.pass, h]

/-- The sections from the reading of a modified inventory on. -/
theorem reaches_reading (hrec : m.Recorded) (hidle : m.errand = .none) {now : Nat}
    {time : FileTime}
    (htime : (HasFiles.files m.pool.around).modified m.engine.config.zonelist = .ok time)
    (hnew : m.pool.zones.modified.any (time ≤ ·) = false) :
    Reaches c (m.turn (.reading now time)) { m with engine := (m.engine.pass now).2 } := by
  have hread : (m.turn (.reading now time)).proceed =
      some ((m.turn (.reading now time)).readInventory now time) := rfl
  cases hentries : Inventory.read (HasFiles.files m.pool.around) m.engine.config.zonelist with
  | error e =>
    have hupdate : m.pool.zones.updateFrom (HasFiles.files m.pool.around)
        m.engine.config.zonelist = .error e := by
      simp [ZoneList.updateFrom, htime, hnew, hentries, Except.mapError, bind, Except.bind]
    have hstop : (m.turn (.reading now time)).readInventory now time = m := by
      simp only [readInventory, pool_turn, engine_turn, hentries]
      rw [turn, ← hidle]
      rfl
    rw [pass_of_error now hupdate]
    exact .proceed (hread.trans (congrArg some hstop)) .refl
  | ok entries =>
    have hupdate : m.pool.zones.updateFrom (HasFiles.files m.pool.around)
        m.engine.config.zonelist =
          .ok (.merged (m.pool.zones.merge (.ofEntries m.pool.zones.made entries)).counts,
            { m.pool.zones.merge (.ofEntries m.pool.zones.made entries) with
              modified := some time }) := by
      simp [ZoneList.updateFrom, htime, hnew, hentries, Except.mapError, bind, Except.bind,
        pure, Except.pure]
    have hbegin : (m.turn (.reading now time)).readInventory now time =
        (m.withZones m.pool.zones).turn
          (.merging now time (.ofEntries m.pool.zones.made entries) {} m.keys) := by
      simp only [readInventory, pool_turn, engine_turn, hentries]
      rfl
    rw [pass_of_ok hidle now hupdate]
    generalize hlist : ({ m.pool.zones.merge (.ofEntries m.pool.zones.made entries) with
      modified := some time } : ZoneList) = zones
    have hmerged : Reaches c (m.turn (.reading now time))
        ((m.withZones zones).turn (.acting now (m.withZones zones).keys)) := by
      refine .proceed (hread.trans (congrArg some hbegin)) ?_
      refine (reaches_merging _ _ m.pool.zones.keys_nodup).trans (Reaches.proceed rfl ?_)
      rw [← hlist, ← ZoneList.addNew_alterAll hrec.pool.keyed time]
      exact .refl
    have hreading : (m.turn (.reading now time)).Recorded := ⟨hrec.pool, nofun⟩
    exact hmerged.trans (reaches_acted (hmerged.recorded hreading).pool.keyed)

/-- A pass is the run of its sections. -/
theorem reaches_pass (hrec : m.Recorded) (hidle : m.errand = .none) (now : Nat) :
    Reaches c (m.beginPass now) { m with engine := (m.engine.pass now).2 } := by
  unfold beginPass
  cases htime : (HasFiles.files m.pool.around).modified m.engine.config.zonelist with
  | error e =>
    have hupdate : m.pool.zones.updateFrom (HasFiles.files m.pool.around)
        m.engine.config.zonelist = .error (.file e) := by
      simp [ZoneList.updateFrom, htime, Except.mapError, bind, Except.bind]
    rw [pass_of_error now hupdate]
    exact .refl
  | ok time =>
    dsimp only
    by_cases hold : m.pool.zones.modified.any (time ≤ ·)
    · have hupdate : m.pool.zones.updateFrom (HasFiles.files m.pool.around)
          m.engine.config.zonelist = .ok (.unchanged, m.pool.zones) := by
        simp [ZoneList.updateFrom, htime, hold, Except.mapError, bind, Except.bind, pure,
          Except.pure]
      rw [if_pos hold, pass_of_ok hidle now hupdate]
      exact reaches_acted hrec.pool.keyed
    · rw [if_neg hold]
      exact reaches_reading hrec hidle htime (Bool.eq_false_iff.mpr hold)

end Moment

end ZoneSigning
