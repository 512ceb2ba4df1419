import ZoneSigning.Proofs.Interleaving
import ZoneSigning.Proofs.OrderedMap

/-!
The records of zones, listed and retired. A record has one present state at a time, and its number
is never given out again; `Pool.Follows` says how the records of one pool become those of another.
-/
namespace ZoneSigning

def Zone.SameRecord (z z' : Zone) : Prop := z'.key = z.key ∧ z'.record = z.record

/-- A zone is a state of its own record. -/
theorem Zone.SameRecord.refl (z : Zone) : z.SameRecord z := ⟨rfl, rfl⟩

namespace ZoneList

variable {l fresh : ZoneList} {k : ZoneKey} {z : Zone}

/-- The zones of the list are new: they have numbers from `made` on, and nothing is loaded. -/
structure FreshFrom (made : Nat) (fresh : ZoneList) : Prop where
  made_le : made ≤ fresh.made
  keyed : ∀ {k z}, fresh.get? k = some z → z.key = k
  numbered : ∀ {k z}, fresh.get? k = some z → made ≤ z.record ∧ z.record < fresh.made
  listed_eq : ∀ {k l y z}, fresh.get? k = some y → fresh.get? l = some z →
    y.record = z.record → k = l
  unloaded : ∀ {k z}, fresh.get? k = some z → z.state.config = none

private theorem freshFrom_entry {made : Nat} (h : FreshFrom made fresh) (e : ZoneEntry)
    (counts : MergeCounts) : FreshFrom made { fresh with
      zones := fresh.zones.insert e.key (e.toZone fresh.made)
      counts := counts
      made := fresh.made + 1 } := by
  have hget {k : ZoneKey} {z : Zone}
      (hz : (fresh.zones.insert e.key (e.toZone fresh.made)).get? k = some z) :
      k = e.key ∧ z = e.toZone fresh.made ∨ fresh.get? k = some z := by
    rw [OrderedMap.get?_insert] at hz
    split at hz
    · next hk => exact .inl ⟨Std.LawfulEqCmp.eq_of_compare hk, (Option.some.inj hz).symm⟩
    · exact .inr hz
  have hle := h.made_le
  constructor
  case made_le => exact Nat.le_succ_of_le hle
  case keyed =>
    intro k z hz
    rcases hget hz with ⟨rfl, rfl⟩ | hz
    · rfl
    · exact h.keyed hz
  case numbered =>
    intro k z hz
    rcases hget hz with ⟨-, rfl⟩ | hz
    · exact ⟨hle, Nat.lt_succ_self _⟩
    · exact ⟨(h.numbered hz).1, Nat.lt_succ_of_lt (h.numbered hz).2⟩
  case listed_eq =>
    intro k l y z hy hz hr
    rcases hget hy with ⟨rfl, rfl⟩ | hy <;> rcases hget hz with ⟨rfl, rfl⟩ | hz
    · rfl
    · exact absurd hr.symm (Nat.ne_of_lt (h.numbered hz).2)
    · exact absurd hr (Nat.ne_of_lt (h.numbered hy).2)
    · exact h.listed_eq hy hz hr
  case unloaded =>
    intro k z hz
    rcases hget hz with ⟨-, rfl⟩ | hz
    · rfl
    · exact h.unloaded hz

private theorem freshFrom_counted {made : Nat} (h : FreshFrom made fresh) :
    FreshFrom made { fresh with made := fresh.made + 1 } where
  made_le := Nat.le_succ_of_le h.made_le
  keyed := h.keyed
  numbered hz := ⟨(h.numbered hz).1, Nat.lt_succ_of_lt (h.numbered hz).2⟩
  listed_eq := h.listed_eq
  unloaded := h.unloaded

/-- Zones that are made of entries are new. -/
theorem freshFrom_ofEntries (made : Nat) (entries : List ZoneEntry) :
    FreshFrom made (ofEntries made entries) := by
  have hempty : FreshFrom made { made := made } :=
    ⟨Nat.le_refl _, nofun, nofun, nofun, nofun⟩
  suffices hfold : ∀ {l : ZoneList}, FreshFrom made l → FreshFrom made (entries.foldl _ l) from
    hfold hempty
  intro l h
  induction entries generalizing l with
  | nil => exact h
  | cons e entries ih =>
    apply ih
    dsimp only
    split
    · exact freshFrom_counted h
    · exact freshFrom_entry h e _

@[simp] theorem get?_alter (l : ZoneList) (key : ZoneKey) (f : Zone → Zone) (k : ZoneKey) :
    (l.alter key f).get? k = (l.get? k).map fun z => if k = key then f z else z :=
  OrderedMap.get?_mapValues _ _ _

/-- A zone that is put into the list is listed at its key, and nothing else changes. -/
theorem get?_put (l : ZoneList) (z : Zone) (k : ZoneKey) :
    (l.put z).get? k = if k = z.key then some z else l.get? k := by
  simp [get?, put, OrderedMap.get?_insert]

private theorem get?_foldl_insert (added : List Zone) (zones : OrderedMap ZoneKey Zone)
    (f : Zone → Zone) (k : ZoneKey) :
    (∃ z ∈ added, z.key = k ∧
      (added.foldl (fun zs z => zs.insert z.key (f z)) zones).get? k = some (f z)) ∨
    (∀ z ∈ added, z.key ≠ k) ∧
      (added.foldl (fun zs z => zs.insert z.key (f z)) zones).get? k = zones.get? k := by
  induction added generalizing zones with
  | nil => exact .inr ⟨nofun, rfl⟩
  | cons first rest ih =>
    rcases ih (zones.insert first.key (f first)) with ⟨z, hz, hk, hget⟩ | ⟨hne, hget⟩
    · exact .inl ⟨z, List.mem_cons_of_mem _ hz, hk, hget⟩
    · by_cases hk : first.key = k
      · subst hk
        exact .inl ⟨first, List.mem_cons_self, rfl, hget.trans (OrderedMap.get?_insert_self ..)⟩
      · refine .inr ⟨?_, hget.trans (OrderedMap.get?_insert_of_ne _ _ (Ne.symm hk))⟩
        intro z hz
        rcases List.mem_cons.mp hz with rfl | hz
        · exact hk
        · exact hne z hz

private theorem mem_admitted : z ∈ l.admitted fresh ↔
    (∃ k, fresh.get? k = some z) ∧ l.get? z.key = none := by
  simp [admitted, all, OrderedMap.mem_values, get?, OrderedMap.contains]

/-- The list after new zones have been added has its own zones, and then those. -/
theorem get?_addNew (counts : MergeCounts) (time : FileTime)
    (hkeyed : ∀ {k z}, fresh.get? k = some z → z.key = k) (k : ZoneKey) :
    (l.addNew fresh counts time).get? k =
      (l.get? k).or ((fresh.get? k).map (·.withStatus .added)) := by
  rcases get?_foldl_insert (l.admitted fresh) l.zones (·.withStatus .added) k with
    ⟨z, hz, rfl, hget⟩ | ⟨hnew, hget⟩
  · obtain ⟨⟨k, hfresh⟩, hnone⟩ := mem_admitted.mp hz
    rw [← hkeyed hfresh] at hfresh
    rw [hnone, hfresh]
    exact hget
  · refine hget.trans ?_
    change l.get? k = _
    cases hk : l.get? k with
    | some z => rfl
    | none =>
      cases hfresh : fresh.get? k with
      | none => rfl
      | some z =>
        have hkey := hkeyed hfresh
        exact absurd hkey (hnew z (mem_admitted.mpr ⟨⟨k, hfresh⟩, hkey ▸ hk⟩))

/-- Reconciling a zone changes nothing but its status and its description. -/
theorem keep_cases (fresh : ZoneList) (key : ZoneKey) (z : Zone) : ∃ status,
    fresh.keep key z = z.withStatus status ∨
      ∃ new, fresh.keep key z = (z.adopt new).withStatus status := by
  unfold keep Zone.reconcile
  split
  · next new _ =>
    dsimp only
    split <;> split
    · exact ⟨.updated, .inl rfl⟩
    · exact ⟨.updated, .inr ⟨new, rfl⟩⟩
    · exact ⟨z.status, .inl rfl⟩
    · exact ⟨z.status, .inr ⟨new, rfl⟩⟩
  · exact ⟨.removed, .inl rfl⟩

/-- Reconciliation with a fresh list leaves a zone its record. -/
theorem sameRecord_keep (fresh : ZoneList) (key : ZoneKey) (z : Zone) :
    z.SameRecord (fresh.keep key z) := by
  obtain ⟨_, he | ⟨_, he⟩⟩ := fresh.keep_cases key z <;> rw [he] <;> exact ⟨rfl, rfl⟩

end ZoneList

namespace Pool

variable {σ : Type} {p p' q : Pool σ} {y z : Zone} {k : ZoneKey}

/-- The zone is the present state of a record, be it listed or retired. -/
def Has (p : Pool σ) (z : Zone) : Prop := (∃ k, p.zones.get? k = some z) ∨ z ∈ p.retired

/-- Every record has one present state, in one place. -/
structure Recorded (p : Pool σ) : Prop where
  keyed : ∀ {k z}, p.zones.get? k = some z → z.key = k
  listed_eq : ∀ {k l y z}, p.zones.get? k = some y → p.zones.get? l = some z →
    y.record = z.record → k = l
  retired_eq : ∀ {y z}, y ∈ p.retired → z ∈ p.retired → y.record = z.record → y = z
  apart : ∀ {k y z}, p.zones.get? k = some y → z ∈ p.retired → y.record ≠ z.record
  numbered : ∀ {z}, p.Has z → z.record < p.zones.made

/-- The records of `p` are still there in `p'`, each in a state that `R` allows, and those that are
new in `p'` have new numbers. A record with a key in `gone` may retire, but it is never listed
again. -/
structure Follows (R : Zone → Zone → Prop) (gone : ZoneKey → Prop) (p p' : Pool σ) : Prop where
  made_le : p.zones.made ≤ p'.zones.made
  listed : ∀ {k z'}, p'.zones.get? k = some z' →
    (∃ z, p.zones.get? k = some z ∧ z.SameRecord z' ∧ R z z') ∨
    p.zones.get? k = none ∧ z'.key = k ∧ p.zones.made ≤ z'.record ∧
      z'.record < p'.zones.made ∧ z'.state.config = none
  stays : ∀ {k}, ¬ gone k → p'.zones.get? k = none → p.zones.get? k = none
  new_eq : ∀ {k l y z}, p'.zones.get? k = some y → p'.zones.get? l = some z →
    p.zones.get? k = none → p.zones.get? l = none → y.record = z.record → k = l
  retired : ∀ {z'}, z' ∈ p'.retired → ∃ z, z.SameRecord z' ∧
    (z ∈ p.retired ∨ p.zones.get? z.key = some z ∧ p'.zones.get? z.key = none)
  retired_eq : ∀ {y z}, y ∈ p'.retired → z ∈ p'.retired → y.record = z.record → y = z
  carried : ∀ {z}, p.Has z → ∃ z', p'.Has z' ∧ z.SameRecord z' ∧ R z z'

namespace Recorded

/-- A record has one present state. -/
theorem eq_of_record_eq (h : p.Recorded) (hy : p.Has y) (hz : p.Has z)
    (hr : y.record = z.record) : y = z := by
  rcases hy with ⟨k, hy⟩ | hy <;> rcases hz with ⟨l, hz⟩ | hz
  · obtain rfl := h.listed_eq hy hz hr
    exact Option.some.inj (hy.symm.trans hz)
  · exact absurd hr (h.apart hy hz)
  · exact absurd hr.symm (h.apart hz hy)
  · exact h.retired_eq hy hz hr

/-- A listed zone is listed at its own key. -/
theorem get?_key (h : p.Recorded) (hz : p.zones.get? k = some z) :
    p.zones.get? z.key = some z := by
  rw [h.keyed hz]
  exact hz

/-- Where records only change, each one still has one present state. -/
theorem follows (h : p.Recorded) {R : Zone → Zone → Prop} {gone : ZoneKey → Prop}
    (hf : p.Follows R gone p') :
    p'.Recorded := by
  have hold {k : ZoneKey} {z' : Zone} (hz' : p'.zones.get? k = some z') :
      (∃ z, p.zones.get? k = some z ∧ z.SameRecord z') ∨
        p.zones.get? k = none ∧ p.zones.made ≤ z'.record := by
    rcases hf.listed hz' with ⟨z, hz, hsame, -⟩ | ⟨hk, -, hmade, -⟩
    · exact .inl ⟨z, hz, hsame⟩
    · exact .inr ⟨hk, hmade⟩
  have hlt {k : ZoneKey} {z : Zone} (hz : p.zones.get? k = some z) : z.record < p.zones.made :=
    h.numbered (.inl ⟨k, hz⟩)
  constructor
  case keyed =>
    intro k z' hz'
    rcases hf.listed hz' with ⟨z, hz, hsame, -⟩ | ⟨-, hkey, -⟩
    · exact hsame.1.trans (h.keyed hz)
    · exact hkey
  case listed_eq =>
    intro k l y' z' hy' hz' hr
    rcases hold hy' with ⟨y, hy, hysame⟩ | ⟨hk, hyn⟩ <;>
      rcases hold hz' with ⟨z, hz, hzsame⟩ | ⟨hl, hzn⟩
    · exact h.listed_eq hy hz (hysame.2.symm.trans (hr.trans hzsame.2))
    · have hylt := hlt hy
      have hyr := hysame.2
      omega
    · have hzlt := hlt hz
      have hzr := hzsame.2
      omega
    · exact hf.new_eq hy' hz' hk hl hr
  case retired_eq => exact hf.retired_eq
  case apart =>
    intro k y' z' hy' hz' hr
    obtain ⟨z, hzsame, hz⟩ := hf.retired hz'
    rcases hold hy' with ⟨y, hy, hysame⟩ | ⟨-, hyn⟩
    · have hyz : y.record = z.record := hysame.2.symm.trans (hr.trans hzsame.2)
      rcases hz with hz | ⟨hz, hgone⟩
      · exact h.apart hy hz hyz
      · rw [← h.listed_eq hy hz hyz, hy'] at hgone
        cases hgone
    · have hzhas : p.Has z := hz.elim .inr fun hz => .inl ⟨_, hz.1⟩
      have hzlt := h.numbered hzhas
      have hzr := hzsame.2
      omega
  case numbered =>
    have hle := hf.made_le
    rintro z' (⟨k, hz'⟩ | hz')
    · rcases hf.listed hz' with ⟨z, hz, hsame, -⟩ | ⟨-, -, -, hnew, -⟩
      · have hzlt := hlt hz
        have hzr := hsame.2
        omega
      · exact hnew
    · obtain ⟨z, hsame, hz⟩ := hf.retired hz'
      have hzhas : p.Has z := hz.elim .inr fun hz => .inl ⟨_, hz.1⟩
      have hzlt := h.numbered hzhas
      have hzr := hsame.2
      omega

end Recorded

namespace Follows

variable {R S : Zone → Zone → Prop} {gone : ZoneKey → Prop}

/-- How records change depends on the listed and the retired ones, and on how many there are. -/
theorem congr (h : p.Follows R gone p') (hget : ∀ k, q.zones.get? k = p'.zones.get? k)
    (hmade : q.zones.made = p'.zones.made) (hretired : q.retired = p'.retired) :
    p.Follows R gone q where
  made_le := hmade ▸ h.made_le
  listed := by
    intro k z' hz'
    rw [hget] at hz'
    rw [hmade]
    exact h.listed hz'
  stays := by
    intro k hk hnone
    rw [hget] at hnone
    exact h.stays hk hnone
  new_eq := by
    intro k l y z hy hz
    rw [hget] at hy hz
    exact h.new_eq hy hz
  retired := by
    intro z' hz'
    rw [hretired] at hz'
    simp only [hget]
    exact h.retired hz'
  retired_eq := hretired ▸ h.retired_eq
  carried := by
    unfold Has
    simp only [hget, hretired]
    exact h.carried

/-- A record stays listed under its key as long as that may not leave. -/
theorem listed_stays (h : p.Follows R gone p') (hk : ¬ gone k) (hz : p.zones.get? k = some z) :
    ∃ z', p'.zones.get? k = some z' ∧ z.SameRecord z' ∧ R z z' := by
  cases hz' : p'.zones.get? k with
  | none =>
    rw [h.stays hk hz'] at hz
    cases hz
  | some z' =>
    refine ⟨z', rfl, ?_⟩
    rcases h.listed hz' with ⟨y, hy, hsame, hR⟩ | ⟨hnone, -⟩
    · obtain rfl := Option.some.inj (hz.symm.trans hy)
      exact ⟨hsame, hR⟩
    · rw [hz] at hnone
      cases hnone

/-- Every record stays where it is. -/
theorem of_map (h : p.Recorded) {g : ZoneKey → Zone → Zone} {r : Zone → Zone}
    (hzones : ∀ k, p'.zones.get? k = (p.zones.get? k).map (g k))
    (hretired : p'.retired = p.retired.map r) (hmade : p'.zones.made = p.zones.made)
    (hg : ∀ {k z}, p.zones.get? k = some z → z.SameRecord (g k z) ∧ R z (g k z))
    (hr : ∀ {z}, z ∈ p.retired → z.SameRecord (r z) ∧ R z (r z)) : p.Follows R gone p' where
  made_le := Nat.le_of_eq hmade.symm
  listed := by
    intro k z' hz'
    rw [hzones, Option.map_eq_some_iff] at hz'
    obtain ⟨z, hz, rfl⟩ := hz'
    exact .inl ⟨z, hz, hg hz⟩
  stays := by
    intro k _ hnone
    rwa [hzones, Option.map_eq_none_iff] at hnone
  new_eq := by
    intro k l y z hy hz hk
    rw [hzones, hk] at hy
    cases hy
  retired := by
    intro z' hz'
    rw [hretired, List.mem_map] at hz'
    obtain ⟨z, hz, rfl⟩ := hz'
    exact ⟨z, (hr hz).1, .inl hz⟩
  retired_eq := by
    intro y z hy hz heq
    rw [hretired, List.mem_map] at hy hz
    obtain ⟨y, hy, rfl⟩ := hy
    obtain ⟨z, hz, rfl⟩ := hz
    rw [h.retired_eq hy hz ((hr hy).1.2.symm.trans (heq.trans (hr hz).1.2))]
  carried := by
    rintro z (⟨k, hz⟩ | hz)
    · exact ⟨g k z, .inl ⟨k, by rw [hzones, hz]; rfl⟩, hg hz⟩
    · exact ⟨r z, .inr (hretired ▸ List.mem_map_of_mem hz), hr hz⟩

/-- Where no record is touched, all have changed as they may if they may stay as they are. -/
protected theorem refl (h : p.Recorded) (hR : ∀ z, R z z) (hzones : p'.zones = p.zones)
    (hretired : p'.retired = p.retired) : p.Follows R gone p' := by
  refine of_map h (g := fun _ z => z) (r := id) ?_ ?_ ?_ ?_ ?_
  · simp [hzones]
  · simp [hretired]
  · rw [hzones]
  · exact fun _ => ⟨.refl _, hR _⟩
  · exact fun _ => ⟨.refl _, hR _⟩

/-- One zone of the list changes. -/
theorem alter (h : p.Recorded) (hR : ∀ z, R z z) (key : ZoneKey) {f : Zone → Zone}
    (hf : ∀ z, z.SameRecord (f z) ∧ R z (f z)) (hzones : p'.zones = p.zones.alter key f)
    (hretired : p'.retired = p.retired) : p.Follows R gone p' := by
  refine of_map h (g := fun k z => if k = key then f z else z) (r := id) ?_ ?_ ?_ ?_ ?_
  · intro k
    rw [hzones]
    exact p.zones.get?_alter key f k
  · simp [hretired]
  · rw [hzones]
    rfl
  · intro k z _
    split
    · exact hf z
    · exact ⟨.refl z, hR z⟩
  · exact fun _ => ⟨.refl _, hR _⟩

/-- To change the state of a listed record changes the list at its key. -/
theorem setState_of_listed (h : p.Recorded) (hz : p.zones.get? k = some z) (s : ZoneState) :
    p.setState z s = { p with zones := p.zones.put { z with state := s } } := by
  simp [Pool.setState, h.get?_key hz]

/-- The state of one record is set, wherever the record is. -/
theorem setState (h : p.Recorded) (hR : ∀ z, R z z) (hz : p.Has z) {s : ZoneState}
    (hs : R z { z with state := s }) : p.Follows R gone (p.setState z s) := by
  rcases hz with ⟨k, hlisted⟩ | hretired
  · have hkey := h.get?_key hlisted
    rw [setState_of_listed h hlisted]
    refine of_map h (g := fun k y => if k = z.key then { z with state := s } else y) (r := id)
      ?_ ?_ rfl ?_ ?_
    · intro k
      rw [ZoneList.get?_put]
      by_cases hk : k = z.key
      · simp [hk, hkey]
      · simp [hk]
    · simp
    · intro k y hy
      split
      · next hk =>
        subst hk
        obtain rfl := Option.some.inj (hkey.symm.trans hy)
        exact ⟨⟨rfl, rfl⟩, hs⟩
      · exact ⟨.refl y, hR y⟩
    · exact fun _ => ⟨.refl _, hR _⟩
  · have hany : (p.zones.get? z.key).any (·.record == z.record) = false := by
      cases hy : p.zones.get? z.key with
      | none => rfl
      | some y => simpa using h.apart hy hretired
    have hset : p.setState z s = { p with retired := p.retired.map fun y =>
        if y.record = z.record then { z with state := s } else y } := by
      simp [Pool.setState, hany]
    rw [hset]
    refine of_map h (g := fun _ y => y) ?_ rfl rfl ?_ ?_
    · simp
    · exact fun _ => ⟨.refl _, hR _⟩
    · intro y hy
      split
      · next hr =>
        obtain rfl := h.retired_eq hy hretired hr
        exact ⟨⟨rfl, rfl⟩, hs⟩
      · exact ⟨.refl y, hR y⟩

/-- Some of the listed records retire. -/
theorem of_leave (h : p.Recorded) (hR : ∀ z, R z z)
    (hstay : ∀ {k}, ¬ gone k → p'.zones.get? k = p.zones.get? k)
    (hgone : ∀ {k}, gone k → p'.zones.get? k = none)
    (hretired : ∀ {z}, z ∈ p'.retired ↔ z ∈ p.retired ∨ ∃ k, gone k ∧ p.zones.get? k = some z)
    (hmade : p'.zones.made = p.zones.made) : p.Follows R gone p' := by
  have hold {k : ZoneKey} {z : Zone} (hz : p'.zones.get? k = some z) :
      p.zones.get? k = some z := by
    by_cases hk : gone k
    · rw [hgone hk] at hz
      cases hz
    · rw [← hstay hk]
      exact hz
  have hhas {z : Zone} (hz : z ∈ p'.retired) : p.Has z := by
    rcases hretired.mp hz with hz | ⟨k, -, hz⟩
    · exact .inr hz
    · exact .inl ⟨k, hz⟩
  constructor
  case made_le => exact Nat.le_of_eq hmade.symm
  case listed => exact fun hz => .inl ⟨_, hold hz, .refl _, hR _⟩
  case stays =>
    intro k hk hnone
    rwa [hstay hk] at hnone
  case new_eq =>
    intro k l y z hy hz hk
    rw [hold hy] at hk
    cases hk
  case retired =>
    intro z hz
    refine ⟨z, .refl z, ?_⟩
    rcases hretired.mp hz with hz | ⟨k, hk, hz⟩
    · exact .inl hz
    · refine .inr ⟨h.get?_key hz, ?_⟩
      rw [h.keyed hz]
      exact hgone hk
  case retired_eq => exact fun hy hz hr => h.eq_of_record_eq (hhas hy) (hhas hz) hr
  case carried =>
    rintro z (⟨k, hz⟩ | hz)
    · by_cases hk : gone k
      · exact ⟨z, .inr (hretired.mpr (.inr ⟨k, hk, hz⟩)), .refl z, hR z⟩
      · exact ⟨z, .inl ⟨k, (hstay hk).trans hz⟩, .refl z, hR z⟩
    · exact ⟨z, .inr (hretired.mpr (.inl hz)), .refl z, hR z⟩

/-- To evict zones retires their records and changes no other ones. -/
theorem evict (h : p.Recorded) (hR : ∀ z, R z z) (doomed : List ZoneKey) :
    p.Follows R (· ∈ doomed) (p.evict doomed) := by
  have hget (k : ZoneKey) : (p.evict doomed).zones.get? k =
      (p.zones.get? k).filter fun _ => decide (k ∉ doomed) := OrderedMap.get?_filter _ _ _
  refine of_leave h hR ?_ ?_ ?_ rfl
  · intro k hk
    rw [hget]
    cases p.zones.get? k <;> simp [hk]
  · intro k hk
    rw [hget]
    cases p.zones.get? k <;> simp [hk]
  · intro z
    simp only [Pool.evict, List.mem_append, OrderedMap.mem_values, OrderedMap.get?_filter,
      Option.filter_eq_some_iff, decide_eq_true_eq]
    simp [ZoneList.get?, and_comm]

/-- The zones of a fresh list that are not listed are added. -/
theorem addNew (h : p.Recorded) (hR : ∀ z, R z z) {fresh : ZoneList}
    (hfresh : fresh.FreshFrom p.zones.made) {counts : MergeCounts} {time : FileTime}
    (hzones : p'.zones = p.zones.addNew fresh counts time) (hretired : p'.retired = p.retired) :
    p.Follows R gone p' := by
  have hget (k : ZoneKey) := ZoneList.get?_addNew (l := p.zones) counts time hfresh.keyed k
  rw [← hzones] at hget
  have hmade : p'.zones.made = fresh.made := by
    rw [hzones]
    rfl
  have hnew {k : ZoneKey} {z' : Zone} (hz' : p'.zones.get? k = some z')
      (hk : p.zones.get? k = none) :
      ∃ z, fresh.get? k = some z ∧ z' = z.withStatus .added := by
    rw [hget, hk, Option.none_or, Option.map_eq_some_iff] at hz'
    obtain ⟨z, hz, rfl⟩ := hz'
    exact ⟨z, hz, rfl⟩
  have hold {k : ZoneKey} {z : Zone} (hz : p.zones.get? k = some z) :
      p'.zones.get? k = some z := by
    rw [hget, hz]
    rfl
  constructor
  case made_le => exact hmade ▸ hfresh.made_le
  case listed =>
    intro k z' hz'
    cases hk : p.zones.get? k with
    | none =>
      obtain ⟨z, hz, rfl⟩ := hnew hz' hk
      have hkey : z.key = k := hfresh.keyed hz
      have hnumber := hfresh.numbered hz
      have hnone : z.state.config = none := hfresh.unloaded hz
      exact .inr ⟨rfl, hkey, hnumber.1, hmade ▸ hnumber.2, hnone⟩
    | some z =>
      obtain rfl := Option.some.inj ((hold hk).symm.trans hz')
      exact .inl ⟨z, rfl, .refl z, hR z⟩
  case stays =>
    intro k _ hnone
    rw [hget, Option.or_eq_none_iff] at hnone
    exact hnone.1
  case new_eq =>
    intro k l y' z' hy' hz' hk hl hr
    obtain ⟨y, hy, rfl⟩ := hnew hy' hk
    obtain ⟨z, hz, rfl⟩ := hnew hz' hl
    exact hfresh.listed_eq hy hz hr
  case retired =>
    intro z hz
    exact ⟨z, .refl z, .inl (hretired ▸ hz)⟩
  case retired_eq => exact hretired ▸ h.retired_eq
  case carried =>
    rintro z (⟨k, hz⟩ | hz)
    · exact ⟨z, .inl ⟨k, hold hz⟩, .refl z, hR z⟩
    · exact ⟨z, .inr (hretired ▸ hz), .refl z, hR z⟩

end Follows

end Pool

end ZoneSigning
