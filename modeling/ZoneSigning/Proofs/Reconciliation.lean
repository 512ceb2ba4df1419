import ZoneSigning.Proofs.DuePasses

/-!
Reconciliation of a list of zones with a fresh one, key by key: which zones are listed afterwards,
what each of them is, and what is counted. Both lists are in the order of their keys, and a single
walk along them, with a cursor in each, finds all of it.
-/
namespace ZoneSigning

namespace Zone

/-- What the inventory says of a zone, with its paths by their components. -/
structure Description where
  policy : String
  config : List String
  input : String × List String
  output : String × List String
deriving DecidableEq

def description (z : Zone) : Description where
  policy := z.state.policy
  config := z.state.configPath.components
  input := (z.state.input.kind, z.state.input.path.components)
  output := (z.state.output.kind, z.state.output.path.components)

private theorem agrees_iff {y z : Zone} : y.agrees z ↔ y.description = z.description := by
  simp only [agrees, Endpoint.agrees, Path.agrees, description, Description.mk.injEq, Prod.mk.injEq,
    Bool.and_eq_true, beq_iff_eq, and_assoc]

private theorem description_adopt (z fresh : Zone) : (z.adopt fresh).description = fresh.description := rfl

@[simp] theorem description_withStatus (z : Zone) (s : ZoneStatus) :
    (z.withStatus s).description = z.description := rfl

@[simp] theorem status_withStatus (z : Zone) (s : ZoneStatus) : (z.withStatus s).status = s := rfl

private theorem isUpdatedBy_iff {z fresh : Zone} :
    z.isUpdatedBy fresh ↔ z.description ≠ fresh.description ∨ z.status = .removed := by
  rw [isUpdatedBy, Bool.or_eq_true, Bool.not_eq_true', ← Bool.not_eq_true, agrees_iff, beq_iff_eq]

/-- A zone that reconciliation changes takes over what the fresh record says, and is updated. -/
theorem reconcile_eq (z fresh : Zone) : z.reconcile fresh =
    if z.isUpdatedBy fresh then (if z.agrees fresh then z else z.adopt fresh).withStatus .updated
    else z := by
  unfold reconcile
  by_cases hsame : z.agrees fresh
  · simp only [hsame, if_true]
  · have hchanged : z.isUpdatedBy fresh = true := by simp [isUpdatedBy, hsame]
    simp only [hsame, hchanged, if_true]

private theorem description_reconcile (z fresh : Zone) :
    (z.reconcile fresh).description = fresh.description := by
  rw [reconcile_eq]
  split
  · split
    · next hsame => exact agrees_iff.mp hsame
    · exact description_adopt z fresh
  · next hkept =>
    rw [isUpdatedBy_iff, not_or, not_not] at hkept
    exact hkept.1

private theorem status_reconcile (z fresh : Zone) : (z.reconcile fresh).status =
    if z.isUpdatedBy fresh then .updated else z.status := by
  rw [reconcile_eq]
  split <;> rfl

/-- Nothing but the status and what the inventory says is touched. -/
structure KeepsOwn (z z' : Zone) : Prop where
  key_eq : z'.key = z.key
  record_eq : z'.record = z.record
  config_eq : z'.state.config = z.state.config
  db_eq : z'.state.db = z.state.db
  defaultTtl_eq : z'.state.defaultTtl = z.state.defaultTtl

private theorem keepsOwn_reconcile (z fresh : Zone) : z.KeepsOwn (z.reconcile fresh) := by
  rw [reconcile_eq]
  split
  · split <;> exact ⟨rfl, rfl, rfl, rfl, rfl⟩
  · exact ⟨rfl, rfl, rfl, rfl, rfl⟩

private theorem reconcile_eq_self {z fresh : Zone} (h : z.description = fresh.description)
    (hlive : z.status ≠ .removed) : z.reconcile fresh = z := by
  rw [reconcile_eq, if_neg]
  rw [isUpdatedBy_iff, not_or, not_not]
  exact ⟨h, hlive⟩

private theorem withStatus_eq_self {z : Zone} {s : ZoneStatus} (h : z.status = s) : z.withStatus s = z := by
  subst h
  rfl

end Zone

namespace ZoneList

variable {l l' fresh : ZoneList} {k : ZoneKey} {z new : Zone}

def Keyed (l : ZoneList) : Prop := ∀ ⦃k z⦄, l.get? k = some z → z.key = k

/-- In a list that is made of entries every zone stands at its own key. -/
theorem keyed_ofEntries (made : Nat) (entries : List ZoneEntry) : (ofEntries made entries).Keyed :=
  fun _ _ hz => (freshFrom_ofEntries made entries).keyed hz

/-- A listed zone is found at its key. -/
theorem Keyed.get?_of_mem (hl : l.Keyed) (hz : z ∈ l.all) : l.get? z.key = some z := by
  obtain ⟨k, hk⟩ := OrderedMap.mem_values.mp hz
  exact hl hk ▸ hk

/-- After a reconciliation every zone stands at its own key. -/
theorem Keyed.merge (hl : l.Keyed) (hfresh : fresh.Keyed) : (l.merge fresh).Keyed := by
  intro k z hz
  rw [get?_merge l (fun h => hfresh h), Option.or_eq_some_iff] at hz
  rcases hz with hz | ⟨-, hz⟩
  · obtain ⟨y, hy, rfl⟩ := Option.map_eq_some_iff.mp hz
    exact (fresh.sameRecord_keep k y).1.trans (hl hy)
  · obtain ⟨y, hy, rfl⟩ := Option.map_eq_some_iff.mp hz
    have hkey : y.key = k := hfresh hy
    exact hkey

/-- When all zones are settled, each one has a settled status. -/
theorem get?_settle (l : ZoneList) (k : ZoneKey) :
    l.settle.get? k = (l.get? k).map fun z => z.withStatus z.status.settled :=
  OrderedMap.get?_mapValues _ _ _

/-- When all zones are settled, each one stands at its own key. -/
theorem Keyed.settle (hl : l.Keyed) : l.settle.Keyed := by
  intro k z hz
  rw [get?_settle, Option.map_eq_some_iff] at hz
  obtain ⟨y, hy, rfl⟩ := hz
  have hkey : y.key = k := hl hy
  exact hkey

/-- What a walk along two lists finds: what becomes of the zones of the one, the records that only
the other has, and how many zones are updated and removed. -/
structure Walk where
  kept : List (ZoneKey × Zone) := []
  admitted : List (ZoneKey × Zone)
  updated : Nat := 0
  removed : Nat := 0

namespace Walk

def after (w : Walk) (passed : List (ZoneKey × Zone)) (e : ZoneKey × Zone)
    (updated removed : Bool) : Walk where
  kept := e :: w.kept
  admitted := passed ++ w.admitted
  updated := w.updated + if updated then 1 else 0
  removed := w.removed + if removed then 1 else 0

/-- Walk along the zones of a list and the records that come in, both in the order of their keys:
the records with smaller keys than the next zone are new, and then a record with the zone's key is
next, or there is none. -/
def along : List (ZoneKey × Zone) → List (ZoneKey × Zone) → Walk
  | [], incoming => { admitted := incoming }
  | (key, z) :: zones, incoming =>
    let passed := incoming.takeWhile fun e => compare e.1 key == .lt
    match incoming.dropWhile fun e => compare e.1 key == .lt with
    | [] => (along zones []).after passed (key, z.withStatus .removed) false (z.status != .removed)
    | (newKey, new) :: later =>
      if newKey = key then
        (along zones later).after passed (key, z.reconcile new) (z.isUpdatedBy new) false
      else
        (along zones ((newKey, new) :: later)).after passed (key, z.withStatus .removed) false
          (z.status != .removed)

end Walk

def join (l fresh : ZoneList) : ZoneList :=
  let w := Walk.along l.zones.toList fresh.zones.toList
  { zones := w.admitted.foldl (fun zs e => zs.insert e.1 (e.2.withStatus .added))
      (OrderedMap.ofList w.kept)
    modified := l.modified
    counts := { added := w.admitted.length, updated := w.updated, removed := w.removed }
    made := fresh.made }

namespace Walk

variable {key : ZoneKey} {zones incoming : List (ZoneKey × Zone)}

/-- What a walk has found, told by what is beside each key in the other list. -/
structure Found (zones incoming : List (ZoneKey × Zone)) (w : Walk) : Prop where
  kept : w.kept = zones.map fun e => (e.1, match OrderedMap.lookup e.1 incoming with
    | some new => e.2.reconcile new
    | none => e.2.withStatus .removed)
  admitted : w.admitted = incoming.filter fun e => (OrderedMap.lookup e.1 zones).isNone
  updated : w.updated = zones.countP fun e => (OrderedMap.lookup e.1 incoming).any e.2.isUpdatedBy
  removed : w.removed = zones.countP fun e =>
    (OrderedMap.lookup e.1 incoming).isNone && e.2.status != .removed

private theorem lookup_append (k : ZoneKey) (xs ys : List (ZoneKey × Zone)) :
    OrderedMap.lookup k (xs ++ ys) = (OrderedMap.lookup k xs).or (OrderedMap.lookup k ys) := by
  induction xs with
  | nil => rfl
  | cons x xs ih =>
    simp only [List.cons_append, OrderedMap.lookup, ih]
    split <;> rfl

private theorem lookup_eq_none {xs : List (ZoneKey × Zone)} (h : ∀ e ∈ xs, e.1 ≠ k) :
    OrderedMap.lookup k xs = none := by
  induction xs with
  | nil => rfl
  | cons x xs ih =>
    obtain ⟨hx, hxs⟩ := List.forall_mem_cons.mp h
    rw [OrderedMap.lookup, if_neg, ih hxs]
    exact fun heq => hx (Std.LawfulEqCmp.eq_of_compare heq).symm

private theorem ne_of_lt {a b : ZoneKey} (h : compare a b = .lt) : a ≠ b := by
  rintro rfl
  simp at h

section Step

-- Some records have smaller keys than the next zone, there is a record with the zone's key or not,
-- and the others come behind.
variable {passed later : List (ZoneKey × Zone)} (hpassed : ∀ e ∈ passed, compare e.1 key = .lt)
include hpassed

private theorem lookup_here (hlater : ∀ e ∈ later, compare key e.1 = .lt) (hit : Option Zone) :
    OrderedMap.lookup key (passed ++ (hit.toList.map fun new => (key, new)) ++ later) = hit := by
  have hbefore := lookup_eq_none fun e he => ne_of_lt (hpassed e he)
  have hbehind := lookup_eq_none fun e he => (ne_of_lt (hlater e he)).symm
  rw [lookup_append, lookup_append, hbefore, hbehind, Option.none_or, Option.or_none]
  cases hit <;> simp [OrderedMap.lookup]

private theorem lookup_behind (hk : compare key k = .lt) (hit : Option Zone) :
    OrderedMap.lookup k (passed ++ (hit.toList.map fun new => (key, new)) ++ later) =
      OrderedMap.lookup k later := by
  rw [lookup_append, lookup_eq_none, Option.none_or]
  intro e he
  rcases List.mem_append.mp he with he | he
  · exact ne_of_lt (Std.TransCmp.lt_trans (hpassed e he) hk)
  · obtain ⟨new, -, rfl⟩ := List.mem_map.mp he
    exact ne_of_lt hk

/-- One step of the walk: the next zone gets its record, or is gone, and the walk goes on behind. -/
theorem Found.after {w : Walk} (hzones : ∀ e ∈ zones, compare key e.1 = .lt)
    (hlater : ∀ e ∈ later, compare key e.1 = .lt) (hw : Found zones later w) (hit : Option Zone) :
    Found ((key, z) :: zones) (passed ++ (hit.toList.map fun new => (key, new)) ++ later)
      (w.after passed
        (key, match hit with
          | some new => z.reconcile new
          | none => z.withStatus .removed)
        (hit.any z.isUpdatedBy) (hit.isNone && z.status != .removed)) := by
  have hhere := lookup_here hpassed hlater hit
  have hbehind (e) (he : e ∈ zones) :
      OrderedMap.lookup e.1 (passed ++ (hit.toList.map fun new => (key, new)) ++ later) =
        OrderedMap.lookup e.1 later := lookup_behind hpassed (hzones e he) hit
  constructor
  case kept =>
    simp only [Walk.after, List.map_cons, hhere, hw.kept]
    congr 1
    refine List.map_congr_left fun e he => ?_
    rw [hbehind e he]
  case admitted =>
    have hnew : (passed.filter fun e => (OrderedMap.lookup e.1 ((key, z) :: zones)).isNone) =
        passed := by
      refine List.filter_eq_self.mpr fun e he => ?_
      rw [OrderedMap.lookup_eq_none_of_lt]
      · rfl
      · intro e' he'
        rcases List.mem_cons.mp he' with rfl | he'
        · exact hpassed e he
        · exact Std.TransCmp.lt_trans (hpassed e he) (hzones e' he')
    have hknown : ((hit.toList.map fun new => (key, new)).filter fun e =>
        (OrderedMap.lookup e.1 ((key, z) :: zones)).isNone) = [] := by
      cases hit <;> simp [OrderedMap.lookup]
    simp only [Walk.after, List.filter_append, hnew, hknown, List.append_nil, hw.admitted]
    congr 1
    refine List.filter_congr fun e he => ?_
    rw [OrderedMap.lookup, if_neg]
    exact fun heq => ne_of_lt (hlater e he) (Std.LawfulEqCmp.eq_of_compare heq).symm
  case updated =>
    simp only [Walk.after, List.countP_cons, hhere, hw.updated]
    congr 1
    refine List.countP_congr fun e he => ?_
    rw [hbehind e he]
  case removed =>
    simp only [Walk.after, List.countP_cons, hhere, hw.removed]
    congr 1
    refine List.countP_congr fun e he => ?_
    rw [hbehind e he]

end Step

private theorem found_along (hzones : zones.Pairwise fun a b => compare a.1 b.1 = .lt)
    (hincoming : incoming.Pairwise fun a b => compare a.1 b.1 = .lt) :
    Found zones incoming (along zones incoming) := by
  induction zones generalizing incoming with
  | nil =>
    refine ⟨rfl, ?_, rfl, rfl⟩
    exact (List.filter_eq_self.mpr fun _ _ => rfl).symm
  | cons e zones ih =>
    obtain ⟨key, z⟩ := e
    obtain ⟨hkey, hrest⟩ := List.pairwise_cons.mp hzones
    have hpassed (e) (he : e ∈ incoming.takeWhile fun e => compare e.1 key == .lt) :
        compare e.1 key = .lt := by simpa using List.all_eq_true.mp List.all_takeWhile e he
    have hsplit := List.takeWhile_append_dropWhile (p := fun e => compare e.1 key == .lt)
      (l := incoming)
    have hahead := hincoming.sublist (List.dropWhile_sublist fun e => compare e.1 key == .lt)
    rw [along]
    split
    · next hnil =>
      have hfound := (ih hrest .nil).after (z := z) hpassed hkey (List.forall_mem_nil _) none
      rw [hnil] at hsplit
      rwa [Option.toList_none, List.map_nil, List.append_nil, hsplit] at hfound
    · next newKey new later hcons =>
      rw [hcons] at hsplit hahead
      obtain ⟨hlater, hsorted⟩ := List.pairwise_cons.mp hahead
      have hnot : compare newKey key ≠ .lt := by
        have := List.head?_dropWhile_not (fun e => compare e.1 key == .lt) incoming
        rw [hcons] at this
        simpa using this
      split
      · next heq =>
        obtain rfl : newKey = key := heq
        have hfound := (ih hrest hsorted).after (z := z) hpassed hkey hlater (some new)
        rwa [Option.toList_some, List.map_singleton, List.append_assoc, List.singleton_append,
          hsplit] at hfound
      · next hne =>
        have hfirst : compare key newKey = .lt := by
          rw [← Std.OrientedCmp.gt_iff_lt]
          cases hcmp : compare newKey key with
          | lt => exact absurd hcmp hnot
          | eq => exact absurd (Std.LawfulEqCmp.eq_of_compare hcmp) hne
          | gt => rfl
        have hall : ∀ e ∈ (newKey, new) :: later, compare key e.1 = .lt := by
          refine List.forall_mem_cons.mpr ⟨hfirst, fun e he => ?_⟩
          exact Std.TransCmp.lt_trans hfirst (hlater e he)
        have hfound := (ih hrest hahead).after (z := z) hpassed hkey hall none
        rwa [Option.toList_none, List.map_nil, List.append_nil, hsplit] at hfound

end Walk

/-- The walk along both lists finds what looking up every key finds. -/
theorem join_eq_merge (hl : l.Keyed) (hfresh : fresh.Keyed) : l.join fresh = l.merge fresh := by
  have hw := Walk.found_along l.zones.ascending fresh.zones.ascending
  have hkept : OrderedMap.ofList (Walk.along l.zones.toList fresh.zones.toList).kept =
      l.zones.mapValues fresh.keep := by
    rw [hw.kept]
    exact OrderedMap.ofList_toList (l.zones.mapValues fresh.keep)
  have hkey (e) (he : e ∈ l.zones.toList) : e.2.key = e.1 :=
    hl (OrderedMap.get?_eq_some_iff.mpr he)
  have hnewKey (e) (he : e ∈ fresh.zones.toList) : e.2.key = e.1 :=
    hfresh (OrderedMap.get?_eq_some_iff.mpr he)
  have hadmitted : l.admitted fresh =
      (Walk.along l.zones.toList fresh.zones.toList).admitted.map (·.2) := by
    rw [hw.admitted, admitted, all, OrderedMap.values, List.filter_map]
    congr 1
    refine List.filter_congr fun e he => ?_
    rw [Function.comp_apply, hnewKey e he, OrderedMap.contains, OrderedMap.get?,
      Option.not_isSome]
  have hupdated : (Walk.along l.zones.toList fresh.zones.toList).updated =
      (l.mergeCounts fresh).updated := by
    simp only [hw.updated, mergeCounts, all, OrderedMap.values, List.countP_map]
    refine List.countP_congr fun e he => ?_
    rw [Function.comp_apply, hkey e he]
    rfl
  have hremoved : (Walk.along l.zones.toList fresh.zones.toList).removed =
      (l.mergeCounts fresh).removed := by
    simp only [hw.removed, mergeCounts, all, OrderedMap.values, List.countP_map]
    refine List.countP_congr fun e he => ?_
    rw [Function.comp_apply, hkey e he]
    rfl
  have hadded : (Walk.along l.zones.toList fresh.zones.toList).admitted.length =
      (l.mergeCounts fresh).added := by
    rw [mergeCounts, hadmitted, List.length_map]
  rw [join, merge, hadded, hupdated, hremoved, hkept, hadmitted, List.foldl_map]
  congr 1
  refine List.foldl_ext _ _ _ fun zones e he => ?_
  rw [hw.admitted] at he
  rw [hnewKey e (List.mem_filter.mp he).1]

def live? (l : ZoneList) (k : ZoneKey) : Option Zone := (l.get? k).filter (·.status != .removed)

private theorem live?_eq_some_iff : l.live? k = some z ↔ l.get? k = some z ∧ z.status ≠ .removed := by
  rw [live?, Option.filter_eq_some_iff, bne_iff_ne]

/-- The fresh list has exactly the live zones, and says the same of them. -/
def Mirrors (l fresh : ZoneList) : Prop :=
  ∀ k, (l.live? k).map Zone.description = (fresh.get? k).map Zone.description

private theorem get?_merge_of_kept (hfresh : fresh.Keyed) (hz : l.get? k = some z)
    (hnew : fresh.get? k = some new) : (l.merge fresh).get? k = some (z.reconcile new) := by
  rw [get?_merge l (fun h => hfresh h), hz, Option.map_some, Option.some_or, keep, hnew]

private theorem get?_merge_of_gone (hfresh : fresh.Keyed) (hz : l.get? k = some z)
    (hnone : fresh.get? k = none) : (l.merge fresh).get? k = some (z.withStatus .removed) := by
  rw [get?_merge l (fun h => hfresh h), hz, Option.map_some, Option.some_or, keep, hnone]

private theorem get?_merge_of_new (hfresh : fresh.Keyed) (hnone : l.get? k = none) :
    (l.merge fresh).get? k = (fresh.get? k).map (·.withStatus .added) := by
  rw [get?_merge l (fun h => hfresh h), hnone, Option.map_none, Option.none_or]

/-- A zone that the fresh list has is not removed. -/
theorem status_reconcile_ne_removed (z new : Zone) : (z.reconcile new).status ≠ .removed := by
  rw [Zone.status_reconcile]
  split
  · nofun
  · next hkept =>
    rw [Zone.isUpdatedBy_iff, not_or] at hkept
    exact hkept.2

/-- After a reconciliation the live zones are those of the fresh list, whatever the list was. -/
theorem mirrors_merge (l : ZoneList) (hfresh : fresh.Keyed) : (l.merge fresh).Mirrors fresh := by
  intro k
  cases hz : l.get? k with
  | none =>
    rw [live?, get?_merge_of_new hfresh hz]
    cases fresh.get? k <;> simp
  | some z =>
    cases hnew : fresh.get? k with
    | none =>
      rw [live?, get?_merge_of_gone hfresh hz hnew]
      simp
    | some new =>
      have hlive : (l.merge fresh).live? k = some (z.reconcile new) :=
        live?_eq_some_iff.mpr
          ⟨get?_merge_of_kept hfresh hz hnew, status_reconcile_ne_removed z new⟩
      rw [hlive, Option.map_some, Option.map_some, Zone.description_reconcile]

namespace Mirrors

/-- A zone that both lists have is live, and both say the same of it. -/
theorem kept (h : l.Mirrors fresh) (hz : l.get? k = some z) (hnew : fresh.get? k = some new) :
    z.status ≠ .removed ∧ z.description = new.description := by
  have hk := h k
  rw [hnew, Option.map_some, Option.map_eq_some_iff] at hk
  obtain ⟨y, hy, hsame⟩ := hk
  obtain ⟨hy, hlive⟩ := live?_eq_some_iff.mp hy
  obtain rfl : z = y := Option.some.inj (hz.symm.trans hy)
  exact ⟨hlive, hsame⟩

/-- A listed zone that the fresh list does not have has been removed. -/
theorem gone (h : l.Mirrors fresh) (hz : l.get? k = some z) (hnone : fresh.get? k = none) :
    z.status = .removed := by
  have hk := h k
  rw [hnone, Option.map_none, Option.map_eq_none_iff] at hk
  by_contra hlive
  rw [live?_eq_some_iff.mpr ⟨hz, hlive⟩] at hk
  cases hk

/-- A zone that is not listed is not in the fresh list either. -/
theorem known (h : l.Mirrors fresh) (hnone : l.get? k = none) : fresh.get? k = none := by
  have hk := h k
  rw [live?, hnone] at hk
  exact Option.map_eq_none_iff.mp hk.symm

private theorem zones_merge (h : l.Mirrors fresh) (hfresh : fresh.Keyed) :
    (l.merge fresh).zones = l.zones := by
  refine OrderedMap.ext_get? fun k => ?_
  change (l.merge fresh).get? k = l.get? k
  cases hz : l.get? k with
  | none => rw [get?_merge_of_new hfresh hz, h.known hz, Option.map_none]
  | some z =>
    cases hnew : fresh.get? k with
    | none => rw [get?_merge_of_gone hfresh hz hnew, Zone.withStatus_eq_self (h.gone hz hnew)]
    | some new =>
      obtain ⟨hlive, hsame⟩ := h.kept hz hnew
      rw [get?_merge_of_kept hfresh hz hnew, Zone.reconcile_eq_self hsame hlive]

/-- There is nothing to count. -/
theorem mergeCounts_eq (h : l.Mirrors fresh) (hl : l.Keyed) (hfresh : fresh.Keyed) :
    l.mergeCounts fresh = {} := by
  rw [mergeCounts, MergeCounts.mk.injEq]
  refine ⟨?_, List.countP_eq_zero.mpr fun z hz => ?_, List.countP_eq_zero.mpr fun z hz => ?_⟩
  · rw [List.length_eq_zero_iff, admitted, List.filter_eq_nil_iff]
    intro z hz
    rw [Bool.not_eq_true', Bool.not_eq_false, OrderedMap.contains, ← Option.not_isNone,
      Bool.not_eq_true', Option.isNone_eq_false_iff, Option.isSome_iff_ne_none]
    intro hnone
    cases (h.known hnone).symm.trans (hfresh.get?_of_mem hz)
  · rw [Option.any_eq_true]
    rintro ⟨new, hnew, hupdated⟩
    obtain ⟨hlive, hsame⟩ := h.kept (hl.get?_of_mem hz) hnew
    exact (Zone.isUpdatedBy_iff.mp hupdated).elim (absurd hsame) (absurd · hlive)
  · rw [Bool.and_eq_true, Option.isNone_iff_eq_none, bne_iff_ne]
    exact fun hremoved => hremoved.2 (h.gone (hl.get?_of_mem hz) hremoved.1)

/-- Reconciling a list with what it mirrors changes only the counts. -/
theorem merge_eq (h : l.Mirrors fresh) (hl : l.Keyed) (hfresh : fresh.Keyed) :
    l.merge fresh = { l with counts := {}, made := fresh.made } := by
  have hmerge : l.merge fresh =
      { zones := (l.merge fresh).zones
        modified := l.modified
        counts := l.mergeCounts fresh
        made := fresh.made } := rfl
  rw [hmerge, h.zones_merge hfresh, h.mergeCounts_eq hl hfresh]

end Mirrors

/-- What there is after a list has been reconciled with a fresh one, key by key. -/
structure Reconciled (l fresh l' : ZoneList) : Prop where
  keyed : l'.Keyed
  modified_eq : l'.modified = l.modified
  /-- The keys of both lists are listed, and no others. -/
  keys : ∀ k, l'.zones.contains k = (l.zones.contains k || fresh.zones.contains k)
  /-- A zone that both lists know keeps its record, and what has been loaded and read for it. It has
  what the fresh list says, and is updated if that is new or if the zone had been removed. -/
  kept : ∀ {k z new}, l.get? k = some z → fresh.get? k = some new →
    ∃ z', l'.get? k = some z' ∧ z.KeepsOwn z' ∧ z'.agrees new ∧
      z'.status = if !z.agrees new || z.status == .removed then .updated else z.status
  /-- A zone that only the list knows is removed, and otherwise as it was. -/
  gone : ∀ {k z}, l.get? k = some z → fresh.get? k = none →
    l'.get? k = some (z.withStatus .removed)
  /-- A zone that only the fresh list knows is added with its fresh record. -/
  added : ∀ {k new}, l.get? k = none → fresh.get? k = some new →
    l'.get? k = some (new.withStatus .added)
  /-- What is counted: the keys that are new, the keys whose zone differed or had been removed and
  is in both lists, and the keys whose zone had not been removed and now is. -/
  counts_eq : l'.counts = {
    added := l'.zones.keys.countP fun k => (l.get? k).isNone
    updated := l'.zones.keys.countP fun k => (l.get? k).any fun z =>
      (fresh.get? k).any fun new => !z.agrees new || z.status == .removed
    removed := l'.zones.keys.countP fun k =>
      (l.get? k).any (·.status != .removed) && (l'.get? k).any (·.status == .removed) }

section Counts

variable (hl : l.Keyed) (hfresh : fresh.Keyed)
include hl hfresh

/-- The keys after a reconciliation: first those of the list, then the new ones. -/
theorem keys_merge_perm : (l.merge fresh).zones.keys.Perm
    (l.all.map Zone.key ++ (l.admitted fresh).map Zone.key) := by
  have hlisted {l : ZoneList} (hl : l.Keyed) : l.all.map Zone.key = l.zones.keys := by
    rw [all, OrderedMap.values, OrderedMap.keys, List.map_map]
    exact List.map_congr_left fun e he => hl (OrderedMap.get?_eq_some_iff.mpr he)
  have hnew : (l.admitted fresh).map Zone.key =
      fresh.zones.keys.filter fun k => !l.zones.contains k := by
    rw [← hlisted hfresh, List.filter_map]
    rfl
  rw [hlisted hl, hnew]
  refine (List.perm_ext_iff_of_nodup (l.merge fresh).keys_nodup ?_).mpr fun k => ?_
  · refine List.nodup_append.mpr ⟨l.keys_nodup, fresh.keys_nodup.filter _, ?_⟩
    rintro k hk _ hk' rfl
    have hcontains := OrderedMap.contains_iff.mpr (OrderedMap.mem_keys.mp hk)
    simp [hcontains] at hk'
  · have hget := get?_merge l (fun h => hfresh h) k
    simp only [get?] at hget
    simp only [List.mem_append, List.mem_filter, OrderedMap.mem_keys, hget, OrderedMap.contains]
    cases l.zones.get? k <;> cases fresh.zones.get? k <;> simp

/-- What is counted over the keys afterwards is counted over the list, if no new key counts. -/
theorem countP_keys_merge {p : ZoneKey → Bool} (hp : ∀ {k}, l.get? k = none → p k = false) :
    (l.merge fresh).zones.keys.countP p = l.all.countP fun z => p z.key := by
  have hnone : ((l.admitted fresh).map Zone.key).countP p = 0 := by
    rw [List.countP_map, List.countP_eq_zero]
    intro z hz
    have hnew := (List.mem_filter.mp hz).2
    rw [Bool.not_eq_true', OrderedMap.contains_eq_false_iff] at hnew
    rw [Function.comp_apply, hp hnew, Bool.not_eq_true]
  rw [(keys_merge_perm hl hfresh).countP_eq, List.countP_append, hnone, Nat.add_zero,
    List.countP_map]
  rfl

private theorem counts_merge : (l.merge fresh).counts = {
    added := (l.merge fresh).zones.keys.countP fun k => (l.get? k).isNone
    updated := (l.merge fresh).zones.keys.countP fun k => (l.get? k).any fun z =>
      (fresh.get? k).any fun new => !z.agrees new || z.status == .removed
    removed := (l.merge fresh).zones.keys.countP fun k =>
      (l.get? k).any (·.status != .removed) && ((l.merge fresh).get? k).any (·.status == .removed) }
    := by
  change l.mergeCounts fresh = _
  rw [mergeCounts, MergeCounts.mk.injEq]
  refine ⟨?_, ?_, ?_⟩
  · have hold : (l.all.map Zone.key).countP (fun k => (l.get? k).isNone) = 0 := by
      rw [List.countP_map, List.countP_eq_zero]
      intro z hz
      simp [hl.get?_of_mem hz]
    have hnew : ((l.admitted fresh).map Zone.key).countP (fun k => (l.get? k).isNone) =
        (l.admitted fresh).length := by
      rw [List.countP_map, List.countP_eq_length]
      intro z hz
      have hz := (List.mem_filter.mp hz).2
      rw [Bool.not_eq_true', OrderedMap.contains_eq_false_iff] at hz
      simp [get?, hz]
    rw [(keys_merge_perm hl hfresh).countP_eq, List.countP_append, hold, hnew, Nat.zero_add]
  · rw [countP_keys_merge hl hfresh fun hnone => by simp [hnone]]
    refine List.countP_congr fun z hz => ?_
    rw [hl.get?_of_mem hz]
    rfl
  · rw [countP_keys_merge hl hfresh fun hnone => by simp [hnone]]
    refine List.countP_congr fun z hz => ?_
    rw [hl.get?_of_mem hz]
    cases hnew : fresh.get? z.key with
    | none => simp [get?_merge_of_gone hfresh (hl.get?_of_mem hz) hnew]
    | some new =>
      simp [get?_merge_of_kept hfresh (hl.get?_of_mem hz) hnew, status_reconcile_ne_removed z new]

end Counts

/-- Reconciliation is exact: a single walk along both lists makes of every key what is due, counts
what it does, and leaves nothing to do for the same inventory. -/
theorem reconciled_merge (hl : l.Keyed) (hfresh : fresh.Keyed) :
    l.join fresh = l.merge fresh ∧ Reconciled l fresh (l.merge fresh) ∧
      ∀ again : ZoneList, again.Keyed →
        (∀ k, (again.get? k).map Zone.description = (fresh.get? k).map Zone.description) →
        (l.merge fresh).merge again = { l.merge fresh with counts := {}, made := again.made } := by
  refine ⟨join_eq_merge hl hfresh, ?_, fun again hagain hsame => ?_⟩
  · constructor
    case keyed => exact hl.merge hfresh
    case modified_eq => rfl
    case keys =>
      intro k
      have hget : (l.merge fresh).zones.get? k = _ := get?_merge l (fun h => hfresh h) k
      simp only [OrderedMap.contains, hget, get?]
      cases l.zones.get? k <;> cases fresh.zones.get? k <;> rfl
    case kept =>
      intro k z new hz hnew
      exact ⟨z.reconcile new, get?_merge_of_kept hfresh hz hnew, z.keepsOwn_reconcile new,
        Zone.agrees_iff.mpr (z.description_reconcile new), z.status_reconcile new⟩
    case gone => exact fun hz hnone => get?_merge_of_gone hfresh hz hnone
    case added =>
      intro k new hnone hnew
      rw [get?_merge_of_new hfresh hnone, hnew, Option.map_some]
    case counts_eq => exact counts_merge hl hfresh
  · have hmirrors : (l.merge fresh).Mirrors again :=
      fun k => (mirrors_merge l hfresh k).trans (hsame k).symm
    exact hmirrors.merge_eq (hl.merge hfresh) hagain

private def listedEntry (name policy : String) : ZoneEntry where
  name := name
  policy := policy
  configPath := ⟨"/signconf/" ++ name⟩
  input := { path := ⟨"/zones/" ++ name⟩ }
  output := { path := ⟨"/signed/" ++ name⟩ }

/-- Of four zones one has been removed and comes back, one stays, one changes and one is removed,
while a fifth one is new. -/
theorem reconciled_merge_of_five :
    let l := ((ofEntries 0 [listedEntry "a" "p", listedEntry "b" "p", listedEntry "c" "p",
      listedEntry "e" "p"]).merge (ofEntries 4 [listedEntry "b" "p", listedEntry "c" "p",
      listedEntry "e" "p"])).settle
    let fresh := ofEntries 7 [listedEntry "d" "p", listedEntry "c" "q", listedEntry "b" "p",
      listedEntry "a" "p"]
    l.Keyed ∧ fresh.Keyed ∧ Reconciled l fresh (l.merge fresh) ∧
      (l.merge fresh).all.map (fun z => (z.name, z.status)) = [("a", .updated), ("b", .ok),
        ("c", .updated), ("d", .added), ("e", .removed)] ∧
      (l.merge fresh).counts = { added := 1, updated := 2, removed := 1 } ∧
      (l.merge fresh).merge fresh = { l.merge fresh with counts := {} } := by
  intro l fresh
  have hl : l.Keyed := ((keyed_ofEntries _ _).merge (keyed_ofEntries _ _)).settle
  have hfresh : fresh.Keyed := keyed_ofEntries _ _
  obtain ⟨-, hreconciled, hagain⟩ := reconciled_merge hl hfresh
  refine ⟨hl, hfresh, hreconciled, ?_, ?_, hagain fresh hfresh fun _ => rfl⟩
  · decide +kernel
  · decide +kernel

end ZoneList

end ZoneSigning
