import ZoneSigning.Proofs.JsonTexts
import ZoneSigning.Proofs.OrderedMap

/-!
Values with the members of every object in key order. To put the members in order changes nothing
about a value where they are in order, and leaves no part in it that it did not have.
-/
namespace ZoneSigning.Json

variable {items : List Json} {members : List (String × Json)} {e : String × Json}

/-- What holds of arrays and objects if it holds of their parts, and of everything else, holds. -/
@[induction_eliminator]
theorem induction {motive : Json → Prop} (null : motive .null) (bool : ∀ b, motive (.bool b))
    (int : ∀ n, motive (.int n)) (real : ∀ x, motive (.real x)) (text : ∀ s, motive (.text s))
    (array : ∀ items, (∀ i ∈ items, motive i) → motive (.array items))
    (object : ∀ members, (∀ m ∈ members, motive m.2) → motive (.object members))
    (unreadable : motive .unreadable) (j : Json) : motive j := by
  refine @Json.rec motive (fun items => ∀ i ∈ items, motive i)
    (fun members => ∀ m ∈ members, motive m.2) (fun m => motive m.2)
    null bool int real text array object unreadable ?_ ?_ ?_ ?_ (fun _ _ h => h) j
  · exact List.forall_mem_nil _
  · exact fun i items hi hitems => List.forall_mem_cons.mpr ⟨hi, hitems⟩
  · exact List.forall_mem_nil _
  · exact fun m members hm hmembers => List.forall_mem_cons.mpr ⟨hm, hmembers⟩

private theorem allReadable_iff : allReadable items ↔ ∀ i ∈ items, i.isReadable := by
  induction items with
  | nil => simp [allReadable]
  | cons i items ih => simp [allReadable, ih]

private theorem membersReadable_iff : membersReadable members ↔ ∀ m ∈ members, m.2.isReadable := by
  induction members with
  | nil => simp [membersReadable]
  | cons m members ih => simp [membersReadable, ih]

private theorem allCarried_iff {levels : Nat} :
    allCarried levels items ↔ ∀ i ∈ items, i.isCarried levels := by
  induction items with
  | nil => simp [allCarried]
  | cons i items ih => simp [allCarried, ih]

private theorem membersCarried_iff {levels : Nat} :
    membersCarried levels members ↔ ∀ m ∈ members, m.2.isCarried levels := by
  induction members with
  | nil => simp [membersCarried]
  | cons m members ih => simp [membersCarried, ih]

private theorem canonicalItems_eq_map (items : List Json) : canonicalItems items = items.map canonical := by
  induction items with
  | nil => rfl
  | cons i items ih => rw [canonicalItems, ih, List.map_cons]

private theorem canonicalMembers_eq_map (members : List (String × Json)) :
    canonicalMembers members = members.map fun m => (m.1, m.2.canonical) := by
  induction members with
  | nil => rfl
  | cons m members ih => rw [canonicalMembers, ih, List.map_cons]

private abbrev insertAll (m : OrderedMap String Json) (members : List (String × Json)) :
    OrderedMap String Json :=
  members.foldl (fun m e => m.insert e.1 e.2) m

private theorem mem_insertAll {m : OrderedMap String Json} (h : e ∈ (insertAll m members).toList) :
    e ∈ members ∨ e ∈ m.toList := by
  induction members generalizing m with
  | nil => exact .inr h
  | cons first members ih =>
    rcases ih h with h | h
    · exact .inl (List.mem_cons_of_mem _ h)
    · rcases OrderedMap.mem_of_mem_place h with rfl | h
      · exact .inl List.mem_cons_self
      · exact .inr h

private theorem mem_of_mem_sortMembers (h : e ∈ sortMembers members) : e ∈ members :=
  (mem_insertAll h).resolve_right List.not_mem_nil

private theorem get?_insertAll (m : OrderedMap String Json)
    (h : members.Pairwise fun a b => compare a.1 b.1 = .lt) (k : String) :
    (insertAll m members).get? k = (OrderedMap.lookup k members).or (m.get? k) := by
  induction members generalizing m with
  | nil => rfl
  | cons first members ih =>
    obtain ⟨hfirst, hrest⟩ := List.pairwise_cons.mp h
    rw [insertAll, List.foldl_cons, ih _ hrest, OrderedMap.lookup, OrderedMap.get?_insert]
    split
    · next hk =>
      obtain rfl := Std.LawfulEqCmp.eq_of_compare hk
      rw [OrderedMap.lookup_eq_none_of_lt hfirst]
      rfl
    · rfl

/-- Members that are in order stay as they are. -/
theorem sortMembers_eq_self (h : members.Pairwise fun a b => compare a.1 b.1 = .lt) :
    sortMembers members = members := by
  have hsame : insertAll ∅ members = ⟨members, h⟩ :=
    OrderedMap.ext_get? fun k => by
      rw [get?_insertAll ∅ h, OrderedMap.get?_empty, Option.or_none, OrderedMap.get?]
  exact congrArg OrderedMap.toList hsame

private theorem ascending_sortMembers (members : List (String × Json)) :
    (sortMembers members).Pairwise fun a b => compare a.1 b.1 = .lt :=
  (insertAll ∅ members).ascending

/-- Every member of the sorted ones is one of the members, with its value put in order. -/
theorem exists_of_mem_canonical (h : e ∈ sortMembers (canonicalMembers members)) :
    ∃ m ∈ members, e = (m.1, m.2.canonical) := by
  have hmem := mem_of_mem_sortMembers h
  rw [canonicalMembers_eq_map, List.mem_map] at hmem
  obtain ⟨m, hm, rfl⟩ := hmem
  exact ⟨m, hm, rfl⟩

/-- A value whose members have been put in order stays as it is. -/
@[simp] theorem canonical_canonical (j : Json) : j.canonical.canonical = j.canonical := by
  induction j with
  | array items ih =>
    rw [canonical, canonicalItems_eq_map, canonical, canonicalItems_eq_map, List.map_map]
    exact congrArg Json.array (List.map_congr_left ih)
  | object members ih =>
    have hvalues : canonicalMembers (sortMembers (canonicalMembers members)) =
        sortMembers (canonicalMembers members) := by
      rw [canonicalMembers_eq_map (sortMembers _)]
      refine (List.map_congr_left fun e he => ?_).trans (List.map_id _)
      obtain ⟨m, hm, rfl⟩ := exists_of_mem_canonical he
      rw [ih m hm]
      rfl
    rw [canonical, canonical, hvalues, sortMembers_eq_self (ascending_sortMembers _)]
  | _ => rfl

/-- A value that can be read can still be read in its canonical form. -/
theorem isReadable_canonical {j : Json} (hj : j.isReadable) : j.canonical.isReadable := by
  induction j with
  | array items ih =>
    simp only [canonical, isReadable, canonicalItems_eq_map, allReadable_iff,
      List.forall_mem_map] at hj ⊢
    exact fun i hi => ih i hi (hj i hi)
  | object members ih =>
    simp only [canonical, isReadable, membersReadable_iff] at hj ⊢
    intro e he
    obtain ⟨m, hm, rfl⟩ := exists_of_mem_canonical he
    exact ih m hm (hj m hm)
  | _ => exact hj

/-- A value that a text carries is still carried in its canonical form. -/
theorem isCarried_canonical {levels : Nat} {j : Json} (hj : j.isCarried levels) :
    j.canonical.isCarried levels := by
  induction j generalizing levels with
  | array items ih =>
    simp only [canonical, isCarried, Bool.and_eq_true, canonicalItems_eq_map, allCarried_iff,
      List.forall_mem_map] at hj ⊢
    exact ⟨hj.1, fun i hi => ih i hi (hj.2 i hi)⟩
  | object members ih =>
    simp only [canonical, isCarried, Bool.and_eq_true, membersCarried_iff] at hj ⊢
    refine ⟨hj.1, fun e he => ?_⟩
    obtain ⟨m, hm, rfl⟩ := exists_of_mem_canonical he
    exact ih m hm (hj.2 m hm)
  | _ => exact hj

end ZoneSigning.Json
