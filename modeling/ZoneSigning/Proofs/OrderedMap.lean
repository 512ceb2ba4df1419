import ZoneSigning.OrderedMap

/-!
Ordered maps seen through their answers. Inserting a new key and erasing a present one change the
entries by exactly one, up to order, so that counts over the values can follow.
-/
namespace ZoneSigning.OrderedMap

variable {κ α β : Type} [Ord κ]

/-- A key is in a map exactly if something is held there. -/
theorem contains_iff {m : OrderedMap κ α} {k : κ} : m.contains k ↔ ∃ a, m.get? k = some a :=
  Option.isSome_iff_exists

/-- A key is not in a map exactly if nothing is held there. -/
theorem contains_eq_false_iff {m : OrderedMap κ α} {k : κ} :
    m.contains k = false ↔ m.get? k = none := by
  simp [contains]

@[simp] theorem values_mapValues (f : α → β) (m : OrderedMap κ α) :
    (m.mapValues fun _ a => f a).values = m.values.map f := by
  simp [values, mapValues]

/-- What is held in a map of replaced values is the replaced value. -/
theorem get?_mapValues [Std.LawfulEqOrd κ] (f : κ → α → β) (m : OrderedMap κ α) (k : κ) :
    (m.mapValues f).get? k = (m.get? k).map (f k) := by
  simp only [get?, mapValues]
  induction m.toList with
  | nil => rfl
  | cons first rest ih =>
    simp only [List.map_cons, lookup, ih]
    split
    · next heq =>
      obtain rfl := Std.LawfulEqCmp.eq_of_compare heq
      rfl
    · rfl

private theorem place_perm {k : κ} {a : α} {entries : List (κ × α)} (h : lookup k entries = none) :
    (place k a entries).Perm ((k, a) :: entries) := by
  induction entries with
  | nil => exact .refl _
  | cons first rest ih =>
    obtain ⟨l, b⟩ := first
    simp only [lookup] at h
    split at h
    · cases h
    · next hne =>
      simp only [place]
      split
      · exact .refl _
      · contradiction
      · exact ((ih h).cons _).trans (.swap _ _ _)

private theorem drop_perm [Std.LawfulEqOrd κ] {k : κ} {a : α} {entries : List (κ × α)}
    (hs : entries.Pairwise fun x y => compare x.1 y.1 = .lt) (h : lookup k entries = some a) :
    entries.Perm ((k, a) :: drop k entries) := by
  induction entries with
  | nil => cases h
  | cons first rest ih =>
    obtain ⟨l, b⟩ := first
    obtain ⟨hfirst, hrest⟩ := List.pairwise_cons.mp hs
    simp only [lookup] at h
    split at h
    · next heq =>
      obtain rfl := Std.LawfulEqCmp.eq_of_compare heq
      cases h
      -- No later entry has this key, so that dropping it removes only the first entry.
      have hrestKept : drop k rest = rest := by
        apply List.filter_eq_self.mpr
        intro e he
        rw [hfirst e he]
        rfl
      have hdrop : drop k ((k, a) :: rest) = drop k rest := by simp [drop]
      rw [hdrop, hrestKept]
    · next hne =>
      have hdrop : drop k ((l, b) :: rest) = (l, b) :: drop k rest := by simp [drop, hne]
      rw [hdrop]
      exact ((ih hrest h).cons _).trans (.swap _ _ _)

/-- A value at a new key is added to those that there are. -/
theorem values_insert_perm [Std.TransOrd κ] [Std.LawfulEqOrd κ] {m : OrderedMap κ α} {k : κ} (a : α)
    (h : m.get? k = none) : (m.insert k a).values.Perm (a :: m.values) :=
  (place_perm h).map _

/-- To erase a key takes away the value that is held there. -/
theorem values_erase_perm [Std.LawfulEqOrd κ] {m : OrderedMap κ α} {k : κ} {a : α}
    (h : m.get? k = some a) : m.values.Perm (a :: (m.erase k).values) :=
  (drop_perm m.ascending h).map _

section Lawful

variable [Std.TransOrd κ] [Std.LawfulEqOrd κ]

@[simp] theorem get?_insert_self (m : OrderedMap κ α) (k : κ) (a : α) :
    (m.insert k a).get? k = some a := by
  simp [get?_insert]

/-- To set a value changes nothing at other keys. -/
theorem get?_insert_of_ne (m : OrderedMap κ α) {k k' : κ} (a : α) (h : k' ≠ k) :
    (m.insert k a).get? k' = m.get? k' := by
  simp [get?_insert, h]

@[simp] theorem get?_erase_self (m : OrderedMap κ α) (k : κ) : (m.erase k).get? k = none := by
  simp [get?_erase]

/-- To erase a key changes nothing at other keys. -/
theorem get?_erase_of_ne (m : OrderedMap κ α) {k k' : κ} (h : k' ≠ k) :
    (m.erase k).get? k' = m.get? k' := by
  simp [get?_erase, h]

/-- To set the value that is held already changes nothing. -/
theorem insert_eq_self {m : OrderedMap κ α} {k : κ} {a : α} (h : m.get? k = some a) :
    m.insert k a = m := by
  refine ext_get? fun l => ?_
  by_cases hl : l = k
  · rw [hl, get?_insert_self, h]
  · rw [get?_insert_of_ne m a hl]

/-- Of two values that are set at one key the last one counts. -/
theorem insert_insert (m : OrderedMap κ α) (k : κ) (a b : α) :
    (m.insert k a).insert k b = m.insert k b := by
  refine ext_get? fun l => ?_
  simp only [get?_insert]
  split <;> rfl

/-- Values at different keys can be set in any order. -/
theorem insert_comm (m : OrderedMap κ α) {k k' : κ} (a b : α) (h : k' ≠ k) :
    (m.insert k a).insert k' b = (m.insert k' b).insert k a := by
  refine ext_get? fun l => ?_
  by_cases hl : l = k
  · rw [hl, get?_insert_self, get?_insert_of_ne _ b h.symm, get?_insert_self]
  · rw [get?_insert_of_ne _ a hl, get?_insert, get?_insert_of_ne m a hl, get?_insert]

/-- A value can be set before or after another key is erased. -/
theorem erase_insert_of_ne (m : OrderedMap κ α) {k k' : κ} (a : α) (h : k' ≠ k) :
    (m.insert k a).erase k' = (m.erase k').insert k a := by
  refine ext_get? fun l => ?_
  by_cases hl : l = k
  · rw [hl, get?_erase_of_ne _ h.symm, get?_insert_self, get?_insert_self]
  · rw [get?_insert_of_ne _ a hl, get?_erase, get?_insert_of_ne m a hl, get?_erase]

/-- The values of a map are those held at its keys. -/
theorem mem_values {m : OrderedMap κ α} {a : α} : a ∈ m.values ↔ ∃ k, m.get? k = some a := by
  simp only [values, List.mem_map, get?_eq_some_iff]
  constructor
  · rintro ⟨⟨k, b⟩, hmem, rfl⟩
    exact ⟨k, hmem⟩
  · rintro ⟨k, hmem⟩
    exact ⟨(k, a), hmem, rfl⟩

/-- The keys of a map are those where something is held. -/
theorem mem_keys {m : OrderedMap κ α} {k : κ} : k ∈ m.keys ↔ ∃ a, m.get? k = some a := by
  simp only [keys, List.mem_map, get?_eq_some_iff]
  constructor
  · rintro ⟨⟨l, a⟩, hmem, rfl⟩
    exact ⟨a, hmem⟩
  · rintro ⟨a, hmem⟩
    exact ⟨(k, a), hmem, rfl⟩

/-- A filtered map holds what it has held, where that is kept. -/
theorem get?_filter (keep : κ → α → Bool) (m : OrderedMap κ α) (k : κ) :
    (m.filter keep).get? k = (m.get? k).filter (keep k) := by
  apply Option.ext
  intro a
  rw [get?_eq_some_iff, Option.filter_eq_some_iff, get?_eq_some_iff]
  simp [filter]

/-- A map all of whose entries are kept stays as it is. -/
theorem filter_eq_self {keep : κ → α → Bool} {m : OrderedMap κ α}
    (h : ∀ {k a}, m.get? k = some a → keep k a) : m.filter keep = m := by
  refine ext_get? fun k => ?_
  rw [get?_filter]
  cases hk : m.get? k with
  | none => rfl
  | some a => rw [Option.filter, if_pos (h hk)]

/-- A map whose values are replaced by themselves stays as it is. -/
theorem mapValues_eq_self {f : κ → α → α} {m : OrderedMap κ α}
    (h : ∀ {k a}, m.get? k = some a → f k a = a) : m.mapValues f = m := by
  refine ext_get? fun k => ?_
  rw [get?_mapValues]
  cases hk : m.get? k with
  | none => rfl
  | some a => rw [Option.map_some, h hk]

/-- A map that is built from entries answers with the first entry of a key. -/
theorem get?_ofList (entries : List (κ × α)) (k : κ) :
    (ofList entries).get? k = lookup k entries := by
  suffices hfold : ∀ m : OrderedMap κ α, (entries.foldl
      (fun m e => if m.contains e.1 then m else m.insert e.1 e.2) m).get? k =
        (m.get? k).or (lookup k entries) from hfold ∅
  induction entries with
  | nil => simp [lookup]
  | cons e entries ih =>
    intro m
    rw [List.foldl_cons, ih, lookup]
    by_cases hk : k = e.1
    · subst hk
      cases hm : m.get? e.1 <;> simp [contains, hm]
    · have hne : compare k e.1 ≠ .eq := fun h => hk (Std.LawfulEqCmp.eq_of_compare h)
      rw [if_neg hne]
      split
      · rfl
      · rw [get?_insert_of_ne m e.2 hk]

/-- A map can be made again of its entries. -/
theorem ofList_toList (m : OrderedMap κ α) : ofList m.toList = m :=
  ext_get? fun k => get?_ofList m.toList k

end Lawful

end ZoneSigning.OrderedMap

namespace ZoneSigning.OrderedSet

variable {κ : Type} [Ord κ] [Std.TransOrd κ] [Std.LawfulEqOrd κ]

/-- A set to which a member has been added contains this one and those that it has contained. -/
theorem contains_add (s : OrderedSet κ) (k k' : κ) :
    (s.add k).contains k' ↔ k' = k ∨ s.contains k' := by
  simp only [add, OrderedMap.contains, OrderedMap.get?_insert]
  split <;> simp_all

/-- The members of a set are what it contains. -/
theorem mem_members {s : OrderedSet κ} {k : κ} : k ∈ s.members ↔ s.contains k :=
  OrderedMap.mem_keys.trans OrderedMap.contains_iff.symm

/-- Two sets with the same members are the same set. -/
theorem ext_contains {s t : OrderedSet κ} (h : ∀ k, s.contains k ↔ t.contains k) : s = t := by
  refine OrderedMap.ext_get? fun k => ?_
  have hk : (OrderedMap.get? s k).isSome ↔ (OrderedMap.get? t k).isSome := h k
  cases hs : OrderedMap.get? s k <;> cases ht : OrderedMap.get? t k <;> simp_all

end ZoneSigning.OrderedSet
