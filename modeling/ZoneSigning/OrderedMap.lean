/-!
Finite maps kept in key order. An `OrderedMap` lists each key once and in ascending order, so the
entries are determined by what the map answers: `OrderedMap.ext_get?` says that two maps with the
same answers are the same map.
-/
namespace ZoneSigning

/-- A finite map, held as its entries in strictly ascending key order. -/
structure OrderedMap (κ : Type) [Ord κ] (α : Type) where
  toList : List (κ × α)
  /-- Each key is smaller than every later one. -/
  ascending : toList.Pairwise fun a b => compare a.1 b.1 = .lt

namespace OrderedMap

section Entries

variable {κ α : Type} [Ord κ]

def lookup (k : κ) : List (κ × α) → Option α
  | [] => none
  | (k', a) :: rest => if compare k k' = .eq then some a else lookup k rest

/-- Place an entry where its key belongs, in the stead of an entry with the same key. -/
def place (k : κ) (a : α) : List (κ × α) → List (κ × α)
  | [] => [(k, a)]
  | (k', a') :: rest =>
    match compare k k' with
    | .lt => (k, a) :: (k', a') :: rest
    | .eq => (k, a) :: rest
    | .gt => (k', a') :: place k a rest

def drop (k : κ) (entries : List (κ × α)) : List (κ × α) :=
  entries.filter fun e => compare k e.1 != .eq

/-- An entry of a list into which one has been placed is that one, or has been there before. -/
theorem mem_of_mem_place {k : κ} {a : α} {e : κ × α} {entries : List (κ × α)}
    (h : e ∈ place k a entries) : e = (k, a) ∨ e ∈ entries := by
  induction entries with
  | nil => simpa [place] using h
  | cons first rest ih =>
    simp only [place] at h
    split at h
    · simpa using h
    · rcases List.mem_cons.mp h with h | h
      · exact .inl h
      · exact .inr (List.mem_cons_of_mem _ h)
    · rcases List.mem_cons.mp h with h | h
      · exact .inr (h ▸ List.mem_cons_self)
      · exact (ih h).imp_right (List.mem_cons_of_mem _)

private theorem place_ascending [Std.TransOrd κ] [Std.LawfulEqOrd κ] (k : κ) (a : α)
    {entries : List (κ × α)} (h : entries.Pairwise fun x y => compare x.1 y.1 = .lt) :
    (place k a entries).Pairwise fun x y => compare x.1 y.1 = .lt := by
  induction entries with
  | nil => simp [place]
  | cons first rest ih =>
    obtain ⟨k', a'⟩ := first
    obtain ⟨hfirst, hrest⟩ := List.pairwise_cons.mp h
    simp only [place]
    split
    · next hlt =>
      refine List.pairwise_cons.mpr ⟨fun e he => ?_, h⟩
      rcases List.mem_cons.mp he with rfl | he
      · exact hlt
      · exact Std.TransCmp.lt_trans hlt (hfirst e he)
    · next heq =>
      obtain rfl := Std.LawfulEqCmp.eq_of_compare heq
      exact List.pairwise_cons.mpr ⟨hfirst, hrest⟩
    · next hgt =>
      refine List.pairwise_cons.mpr ⟨fun e he => ?_, ih hrest⟩
      rcases mem_of_mem_place he with rfl | he
      · exact Std.OrientedCmp.lt_of_gt hgt
      · exact hfirst e he

end Entries

variable {κ α : Type} [Ord κ]

def empty : OrderedMap κ α := ⟨[], .nil⟩

instance : EmptyCollection (OrderedMap κ α) := ⟨empty⟩
instance : Inhabited (OrderedMap κ α) := ⟨empty⟩

def get? (m : OrderedMap κ α) (k : κ) : Option α := lookup k m.toList

def contains (m : OrderedMap κ α) (k : κ) : Bool := (m.get? k).isSome

def size (m : OrderedMap κ α) : Nat := m.toList.length

def isEmpty (m : OrderedMap κ α) : Bool := m.toList.isEmpty

def keys (m : OrderedMap κ α) : List κ := m.toList.map (·.1)

def values (m : OrderedMap κ α) : List α := m.toList.map (·.2)

def insert [Std.TransOrd κ] [Std.LawfulEqOrd κ] (m : OrderedMap κ α) (k : κ) (a : α) :
    OrderedMap κ α :=
  ⟨place k a m.toList, place_ascending k a m.ascending⟩

def erase (m : OrderedMap κ α) (k : κ) : OrderedMap κ α :=
  ⟨drop k m.toList, m.ascending.filter _⟩

def filter (keep : κ → α → Bool) (m : OrderedMap κ α) : OrderedMap κ α :=
  ⟨m.toList.filter fun e => keep e.1 e.2, m.ascending.filter _⟩

def mapValues {β : Type} (f : κ → α → β) (m : OrderedMap κ α) : OrderedMap κ β :=
  ⟨m.toList.map fun e => (e.1, f e.1 e.2), by
    refine List.pairwise_map.mpr ?_
    exact m.ascending⟩

/-- Build a map from entries, the first entry of a key winning. -/
def ofList [Std.TransOrd κ] [Std.LawfulEqOrd κ] (entries : List (κ × α)) : OrderedMap κ α :=
  entries.foldl (fun m e => if m.contains e.1 then m else m.insert e.1 e.2) ∅

@[simp] theorem get?_empty (k : κ) : (∅ : OrderedMap κ α).get? k = none := rfl

/-- At the key that has been set a map holds the new value, and elsewhere what it has held. -/
theorem get?_insert [Std.TransOrd κ] [Std.LawfulEqOrd κ] (m : OrderedMap κ α) (k k' : κ) (a : α) :
    (m.insert k a).get? k' = if compare k' k = .eq then some a else m.get? k' := by
  simp only [get?, insert]
  induction m.toList with
  | nil => simp [place, lookup]
  | cons first rest ih =>
    obtain ⟨l, b⟩ := first
    simp only [place]
    split
    · simp [lookup]
    · next heq =>
      obtain rfl := Std.LawfulEqCmp.eq_of_compare heq
      simp only [lookup]
      split <;> rfl
    · next hgt =>
      simp only [lookup, ih]
      split
      · next heq =>
        obtain rfl := Std.LawfulEqCmp.eq_of_compare heq
        simp [Std.OrientedCmp.lt_of_gt hgt]
      · rfl

/-- At the key that has been erased a map holds nothing, and elsewhere what it has held. -/
theorem get?_erase [Std.TransOrd κ] [Std.LawfulEqOrd κ] (m : OrderedMap κ α) (k k' : κ) :
    (m.erase k).get? k' = if compare k' k = .eq then none else m.get? k' := by
  simp only [get?, erase, drop]
  induction m.toList with
  | nil => simp [lookup]
  | cons first rest ih =>
    obtain ⟨l, b⟩ := first
    simp only [List.filter_cons]
    by_cases hl : compare k l = .eq
    · obtain rfl := Std.LawfulEqCmp.eq_of_compare hl
      simp only [hl, bne_self_eq_false, Bool.false_eq_true, if_false, ih, lookup]
      split <;> rfl
    · simp only [bne_iff_ne, ne_eq, hl, not_false_eq_true, if_true, lookup, ih]
      by_cases hk : compare k' l = .eq
      · obtain rfl := Std.LawfulEqCmp.eq_of_compare hk
        have : compare k' k ≠ .eq := fun h =>
          hl (Std.LawfulEqCmp.eq_of_compare h ▸ Std.ReflCmp.compare_self)
        simp [this]
      · simp [hk]

/-- A key that precedes all others is not found. -/
theorem lookup_eq_none_of_lt [Std.TransOrd κ] {k : κ} {entries : List (κ × α)}
    (h : ∀ e ∈ entries, compare k e.1 = .lt) : lookup k entries = none := by
  induction entries with
  | nil => rfl
  | cons first rest ih =>
    have hfirst : compare k first.1 = .lt := h first List.mem_cons_self
    simp only [lookup, hfirst]
    simpa using ih fun e he => h e (List.mem_cons_of_mem _ he)

/-- An entry of the list is what the map answers at its key. -/
theorem get?_eq_some_iff [Std.TransOrd κ] [Std.LawfulEqOrd κ] {m : OrderedMap κ α} {k : κ} {a : α} :
    m.get? k = some a ↔ (k, a) ∈ m.toList := by
  obtain ⟨entries, hsorted⟩ := m
  simp only [get?]
  induction entries with
  | nil => simp [lookup]
  | cons first rest ih =>
    obtain ⟨l, b⟩ := first
    obtain ⟨hfirst, hrest⟩ := List.pairwise_cons.mp hsorted
    simp only [lookup, List.mem_cons, Prod.mk.injEq]
    by_cases hl : compare k l = .eq
    · obtain rfl := Std.LawfulEqCmp.eq_of_compare hl
      have hnot : (k, a) ∉ rest := fun hm => by
        have := hfirst _ hm
        simp at this
      simp [hnot, eq_comm]
    · have hne : k ≠ l := fun h => hl (h ▸ Std.ReflCmp.compare_self)
      simp [hl, hne, ih hrest]

/-- Two maps with the same answers are the same map. -/
theorem ext_get? [Std.TransOrd κ] [Std.LawfulEqOrd κ] {m n : OrderedMap κ α}
    (h : ∀ k, m.get? k = n.get? k) : m = n := by
  obtain ⟨xs, hx⟩ := m
  obtain ⟨ys, hy⟩ := n
  simp only [get?] at h
  congr
  induction xs generalizing ys with
  | nil =>
    cases ys with
    | nil => rfl
    | cons first rest =>
      have := h first.1
      simp [lookup, Std.ReflCmp.compare_self] at this
  | cons x xs ih =>
    cases ys with
    | nil =>
      have := h x.1
      simp [lookup, Std.ReflCmp.compare_self] at this
    | cons y ys =>
      obtain ⟨kx, ax⟩ := x
      obtain ⟨ky, ay⟩ := y
      obtain ⟨hxf, hxr⟩ := List.pairwise_cons.mp hx
      obtain ⟨hyf, hyr⟩ := List.pairwise_cons.mp hy
      have hkey : kx = ky := by
        have hcmp : compare kx ky = .eq := by
          match hc : compare kx ky with
          | .eq => rfl
          | .lt =>
            have hh := h kx
            have hnone : lookup kx ys = none :=
              lookup_eq_none_of_lt fun e he => Std.TransCmp.lt_trans hc (hyf e he)
            simp [lookup, Std.ReflCmp.compare_self, hc, hnone] at hh
          | .gt =>
            have hlt : compare ky kx = .lt := Std.OrientedCmp.lt_of_gt hc
            have hh := h ky
            have hnone : lookup ky xs = none :=
              lookup_eq_none_of_lt fun e he => Std.TransCmp.lt_trans hlt (hxf e he)
            simp [lookup, Std.ReflCmp.compare_self, hlt, hnone] at hh
        exact Std.LawfulEqCmp.eq_of_compare hcmp
      subst hkey
      have hval : ax = ay := by simpa [lookup, Std.ReflCmp.compare_self] using h kx
      subst hval
      have htail : xs = ys := ih hxr ys hyr fun k => by
        by_cases hk : compare k kx = .eq
        · obtain rfl := Std.LawfulEqCmp.eq_of_compare hk
          rw [lookup_eq_none_of_lt hxf, lookup_eq_none_of_lt hyf]
        · simpa [lookup, hk] using h k
      rw [htail]

end OrderedMap

/-- A finite set, held as its members in strictly ascending order. -/
abbrev OrderedSet (κ : Type) [Ord κ] := OrderedMap κ Unit

namespace OrderedSet

variable {κ : Type} [Ord κ]

def members (s : OrderedSet κ) : List κ := OrderedMap.keys s

def add [Std.TransOrd κ] [Std.LawfulEqOrd κ] (s : OrderedSet κ) (k : κ) : OrderedSet κ :=
  OrderedMap.insert s k ()

def ofMembers [Std.TransOrd κ] [Std.LawfulEqOrd κ] (ks : List κ) : OrderedSet κ :=
  ks.foldl add ∅

end OrderedSet

end ZoneSigning
