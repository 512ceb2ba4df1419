import ZoneSigning.Proofs.CanonicalNames
import ZoneSigning.Proofs.InventoryHistories

/-!
Zones by the names that they are listed under. A zone is found under its own name exactly if that is
a form that is kept.
-/
namespace ZoneSigning

/-- A name that is not white space throughout is enough to be an entry's. -/
theorem ZoneEntry.isNamed_iff {e : ZoneEntry} :
    e.isNamed ↔ ∃ c ∈ e.name.toList, ¬Text.isBlank c := by
  obtain ⟨b, a, hname, hb, ha⟩ := Text.exists_trimBlank e.name.toList
  rw [isNamed, bne_iff_ne]
  constructor
  · intro hne
    obtain ⟨c, rest, htrim⟩ := List.exists_cons_of_ne_nil hne
    refine ⟨c, by rw [hname, htrim]; simp, Text.head?_trimBlank e.name.toList c ?_⟩
    rw [htrim]
    rfl
  · rintro ⟨c, hc, hblank⟩ hnone
    rw [hname, hnone, List.append_nil, List.mem_append] at hc
    exact hblank (hc.elim (hb c) (ha c))

/-- All entries of an inventory have names. -/
theorem Inventory.named_of_parse {text : String} {entries : List ZoneEntry}
    (h : parse text = .ok entries) : ∀ e ∈ entries, e.isNamed := by
  unfold parse at h
  split at h
  · cases h
  · split at h
    · cases h
    · next hnamed =>
      cases h
      intro e he
      simpa using List.findIdx?_eq_none_iff.mp hnamed e he

namespace ZoneList

variable {l : ZoneList} {z : Zone} {name : String}

/-- What is found for a name has the form of the name. -/
theorem Keyed.name_of_find? (hl : l.Keyed) (h : l.find? name = some z) :
    z.name = normalizeName name := by
  unfold find? at h
  split at h
  · next y hy =>
    cases h
    exact congrArg ZoneKey.name (hl hy)
  · simpa using List.find?_some h

/-- A listed zone is found by its name exactly if the name is in a form that is kept. -/
theorem Keyed.find?_name_iff (hl : l.Keyed) (hz : z ∈ l.all) :
    (∃ y, l.find? z.name = some y ∧ y.name = z.name) ↔ normalizeName z.name = z.name := by
  constructor
  · rintro ⟨y, hy, hname⟩
    exact (hl.name_of_find? hy).symm.trans hname
  · intro hself
    have hfound : (l.find? z.name).isSome := by
      unfold find?
      split
      · rfl
      · exact List.find?_isSome.mpr ⟨z, hz, by rw [hself]; exact beq_self_eq_true _⟩
    obtain ⟨y, hy⟩ := Option.isSome_iff_exists.mp hfound
    exact ⟨y, hy, (hl.name_of_find? hy).trans hself⟩

/-- Every zone that is listed for an inventory has the key of one of its entries. -/
theorem key_of_mem_ofEntries {made : Nat} {entries : List ZoneEntry}
    (hz : z ∈ (ofEntries made entries).all) : ∃ e ∈ entries, z.key = e.key := by
  have hget := (keyed_ofEntries made entries).get?_of_mem hz
  have hentry := description_get?_ofEntries made entries z.key
  rw [hget, Option.map_some] at hentry
  obtain ⟨e, he, -⟩ := Option.map_eq_some_iff.mp hentry.symm
  have hsame : e.key = z.key := by simpa using List.find?_some he
  exact ⟨e, List.mem_of_find?_eq_some he, hsame.symm⟩

/-- The form of a name has neither white space before it nor capitals in it, and no dot at its end
unless it is the root. It has no white space behind it, and is kept when it is formed again, exactly
if no white space parts the dots at the end of the name from the rest; and something is left of a
name exactly if there is anything but white space in it and it is not only dots.
So of the zones that are listed for an inventory, exactly those have a name whose entry's name is not
only dots, and exactly those are found by it for which the dots of the entry's name are not parted
from the rest. -/
theorem names_have_one_form (name : String) :
    ((∀ c ∈ (normalizeName name).toList.head?, ¬Text.isBlank c) ∧
      (∀ c ∈ (normalizeName name).toList, ¬c.isUpper) ∧
      ((normalizeName name).toList.getLast? = some '.' → normalizeName name = ".") ∧
      ((∀ c ∈ (normalizeName name).toList.getLast?, ¬Text.isBlank c) ↔ ¬DotsApart name) ∧
      (normalizeName (normalizeName name) = normalizeName name ↔ ¬DotsApart name) ∧
      (normalizeName name ≠ "" ↔ (∃ c ∈ name.toList, ¬Text.isBlank c) ∧ ¬OnlyDots name)) ∧
    ∀ (text : String) (entries : List ZoneEntry) (made : Nat) (z : Zone),
      Inventory.parse text = .ok entries → z ∈ (ofEntries made entries).all →
      ∃ e ∈ entries, z.key = e.key ∧ (z.name ≠ "" ↔ ¬OnlyDots e.name) ∧
        ((∃ y, (ofEntries made entries).find? z.name = some y ∧ y.name = z.name) ↔
          ¬DotsApart e.name) := by
  have hleft (name : String) : normalizeName name ≠ "" ↔
      (∃ c ∈ name.toList, ¬Text.isBlank c) ∧ ¬OnlyDots name := by
    rw [ne_eq, normalizeName_eq_empty_iff, not_or]
    simp
  constructor
  · refine ⟨head?_normalizeName name, not_isUpper_normalizeName name, fun hdot => ?_, ?_,
      normalizeName_normalizeName_iff, hleft name⟩
    · exact (canonical_normalizeName name).resolve_right fun h => h.1 hdot
    · rw [← isBlank_getLast?_normalizeName_iff]
      simp
  · intro text entries made z hparse hz
    obtain ⟨e, he, hkey⟩ := key_of_mem_ofEntries hz
    have hname : z.name = normalizeName e.name := congrArg ZoneKey.name hkey
    have hnamed := ZoneEntry.isNamed_iff.mp (Inventory.named_of_parse hparse e he)
    refine ⟨e, he, hkey, ?_, ?_⟩
    · rw [hname, hleft, and_iff_right hnamed]
    · rw [(keyed_ofEntries made entries).find?_name_iff hz, hname, normalizeName_normalizeName_iff]

def inventoryOf (name : String) : String :=
  "[\x7b\"name\":\"" ++ name ++ "\",\"signconf\":\"c\",\"input\":\x7b\"uri\":\"i\"\x7d," ++
    "\"output\":\x7b\"uri\":\"o\"\x7d\x7d]"

private theorem exists_entries (text : String) {p : List ZoneEntry → Bool}
    (h : (Inventory.parse text).toOption.any p) :
    ∃ entries, Inventory.parse text = .ok entries ∧ p entries := by
  cases hparse : Inventory.parse text with
  | error e =>
    rw [hparse] at h
    cases h
  | ok entries =>
    rw [hparse] at h
    exact ⟨entries, rfl, h⟩

/-- A zone that is listed with capitals, a dot and white space is found by the form of its name. -/
theorem names_have_one_form_capitals : ∃ entries z,
    Inventory.parse (inventoryOf " Example.ORG. ") = .ok entries ∧
      z ∈ (ofEntries 0 entries).all ∧ z.name = "example.org" ∧
      ∃ y, (ofEntries 0 entries).find? z.name = some y ∧ y.name = z.name := by
  obtain ⟨entries, hparse, hnames⟩ := exists_entries (inventoryOf " Example.ORG. ")
    (p := fun entries => (ofEntries 0 entries).all.map Zone.name = ["example.org"] &&
      entries.map ZoneEntry.name = [" Example.ORG. "]) (by decide +kernel)
  simp only [Bool.and_eq_true, decide_eq_true_eq] at hnames
  obtain ⟨hlisted, hentries⟩ := hnames
  have hmem : "example.org" ∈ (ofEntries 0 entries).all.map Zone.name := by
    rw [hlisted]
    exact List.mem_singleton_self _
  obtain ⟨z, hz, hname⟩ := List.mem_map.mp hmem
  obtain ⟨e, he, -, -, hfound⟩ := (names_have_one_form " Example.ORG. ").2 _ entries 0 z hparse hz
  have hentry : e.name = " Example.ORG. " := by
    simpa [hentries] using List.mem_map_of_mem (f := ZoneEntry.name) he
  refine ⟨entries, z, hparse, hz, hname, hfound.mpr ?_⟩
  have hlast : (stem " Example.ORG. ").getLast? = some 'G' := by decide
  have hletter : Text.isBlank 'G' = false := by decide
  simp [hentry, dotsApart_iff, hlast, hletter]

/-- A name whose dot is parted from the rest by white space has a form that is not kept, so that its
zone is not found by its name, and a name of two dots is no name at all. Inventories may list both. -/
theorem name_form_not_kept :
    (normalizeName "a ." = "a " ∧ normalizeName (normalizeName "a .") = "a" ∧
      normalizeName ".." = "") ∧
    (∃ entries, Inventory.parse (inventoryOf "a .") = .ok entries ∧
      (ofEntries 0 entries).all.map Zone.name = ["a "] ∧
      ((ofEntries 0 entries).find? "a ").isNone) ∧
    ∃ entries, Inventory.parse (inventoryOf "..") = .ok entries ∧
      (ofEntries 0 entries).all.map Zone.name = [""] := by
  refine ⟨by decide, ?_, ?_⟩
  · obtain ⟨entries, hparse, h⟩ := exists_entries (inventoryOf "a .")
      (p := fun entries => (ofEntries 0 entries).all.map Zone.name = ["a "] &&
        ((ofEntries 0 entries).find? "a ").isNone) (by decide +kernel)
    simp only [Bool.and_eq_true, decide_eq_true_eq] at h
    exact ⟨entries, hparse, h⟩
  · obtain ⟨entries, hparse, h⟩ := exists_entries (inventoryOf "..")
      (p := fun entries => (ofEntries 0 entries).all.map Zone.name = [""]) (by decide +kernel)
    exact ⟨entries, hparse, of_decide_eq_true h⟩

end ZoneList

end ZoneSigning
