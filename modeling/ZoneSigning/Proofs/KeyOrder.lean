import ZoneSigning.Task

/-!
The order of task keys, spelled out: due time, kind, name, class. Names are compared character by
character. That is the order of their bytes, because of two characters the smaller one is encoded in
smaller bytes, and no encoding of a character begins another one.
-/
namespace ZoneSigning

namespace Text

def bytes (s : String) : List UInt8 := s.toByteArray.data.toList

private theorem bytes_eq_flatMap (s : String) : bytes s = s.toList.flatMap String.utf8EncodeChar := by
  rw [bytes, ← String.utf8Encode_toList]
  exact List.toList_data_toByteArray

/-- What follows two different characters does not count. -/
theorem encoded_lt_encoded {c d : Char} (h : c < d) (xs ys : List UInt8) :
    String.utf8EncodeChar c ++ xs < String.utf8EncodeChar d ++ ys := by
  have hlt : c.val.toNat < d.val.toNat := h
  have hd : d.val.toNat < 0x110000 := by
    rcases d.valid with hd | ⟨-, hd⟩
    · exact Nat.lt_trans hd (by decide)
    · exact hd
  simp only [String.utf8EncodeChar]
  generalize c.val.toNat = m at hlt
  generalize d.val.toNat = n at hlt hd
  -- The encodings hold the digits of the two numbers to the base of 64, the highest one first.
  have hlow : m / 64 < n / 64 ∨ m / 64 = n / 64 ∧ m % 64 < n % 64 := by omega
  have hmid : m / 64 < n / 64 →
      m / 4096 < n / 4096 ∨ m / 4096 = n / 4096 ∧ m / 64 % 64 < n / 64 % 64 := by omega
  have hhigh : m / 4096 < n / 4096 →
      m / 262144 < n / 262144 ∨ m / 262144 = n / 262144 ∧ m / 4096 % 64 < n / 4096 % 64 := by omega
  repeat' split
  all_goals
    simp only [List.cons_append, List.nil_append, List.cons_lt_cons_iff, UInt8.lt_iff_toNat_lt,
      ← UInt8.toNat_inj, UInt8.toNat_ofNat']
    simp (disch := omega) only [Nat.mod_eq_of_lt]
    omega

private theorem append_lt_append {xs ys : List UInt8} (zs : List UInt8) (h : xs < ys) :
    zs ++ xs < zs ++ ys := by
  induction zs with
  | nil => exact h
  | cons z zs ih => exact List.cons_lt_cons_iff.mpr (.inr ⟨rfl, ih⟩)

private theorem flatMap_lt_flatMap {cs ds : List Char} (h : cs < ds) :
    cs.flatMap String.utf8EncodeChar < ds.flatMap String.utf8EncodeChar := by
  induction h with
  | nil =>
    rename_i d ds
    rw [List.flatMap_cons]
    cases hd : String.utf8EncodeChar d with
    | nil => exact absurd hd String.utf8EncodeChar_ne_nil
    | cons b bs => exact List.nil_lt_cons _ _
  | rel h =>
    rw [List.flatMap_cons, List.flatMap_cons]
    exact encoded_lt_encoded h _ _
  | cons _ ih =>
    rw [List.flatMap_cons, List.flatMap_cons]
    exact append_lt_append _ ih

/-- Texts are in the order of their bytes. -/
theorem lt_iff_bytes_lt {s t : String} : s < t ↔ bytes s < bytes t := by
  have hmono {s t : String} (h : s < t) : bytes s < bytes t := by
    rw [bytes_eq_flatMap, bytes_eq_flatMap]
    exact flatMap_lt_flatMap h
  refine ⟨hmono, fun hbytes => Decidable.byContradiction fun hnot => ?_⟩
  have hts : ¬ t < s := fun hts => List.lt_asymm hbytes (hmono hts)
  obtain rfl : s = t := String.le_antisymm (String.not_lt.mp hts) (String.not_lt.mp hnot)
  exact List.lt_irrefl _ hbytes

end Text

namespace TaskKey

/-- The order in which tasks wait: by due time, then by kind in the order in which a zone goes through
them, then by the bytes of the zone's name, then by the code of its class. -/
def Precedes (a b : TaskKey) : Prop :=
  a.due < b.due ∨ a.due = b.due ∧
    (a.what.rank < b.what.rank ∨ a.what = b.what ∧
      (Text.bytes a.zone < Text.bytes b.zone ∨ a.zone = b.zone ∧ a.dnsClass.code < b.dnsClass.code))

/-- Keys are compared as `TaskKey.Precedes` says. -/
theorem compare_eq_lt_iff {a b : TaskKey} : compare a b = .lt ↔ a.Precedes b := by
  have hcompare : compare a b = (compare a.due b.due).then ((compare a.what.rank b.what.rank).then
      ((compare a.zone b.zone).then (compare a.dnsClass.code b.dnsClass.code))) := rfl
  have hname : compare a.zone b.zone = .lt ↔ Text.bytes a.zone < Text.bytes b.zone := by
    rw [← Text.lt_iff_bytes_lt]
    exact compareOfLessAndEq_eq_lt
  have hkind : a.what.rank = b.what.rank ↔ a.what = b.what :=
    ⟨TaskKind.rank_injective, congrArg TaskKind.rank⟩
  simp only [hcompare, Ordering.then_eq_lt, Nat.compare_eq_lt, hname, hkind,
    Std.LawfulEqOrd.compare_eq_iff_eq, Precedes]

end TaskKey

end ZoneSigning
