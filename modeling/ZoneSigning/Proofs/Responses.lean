import ZoneSigning.Proofs.CanonicalJson
import ZoneSigning.Response

/-!
Answers read back from their documents. What an answer does not have is not in its document, and is
absent again when the document is read. A member that is there and `null` is absent too, so that an
answer whose data are `null` is the only one that is not read back.
-/
namespace ZoneSigning.Response

open Json

/-- The answers that commands are given. -/
inductive IsGiven : Response → Prop where
  | success (text : String) : IsGiven (success text)
  | failure (text : String) : IsGiven (failure text)
  | data {j : Json} (readable : j.isReadable) : IsGiven (ofData j)

variable {r : Response}

private theorem IsGiven.data_readable (h : r.IsGiven) : ∀ j ∈ r.data, j.isReadable ∧ j.canonical = j := by
  rintro j hj
  cases h with
  | success text => cases hj
  | failure text => cases hj
  | data hreadable =>
    cases hj
    exact ⟨isReadable_canonical hreadable, canonical_canonical _⟩

def present : Json → Option Json
  | .null => none
  | j => some j

private theorem present_eq_some_iff {j : Json} : present j = some j ↔ j ≠ .null := by
  cases j <;> simp [present]

private theorem nullable_value? {j : Json} (hreadable : j.isReadable) (hcanonical : j.canonical = j) :
    nullable value? j = some (present j) := by
  have hvalue : value? j = some j := by
    rw [value?, if_pos hreadable, hcanonical]
  cases j with
  | null => rfl
  | _ => exact congrArg (Option.map some) hvalue

/-- What is read from the document of an answer. Data that are `null` are read as absent. -/
theorem ofJson?_toJson (hdata : ∀ j ∈ r.data, j.isReadable ∧ j.canonical = j) :
    ofJson? r.toJson = some { r with data := r.data.bind present } := by
  obtain ⟨ok, message, data⟩ := r
  cases data with
  | none => cases message <;> rfl
  | some j =>
    have hread : ofJson? (toJson ⟨ok, message, some j⟩) =
        (nullable value? j).bind fun data => some ⟨ok, message, data⟩ := by
      cases message <;> rfl
    rw [hread, nullable_value? (hdata j rfl).1 (hdata j rfl).2]
    rfl

private theorem ofJson?_toJson_iff (hdata : ∀ j ∈ r.data, j.isReadable ∧ j.canonical = j) :
    ofJson? r.toJson = some r ↔ r.data ≠ some .null := by
  obtain ⟨ok, message, data⟩ := r
  rw [ofJson?_toJson hdata, Option.some_inj]
  cases data with
  | none => simp
  | some j => simp [present_eq_some_iff]

/-- The line of an answer holds its document, if its data can be carried in it. -/
theorem parse?_line (hdata : ∀ j ∈ r.data, j.isCarried (depthLimit - 1)) :
    parse? r.line = some r.toJson := by
  refine parse?_compact ?_ (by simp [isBlank])
  obtain ⟨ok, message, data⟩ := r
  cases message <;> cases data <;> simp_all [toJson, isCarried, membersCarried, depthLimit]

/-- Every answer that a command is given, other than data that are `null`, is read back from its
document just as it was, with nothing there that was absent. The line that is sent holds this
document, if the numbers in the data are whole ones of 64 bits and the data are not too deep for a
text; so then the answer is read back from the line. -/
theorem given_answers_read_back (h : r.IsGiven) :
    (ofJson? r.toJson = some r ↔ r.data ≠ some .null) ∧
    ((∀ j ∈ r.data, j.isCarried (depthLimit - 1)) →
      parse? r.line = some r.toJson ∧
      ((parse? r.line).bind ofJson? = some r ↔ r.data ≠ some .null)) := by
  have hback := ofJson?_toJson_iff h.data_readable
  refine ⟨hback, fun hcarried => ?_⟩
  have hline := parse?_line hcarried
  exact ⟨hline, by rw [hline]; exact hback⟩

/-- Data are read back with the members of their objects in key order. -/
theorem given_answers_read_back_counts :
    (parse? (ofData (.object [("zones", .int 2), ("failed", .array [.text "a", .null])])).line).bind
        ofJson? =
      some (ofData (.object [("zones", .int 2), ("failed", .array [.text "a", .null])])) := by
  refine ((given_answers_read_back (.data rfl)).2 ?_).2.mpr (by simp [ofData, canonical])
  rintro j hj
  cases hj
  exact isCarried_canonical rfl

/-- Data that are `null` are sent, but are absent when the answer is read. -/
theorem null_data_lost : (ofData .null).IsGiven ∧
    parse? (ofData .null).line = some (ofData .null).toJson ∧
    ofJson? (ofData .null).toJson = some { ok := true } ∧
    ofJson? (ofData .null).toJson ≠ some (ofData .null) := by
  have hread : ofJson? (ofData .null).toJson = some { ok := true } := rfl
  refine ⟨.data rfl, parse?_line ?_, hread, by rw [hread]; simp [ofData, canonical]⟩
  rintro j hj
  cases hj
  rfl

end ZoneSigning.Response
