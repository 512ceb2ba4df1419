import ZoneSigning.FileCollaborators
import ZoneSigning.Proofs.Successes

/-!
What is asked of those who read and write zones. Reading fills in the content of a zone and writing
sends it out; neither has to do with the zone's configuration or with what the inventory says of it.
-/
namespace ZoneSigning

/-- Adapters may do what they like with the content of a zone, but they keep its configuration, and
they do not take back its removal. -/
structure Collaborators.Careful {σ : Type} (c : Collaborators σ) : Prop where
  config_read : ∀ z around, z.state.config.isSome → (c.read z around).2.1.config.isSome
  config_write : ∀ z around, z.state.config.isSome → (c.write z around).2.1.config.isSome
  removed_read : ∀ z around, z.status = .removed → (c.read z around).2.1.status = .removed
  removed_write : ∀ z around, z.status = .removed → (c.write z around).2.1.status = .removed

/-- Adapters have nothing to do with what the inventory says of a zone. -/
structure Collaborators.KeepsStatus {σ : Type} (c : Collaborators σ) : Prop where
  read : ∀ z around, (c.read z around).2.1.status = z.status
  write : ∀ z around, (c.write z around).2.1.status = z.status

/-- Adapters leave the count of a zone's signatures alone. -/
structure Collaborators.KeepsSignatures {σ : Type} (c : Collaborators σ) : Prop where
  read : ∀ z around, (c.read z around).2.1.db.signatures = z.state.db.signatures
  write : ∀ z around, (c.write z around).2.1.db.signatures = z.state.db.signatures

/-- Zones are read from files and written to files. Their configurations and signatures may come
from anywhere. -/
structure Collaborators.OnFiles {σ : Type} [HasFiles σ] (c : Collaborators σ) : Prop where
  read_eq : ∀ z around, c.read z around =
    match z.state.readInput z.key (HasFiles.files around) with
    | .ok (status, s) => (.ok status, s, around)
    | .error fault => (.error (.adapter fault), z.state, around)
  write_eq : ∀ z around, c.write z around =
    (((HasFiles.files around).writeOutput z z.state).1.mapError .adapter, z.state,
      HasFiles.withFiles around ((HasFiles.files around).writeOutput z z.state).2)

/-- An endpoint that is a file has the path of that file. -/
theorem Endpoint.path_of_filePath {e : Endpoint} {path : Path} (h : e.filePath = .ok path) :
    e.path = path := by
  simp only [filePath] at h
  split at h
  · cases h
  · split at h <;> cases h
    rfl

namespace ZoneState

variable {s s' : ZoneState} {zone : ZoneKey} {files : FileStore} {status : ReadStatus}

/-- What is read is the text of the input, unless that was read when it was last modified. -/
theorem readInput_eq_ok (h : s.readInput zone files = .ok (status, s')) :
    ∃ time, files.modified s.input.path = .ok time ∧
      ((status = .unchanged ∧ s' = s ∧ s.db.lastRead = some time) ∨
        status = .fresh ∧ ∃ text content, files.readText s.input.path = .ok text ∧
          ZoneText.read zone.name text = .ok content ∧ s' = s.withContent content time) := by
  simp only [readInput, bind_eq_ok, mapError_eq_ok] at h
  obtain ⟨path, hpath, time, htime, h⟩ := h
  obtain rfl := Endpoint.path_of_filePath hpath
  refine ⟨time, htime, ?_⟩
  split at h
  · next hread =>
    cases pure_eq_ok.mp h
    exact .inl ⟨rfl, rfl, beq_iff_eq.mp (Bool.and_eq_true_iff.mp hread).2⟩
  · simp only [bind_eq_ok, mapError_eq_ok, check_eq_ok, pure_eq_ok] at h
    obtain ⟨text, htext, content, hcontent, -, h⟩ := h
    cases h
    exact .inr ⟨rfl, text, content, htext, hcontent, rfl⟩

private theorem readInput_cases (h : s.readInput zone files = .ok (status, s')) :
    s' = s ∨ ∃ content time, s' = s.withContent content time := by
  obtain ⟨time, -, ⟨-, hs, -⟩ | ⟨-, text, content, -, -, hs⟩⟩ := readInput_eq_ok h
  · exact .inl hs
  · exact .inr ⟨content, time, hs⟩

end ZoneState

namespace Collaborators.OnFiles

variable {σ : Type} [HasFiles σ] {c : Collaborators σ}

/-- To read a zone from files leaves it as it is, or gives it the content that a file has had at
some time. -/
theorem read_cases (h : c.OnFiles) (z : Zone) (around : σ) :
    (c.read z around).2.1 = z.state ∨
      ∃ content time, (c.read z around).2.1 = z.state.withContent content time := by
  rw [h.read_eq]
  split
  · next hread => exact ZoneState.readInput_cases hread
  · exact .inl rfl

/-- To write a zone to files leaves it as it is. -/
theorem write_state (h : c.OnFiles) (z : Zone) (around : σ) :
    (c.write z around).2.1 = z.state := by
  rw [h.write_eq]

/-- The state that writing gives back is the one that was to be written. -/
theorem state_of_write (h : c.OnFiles) {z : Zone} {around around' : σ}
    {answer : Except StepError Unit} {s : ZoneState}
    (hwrite : c.write z around = (answer, s, around')) : s = z.state := by
  rw [← h.write_state z around, hwrite]

/-- A reader of files that finds nothing new changes nothing. -/
theorem state_of_read (h : c.OnFiles) {z : Zone} {around around' : σ}
    {answer : Except StepError ReadStatus} {s : ZoneState}
    (hread : c.read z around = (answer, s, around')) (hanswer : answer ≠ .ok .fresh) :
    s = z.state := by
  rw [h.read_eq] at hread
  split at hread
  · next status s' hinput =>
    cases hread
    obtain ⟨time, -, ⟨-, hs, -⟩ | ⟨rfl, -⟩⟩ := ZoneState.readInput_eq_ok hinput
    · exact hs
    · exact absurd rfl hanswer
  · cases hread
    rfl

/-- Reading and writing files neither takes a configuration away nor takes back a removal. -/
theorem careful (h : c.OnFiles) : c.Careful := by
  constructor
  case config_read =>
    intro z around hz
    rcases h.read_cases z around with hs | ⟨content, time, hs⟩ <;> rw [hs] <;> exact hz
  case config_write =>
    intro z around hz
    rwa [h.write_state]
  case removed_read =>
    intro z around hz
    rcases h.read_cases z around with hs | ⟨content, time, hs⟩ <;> rw [hs] <;> exact hz
  case removed_write =>
    intro z around hz
    rwa [h.write_state]

/-- Reading and writing files has nothing to do with what the inventory says. -/
theorem keepsStatus (h : c.OnFiles) : c.KeepsStatus := by
  constructor
  case read =>
    intro z around
    rcases h.read_cases z around with hs | ⟨content, time, hs⟩ <;> rw [hs] <;> rfl
  case write =>
    intro z around
    rw [h.write_state]
    rfl

/-- Reading and writing files leaves the count of the signatures alone. -/
theorem keepsSignatures (h : c.OnFiles) : c.KeepsSignatures := by
  constructor
  case read =>
    intro z around
    rcases h.read_cases z around with hs | ⟨content, time, hs⟩
    · rw [hs]
    · rw [hs]
      rfl
  case write =>
    intro z around
    rw [h.write_state]

end Collaborators.OnFiles

/-- The collaborators of the program read and write files. -/
theorem fileCollaborators_onFiles : fileCollaborators.OnFiles where
  read_eq _ _ := rfl
  write_eq _ _ := rfl

end ZoneSigning
