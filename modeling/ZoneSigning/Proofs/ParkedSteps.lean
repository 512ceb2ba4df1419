import ZoneSigning.Proofs.ScheduleRuns

/-!
What becomes of a halted step when a configure step finds nothing new. The halted step is what the
task would do next, so a request is to leave it halted. But the step that the request leaves halted
is the one that follows a configure step otherwise, and the one that was halted before is forgotten.
-/
namespace ZoneSigning

namespace Task

/-- The task `u` does what the task `t`, with the step `h` halted, is to do when nothing has changed.
It goes on with this step, or with what has been asked for, and then has this step left. -/
def KeepsHalted (t u : Task) (h : TaskKind) (now : Nat) : Prop :=
  match t.interrupt with
  | none => u.what = h ∧ u.due = t.haltedDue ∧ u.halted = none
  | some k => u.what = k ∧ u.due = max t.interruptDue now ∧
      (k ≠ h → u.halted = some h ∧ u.haltedDue = t.haltedDue)

variable {t u : Task} {h k next : TaskKind} {due now : Nat}

private theorem keepsHalted_of_none (hi : t.interrupt = none) :
    t.KeepsHalted u h now ↔ u.what = h ∧ u.due = t.haltedDue ∧ u.halted = none := by
  rw [KeepsHalted, hi]

private theorem keepsHalted_of_some (hi : t.interrupt = some k) :
    t.KeepsHalted u h now ↔ u.what = k ∧ u.due = max t.interruptDue now ∧
      (k ≠ h → u.halted = some h ∧ u.haltedDue = t.haltedDue) := by
  rw [KeepsHalted, hi]

/-- With no request pending, a task that resumes goes back to the halted step. -/
theorem resume_of_none (hi : t.interrupt = none) (hh : t.halted = some h) :
    t.resume next due now =
      { t with backoff := 0, halted := none, what := h, due := t.haltedDue } := by
  simp only [resume, takeInterrupt?, hi, hh, Option.map_none, Option.getD_none]

private theorem resume_of_some (hi : t.interrupt = some k) :
    t.resume next due now =
      { t with
        backoff := 0
        interrupt := none
        what := k
        due := max t.interruptDue now
        halted := if k = next then none else some next
        haltedDue := if k = next then t.haltedDue else due } :=
  getD_takeInterrupt_of_some (t := { t with backoff := 0 }) hi _

/-- A request for another kind of work displaces the step that follows otherwise, and halts this one. -/
theorem halted_resume_iff (hi : t.interrupt = some k) (hk : k ≠ h) :
    (t.resume next due now).halted = some h ∧ (t.resume next due now).haltedDue = t.haltedDue ↔
      next = h ∧ due = t.haltedDue := by
  rw [resume_of_some hi]
  by_cases hnext : k = next
  · have hne : next ≠ h := hnext ▸ hk
    simp [hnext, hne]
  · simp [hnext]

/-- When a configure step finds nothing new, what has been asked for always comes first, no earlier
than it was asked for. The step that has been halted is kept exactly if nothing has been asked for
but this very step, or the step that follows otherwise is the same one at the same time. -/
theorem halted_is_kept_iff (hh : t.halted = some h) (next : TaskKind) (due now : Nat) :
    (∀ k, t.interrupt = some k →
      (t.resume next due now).what = k ∧ (t.resume next due now).due = max t.interruptDue now) ∧
    (t.KeepsHalted (t.resume next due now) h now ↔
      ∀ k, t.interrupt = some k → k = h ∨ next = h ∧ due = t.haltedDue) := by
  cases hi : t.interrupt with
  | none =>
    refine ⟨nofun, ?_⟩
    rw [keepsHalted_of_none hi, resume_of_none hi hh]
    exact ⟨fun _ => nofun, fun _ => ⟨rfl, rfl, rfl⟩⟩
  | some k =>
    have hserved : (t.resume next due now).what = k ∧
        (t.resume next due now).due = max t.interruptDue now := by
      rw [resume_of_some hi]
      exact ⟨rfl, rfl⟩
    refine ⟨?_, ?_⟩
    · rintro _ ⟨⟩
      exact hserved
    · rw [keepsHalted_of_some hi]
      constructor
      · rintro ⟨-, -, hkeeps⟩ _ ⟨⟩
        exact Decidable.or_iff_not_imp_left.mpr fun hk => (halted_resume_iff hi hk).mp (hkeeps hk)
      · intro hall
        refine ⟨hserved.1, hserved.2, fun hk => (halted_resume_iff hi hk).mpr ?_⟩
        exact (hall k rfl).resolve_left hk

def displacedRead : Task :=
  { zone := ⟨.internet, "a"⟩, what := .configure, due := 0, halted := some .read, haltedDue := 30 }

/-- A halted step to read the zone comes back when nothing is pending. -/
theorem halted_is_kept_iff_read :
    displacedRead.halted = some .read ∧
      displacedRead.KeepsHalted (displacedRead.resume .sign 0 0) .read 0 :=
  ⟨rfl, (halted_is_kept_iff rfl .sign 0 0).2.mpr nofun⟩

end Task

namespace Schedule

/-- The zone is to be read later on. Its configuration is looked at now, and while this is under way,
it is to be looked at again. -/
def askedTwice : Schedule :=
  run [.schedule { zone := ⟨.internet, "a"⟩, what := .read, due := 30 },
    .reschedule ⟨.internet, "a"⟩ .configure 0, .next 0, .reschedule ⟨.internet, "a"⟩ .configure 0]

/-- Nothing new is found, and the zone is not going to be read. -/
theorem halted_step_forgotten :
    (askedTwice.resubmit .displacedRead (·.resume .sign 0 0)).2.get? ⟨.internet, "a"⟩ =
        some { Task.displacedRead with halted := some .sign, haltedDue := 0 } ∧
      ¬ ∀ (t : Task) (h next : TaskKind) (due now : Nat), t.halted = some h →
        t.KeepsHalted (t.resume next due now) h now := by
  refine ⟨rfl, fun hall => ?_⟩
  have hkept := hall (askedTwice.returned .displacedRead id) .read .sign 0 0 rfl
  obtain ⟨-, -, hread⟩ := (Task.keepsHalted_of_some (k := .configure) rfl).mp hkept
  cases (hread nofun).1

end Schedule

end ZoneSigning
