import ZoneSigning.Step

/-!
What becomes of a task that is handed back: it is still a task of its zone, made for the same record
of the zone, and its kinds of work all stem from the requests and from the step that has ended.
-/
namespace ZoneSigning

namespace Task

/-- Two tasks are made for one record of one zone. -/
def SameOrigin (t u : Task) : Prop := t.zone = u.zone ∧ t.record = u.record

/-- With no request pending, a step goes on as it would. -/
theorem getD_takeInterrupt_of_none {t : Task} {next : TaskKind} {due now : Nat}
    (h : t.interrupt = none) (u : Task) : (t.takeInterrupt? next due now).getD u = u := by
  rw [takeInterrupt?, h, Option.map_none, Option.getD_none]

/-- With a request pending, a step goes on with that. -/
theorem getD_takeInterrupt_of_some {t : Task} {next kind : TaskKind} {due now : Nat}
    (h : t.interrupt = some kind) (u : Task) : (t.takeInterrupt? next due now).getD u =
      { t with
        interrupt := none
        what := kind
        due := max t.interruptDue now
        halted := if kind = next then none else some next
        haltedDue := if kind = next then t.haltedDue else due } := by
  rw [takeInterrupt?, h, Option.map_some, Option.getD_some]
  split <;> rfl

private theorem sameOrigin_takeInterrupt {t u v : Task} (h : v.SameOrigin t)
    (hu : u.SameOrigin t) (next : TaskKind) (due now : Nat) :
    ((v.takeInterrupt? next due now).getD u).SameOrigin t := by
  cases hi : v.interrupt with
  | none => rwa [getD_takeInterrupt_of_none hi]
  | some kind =>
    rw [getD_takeInterrupt_of_some hi]
    exact h

/-- A task that succeeds is still made for its zone. -/
theorem sameOrigin_succeed (t : Task) (next : TaskKind) (due now : Nat) :
    (t.succeed next due now).SameOrigin t := by
  unfold succeed
  apply sameOrigin_takeInterrupt <;> exact ⟨rfl, rfl⟩

/-- A task that resumes is still made for its zone. -/
theorem sameOrigin_resume (t : Task) (next : TaskKind) (due now : Nat) :
    (t.resume next due now).SameOrigin t := by
  unfold resume
  refine sameOrigin_takeInterrupt ⟨rfl, rfl⟩ ?_ next due now
  split <;> exact ⟨rfl, rfl⟩

/-- A task that fails is still made for its zone. -/
theorem sameOrigin_fail (t : Task) (now maxBackoff : Nat) :
    (t.fail now maxBackoff).SameOrigin t := by
  unfold fail
  apply sameOrigin_takeInterrupt <;> exact ⟨rfl, rfl⟩

/-- A task that is given requests is still made for its zone. -/
theorem sameOrigin_fold (p : Pending) (t : Task) : (p.fold t).SameOrigin t := by
  unfold Pending.fold
  dsimp only
  split <;> exact ⟨rfl, rfl⟩

/-- A task that is moved is still made for its zone. -/
theorem sameOrigin_retarget (t : Task) (what : TaskKind) (due : Nat) :
    (t.retarget what due).SameOrigin t := by
  unfold retarget
  split <;> exact ⟨rfl, rfl⟩

/-- A task that is moved stays a task of its zone. -/
theorem zone_retarget (what : TaskKind) (due : Nat) (t : Task) :
    (t.retarget what due).zone = t.zone :=
  (t.sameOrigin_retarget what due).1

/-- A task that is flushed stays a task of its zone. -/
theorem zone_flushed (t : Task) : ({ t with flush := true } : Task).zone = t.zone := rfl

/-- A kind of work that a task is at, has been asked for, or has halted. -/
def Involves (t : Task) (k : TaskKind) : Prop :=
  t.what = k ∨ t.interrupt = some k ∨ t.halted = some k

private theorem involves_takeInterrupt {t u : Task} {next k : TaskKind} {due now : Nat}
    (h : ((t.takeInterrupt? next due now).getD u).Involves k) :
    t.Involves k ∨ next = k ∨ u.Involves k := by
  cases hi : t.interrupt with
  | none =>
    rw [getD_takeInterrupt_of_none hi] at h
    exact .inr (.inr h)
  | some kind =>
    rw [getD_takeInterrupt_of_some hi] at h
    rcases h with hk | hk | hk
    · exact .inl (.inr (.inl (hi.trans (congrArg some hk))))
    · cases hk
    · exact .inr (.inl (Option.some.inj (Option.ite_none_left_eq_some.mp hk).2))

private theorem involves_succeed {t : Task} {next k : TaskKind} {due now : Nat}
    (h : (t.succeed next due now).Involves k) : t.Involves k ∨ next = k := by
  rcases involves_takeInterrupt h with h | h | h | h | h
  · exact .inl h
  · exact .inr h
  · exact .inr h
  · exact .inl (.inr (.inl h))
  · cases h

private theorem involves_resume {t : Task} {next k : TaskKind} {due now : Nat}
    (h : (t.resume next due now).Involves k) : t.Involves k ∨ next = k := by
  rcases involves_takeInterrupt h with h | h | h
  · exact .inl h
  · exact .inr h
  · cases hhalted : t.halted with
    | none =>
      simp only [hhalted] at h
      rcases h with h | h | h
      · exact .inr h
      · exact .inl (.inr (.inl h))
      · cases h
    | some kind =>
      simp only [hhalted] at h
      rcases h with h | h | h
      · exact .inl (.inr (.inr (hhalted.trans (congrArg some h))))
      · exact .inl (.inr (.inl h))
      · cases h

private theorem involves_fail {t : Task} {k : TaskKind} {now maxBackoff : Nat}
    (h : (t.fail now maxBackoff).Involves k) : t.Involves k := by
  rcases involves_takeInterrupt h with h | h | h
  · exact h
  · exact .inl h
  · exact h

/-- A move involves the task in no other kinds of work than the one it is moved to. -/
theorem involves_retarget {t : Task} {what k : TaskKind} {due : Nat}
    (h : (t.retarget what due).Involves k) : t.Involves k ∨ what = k := by
  unfold retarget at h
  split at h
  · rcases h with h | h | h
    · exact .inr h
    · exact .inl (.inr (.inl h))
    · exact .inl (.inl (Option.some.inj h))
  · rcases h with h | h | h
    · exact .inr h
    · exact .inl (.inr (.inl h))
    · exact .inl (.inr (.inr h))

/-- Requests involve a task in no other kinds of work than those asked for. -/
theorem involves_fold {p : Pending} {t : Task} {k : TaskKind} (h : (p.fold t).Involves k) :
    t.Involves k ∨ p.interrupt = some k := by
  unfold Pending.fold at h
  cases hp : p.interrupt with
  | none =>
    rw [hp] at h
    exact .inl h
  | some kind =>
    rw [hp] at h
    rcases h with h | h | h
    · exact .inl (.inl h)
    · exact .inr h
    · exact .inl (.inr (.inr h))

/-- A step that has succeeded goes on to the next one, unless something has been asked for. -/
theorem what_succeed {t : Task} {next : TaskKind} {due now : Nat} (h : t.interrupt = none) :
    (t.succeed next due now).what = next := by
  simp [succeed, takeInterrupt?, h]

/-- A step that has changed nothing goes back to what has been halted, unless something has been asked
for. -/
theorem what_resume {t : Task} {next kind : TaskKind} {due now : Nat} (h : t.interrupt = none)
    (hhalted : t.halted = some kind) : (t.resume next due now).what = kind := by
  simp [resume, takeInterrupt?, h, hhalted]

end Task

namespace Outcome

variable {o : Outcome} {now maxBackoff : Nat} {f : Task → Task}

def next? : Outcome → Option TaskKind
  | advance next _ | resume next => some next
  | retry _ | fatal _ => none

/-- A step involves its task in no other kinds of work than the one it goes on to. -/
theorem involves_transition (h : o.transition? now maxBackoff = some f) {t : Task} {k : TaskKind}
    (hk : (f t).Involves k) : t.Involves k ∨ o.next? = some k := by
  cases o with
  | advance next delay =>
    cases h
    exact (Task.involves_succeed hk).imp_right (congrArg some)
  | resume next =>
    cases h
    exact (Task.involves_resume hk).imp_right (congrArg some)
  | retry e =>
    cases h
    exact .inl (Task.involves_fail hk)
  | fatal e => cases h

/-- Whatever a step comes to, its task is still made for its zone. -/
theorem sameOrigin_transition (h : o.transition? now maxBackoff = some f) (t : Task) :
    (f t).SameOrigin t := by
  cases o with
  | advance next delay =>
    cases h
    exact t.sameOrigin_succeed next _ now
  | resume next =>
    cases h
    exact t.sameOrigin_resume next now now
  | retry e =>
    cases h
    exact t.sameOrigin_fail now maxBackoff
  | fatal e => cases h

/-- A task that has been handed back has no request left; what has been asked of it is what it does
next. -/
theorem interrupt_transition (h : o.transition? now maxBackoff = some f) (t : Task) :
    (f t).interrupt = none ∧ ∀ {kind}, t.interrupt = some kind → (f t).what = kind := by
  have hasked {v u : Task} {next : TaskKind} {due : Nat} (hv : v.interrupt = t.interrupt)
      (hu : v.interrupt = none → u.interrupt = none) :
      ((v.takeInterrupt? next due now).getD u).interrupt = none ∧
        ∀ {kind}, t.interrupt = some kind → ((v.takeInterrupt? next due now).getD u).what = kind := by
    rw [← hv]
    cases hi : v.interrupt with
    | none =>
      rw [Task.getD_takeInterrupt_of_none hi]
      exact ⟨hu hi, nofun⟩
    | some kind =>
      rw [Task.getD_takeInterrupt_of_some hi]
      exact ⟨rfl, Option.some.inj⟩
  cases o with
  | advance next delay =>
    cases h
    exact hasked rfl id
  | resume next =>
    cases h
    refine hasked rfl fun hnone => ?_
    split
    · exact hnone
    · exact hnone
  | retry e =>
    cases h
    exact hasked rfl id
  | fatal e => cases h

end Outcome

end ZoneSigning
