import ZoneSigning.Proofs.SafeEvictions

/-!
Moments together with all that has led to them. What a history needs to be told by is seldom in the
moment itself: which task a worker has just handed back, or which steps have begun since a request.
-/
namespace ZoneSigning.Moment

variable {σ : Type} {c : Collaborators σ} {m m' : Moment σ} {move : Move σ}
  {past : List (Moment σ × Move σ)}

/-- The moments that an engine can come to before its end begins, each with the moves that have been
made before and the moments that they were made at, the last one first. -/
inductive Past [HasFiles σ] (c : Collaborators σ) : Moment σ → List (Moment σ × Move σ) → Prop where
  | initial {m : Moment σ} : m.Initial → Past c m []
  | step {m m' : Moment σ} {move : Move σ} {past : List (Moment σ × Move σ)} : Past c m past →
      move.isClosing = false → m.step c move = some m' → Past c m' ((m, move) :: past)

/-- The moves from a moment on, with the moments that they are made at, the last one first. -/
def trace [HasFiles σ] (c : Collaborators σ) : Moment σ → List (Move σ) →
    List (Moment σ × Move σ) → List (Moment σ × Move σ)
  | _, [], past => past
  | m, move :: moves, past =>
    (m.step c move).elim past fun m' => trace c m' moves ((m, move) :: past)

variable [HasFiles σ]

/-- Moves are put in front of the past. -/
theorem trace_eq_append (c : Collaborators σ) (m : Moment σ) (moves : List (Move σ))
    (past : List (Moment σ × Move σ)) : trace c m moves past = trace c m moves [] ++ past := by
  induction moves generalizing m past with
  | nil => rfl
  | cons move moves ih =>
    rw [trace, trace]
    cases m.step c move with
    | none => rfl
    | some m' =>
      rw [Option.elim_some, Option.elim_some, ih m' ((m, move) :: past), ih m' [(m, move)],
        List.append_assoc]
      rfl

/-- A moment that has a past can be reached. -/
theorem Past.reachable (h : Past c m past) : Reachable c m := by
  induction h with
  | initial h => exact .initial h
  | step _ hmove hstep ih => exact .step ih hmove hstep

/-- Moves that do not belong to the end add to the past of a moment. -/
theorem Past.follow {moves : List (Move σ)} (h : Past c m past)
    (hmoves : ∀ move ∈ moves, move.isClosing = false) (hfollow : m.follow c moves = some m') :
    Past c m' (trace c m moves past) := by
  induction moves generalizing m past with
  | nil =>
    cases hfollow
    exact h
  | cons move moves ih =>
    obtain ⟨hmove, hmoves⟩ := List.forall_mem_cons.mp hmoves
    obtain ⟨n, hstep, hrest⟩ := Option.bind_eq_some_iff.mp hfollow
    have hstep : m.step c move = some n := hstep
    rw [trace, hstep, Option.elim_some]
    exact ih (h.step hmove hstep) hmoves hrest

end ZoneSigning.Moment
