/-!
When a computation succeeds that goes on only for as long as its steps succeed.
-/
namespace ZoneSigning

variable {ε ε' α β : Type} {a b : α}

/-- Two computations in a row succeed exactly if the first one does, and then the second one. -/
theorem bind_eq_ok {x : Except ε α} {f : α → Except ε β} {b : β} :
    (x >>= f) = .ok b ↔ ∃ a, x = .ok a ∧ f a = .ok b := by
  cases x with
  | error e => exact ⟨nofun, nofun⟩
  | ok a => exact ⟨fun h => ⟨a, rfl, h⟩, fun ⟨_, ha, h⟩ => Except.ok.inj ha ▸ h⟩

/-- What is given at once is the result. -/
theorem pure_eq_ok : (pure a : Except ε α) = .ok b ↔ a = b :=
  ⟨Except.ok.inj, congrArg Except.ok⟩

/-- What an error is called makes no difference. -/
theorem mapError_eq_ok {x : Except ε α} {f : ε → ε'} : x.mapError f = .ok a ↔ x = .ok a := by
  cases x with
  | error e => exact ⟨nofun, nofun⟩
  | ok b => constructor <;> exact fun h => congrArg Except.ok (Except.ok.inj h)

/-- What comes after a check is done only where nothing is wrong. -/
theorem check_eq_ok {p : Prop} [Decidable p] {e : ε} {f : PUnit → Except ε α} :
    (if p then throw e >>= f else f ⟨⟩) = .ok a ↔ ¬ p ∧ f ⟨⟩ = .ok a := by
  split
  · next hp => exact ⟨nofun, fun h => absurd hp h.1⟩
  · next hp => exact ⟨fun h => ⟨hp, h⟩, And.right⟩

end ZoneSigning
