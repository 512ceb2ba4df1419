import ZoneSigning.Proofs.Backoffs

/-!
The sleeps of an idle worker. Each sleep in a row is twice as long as the one before, up to a limit;
a reset ends the row. So the sleeps follow the backoffs of a task that fails again and again, one
failure ahead, and with a limit of at least one second.
-/
namespace ZoneSigning

namespace IdleBackoff

/-- What a worker does with its idle backoff. -/
inductive Use where
  | sleep
  | reset
deriving DecidableEq, Repr

namespace Use

def apply (b : IdleBackoff) : Use → IdleBackoff
  | sleep => b.nextTimeout.2
  | reset => b.reset

def count (n : Nat) : Use → Nat
  | sleep => n + 1
  | reset => 0

end Use

def after (b : IdleBackoff) (uses : List Use) : IdleBackoff := uses.foldl Use.apply b

/-- How many sleeps there have been since the last reset, or since the start. -/
def streak (uses : List Use) : Nat := uses.foldl Use.count 0

private theorem streak_sleeps (uses : List Use) (n : Nat) :
    streak (uses ++ List.replicate n .sleep) = streak uses + n := by
  induction n with
  | zero => simp only [List.replicate_zero, List.append_nil, Nat.add_zero]
  | succ n ih =>
    rw [List.replicate_succ', ← List.append_assoc, streak, List.foldl_append]
    exact congrArg (· + 1) ih

def slept (limit n : Nat) : IdleBackoff := ⟨backoffAfter (max limit 1) (n + 1), max limit 1⟩

variable {limit : Nat}

private theorem slept_zero (limit : Nat) : slept limit 0 = ofLimit limit := rfl

@[simp] theorem reset_slept (limit n : Nat) : (slept limit n).reset = slept limit 0 := rfl

@[simp] theorem timeout_slept (limit n : Nat) :
    (slept limit n).nextTimeout.1 = min (firstBackoff * 2 ^ n) (max limit 1) := rfl

private theorem timeout_slept_pos (limit n : Nat) : 1 ≤ (slept limit n).nextTimeout.1 := by
  have hsleep : 0 < firstBackoff * 2 ^ n := Nat.mul_pos (by decide) (Nat.two_pow_pos n)
  exact Nat.le_min.mpr ⟨hsleep, Nat.le_max_right limit 1⟩

private theorem timeout_slept_le (limit n : Nat) : (slept limit n).nextTimeout.1 ≤ max limit 1 :=
  backoffAfter_le _ (n + 1)

private theorem timeout_slept_mono (limit : Nat) {m n : Nat} (h : m ≤ n) :
    (slept limit m).nextTimeout.1 ≤ (slept limit n).nextTimeout.1 := by
  have hsleep : firstBackoff * 2 ^ m ≤ firstBackoff * 2 ^ n :=
    Nat.mul_le_mul_left _ (Nat.pow_le_pow_right (by decide) h)
  simp only [timeout_slept]
  omega

/-- A sleep is never zero, so it is doubled as a backoff is that a task already has. -/
theorem nextTimeout_slept (hlimit : limit ≤ maxTime) (n : Nat) :
    (slept limit n).nextTimeout.2 = slept limit (n + 1) := by
  have hcap : max limit 1 ≤ maxTime := Nat.max_le.mpr ⟨hlimit, by decide⟩
  have hpos : (slept limit n).current ≠ 0 := Nat.pos_iff_ne_zero.mp (timeout_slept_pos limit n)
  have hnext : Task.nextBackoff (slept limit n).current (max limit 1) =
      (slept limit (n + 1)).current := Task.nextBackoff_backoffAfter hcap (n + 1)
  rw [Task.nextBackoff, if_neg hpos] at hnext
  exact congrArg (IdleBackoff.mk · (max limit 1)) hnext

private theorem apply_slept (hlimit : limit ≤ maxTime) (n : Nat) (use : Use) :
    use.apply (slept limit n) = slept limit (use.count n) := by
  cases use with
  | sleep => exact nextTimeout_slept hlimit n
  | reset => exact reset_slept limit n

private theorem after_slept (hlimit : limit ≤ maxTime) (n : Nat) (uses : List Use) :
    (slept limit n).after uses = slept limit (uses.foldl Use.count n) := by
  induction uses generalizing n with
  | nil => rfl
  | cons use uses ih =>
    calc (slept limit n).after (use :: uses) = (use.apply (slept limit n)).after uses := rfl
      _ = (slept limit (use.count n)).after uses := by rw [apply_slept hlimit]
      _ = slept limit (uses.foldl Use.count (use.count n)) := ih _

private theorem after_ofLimit (hlimit : limit ≤ maxTime) (uses : List Use) :
    (ofLimit limit).after uses = slept limit (streak uses) := after_slept hlimit 0 uses

/-- Whatever a worker has done with its idle backoff, the next sleep is the first one, doubled for
each sleep since the last reset or since the start, and cut off at the limit, where a limit of zero
counts as one second. So sleeps last between one second and the limit and do not get shorter until
the next reset, and a reset gives the idle backoff of a worker that starts. -/
theorem sleeps_double {limit : Nat} (hlimit : limit ≤ maxTime) (uses : List Use) :
    ((ofLimit limit).after uses).nextTimeout.1 = min (60 * 2 ^ streak uses) (max limit 1) ∧
      1 ≤ ((ofLimit limit).after uses).nextTimeout.1 ∧
      ((ofLimit limit).after uses).nextTimeout.1 ≤ max limit 1 ∧
      (∀ n, ((ofLimit limit).after uses).nextTimeout.1 ≤
        ((ofLimit limit).after (uses ++ List.replicate n .sleep)).nextTimeout.1) ∧
      ((ofLimit limit).after uses).reset = ofLimit limit := by
  have hnow := after_ofLimit hlimit uses
  refine ⟨hnow ▸ timeout_slept limit _, hnow ▸ timeout_slept_pos limit _,
    hnow ▸ timeout_slept_le limit _, fun n => ?_, ?_⟩
  · rw [hnow, after_ofLimit hlimit, streak_sleeps]
    exact timeout_slept_mono limit (Nat.le_add_right _ n)
  · rw [hnow, reset_slept, slept_zero]

/-- With the highest limit, 59 sleeps after a reset bring the sleeps to the limit. -/
theorem sleeps_double_to_the_end :
    maxTime ≤ maxTime ∧ streak ([.sleep, .reset] ++ List.replicate 59 .sleep) = 59 ∧
      ((ofLimit maxTime).after ([.sleep, .reset] ++ List.replicate 59 .sleep)).nextTimeout.1 =
        18446744073709551615 ∧
      ((ofLimit maxTime).after ([.sleep, .reset] ++ List.replicate 59 .sleep)).reset =
        ⟨60, 18446744073709551615⟩ := by
  obtain ⟨hsleep, -, -, -, hreset⟩ :=
    sleeps_double (Nat.le_refl maxTime) ([.sleep, .reset] ++ List.replicate 59 .sleep)
  exact ⟨Nat.le_refl _, by decide, hsleep.trans (by decide), hreset.trans (by decide)⟩

end IdleBackoff

end ZoneSigning
