import ZoneSigning.Proofs.QueueCrowds

/-!
The order of the items of a queue that any number of threads use. Who looks at the queue gets a
receipt. At any time, what the receipts say has left the queue, followed by what is in it, is what
they say has been appended. Once the queue is closed, nothing is appended and no consumer gets an
item.
-/
namespace ZoneSigning

variable {α : Type}

/-- What a thread gets that looks at a queue. -/
inductive Receipt (α : Type) where
  | waits
  | signalled
  | pushed (a : α) (answer : Except QueueError Unit)
  | popped (item : Option α)
  | tried (item : Option α)
  | drained (items : List α)
  | closed
deriving Repr

namespace Receipt

def appended : Receipt α → List α
  | pushed a (.ok ()) => [a]
  | _ => []

def removed : Receipt α → List α
  | popped item => item.toList
  | tried item => item.toList
  | drained items => items
  | _ => []

/-- The receipt is that of a consumer, which would have waited for an item. -/
def IsPop (r : Receipt α) : Prop := ∃ item, r = popped item

end Receipt

def Deed.settle (q : HandoffQueue α) : Deed α → Receipt α × HandoffQueue α
  | push _ a =>
    match (Visit.push a).attempt false q with
    | some (.pushed answer, q, _) => (.pushed a answer, q)
    | _ => (.waits, q)
  | pop _ exit =>
    match Visit.pop.attempt exit q with
    | some (.popped item, q, _) => (.popped item, q)
    | _ => (.waits, q)
  | use .tryPop => (.tried q.tryPop.1, q.tryPop.2.1)
  | use .drain => (.drained q.drain.1, q.drain.2.1)
  | use .close => (.closed, q.close.1)
  | use .kick | use .wakeAll => (.signalled, q)

namespace HandoffQueue

/-- What may become of a queue, with the receipt for it. -/
inductive Effect (q : HandoffQueue α) : Receipt α → HandoffQueue α → Prop
  | waits : Effect q .waits q
  | signalled : Effect q .signalled q
  | refused (a : α) (hclosed : q.closed) : Effect q (.pushed a (.error .closed)) q
  | pushed (a : α) (hopen : q.closed = false) (hroom : q.size < q.capacity) :
      Effect q (.pushed a (.ok ())) { q with items := q.items ++ [a] }
  | dismissed : Effect q (.popped none) q
  | popped {a : α} {rest : List α} (hopen : q.closed = false) (hitems : q.items = a :: rest) :
      Effect q (.popped (some a)) { q with items := rest }
  | tried : Effect q (.tried q.items.head?) { q with items := q.items.tail }
  | drained : Effect q (.drained q.items) { q with items := [] }
  | closed : Effect q .closed { q with closed := true }

end HandoffQueue

namespace Deed

private theorem settle_push (q : HandoffQueue α) (i : Nat) (a : α) :
    (push i a).settle q =
      if q.closed then (.pushed a (.error .closed), q)
      else if q.capacity ≤ q.size then (.waits, q)
      else (.pushed a (.ok ()), { q with items := q.items ++ [a] }) := by
  simp only [settle, Visit.attempt, HandoffQueue.isFull, HandoffQueue.push]
  cases hclosed : q.closed with
  | true => simp
  | false =>
    by_cases hfull : q.capacity ≤ q.size
    · simp [hfull]
    · simp [hfull]

private theorem settle_pop (q : HandoffQueue α) (i : Nat) (exit : Bool) :
    (pop i exit).settle q =
      if exit || q.closed then (.popped none, q)
      else if q.items = [] then (.waits, q)
      else (.popped q.items.head?, { q with items := q.items.tail }) := by
  simp only [settle, Visit.attempt, HandoffQueue.isBare, HandoffQueue.pop, HandoffQueue.tryPop]
  obtain ⟨capacity, threshold, items, closed⟩ := q
  cases hend : exit || closed with
  | true =>
    have hlook : (items.isEmpty && !closed && !exit) = false := by
      rcases Bool.or_eq_true_iff.mp hend with h | h <;> simp [h]
    simp [hlook]
  | false =>
    obtain ⟨hexit, hopen⟩ := Bool.or_eq_false_iff.mp hend
    cases items with
    | nil => simp [hexit, hopen]
    | cons a rest => simp [hexit, hopen]

private theorem settle_tryPop (q : HandoffQueue α) :
    (use .tryPop).settle q = (.tried q.items.head?, { q with items := q.items.tail }) := by
  obtain ⟨capacity, threshold, items, closed⟩ := q
  cases items with
  | nil => rfl
  | cons a rest => rfl

private theorem effect_settle (deed : Deed α) (q : HandoffQueue α) :
    q.Effect (deed.settle q).1 (deed.settle q).2 := by
  cases deed with
  | push i a =>
    rw [settle_push]
    split
    · next hclosed => exact .refused a hclosed
    · next hopen =>
      split
      · exact .waits
      · next hroom => exact .pushed a (Bool.eq_false_iff.mpr hopen) (Nat.lt_of_not_le hroom)
  | pop i exit =>
    rw [settle_pop]
    split
    · exact .dismissed
    · next hend =>
      obtain ⟨-, hopen⟩ := Bool.or_eq_false_iff.mp (Bool.eq_false_iff.mpr hend)
      split
      · exact .waits
      · next hsome =>
        obtain ⟨a, rest, hitems⟩ := List.exists_cons_of_ne_nil hsome
        rw [hitems]
        exact .popped hopen hitems
  | use what =>
    cases what with
    | tryPop =>
      rw [settle_tryPop]
      exact .tried
    | drain => exact .drained
    | close => exact .closed
    | kick => exact .signalled
    | wakeAll => exact .signalled

end Deed

namespace HandoffQueue.Effect

variable {q q' : HandoffQueue α} {r : Receipt α}

/-- Items join the queue at one end and leave it at the other. -/
theorem items_eq (h : q.Effect r q') : r.removed ++ q'.items = q.items ++ r.appended := by
  cases h with
  | pushed a => rfl
  | popped hopen hitems => simp [Receipt.removed, Receipt.appended, hitems]
  | tried => cases q.items <;> simp [Receipt.removed, Receipt.appended]
  | drained => rfl
  | waits | signalled | refused | dismissed | closed => exact (List.append_nil _).symm

private theorem capacity_eq (h : q.Effect r q') : q'.capacity = q.capacity := by
  cases h <;> rfl

/-- Only a queue with room takes an item. -/
theorem size_le (h : q.Effect r q') (hsize : q.size ≤ q.capacity) : q'.size ≤ q.capacity := by
  cases h with
  | pushed a hopen hroom => simpa [size] using Nat.succ_le_of_lt hroom
  | popped hopen hitems =>
    simp only [size, hitems, List.length_cons] at hsize ⊢
    omega
  | tried =>
    simp only [size, List.length_tail] at hsize ⊢
    omega
  | drained => exact Nat.zero_le _
  | waits | signalled | refused | dismissed | closed => exact hsize

/-- A producer that is turned away leaves no trace. -/
theorem eq_of_refused {a : α} {e : QueueError} (h : q.Effect (.pushed a (.error e)) q') :
    q' = q := by
  cases h
  rfl

private theorem closed_of_closed (h : q.Effect .closed q') : q'.closed := by
  cases h
  rfl

/-- A queue that is closed stays closed, and takes no item. -/
theorem of_closed (h : q.Effect r q') (hclosed : q.closed) :
    q'.closed ∧ r.appended = [] ∧ (r.IsPop → r.removed = []) := by
  cases h with
  | pushed _ hopen | popped hopen =>
    rw [hclosed] at hopen
    cases hopen
  | tried | drained => exact ⟨hclosed, rfl, nofun⟩
  | closed => exact ⟨rfl, rfl, nofun⟩
  | waits | signalled | refused | dismissed => exact ⟨hclosed, rfl, fun _ => rfl⟩

end HandoffQueue.Effect

namespace Visit

variable {q q' : HandoffQueue α} {a : α} {exit : Bool} {d : Departure α} {wakes : Wakeups}

private theorem exists_pushed (h : (push a).attempt exit q = some (d, q', wakes)) :
    ∃ answer, d = .pushed answer := by
  simp only [attempt] at h
  split at h
  · cases h
  · split at h <;> cases h <;> exact ⟨_, rfl⟩

private theorem exists_popped (h : (pop (α := α)).attempt exit q = some (d, q', wakes)) :
    ∃ item, d = .popped item := by
  simp only [attempt] at h
  split at h
  · cases h
  · cases h
    exact ⟨_, rfl⟩

end Visit

namespace Crowd

variable {cr cr' : Crowd α} {deed : Deed α} {log log' : List (Receipt α)}

/-- The threads that sleep and wake make no difference to what a deed does to the queue. -/
theorem Step.queue_eq (h : cr.Step deed cr') : cr'.queue = (deed.settle cr.queue).2 := by
  cases h with
  | full hi hawake hlook => simp only [Deed.settle, hlook]
  | pushed hi hawake hlook =>
    obtain ⟨answer, rfl⟩ := Visit.exists_pushed hlook
    simp only [Deed.settle, hlook]
  | bare hi hawake hlook => simp only [Deed.settle, hlook]
  | popped hi hawake hlook =>
    obtain ⟨item, rfl⟩ := Visit.exists_popped hlook
    simp only [Deed.settle, hlook]
  | @used what => cases what <;> rfl

/-- A step has the effect on the queue that its receipt tells. -/
theorem Step.effect (h : cr.Step deed cr') :
    cr.queue.Effect (deed.settle cr.queue).1 cr'.queue := by
  rw [h.queue_eq]
  exact deed.effect_settle cr.queue

/-- One deed after the other, with the receipts for them. -/
inductive Ran : Crowd α → List (Receipt α) → Crowd α → Prop
  | nil (cr : Crowd α) : Ran cr [] cr
  | cons {cr cr₁ cr' : Crowd α} {deed : Deed α} {log : List (Receipt α)} (hstep : cr.Step deed cr₁)
      (hrest : Ran cr₁ log cr') : Ran cr ((deed.settle cr.queue).1 :: log) cr'

/-- The receipts for some deeds, and the crowd afterwards. -/
def observe (cr : Crowd α) : List (Deed α) → Option (List (Receipt α) × Crowd α)
  | [] => some ([], cr)
  | deed :: deeds => do
    let cr₁ ← cr.next deed
    let (log, cr') ← cr₁.observe deeds
    return ((deed.settle cr.queue).1 :: log, cr')

private theorem ran_of_observe {deeds : List (Deed α)} (h : cr.observe deeds = some (log, cr')) :
    cr.Ran log cr' := by
  induction deeds generalizing cr log with
  | nil =>
    cases h
    exact .nil _
  | cons deed deeds ih =>
    obtain ⟨cr₁, hnext, h⟩ := Option.bind_eq_some_iff.mp h
    obtain ⟨⟨log, cr₂⟩, hrest, h⟩ := Option.bind_eq_some_iff.mp h
    cases h
    exact .cons (step_of_next hnext) (ih hrest)

namespace Ran

private theorem items_eq (h : cr.Ran log cr') :
    log.flatMap Receipt.removed ++ cr'.queue.items =
      cr.queue.items ++ log.flatMap Receipt.appended := by
  induction h with
  | nil => simp
  | @cons cr cr₁ cr' deed log hstep hrest ih =>
    rw [List.flatMap_cons, List.append_assoc, ih, ← List.append_assoc, hstep.effect.items_eq,
      List.append_assoc, List.flatMap_cons]

private theorem size_le (h : cr.Ran log cr') (hsize : cr.queue.size ≤ cr.queue.capacity) :
    cr'.queue.size ≤ cr.queue.capacity := by
  induction h with
  | nil => exact hsize
  | cons hstep hrest ih =>
    rw [← hstep.effect.capacity_eq]
    apply ih
    rw [hstep.effect.capacity_eq]
    exact hstep.effect.size_le hsize

/-- No item joins a queue that is closed, and none leaves it to those that wait for one. -/
theorem of_closed (h : cr.Ran log cr') (hclosed : cr.queue.closed) :
    cr'.queue.closed ∧ ∀ r ∈ log, r.appended = [] ∧ (r.IsPop → r.removed = []) := by
  induction h with
  | nil => exact ⟨hclosed, nofun⟩
  | cons hstep hrest ih =>
    obtain ⟨hclosed, hhead⟩ := hstep.effect.of_closed hclosed
    obtain ⟨hend, htail⟩ := ih hclosed
    exact ⟨hend, List.forall_mem_cons.mpr ⟨hhead, htail⟩⟩

private theorem closed_of_mem (h : cr.Ran log cr') (hmem : .closed ∈ log) : cr'.queue.closed := by
  induction h with
  | nil => cases hmem
  | @cons cr cr₁ cr' deed log hstep hrest ih =>
    rcases List.mem_cons.mp hmem with hhead | htail
    · have heffect := hstep.effect
      rw [← hhead] at heffect
      exact (hrest.of_closed heffect.closed_of_closed).1
    · exact ih htail

end Ran

/-- A queue is first in, first out, whoever uses it in whatever order. What has been taken out,
followed by what is left, is what has been accepted, and never more is left than fits in; a
producer that is turned away changes nothing. Once the queue has been closed, no item is
accepted and none given to those that wait for one: what is left only leaves to those that do not
wait, still in order. -/
theorem first_in_first_out {capacity threshold producers consumers : Nat}
    (h : (ofLimits capacity threshold producers consumers).Ran log cr) :
    log.flatMap Receipt.removed ++ cr.queue.items = log.flatMap Receipt.appended ∧
      cr.queue.size ≤ max capacity 1 ∧
      (∀ {deed cr' a e}, cr.Step deed cr' →
        (deed.settle cr.queue).1 = .pushed a (.error e) → cr'.queue = cr.queue) ∧
      (.closed ∈ log → ∀ {log' cr'}, cr.Ran log' cr' →
        (∀ r ∈ log', r.appended = [] ∧ (r.IsPop → r.removed = [])) ∧
        log'.flatMap Receipt.removed ++ cr'.queue.items = cr.queue.items) := by
  refine ⟨h.items_eq, h.size_le (Nat.zero_le _), ?_, ?_⟩
  · intro deed cr' a e hstep hanswer
    have heffect := hstep.effect
    rw [hanswer] at heffect
    exact heffect.eq_of_refused
  · intro hmem log' cr' hlater
    have hnone := (hlater.of_closed (h.closed_of_mem hmem)).2
    have happended : log'.flatMap Receipt.appended = [] :=
      List.flatMap_eq_nil_iff.mpr fun r hr => (hnone r hr).1
    refine ⟨hnone, ?_⟩
    rw [hlater.items_eq, happended, List.append_nil]

/-- Two producers at a queue for one item. One waits and gets in, the other one waits until the
queue is closed. -/
def rush : List (Deed Nat) :=
  [.push 0 10, .push 1 11, .pop 0 false, .push 1 11, .push 0 12, .use .close, .push 0 12,
    .pop 0 false, .use .drain]

def rushLog : List (Receipt Nat) :=
  [.pushed 10 (.ok ()), .waits, .popped (some 10), .pushed 11 (.ok ()), .waits, .closed,
    .pushed 12 (.error .closed), .popped none, .drained [11]]

def afterRush : Crowd Nat := ⟨⟨1, 1, [], true⟩, [.up, .up], [.up]⟩

/-- What has come into the queue in a rush has come out in the same order, and nothing comes in or
out any more. -/
theorem first_in_first_out_rush :
    (ofLimits 0 3 2 1).Ran rushLog afterRush ∧
      rushLog.flatMap Receipt.removed ++ afterRush.queue.items = rushLog.flatMap Receipt.appended ∧
      afterRush.queue.size ≤ max 0 1 ∧
      (∀ {deed cr' a e}, afterRush.Step deed cr' →
        (deed.settle afterRush.queue).1 = .pushed a (.error e) → cr'.queue = afterRush.queue) ∧
      (.closed ∈ rushLog → ∀ {log' cr'}, afterRush.Ran log' cr' →
        (∀ r ∈ log', r.appended = [] ∧ (r.IsPop → r.removed = [])) ∧
        log'.flatMap Receipt.removed ++ cr'.queue.items = afterRush.queue.items) := by
  have hobserve : (ofLimits 0 3 2 1).observe rush = some (rushLog, afterRush) := rfl
  have hran := ran_of_observe hobserve
  exact ⟨hran, first_in_first_out hran⟩

end Crowd

end ZoneSigning
