import ZoneSigning.HandoffQueue

/-!
A queue with any number of producers and consumers. Who has to wait falls asleep, and looks at the
queue again only when it has been woken. No wake-up is lost: nobody sleeps on while there is
something for it to do, unless somebody who has been woken is going to do it.
-/
namespace ZoneSigning

/-- Whether a thread waits at a queue. -/
inductive Stand where
  | up
  | asleep
  | woken
deriving DecidableEq, Repr

namespace Stand

def wake : Stand → Stand
  | asleep => woken
  | up => up
  | woken => woken

/-- Which threads are still asleep after some of them have been woken. If one is to be woken, it is
any of those that are asleep. -/
inductive Woken : Wake → List Stand → List Stand → Prop
  | nobody (ss : List Stand) : Woken .nobody ss ss
  | one {ss : List Stand} {i : Nat} (hi : ss[i]? = some .asleep) : Woken .one ss (ss.set i .woken)
  | none {ss : List Stand} (hnone : .asleep ∉ ss) : Woken .one ss ss
  | everyone (ss : List Stand) : Woken .everyone ss (ss.map wake)

def rouse : Wake → List Stand → List Stand
  | .nobody, ss => ss
  | .one, ss =>
    match ss.findIdx? (· = asleep) with
    | some i => ss.set i woken
    | none => ss
  | .everyone, ss => ss.map wake

variable {ss ss' : List Stand} {i : Nat} {s s' : Stand}

private theorem Woken.rouse (wake : Wake) (ss : List Stand) : Woken wake ss (Stand.rouse wake ss) := by
  cases wake with
  | nobody => exact .nobody ss
  | everyone => exact .everyone ss
  | one =>
    simp only [Stand.rouse]
    split
    · next i hi =>
      obtain ⟨hlt, hasleep, -⟩ := List.findIdx?_eq_some_iff_getElem.mp hi
      exact .one (List.getElem?_eq_some_iff.mpr ⟨hlt, of_decide_eq_true hasleep⟩)
    · next hnone =>
      exact .none fun hmem => by simpa using List.findIdx?_eq_none_iff.mp hnone _ hmem

private theorem asleep_not_mem_map_wake (ss : List Stand) : asleep ∉ ss.map wake := by
  intro hmem
  obtain ⟨s, -, hs⟩ := List.mem_map.mp hmem
  cases s <;> cases hs

/-- Nobody is put to sleep but the thread itself. -/
theorem asleep_of_mem_set (hmem : asleep ∈ ss.set i s) (hs : s ≠ asleep) : asleep ∈ ss :=
  (List.mem_or_eq_of_mem_set hmem).resolve_right hs.symm

private theorem up_ne_asleep : up ≠ asleep := by decide

private theorem woken_ne_asleep : woken ≠ asleep := by decide

private theorem count_woken_set (hi : ss[i]? = some s) (s' : Stand) :
    (ss.set i s').count woken + (if s = woken then 1 else 0) =
      ss.count woken + if s' = woken then 1 else 0 := by
  obtain ⟨hlt, rfl⟩ := List.getElem?_eq_some_iff.mp hi
  rw [List.count_set hlt]
  simp only [beq_iff_eq]
  by_cases hwas : ss[i] = woken
  · have hpos : 0 < ss.count woken := List.count_pos_iff.mpr (hwas ▸ List.getElem_mem hlt)
    simp only [hwas, if_true]
    omega
  · simp only [hwas, if_false]
    omega

namespace Woken

/-- Whoever is asleep after some have been woken has been so before. -/
theorem asleep_of_mem {wake : Wake} (h : Woken wake ss ss') (hmem : asleep ∈ ss') : asleep ∈ ss := by
  cases h with
  | nobody => exact hmem
  | one => exact asleep_of_mem_set hmem woken_ne_asleep
  | none => exact hmem
  | everyone => exact absurd hmem (asleep_not_mem_map_wake ss)

private theorem not_mem_of_everyone (h : Woken .everyone ss ss') : asleep ∉ ss' := by
  cases h
  exact asleep_not_mem_map_wake ss

/-- If somebody sleeps on, another one has been woken. -/
theorem count_of_one (h : Woken .one ss ss') (hmem : asleep ∈ ss') :
    ss'.count woken = ss.count woken + 1 := by
  cases h with
  | one hi => simpa using count_woken_set hi woken
  | none hnone => exact absurd hmem hnone

private theorem of_up (h : ∀ s ∈ ss, s = up) (wake : Wake) : Woken wake ss ss := by
  cases wake with
  | nobody => exact .nobody ss
  | one => exact .none fun hmem => up_ne_asleep (h _ hmem).symm
  | everyone =>
    have hsame : ss.map Stand.wake = ss :=
      (List.map_congr_left fun s hs => by rw [h s hs]; rfl).trans (List.map_id ss)
    simpa only [hsame] using Woken.everyone ss

end Woken

end Stand

/-- What nobody has to wait for. -/
inductive QueueUse where
  | tryPop
  | kick
  | drain
  | wakeAll
  | close
deriving DecidableEq, Repr

def QueueUse.apply {α : Type} (q : HandoffQueue α) : QueueUse → HandoffQueue α × Wakeups
  | tryPop => q.tryPop.2
  | kick => (q, q.kick)
  | drain => q.drain.2
  | wakeAll => (q, .all)
  | close => q.close

namespace QueueUse

variable {α : Type} {q : HandoffQueue α}

/-- Nobody appends an item without waiting. -/
theorem items_apply_suffix (what : QueueUse) (q : HandoffQueue α) :
    (what.apply q).1.items <:+ q.items := by
  cases what with
  | tryPop =>
    simp only [apply, HandoffQueue.tryPop]
    cases hitems : q.items with
    | nil => simp [hitems]
    | cons a items => exact List.suffix_cons a items
  | drain => exact List.nil_suffix
  | kick => exact List.suffix_rfl
  | wakeAll => exact List.suffix_rfl
  | close => exact List.suffix_rfl

/-- A queue that is closed stays closed. -/
theorem closed_apply (what : QueueUse) (hclosed : q.closed) : (what.apply q).1.closed := by
  cases what with
  | tryPop =>
    simp only [apply, HandoffQueue.tryPop]
    split <;> exact hclosed
  | close => rfl
  | drain => exact hclosed
  | kick => exact hclosed
  | wakeAll => exact hclosed

end QueueUse

/-- Something that is done to a queue. -/
inductive Deed (α : Type) where
  | push (producer : Nat) (a : α)
  | pop (consumer : Nat) (exit : Bool)
  | use (what : QueueUse)
deriving DecidableEq, Repr

/-- What becomes of the queue when nobody has to wait. -/
def Deed.Leads {α : Type} (q q' : HandoffQueue α) : Deed α → Prop
  | push _ a => ∃ d wakes, (Visit.push a).attempt false q = some (d, q', wakes)
  | pop _ exit => ∃ d wakes, Visit.pop.attempt exit q = some (d, q', wakes)
  | use what => q' = (what.apply q).1

def Deed.Within {α : Type} (producers consumers : Nat) : Deed α → Prop
  | push i _ => i < producers
  | pop i _ => i < consumers
  | use _ => True

/-- A queue, and those who append to it and take from it. -/
structure Crowd (α : Type) where
  queue : HandoffQueue α
  producers : List Stand
  consumers : List Stand
deriving DecidableEq, Repr

variable {α : Type}

namespace Visit

variable {q q' : HandoffQueue α} {a : α} {exit : Bool} {d : Departure α} {wakes : Wakeups}

private theorem attempt_push_eq_none :
    (push a).attempt exit q = none ↔ q.capacity ≤ q.size ∧ q.closed = false := by
  have hfull : q.isFull ↔ q.capacity ≤ q.size ∧ q.closed = false := by simp [HandoffQueue.isFull]
  rw [← hfull]
  simp only [attempt]
  split
  · next h => simp [h]
  · next h => cases q.push a <;> simp [h]

/-- A queue that is closed takes no item; one that is not takes it, and wakes the consumers if it
holds enough. -/
theorem attempt_push_eq_some (h : (push a).attempt exit q = some (d, q', wakes)) :
    q.closed ∧ q' = q ∧ wakes = {} ∨
    q.closed = false ∧ q' = { q with items := q.items ++ [a] } ∧
      wakes = { consumers := if q.threshold ≤ q'.size then .everyone else .nobody } := by
  simp only [attempt, HandoffQueue.push] at h
  by_cases hclosed : q.closed
  · rw [if_pos hclosed] at h
    split at h <;> cases h
    exact .inl ⟨hclosed, rfl, rfl⟩
  · rw [if_neg hclosed] at h
    split at h <;> cases h
    exact .inr ⟨Bool.eq_false_iff.mpr hclosed, rfl, rfl⟩

private theorem attempt_pop_eq_none :
    (pop (α := α)).attempt exit q = none ↔ q.items = [] ∧ q.closed = false ∧ exit = false := by
  simp [attempt, HandoffQueue.isBare, and_assoc]

/-- A consumer gets nothing if it is to exit or the queue is closed, and else the oldest item. -/
theorem attempt_pop_eq_some (h : (pop (α := α)).attempt exit q = some (d, q', wakes)) :
    (exit ∨ q.closed) ∧ q' = q ∧ wakes = {} ∨
    (∃ a, q.items = a :: q'.items) ∧ q' = { q with items := q'.items } ∧
      wakes = { producers := .one } := by
  simp only [attempt] at h
  split at h
  · cases h
  · next hbare =>
    by_cases hend : (exit || q.closed) = true
    · rw [HandoffQueue.pop, if_pos hend] at h
      cases h
      exact .inl ⟨by simpa using hend, rfl, rfl⟩
    · rw [HandoffQueue.pop, if_neg hend, HandoffQueue.tryPop] at h
      cases hitems : q.items with
      | nil =>
        obtain ⟨hexit, hopen⟩ := Bool.or_eq_false_iff.mp (Bool.eq_false_iff.mpr hend)
        exact absurd (by simp [HandoffQueue.isBare, hitems, hexit, hopen]) hbare
      | cons a rest =>
        rw [hitems] at h
        cases h
        exact .inr ⟨⟨a, rfl⟩, rfl, rfl⟩

end Visit

namespace Crowd

/-- Something happens to the queue. Who is asleep does nothing, and who has been woken looks at the
queue as if it came for the first time. -/
inductive Step (cr : Crowd α) : Deed α → Crowd α → Prop
  | full {i : Nat} {a : α} {s : Stand} (hi : cr.producers[i]? = some s) (hawake : s ≠ .asleep)
      (hlook : (Visit.push a).attempt false cr.queue = none) :
      Step cr (.push i a) { cr with producers := cr.producers.set i .asleep }
  | pushed {i : Nat} {a : α} {s : Stand} {d : Departure α} {q : HandoffQueue α} {wakes : Wakeups}
      {producers consumers : List Stand} (hi : cr.producers[i]? = some s) (hawake : s ≠ .asleep)
      (hlook : (Visit.push a).attempt false cr.queue = some (d, q, wakes))
      (hproducers : Stand.Woken wakes.producers (cr.producers.set i .up) producers)
      (hconsumers : Stand.Woken wakes.consumers cr.consumers consumers) :
      Step cr (.push i a) ⟨q, producers, consumers⟩
  | bare {i : Nat} {exit : Bool} {s : Stand} (hi : cr.consumers[i]? = some s) (hawake : s ≠ .asleep)
      (hlook : Visit.pop.attempt exit cr.queue = none) :
      Step cr (.pop i exit) { cr with consumers := cr.consumers.set i .asleep }
  | popped {i : Nat} {exit : Bool} {s : Stand} {d : Departure α} {q : HandoffQueue α}
      {wakes : Wakeups} {producers consumers : List Stand} (hi : cr.consumers[i]? = some s)
      (hawake : s ≠ .asleep) (hlook : Visit.pop.attempt exit cr.queue = some (d, q, wakes))
      (hproducers : Stand.Woken wakes.producers cr.producers producers)
      (hconsumers : Stand.Woken wakes.consumers (cr.consumers.set i .up) consumers) :
      Step cr (.pop i exit) ⟨q, producers, consumers⟩
  | used {what : QueueUse} {producers consumers : List Stand}
      (hproducers : Stand.Woken (what.apply cr.queue).2.producers cr.producers producers)
      (hconsumers : Stand.Woken (what.apply cr.queue).2.consumers cr.consumers consumers) :
      Step cr (.use what) ⟨(what.apply cr.queue).1, producers, consumers⟩

/-- Do something to the queue, and let the first sleeper wake up if one is to be woken; nothing if
the thread is asleep. -/
def next (cr : Crowd α) : Deed α → Option (Crowd α)
  | .push i a =>
    match cr.producers[i]? with
    | none | some .asleep => none
    | some _ =>
      match (Visit.push a).attempt false cr.queue with
      | none => some { cr with producers := cr.producers.set i .asleep }
      | some (_, q, wakes) => some ⟨q, Stand.rouse wakes.producers (cr.producers.set i .up),
          Stand.rouse wakes.consumers cr.consumers⟩
  | .pop i exit =>
    match cr.consumers[i]? with
    | none | some .asleep => none
    | some _ =>
      match Visit.pop.attempt exit cr.queue with
      | none => some { cr with consumers := cr.consumers.set i .asleep }
      | some (_, q, wakes) => some ⟨q, Stand.rouse wakes.producers cr.producers,
          Stand.rouse wakes.consumers (cr.consumers.set i .up)⟩
  | .use what =>
    let (q, wakes) := what.apply cr.queue
    some ⟨q, Stand.rouse wakes.producers cr.producers, Stand.rouse wakes.consumers cr.consumers⟩

/-- What is done to a queue is one of the steps that there are. -/
theorem step_of_next {cr cr' : Crowd α} {deed : Deed α} (h : cr.next deed = some cr') :
    cr.Step deed cr' := by
  cases deed with
  | push i a =>
    simp only [next] at h
    split at h
    · cases h
    · cases h
    · next s hawake hi =>
      split at h <;> cases h
      · next hlook => exact .full hi hawake hlook
      · next hlook => exact .pushed hi hawake hlook (.rouse _ _) (.rouse _ _)
  | pop i exit =>
    simp only [next] at h
    split at h
    · cases h
    · cases h
    · next s hawake hi =>
      split at h <;> cases h
      · next hlook => exact .bare hi hawake hlook
      · next hlook => exact .popped hi hawake hlook (.rouse _ _) (.rouse _ _)
  | use what =>
    cases h
    exact .used (.rouse _ _) (.rouse _ _)

def ofLimits (capacity threshold producers consumers : Nat) : Crowd α where
  queue := .ofLimits capacity threshold
  producers := .replicate producers .up
  consumers := .replicate consumers .up

inductive Reachable : Crowd α → Prop
  | initial (capacity threshold producers consumers : Nat) :
      Reachable (ofLimits capacity threshold producers consumers)
  | step {cr cr' : Crowd α} {deed : Deed α} : Reachable cr → cr.Step deed cr' → Reachable cr'

def follow (cr : Crowd α) (deeds : List (Deed α)) : Option (Crowd α) := deeds.foldlM (·.next ·) cr

/-- Deeds lead from a crowd that can come about to another one. -/
theorem Reachable.follow {cr cr' : Crowd α} {deeds : List (Deed α)} (h : cr.Reachable)
    (hfollow : cr.follow deeds = some cr') : cr'.Reachable := by
  induction deeds generalizing cr with
  | nil =>
    cases hfollow
    exact h
  | cons deed deeds ih =>
    obtain ⟨cr₁, hnext, hrest⟩ := Option.bind_eq_some_iff.mp hfollow
    exact ih (h.step (step_of_next hnext)) hrest

/-- Nobody sleeps without a reason. -/
structure Sound (cr : Crowd α) : Prop where
  threshold : 0 < cr.queue.threshold
  /-- A consumer sleeps while there are too few items. -/
  consumers : .asleep ∈ cr.consumers → cr.queue.closed = false ∧ cr.queue.size < cr.queue.threshold
  /-- A producer sleeps while those who have been woken may take all the room. -/
  producers : .asleep ∈ cr.producers →
    cr.queue.closed = false ∧ cr.queue.capacity ≤ cr.queue.size + cr.producers.count .woken

variable {cr cr' : Crowd α}

private theorem sound_ofLimits (capacity threshold producers consumers : Nat) :
    (ofLimits (α := α) capacity threshold producers consumers).Sound where
  threshold := by
    simp only [ofLimits, HandoffQueue.ofLimits]
    omega
  consumers hmem := by cases (List.mem_replicate.mp hmem).2
  producers hmem := by cases (List.mem_replicate.mp hmem).2

namespace Sound

variable {i : Nat} {s : Stand}

private theorem producers_up (h : cr.Sound) (hi : cr.producers[i]? = some s)
    (hmem : .asleep ∈ cr.producers.set i .up) : cr.queue.closed = false ∧
      cr.queue.capacity ≤ cr.queue.size + 1 + (cr.producers.set i .up).count .woken := by
  obtain ⟨hopen, hroom⟩ := h.producers (Stand.asleep_of_mem_set hmem Stand.up_ne_asleep)
  have hcount := Stand.count_woken_set hi .up
  refine ⟨hopen, ?_⟩
  simp only [reduceCtorEq, if_false] at hcount
  split at hcount <;> omega

private theorem pushed {a : α} {d : Departure α} {q : HandoffQueue α} {wakes : Wakeups}
    {producers consumers : List Stand} (h : cr.Sound) (hi : cr.producers[i]? = some s)
    (hlook : (Visit.push a).attempt false cr.queue = some (d, q, wakes))
    (hproducers : Stand.Woken wakes.producers (cr.producers.set i .up) producers)
    (hconsumers : Stand.Woken wakes.consumers cr.consumers consumers) :
    (⟨q, producers, consumers⟩ : Crowd α).Sound := by
  rcases Visit.attempt_push_eq_some hlook with ⟨hclosed, rfl, rfl⟩ | ⟨hopen, rfl, rfl⟩
  · -- Nobody is asleep at a queue that is closed.
    cases hproducers
    cases hconsumers
    refine ⟨h.threshold, h.consumers, fun hmem => ?_⟩
    have hopen := (h.producers_up hi hmem).1
    rw [hclosed] at hopen
    cases hopen
  · cases hproducers
    refine ⟨h.threshold, fun hmem => ⟨hopen, ?_⟩, fun hmem => ?_⟩
    · split at hconsumers
      · exact absurd hmem hconsumers.not_mem_of_everyone
      · next hfew => exact Nat.lt_of_not_le hfew
    · simpa [HandoffQueue.size] using h.producers_up hi hmem

private theorem taken {a : α} {items : List α} {producers consumers : List Stand} (h : cr.Sound)
    (hitems : cr.queue.items = a :: items)
    (hproducers : Stand.Woken .one cr.producers producers)
    (hconsumers : .asleep ∈ consumers → .asleep ∈ cr.consumers) :
    (⟨{ cr.queue with items := items }, producers, consumers⟩ : Crowd α).Sound where
  threshold := h.threshold
  consumers hmem := by
    have hfew := h.consumers (hconsumers hmem)
    simp only [HandoffQueue.size, hitems, List.length_cons] at hfew ⊢
    exact ⟨hfew.1, by omega⟩
  producers hmem := by
    obtain ⟨hopen, hroom⟩ := h.producers (hproducers.asleep_of_mem hmem)
    have hcount := hproducers.count_of_one hmem
    simp only [HandoffQueue.size, hitems, List.length_cons] at hroom ⊢
    exact ⟨hopen, by omega⟩

private theorem popped {exit : Bool} {d : Departure α} {q : HandoffQueue α} {wakes : Wakeups}
    {producers consumers : List Stand} (h : cr.Sound)
    (hlook : Visit.pop.attempt exit cr.queue = some (d, q, wakes))
    (hproducers : Stand.Woken wakes.producers cr.producers producers)
    (hconsumers : Stand.Woken wakes.consumers (cr.consumers.set i .up) consumers) :
    (⟨q, producers, consumers⟩ : Crowd α).Sound := by
  have hasleep (hmem : .asleep ∈ consumers) : .asleep ∈ cr.consumers :=
    Stand.asleep_of_mem_set (hconsumers.asleep_of_mem hmem) Stand.up_ne_asleep
  rcases Visit.attempt_pop_eq_some hlook with ⟨-, rfl, rfl⟩ | ⟨⟨a, hitems⟩, hq, rfl⟩
  · cases hproducers
    exact ⟨h.threshold, fun hmem => h.consumers (hasleep hmem), h.producers⟩
  · rw [hq]
    exact h.taken hitems hproducers hasleep

/-- Whoever wakes everybody leaves nobody asleep. -/
theorem of_everyone {q : HandoffQueue α} {sleepers producers consumers : List Stand}
    (hthreshold : 0 < q.threshold) (hproducers : Stand.Woken .everyone sleepers producers)
    (hconsumers : .asleep ∈ consumers → q.closed = false ∧ q.size < q.threshold) :
    (⟨q, producers, consumers⟩ : Crowd α).Sound :=
  ⟨hthreshold, hconsumers, fun hmem => absurd hmem hproducers.not_mem_of_everyone⟩

private theorem used {what : QueueUse} {producers consumers : List Stand} (h : cr.Sound)
    (hproducers : Stand.Woken (what.apply cr.queue).2.producers cr.producers producers)
    (hconsumers : Stand.Woken (what.apply cr.queue).2.consumers cr.consumers consumers) :
    (⟨(what.apply cr.queue).1, producers, consumers⟩ : Crowd α).Sound := by
  cases what with
  | tryPop =>
    simp only [QueueUse.apply, HandoffQueue.tryPop] at hproducers hconsumers ⊢
    cases hitems : cr.queue.items with
    | nil =>
      simp only [hitems] at hproducers hconsumers ⊢
      cases hproducers
      cases hconsumers
      exact h
    | cons a items =>
      simp only [hitems] at hproducers hconsumers ⊢
      exact h.taken hitems hproducers hconsumers.asleep_of_mem
  | kick =>
    cases hproducers
    exact ⟨h.threshold, fun hmem => h.consumers (hconsumers.asleep_of_mem hmem), h.producers⟩
  | drain =>
    refine .of_everyone h.threshold hproducers fun hmem => ?_
    exact ⟨(h.consumers (hconsumers.asleep_of_mem hmem)).1, h.threshold⟩
  | wakeAll | close =>
    refine .of_everyone h.threshold hproducers fun hmem => ?_
    exact absurd hmem hconsumers.not_mem_of_everyone

/-- A step leaves nobody asleep without a reason. -/
theorem step {deed : Deed α} (h : cr.Sound) (hstep : cr.Step deed cr') : cr'.Sound := by
  cases hstep with
  | full hi hawake hlook =>
    obtain ⟨hfull, hopen⟩ := Visit.attempt_push_eq_none.mp hlook
    exact ⟨h.threshold, h.consumers, fun _ => ⟨hopen, Nat.le_add_right_of_le hfull⟩⟩
  | pushed hi hawake hlook hproducers hconsumers => exact h.pushed hi hlook hproducers hconsumers
  | bare hi hawake hlook =>
    obtain ⟨hitems, hopen, -⟩ := Visit.attempt_pop_eq_none.mp hlook
    refine ⟨h.threshold, fun _ => ⟨hopen, ?_⟩, h.producers⟩
    simpa only [HandoffQueue.size, hitems, List.length_nil] using h.threshold
  | popped hi hawake hlook hproducers hconsumers => exact h.popped hlook hproducers hconsumers
  | used hproducers hconsumers => exact h.used hproducers hconsumers

end Sound

/-- A consumer only falls asleep when there is nothing to take. -/
theorem Step.asleep_of_mem {deed : Deed α} (h : cr.Step deed cr') (hmem : .asleep ∈ cr'.consumers) :
    .asleep ∈ cr.consumers ∨ cr'.queue.items = [] := by
  cases h with
  | full => exact .inl hmem
  | pushed _ _ _ _ hconsumers => exact .inl (hconsumers.asleep_of_mem hmem)
  | bare _ _ hlook => exact .inr (Visit.attempt_pop_eq_none.mp hlook).1
  | popped _ _ _ _ hconsumers =>
    exact .inl (Stand.asleep_of_mem_set (hconsumers.asleep_of_mem hmem) Stand.up_ne_asleep)
  | used _ hconsumers => exact .inl (hconsumers.asleep_of_mem hmem)

/-- A kick leaves nobody asleep if there is something to take. -/
theorem Step.items_of_kick (h : cr.Step (.use .kick) cr') (hmem : .asleep ∈ cr'.consumers) :
    cr'.queue.items = [] := by
  cases h with
  | used _ hconsumers =>
    simp only [QueueUse.apply, HandoffQueue.kick] at hconsumers
    split at hconsumers
    · next hitems => exact List.isEmpty_iff.mp hitems
    · exact absurd hmem hconsumers.not_mem_of_everyone

/-- Nobody waits. -/
structure AllUp (cr : Crowd α) : Prop where
  producers : ∀ s ∈ cr.producers, s = .up
  consumers : ∀ s ∈ cr.consumers, s = .up

/-- Whatever is done while nobody waits, if it need not wait, makes nobody wait. -/
theorem AllUp.step {deed : Deed α} {q : HandoffQueue α} (h : cr.AllUp)
    (hleads : deed.Leads cr.queue q) (hwithin : deed.Within cr.producers.length cr.consumers.length) :
    cr.Step deed ⟨q, cr.producers, cr.consumers⟩ := by
  cases deed with
  | push i a =>
    obtain ⟨d, wakes, hlook⟩ := hleads
    have hi : i < cr.producers.length := hwithin
    have hup := h.producers _ (List.getElem_mem hi)
    refine .pushed (List.getElem?_eq_getElem hi) (by rw [hup]; exact Stand.up_ne_asleep) hlook ?_
      (.of_up h.consumers _)
    rw [← hup, List.set_getElem_self]
    exact .of_up h.producers _
  | pop i exit =>
    obtain ⟨d, wakes, hlook⟩ := hleads
    have hi : i < cr.consumers.length := hwithin
    have hup := h.consumers _ (List.getElem_mem hi)
    refine .popped (List.getElem?_eq_getElem hi) (by rw [hup]; exact Stand.up_ne_asleep) hlook
      (.of_up h.producers _) ?_
    rw [← hup, List.set_getElem_self]
    exact .of_up h.consumers _
  | use what =>
    obtain rfl := hleads
    exact .used (.of_up h.producers _) (.of_up h.consumers _)

/-- In no crowd that can come about does anybody sleep without a reason. -/
theorem sound_of_reachable (h : cr.Reachable) : cr.Sound := by
  induction h with
  | initial => exact sound_ofLimits _ _ _ _
  | step _ hstep ih => exact ih.step hstep

end Crowd

end ZoneSigning
