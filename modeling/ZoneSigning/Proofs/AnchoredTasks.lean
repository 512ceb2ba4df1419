import ZoneSigning.Proofs.RecordedRuns
import ZoneSigning.Proofs.SingleOwnership

/-!
Every task is made for the record that is listed under its zone's key, wherever the task is, and a
zone that is going to be evicted owns no task. So a worker never works for a zone that has left the
list, and it always finds the state that the last merge has given to the zone.
-/
namespace ZoneSigning

namespace Pool

variable {σ : Type} {c : Collaborators σ} {p p' : Pool σ} {k : ZoneKey} {r w : Nat} {t : Task}

/-- The record with this number is listed under the key. -/
def Lists (p : Pool σ) (k : ZoneKey) (r : Nat) : Prop :=
  ∃ z, p.zones.get? k = some z ∧ z.record = r

def Owns (p : Pool σ) (t : Task) : Prop := t ∈ p.schedule.waiting ∨ ∃ w, p.held? w = some t

/-- A record stays listed under its key as long as that key cannot leave the list. -/
theorem Lists.follows {R : Zone → Zone → Prop} {gone : ZoneKey → Prop} (h : p.Lists k r)
    (hf : p.Follows R gone p') (hk : ¬ gone k) : p'.Lists k r := by
  obtain ⟨z, hz, rfl⟩ := h
  obtain ⟨z', hz', hsame, -⟩ := hf.listed_stays hk hz
  exact ⟨z', hz', hsame.2⟩

/-- The zone of a task for a listed record is the one that the list has at the task's key. -/
theorem zone?_of_lists (h : p.Lists t.zone t.record) :
    ∃ z, p.zone? t = some z ∧ p.zones.get? t.zone = some z := by
  obtain ⟨z, hz, hr⟩ := h
  exact ⟨z, by simp [zone?, hz, hr], hz⟩

namespace Owned

/-- A zone owns a task in the schedule exactly if one waits or a worker holds one. -/
theorem hasTask_iff (h : p.Owned) : p.schedule.hasTask k ↔ ∃ t, p.Owns t ∧ t.zone = k := by
  rw [Schedule.hasTask, Bool.or_eq_true, h.consistent.isScheduled_iff]
  constructor
  · rintro (⟨t, ht, hk⟩ | hk)
    · exact ⟨t, .inl ht, hk⟩
    · obtain ⟨w, t, ht, hk⟩ := h.held hk
      exact ⟨t, .inr ⟨w, ht⟩, hk⟩
  · rintro ⟨t, ht | ⟨w, ht⟩, rfl⟩
    · exact .inl ⟨t, ht, rfl⟩
    · exact .inr (h.marked ht)

private theorem owns_take {s : Schedule} (h : p.Owned)
    (hnext : p.schedule.next p.now = (some t, s)) {u : Task} (hu : u ∈ s.waiting ∨ u = t) :
    ∃ v, p.Owns v ∧ u.SameOrigin v := by
  rcases h.consistent.next_cases p.now with he | ⟨v, hv, -, he⟩ <;> rw [hnext] at he
  · cases congrArg Prod.fst he
  · obtain ⟨ht, rfl⟩ := Prod.mk.inj he
    obtain rfl := Option.some.inj ht
    rcases hu with hu | rfl
    · exact ⟨u, .inl ((h.consistent.mem_without hv).mp hu).1, rfl, rfl⟩
    · exact ⟨v, .inl hv, rfl, rfl⟩

private theorem owns_settle {z : Zone} {o : Outcome} (h : p.Owned) (ht : p.held? w = some t)
    {u : Task} (hu : u ∈ (p.settle w t o z).schedule.waiting) : ∃ v, p.Owns v ∧ u.SameOrigin v := by
  rw [settle_schedule] at hu
  split at hu
  · exact ⟨u, .inl hu, rfl, rfl⟩
  · unfold Outcome.settle at hu
    split at hu
    · next f hf =>
      rcases (Outcome.mem_resubmit h.consistent (h.marked ht) hf).mp hu with rfl | hu
      · exact ⟨t, .inr ⟨w, ht⟩, Outcome.sameOrigin_returned hf p.schedule t⟩
      · exact ⟨u, .inl hu, rfl, rfl⟩
    · exact ⟨u, .inl hu, rfl, rfl⟩

/-- A worker makes no task of its own. -/
theorem owns_worker (h : p.Owned) (hstep : p.stepWorker c w = some p') {u : Task}
    (hu : p'.Owns u) : ∃ v, p.Owns v ∧ u.SameOrigin v := by
  obtain ⟨x, hx, hsection⟩ := workerSection_of_step hstep
  rcases hsection.ownership hx with
    ⟨t, s, -, hnext, rfl, hheld⟩ | ⟨t, z, o, hphase, -, rfl⟩ | ⟨hs, hheld⟩
  · rcases hu with hu | ⟨v, hu⟩
    · exact h.owns_take hnext (.inl hu)
    · rw [hheld] at hu
      split at hu
      · exact h.owns_take hnext (.inr (Option.some.inj hu).symm)
      · exact ⟨u, .inr ⟨v, hu⟩, rfl, rfl⟩
  · have ht : p.held? w = some t := held?_of_phase? (hphase ▸ phase?_of_get hx)
    rcases hu with hu | ⟨v, hu⟩
    · exact h.owns_settle ht hu
    · rw [held?_settle] at hu
      split at hu
      · cases hu
      · exact ⟨u, .inr ⟨v, hu⟩, rfl, rfl⟩
  · rcases hu with hu | ⟨v, hu⟩
    · exact ⟨u, .inl (hs ▸ hu), rfl, rfl⟩
    · exact ⟨u, .inr ⟨v, (hheld v).symm.trans hu⟩, rfl, rfl⟩

end Owned

end Pool

namespace Moment

variable {σ : Type} {c : Collaborators σ} {m m' : Moment σ}

/-- Tasks are made for listed records, and zones that are going to be evicted have none. -/
structure Anchored (m : Moment σ) : Prop where
  tasks : ∀ {t}, m.pool.Owns t → m.pool.Lists t.zone t.record
  /-- The zone in the view of the holder of the list is listed. -/
  seen : ∀ {z}, m.errand.zone? = some z → m.pool.Lists z.key z.record
  doomed : ∀ {k}, k ∈ m.errand.doomed → m.pool.schedule.hasTask k = false

private theorem owns_start {p p' : Pool σ} (hstart : p.start = .ok p') {t : Task}
    (ht : p'.Owns t) : p.Owns t := by
  rcases ht with ht | ⟨w, ht⟩
  · rw [(Pool.start_eq_ok hstart).2] at ht
    exact .inl ht
  · rw [Pool.held?_start hstart] at ht
    cases ht

private theorem owns_aside (h : m.pool.Owned) (ha : m.Aside m') {t : Task} (ht : m'.pool.Owns t) :
    (∃ u, m.pool.Owns u ∧ t.SameOrigin u) ∨
      ∃ z, m.errand.zone? = some z ∧ t.zone = z.key ∧ t.record = z.record := by
  rcases ht with ht | ⟨w, ht⟩
  · rcases ha.asked with hs | ⟨op, hop, hs⟩ <;> rw [hs] at ht
    · exact .inl ⟨t, .inl ht, rfl, rfl⟩
    · rcases hop.stems h.consistent ht with ⟨u, hu, hsame⟩ | hnew
      · exact .inl ⟨u, .inl hu, hsame⟩
      · exact .inr hnew
  · simp only [Pool.held?, ha.phase?_eq] at ht
    exact .inl ⟨t, .inr ⟨w, ht⟩, rfl, rfl⟩

/-- Before the end only zones that are about to be evicted leave the list. -/
theorem mem_doomed_of_leaves {move : Move σ} (hmove : move.isClosing = false)
    {k : ZoneKey} (hk : m.Leaves move k) : k ∈ m.errand.doomed := by
  cases move with
  | worker w => cases hk
  | closing what => cases hmove
  | _ => exact hk

variable [HasFiles σ] {move : Move σ}

/-- Only the holder of the list makes tasks, for the zone it has in view. -/
theorem owns_step (h : m.pool.Owned) (hmove : move.isClosing = false)
    (hstep : m.step c move = some m') {t : Task} (ht : m'.pool.Owns t) :
    (∃ u, m.pool.Owns u ∧ t.SameOrigin u) ∨
      ∃ z, m.errand.zone? = some z ∧ t.zone = z.key ∧ t.record = z.record := by
  rcases step_cases hmove hstep with
    ⟨w, p', -, hp, rfl⟩ | ⟨p', -, hp, rfl⟩ | ⟨-, haside⟩
  · exact .inl (h.owns_worker hp ht)
  · exact .inl ⟨t, owns_start hp ht, rfl, rfl⟩
  · exact owns_aside h haside ht

/-- A move lets no task be without its listed record. -/
theorem anchored_step (h : m.Anchored) (hown : m.pool.Owned) (hrec : m.Recorded)
    (hmove : move.isClosing = false) (hstep : m.step c move = some m') : m'.Anchored := by
  have hfollows := (step_follows hrec hstep).1
  have hturns := step_turns hrec hmove hstep
  have hown' := owned_step hown hmove hstep
  -- A record with a task does not leave, and neither does one in view.
  have htask {t : Task} (ht : m.pool.Owns t) : ¬ m.Leaves move t.zone := by
    intro hleaves
    have hnone := h.doomed (mem_doomed_of_leaves hmove hleaves)
    rw [hown.hasTask_iff.mpr ⟨t, ht, rfl⟩] at hnone
    cases hnone
  have hview {z : Zone} {k : ZoneKey} (hz : m.errand.zone? = some z) : ¬ m.Leaves move k := by
    intro hleaves
    rw [m.errand.zone?_of_mem_doomed (mem_doomed_of_leaves hmove hleaves)] at hz
    cases hz
  constructor
  case tasks =>
    intro t ht
    rcases owns_step hown hmove hstep ht with ⟨u, hu, hzone, hrecord⟩ | ⟨z, hz, hzone, hrecord⟩
    · rw [hzone, hrecord]
      exact (h.tasks hu).follows hfollows (htask hu)
    · rw [hzone, hrecord]
      exact (h.seen hz).follows hfollows (hview hz)
  case seen =>
    intro z hz
    rcases hturns.seen hz with hz | ⟨-, hnone, hz⟩
    · exact (h.seen hz).follows hfollows (hview hz)
    · have hlists : m.pool.Lists z.key z.record := ⟨z, hz, rfl⟩
      refine hlists.follows hfollows fun hleaves => ?_
      have hmem := mem_doomed_of_leaves hmove hleaves
      rw [hnone] at hmem
      cases hmem
  case doomed =>
    intro k hk
    obtain ⟨hview, hk⟩ := hturns.doomed hk
    have hnone : m.pool.schedule.hasTask k = false := hk.elim h.doomed id
    refine Bool.eq_false_iff.mpr fun hhas => ?_
    obtain ⟨t, ht, rfl⟩ := hown'.hasTask_iff.mp hhas
    rcases owns_step hown hmove hstep ht with ⟨u, hu, hzone, -⟩ | ⟨z, hz, -⟩
    · rw [hzone, hown.hasTask_iff.mpr ⟨u, hu, rfl⟩] at hnone
      cases hnone
    · rw [hview] at hz
      cases hz

omit [HasFiles σ] in
private theorem anchored_initial (h : m.Initial) : m.Anchored := by
  obtain ⟨_, _, _, _, _, _, _, hpool⟩ := h.pool_eq
  constructor
  case tasks =>
    rintro t (ht | ⟨w, ht⟩)
    · rw [hpool] at ht
      cases ht
    · have hmark := (owned_initial h).marked ht
      rw [hpool] at hmark
      cases hmark
  case seen =>
    intro z hz
    rw [h.2] at hz
    cases hz
  case doomed =>
    intro k hk
    rw [h.2] at hk
    cases hk

/-- At every moment that can be reached, tasks belong to listed records. -/
theorem anchored_of_reachable (h : Reachable c m) : m.Anchored := by
  induction h with
  | initial h => exact anchored_initial h
  | step hreach hmove hstep ih =>
    exact anchored_step ih (owned_of_reachable hreach) (recorded_of_reachable hreach) hmove hstep

end Moment

end ZoneSigning
