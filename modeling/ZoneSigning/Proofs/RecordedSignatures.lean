import Mathlib.Algebra.BigOperators.Group.Finset.Basic
import ZoneSigning.Proofs.RememberedRemovals

/-!
The signatures that all records of zones show together. A record keeps its count when it retires, and
a new one begins with none, so that only the steps of workers can change the sum.
-/
namespace ZoneSigning

/-- Where one summand differs, the sums differ by that. -/
theorem sum_range_of_eq_but {n w : Nat} {f g : Nat → Nat} (hw : w < n)
    (hrest : ∀ v < n, v ≠ w → g v = f v) :
    ∑ v ∈ Finset.range n, g v + f w = ∑ v ∈ Finset.range n, f v + g w := by
  have hmem : w ∈ Finset.range n := Finset.mem_range.mpr hw
  have hsum : ∑ v ∈ (Finset.range n).erase w, g v = ∑ v ∈ (Finset.range n).erase w, f v :=
    Finset.sum_congr rfl fun v hv =>
      hrest v (Finset.mem_range.mp (Finset.mem_of_mem_erase hv)) (Finset.ne_of_mem_erase hv)
  rw [← Finset.add_sum_erase _ g hmem, ← Finset.add_sum_erase _ f hmem, hsum]
  omega

namespace Pool

variable {σ : Type} {p p' q : Pool σ} {y z : Zone} {r : Nat}

def signaturesOf (p : Pool σ) (r : Nat) : Nat :=
  ((p.zones.all ++ p.retired).find? (·.record == r)).elim 0 (·.state.db.signatures)

def recordedSignatures (p : Pool σ) : Nat := ∑ r ∈ Finset.range p.zones.made, p.signaturesOf r

private theorem mem_records : z ∈ p.zones.all ++ p.retired ↔ p.Has z := by
  rw [List.mem_append, ZoneList.all, OrderedMap.mem_values]
  rfl

private theorem Recorded.signaturesOf_record (h : p.Recorded) (hz : p.Has z) :
    p.signaturesOf z.record = z.state.db.signatures := by
  cases hfind : (p.zones.all ++ p.retired).find? (·.record == z.record) with
  | none =>
    have hnone := List.find?_eq_none.mp hfind z (mem_records.mpr hz)
    simp at hnone
  | some y =>
    have hy : p.Has y := mem_records.mp (List.mem_of_find?_eq_some hfind)
    have hr : y.record = z.record := by simpa using List.find?_some hfind
    rw [signaturesOf, hfind, h.eq_of_record_eq hy hz hr]
    rfl

private theorem signaturesOf_eq_zero (h : ∀ z, p.Has z → z.record ≠ r) : p.signaturesOf r = 0 := by
  have hfind : (p.zones.all ++ p.retired).find? (·.record == r) = none := by
    refine List.find?_eq_none.mpr fun z hz => ?_
    simpa using h z (mem_records.mp hz)
  rw [signaturesOf, hfind]
  rfl

/-- The recorded signatures are those of the listed and the retired zones. -/
theorem recordedSignatures_congr (hzones : p'.zones = p.zones) (hretired : p'.retired = p.retired) :
    p'.recordedSignatures = p.recordedSignatures := by
  simp only [recordedSignatures, signaturesOf, hzones, hretired]

/-- In a pool that has just been made no signatures are recorded. -/
theorem recordedSignatures_ofLimits (around : σ)
    (now workers drudgers maxBackoff capacity threshold : Nat) :
    (ofLimits around now workers drudgers maxBackoff capacity threshold).recordedSignatures = 0 :=
  rfl

namespace Follows

variable {R : Zone → Zone → Prop} {gone : ZoneKey → Prop}

private theorem has_before (hf : p.Follows R gone p') (hz : p'.Has z) (hr : z.record < p.zones.made) :
    ∃ y, p.Has y ∧ y.record = z.record := by
  rcases hz with ⟨k, hz⟩ | hz
  · rcases hf.listed hz with ⟨y, hy, hsame, -⟩ | ⟨-, -, hnew, -⟩
    · exact ⟨y, .inl ⟨k, hy⟩, hsame.2.symm⟩
    · omega
  · obtain ⟨y, hsame, hy⟩ := hf.retired hz
    exact ⟨y, hy.elim .inr fun hy => .inl ⟨_, hy.1⟩, hsame.2.symm⟩

/-- A record that nothing happens to shows the signatures that it has shown. -/
theorem signaturesOf_eq (h : p.Recorded) (hf : p.Follows R gone p') (hr : r < p.zones.made)
    (hR : ∀ {y y'}, p.Has y → y.record = r → R y y' →
      y'.state.db.signatures = y.state.db.signatures) :
    p'.signaturesOf r = p.signaturesOf r := by
  by_cases hex : ∃ y, p.Has y ∧ y.record = r
  · obtain ⟨y, hy, rfl⟩ := hex
    obtain ⟨y', hy', hsame, hRy⟩ := hf.carried hy
    rw [h.signaturesOf_record hy, ← hR hy rfl hRy, ← (h.follows hf).signaturesOf_record hy', hsame.2]
  · rw [signaturesOf_eq_zero fun y hy he => hex ⟨y, hy, he⟩, signaturesOf_eq_zero]
    rintro z hz rfl
    exact hex (has_before hf hz hr)

/-- If no record's signatures change and the new ones have none, the sum stays. -/
theorem recordedSignatures_eq (h : p.Recorded) (hf : p.Follows R gone p')
    (hR : ∀ {y y'}, R y y' → y'.state.db.signatures = y.state.db.signatures)
    (hnew : ∀ {k z}, p'.zones.get? k = some z → p.zones.get? k = none →
      z.state.db.signatures = 0) : p'.recordedSignatures = p.recordedSignatures := by
  have hnone : ∀ r ∈ Finset.range p'.zones.made, r ∉ Finset.range p.zones.made →
      p'.signaturesOf r = 0 := by
    intro r _ hr
    have hr : p.zones.made ≤ r := Nat.le_of_not_lt fun hlt => hr (Finset.mem_range.mpr hlt)
    by_cases hex : ∃ z, p'.Has z ∧ z.record = r
    · obtain ⟨z, hz, rfl⟩ := hex
      rw [(h.follows hf).signaturesOf_record hz]
      rcases hz with ⟨k, hz⟩ | hz
      · rcases hf.listed hz with ⟨y, hy, hsame, -⟩ | ⟨hfree, -⟩
        · have hlt := h.numbered (.inl ⟨k, hy⟩)
          have heq := hsame.2
          omega
        · exact hnew hz hfree
      · obtain ⟨y, hsame, hy⟩ := hf.retired hz
        have hlt := h.numbered (hy.elim .inr fun hy => .inl ⟨_, hy.1⟩)
        have heq := hsame.2
        omega
    · exact signaturesOf_eq_zero fun z hz he => hex ⟨z, hz, he⟩
  have hsubset : Finset.range p.zones.made ⊆ Finset.range p'.zones.made :=
    Finset.range_subset_range.mpr hf.made_le
  rw [recordedSignatures, recordedSignatures, ← Finset.sum_subset hsubset hnone]
  exact Finset.sum_congr rfl fun r hr =>
    hf.signaturesOf_eq h (Finset.mem_range.mp hr) fun _ _ hRy => hR hRy

end Follows

/-- A worker that sets the state of a record changes the sum by what the record's count changes. -/
theorem Recorded.recordedSignatures_setState {s : ZoneState} {w : Nat} {phase : WorkerPhase}
    (h : p.Recorded) (hz : p.Has z) (hzones : q.zones = p.zones) (hretired : q.retired = p.retired) :
    ((q.setState z s).goTo w phase).recordedSignatures + z.state.db.signatures =
      p.recordedSignatures + s.db.signatures := by
  have hf : p.Follows (fun y y' => y' = y ∨ y = z) (fun _ => False)
      ((q.setState z s).goTo w phase) :=
    .setState_goTo h (fun _ => .inl rfl) hz (.inr rfl) hzones hretired
  have hmade : ((q.setState z s).goTo w phase).zones.made = p.zones.made := by simp [hzones]
  have hself : ((q.setState z s).goTo w phase).signaturesOf z.record = s.db.signatures :=
    (h.follows hf).signaturesOf_record (h.has_setState hz hzones hretired)
  have hrest (r : Nat) (hr : r < p.zones.made) (hne : r ≠ z.record) :
      ((q.setState z s).goTo w phase).signaturesOf r = p.signaturesOf r := by
    refine hf.signaturesOf_eq h hr fun {y y'} _ hyr hy => ?_
    rcases hy with rfl | rfl
    · rfl
    · exact absurd hyr.symm hne
  have hsum := sum_range_of_eq_but (h.numbered hz) hrest
  rw [hself, h.signaturesOf_record hz] at hsum
  rw [recordedSignatures, recordedSignatures, hmade, hsum]

end Pool

namespace ZoneList

/-- The zones of a list made from entries are new records of these. -/
theorem of_get?_ofEntries {made : Nat} {entries : List ZoneEntry} {k : ZoneKey} {z : Zone}
    (h : (ofEntries made entries).get? k = some z) : ∃ e n, z = ZoneEntry.toZone e n := by
  suffices hfold : ∀ l : ZoneList, (entries.foldl _ l).get? k = some z →
      l.get? k = some z ∨ ∃ e n, z = ZoneEntry.toZone e n from (hfold _ h).resolve_left nofun
  intro l
  clear h
  induction entries generalizing l with
  | nil => exact .inl
  | cons e entries ih =>
    intro hz
    refine (ih _ hz).elim (fun hz => ?_) .inr
    dsimp only at hz
    split at hz
    · exact .inl hz
    · simp only [get?, OrderedMap.get?_insert] at hz
      split at hz
      · exact .inr ⟨e, _, (Option.some.inj hz).symm⟩
      · exact .inl hz

end ZoneList

namespace Moment

variable {σ : Type} {c : Collaborators σ} {m m' : Moment σ} {move : Move σ}

def FreshUnsigned (m : Moment σ) : Prop :=
  ∀ {fresh}, m.errand.fresh? = some fresh → ∀ {k z}, fresh.get? k = some z → z.state.db.signatures = 0

/-- What the holder of the list merges is what it has just read. -/
theorem fresh_proceed [HasFiles σ] (hstep : m.proceed = some m') {fresh : ZoneList}
    (hfresh : m'.errand.fresh? = some fresh) :
    m.errand.fresh? = some fresh ∨ ∃ made entries, fresh = .ofEntries made entries := by
  cases proceeded_of_proceed hstep with
  | read =>
    cases hfresh
    exact .inr ⟨_, _, rfl⟩
  | keep he =>
    rw [he]
    exact .inl hfresh
  | _ => cases hfresh

variable [HasFiles σ]

/-- A move leaves the zones that are going to be listed unsigned. -/
theorem freshUnsigned_step (h : m.FreshUnsigned) (hmove : move.isClosing = false)
    (hstep : m.step c move = some m') : m'.FreshUnsigned := by
  intro fresh hfresh
  rcases errand_cases hmove hstep with
    ⟨w, p', -, -, rfl⟩ | ⟨-, hproceed⟩ | ⟨-, hbegins, -⟩ | ⟨he, -⟩
  · exact h hfresh
  · rcases fresh_proceed hproceed hfresh with hfresh | ⟨made, entries, rfl⟩
    · exact h hfresh
    · intro k z hz
      obtain ⟨e, n, rfl⟩ := ZoneList.of_get?_ofEntries hz
      rfl
  · generalize m'.errand = e at hbegins hfresh
    cases hbegins <;> cases hfresh
  · exact h (he ▸ hfresh)

private theorem unsigned_merge (h : m.FreshUnsigned) (hrec : m.Recorded)
    (hstep : m.proceed = some m') (hmerging : m.errand.fresh? ≠ .none) {k : ZoneKey} {z : Zone}
    (hz : m'.pool.zones.get? k = some z) (hnew : m.pool.zones.get? k = none) :
    z.state.db.signatures = 0 := by
  cases proceeded_of_proceed hstep with
  | keep =>
    have hkept := (ZoneList.get?_alter _ _ _ _).symm.trans hz
    rw [hnew] at hkept
    cases hkept
  | @addNew _ time _ counts he =>
    have hfresh := congrArg Errand.fresh? he
    have hadded := ZoneList.get?_addNew (l := m.pool.zones) counts time (hrec.fresh hfresh).keyed k
    rw [hnew, Option.none_or] at hadded
    obtain ⟨y, hy, rfl⟩ := Option.map_eq_some_iff.mp (hadded.symm.trans hz)
    have hnone : y.state.db.signatures = 0 := h hfresh hy
    exact hnone
  | _ he => exact absurd (congrArg Errand.fresh? he) hmerging

/-- A zone that comes to be listed has no signatures yet. -/
theorem unsigned_of_new (h : m.FreshUnsigned) (hrec : m.Recorded) (hmove : move.isClosing = false)
    (hstep : m.step c move = some m') {k : ZoneKey} {z : Zone} (hz : m'.pool.zones.get? k = some z)
    (hnew : m.pool.zones.get? k = none) : z.state.db.signatures = 0 := by
  have hbefore {y : Zone} (hy : m.pool.zones.get? k = some y) : z.state.db.signatures = 0 := by
    rw [hnew] at hy
    cases hy
  cases hfresh : m.errand.fresh? with
  | none =>
    obtain ⟨y, hy⟩ := get?_before hrec hmove hstep hfresh hz
    exact hbefore hy
  | some fresh =>
    rcases errand_cases hmove hstep with
      ⟨w, p', -, hp, rfl⟩ | ⟨-, hproceed⟩ | ⟨he, -⟩ | ⟨-, hzones, -⟩
    · obtain ⟨x, hx, hsection⟩ := Pool.workerSection_of_step hp
      have hmade := hsection.made hx
      rcases (hsection.follows hrec.pool hx).listed hz with ⟨y, hy, -⟩ | ⟨-, -, hle, hlt, -⟩
      · exact hbefore hy
      · omega
    · exact unsigned_merge h hrec hproceed (by simp [hfresh]) hz hnew
    · rw [he] at hfresh
      cases hfresh
    · rw [hzones] at hz
      exact hbefore hz

end Moment

end ZoneSigning
