import ZoneSigning.Proofs.ServingLoop

/-!
Requests that come before the end of an engine, and the request that ends it. What the engine has been
told is taken up in its order, so that every reload before the first shutdown leads to one pass, and
nothing leads to a pass afterwards. What the engine says of its state follows another order: it is
written by every caller before that is told, and by the loop after it has taken up a reload.
-/
namespace ZoneSigning

/-- How many of these signals call for a pass, before one of them ends the loop. -/
def passesFor : List Signal → Nat
  | [] => 0
  | .reload :: rest => passesFor rest + 1
  | .workerIdle :: rest => passesFor rest
  | .shutdown :: _ => 0

/-- Nothing that comes after a shutdown counts. -/
theorem passesFor_append_of_mem {signals : List Signal} (h : .shutdown ∈ signals)
    (more : List Signal) : passesFor (signals ++ more) = passesFor signals := by
  induction signals with
  | nil => cases h
  | cons s signals ih =>
    cases s with
    | shutdown => rfl
    | reload =>
      have hmem : .shutdown ∈ signals := by simpa using h
      exact congrArg (· + 1) (ih hmem)
    | workerIdle =>
      have hmem : .shutdown ∈ signals := by simpa using h
      exact ih hmem

private theorem passesFor_append_of_not_mem {signals : List Signal} (h : .shutdown ∉ signals)
    (more : List Signal) : passesFor (signals ++ more) = passesFor signals + passesFor more := by
  induction signals with
  | nil => simp [passesFor]
  | cons s signals ih =>
    cases s with
    | shutdown => exact absurd List.mem_cons_self h
    | reload =>
      have hrest : .shutdown ∉ signals := fun hmem => h (List.mem_cons_of_mem _ hmem)
      rw [List.cons_append, passesFor, passesFor, ih hrest]
      omega
    | workerIdle => exact ih fun hmem => h (List.mem_cons_of_mem _ hmem)

private theorem Station.owed_of_not_serves {s : Station} (h : s.serves = false) : s.owed = 0 := by
  cases s <;> first | rfl | cases h

namespace Serving

variable {σ : Type} {w v : Serving σ} {act : Act σ}

/-- The passes are those that have been called for and those that the loop does by itself, except for
one that it may still owe; and while the loop goes on it has not been told to end. -/
structure Sound (w : Serving σ) : Prop where
  counted : w.loop.passes + w.loop.station.owed = passesFor w.loop.taken + w.loop.periods
  going : w.loop.station.serves → .shutdown ∉ w.loop.taken

private theorem sound_ofMoment (m : Moment σ) : (ofMoment m).Sound := ⟨rfl, fun _ => List.not_mem_nil⟩

private theorem Sound.mem_signals (h : w.Sound) (hserves : w.loop.station.serves)
    (htold : .shutdown ∈ w.told) : .shutdown ∈ w.signals :=
  (List.mem_append.mp htold).resolve_left (h.going hserves)

/-- A section keeps the passes with what has called for them. -/
theorem Sound.effect (h : w.Sound) (he : w.Effect v act) : v.Sound := by
  obtain ⟨hcounted, hgoing⟩ := h
  cases he with
  | call hloop | beside hloop => exact ⟨hloop ▸ hcounted, hloop ▸ hgoing⟩
  | begin hstation hloop | fail hstation hloop | evict hstation hloop | say hstation hloop
  | pass hstation hloop =>
    rw [hstation] at hcounted hgoing
    exact ⟨by rw [hloop]; exact hcounted, fun _ => by rw [hloop]; exact hgoing rfl⟩
  | @take s hlistens hloop =>
    obtain ⟨hstation, -⟩ := listens_iff.mp hlistens
    rw [hstation] at hcounted hgoing
    have hcount : passesFor (w.loop.taken ++ [s]) = passesFor w.loop.taken + passesFor [s] :=
      passesFor_append_of_not_mem (hgoing rfl) [s]
    have howed : (Station.after s).owed = passesFor [s] := by cases s <;> rfl
    refine ⟨?_, fun hserves => ?_⟩
    · rw [hloop, howed, hcount]
      simp only [Station.owed] at hcounted ⊢
      omega
    · have hs : s ≠ .shutdown := by
        rintro rfl
        rw [hloop] at hserves
        cases hserves
      simpa [hloop, hs.symm] using hgoing rfl
  | timeout hlistens hloop =>
    obtain ⟨hstation, -⟩ := listens_iff.mp hlistens
    rw [hstation] at hcounted hgoing
    refine ⟨?_, fun _ => by rw [hloop]; exact hgoing rfl⟩
    rw [hloop]
    exact congrArg (· + 1) hcounted
  | leave hstation hloop =>
    refine ⟨?_, fun hserves => by rw [hloop] at hserves; cases hserves⟩
    rw [Station.owed_of_not_serves hstation] at hcounted
    rw [hloop]
    exact hcounted

/-- All that the engine has been told stays in its order. -/
theorem Effect.told (he : w.Effect v act) : ∃ later, v.told = w.told ++ later := by
  unfold Serving.told
  cases he with
  | beside hloop more hsignals => exact ⟨more, by rw [hloop, hsignals, List.append_assoc]⟩
  | take hlistens hloop hsignals =>
    exact ⟨[], by rw [hloop, hsignals, List.append_assoc, List.append_nil]; rfl⟩
  | timeout hlistens hloop hempty hsignals =>
    exact ⟨[], by simp [hloop, hempty, hsignals]⟩
  | call hloop hsignals => exact ⟨[], by rw [hloop, hsignals, List.append_nil]⟩
  | begin _ hloop hsignals | fail _ hloop hsignals | say _ hloop hsignals | pass _ hloop hsignals
  | evict _ hloop hsignals | leave _ hloop hsignals =>
    exact ⟨[], by rw [hloop, hsignals, List.append_nil]⟩

private theorem Effect.shutdown_told (he : w.Effect v act) (h : .shutdown ∈ w.told) :
    .shutdown ∈ v.told := by
  obtain ⟨later, htold⟩ := he.told
  exact htold ▸ List.mem_append_left _ h

/-- When the loop is over, no pass begins any more, and nothing is taken up. -/
theorem Effect.over (he : w.Effect v act) (hover : w.loop.station.serves = false) :
    v.loop.station.serves = false ∧ v.loop.passes = w.loop.passes ∧ v.loop.taken = w.loop.taken := by
  cases he with
  | call hloop | beside hloop => rw [hloop]; exact ⟨hover, rfl, rfl⟩
  | leave _ hloop => rw [hloop]; exact ⟨rfl, rfl, rfl⟩
  | take hlistens | timeout hlistens =>
    rw [(listens_iff.mp hlistens).1] at hover
    cases hover
  | begin hstation | fail hstation | say hstation | pass hstation | evict hstation =>
    rw [hstation] at hover
    cases hover

/-- The engine says that it is going to end, and the loop is not going to say anything else: it has
not taken up a reload without saying so, and will not take one up before the shutdown. -/
structure Settled (w : Serving σ) : Prop where
  state : w.state = .shutdownRequested
  said : w.loop.station ≠ .woken
  ahead : w.loop.station.serves → passesFor w.signals = 0

private theorem settled_of_over (hover : w.loop.station.serves = false)
    (hstate : w.state = .shutdownRequested) : w.Settled := by
  refine ⟨hstate, fun hstation => ?_, fun hserves => ?_⟩
  · rw [hstation] at hover
    cases hover
  · rw [hserves] at hover
    cases hover

/-- Nothing but a request to reload unsettles the state. -/
theorem Settled.effect (h : w.Settled) (hsound : w.Sound) (htold : .shutdown ∈ w.told)
    (he : w.Effect v act) (hcall : act ≠ .call .reload) : v.Settled := by
  obtain ⟨hstate, hsaid, hahead⟩ := h
  cases he with
  | @call what hloop hsignals hstate' =>
    cases what with
    | reload => exact absurd rfl hcall
    | shutdown => exact ⟨hstate', hloop ▸ hsaid, by rw [hloop, hsignals]; exact hahead⟩
  | beside hloop more hsignals hstate' =>
    refine ⟨hstate'.trans hstate, hloop ▸ hsaid, fun hserves => ?_⟩
    rw [hloop] at hserves
    rw [hsignals, passesFor_append_of_mem (hsound.mem_signals hserves htold)]
    exact hahead hserves
  | begin hstation hloop hsignals hstate' | pass hstation hloop hsignals hstate'
  | evict hstation hloop hsignals hstate' =>
    rw [hstation] at hahead
    exact ⟨hstate'.trans hstate, by rw [hloop]; nofun, fun _ => by rw [hsignals]; exact hahead rfl⟩
  | fail hstation hloop hsignals hstate' =>
    exact ⟨hstate'.trans hstate, by rw [hloop]; nofun, by rw [hloop]; nofun⟩
  | @take s hlistens hloop hsignals hstate' =>
    rw [(listens_iff.mp hlistens).1, hsignals] at hahead
    have hnone := hahead rfl
    cases s with
    | reload => cases hnone
    | workerIdle => exact ⟨hstate'.trans hstate, by rw [hloop]; nofun, fun _ => hnone⟩
    | shutdown => exact ⟨hstate'.trans hstate, by rw [hloop]; nofun, by rw [hloop]; nofun⟩
  | timeout hlistens hloop hempty =>
    have hserves : w.loop.station.serves := by rw [(listens_iff.mp hlistens).1]; rfl
    exact absurd (hsound.mem_signals hserves htold) (by rw [hempty]; exact List.not_mem_nil)
  | say hstation => exact absurd hstation hsaid
  | leave hover hloop hsignals hstate' =>
    exact ⟨hstate', by rw [hloop]; nofun, by rw [hloop]; nofun⟩

/-- Unless the engine fails to start, a state that is settled has been settled before, if it was the
same. -/
theorem Settled.of_effect (h : v.Settled) (hsound : w.Sound) (htold : .shutdown ∈ w.told)
    (he : w.Effect v act) (hfail : act ≠ .fail) (hstate : w.state = .shutdownRequested) :
    w.Settled := by
  obtain ⟨hstate', hsaid, hahead⟩ := h
  cases he with
  | call hloop hsignals =>
    exact ⟨hstate, hloop ▸ hsaid, by rw [hloop, hsignals] at hahead; exact hahead⟩
  | beside hloop more hsignals =>
    refine ⟨hstate, hloop ▸ hsaid, fun hserves => ?_⟩
    rw [← passesFor_append_of_mem (hsound.mem_signals hserves htold) more, ← hsignals]
    exact hahead (by rw [hloop]; exact hserves)
  | begin hstation hloop hsignals | pass hstation hloop hsignals | evict hstation hloop hsignals =>
    refine ⟨hstate, by rw [hstation]; nofun, fun _ => ?_⟩
    rw [← hsignals]
    exact hahead (by rw [hloop]; rfl)
  | fail => exact absurd rfl hfail
  | @take s hlistens hloop hsignals =>
    refine ⟨hstate, by rw [(listens_iff.mp hlistens).1]; nofun, fun _ => ?_⟩
    rw [hsignals]
    cases s with
    | reload => exact absurd (congrArg Loop.station hloop) hsaid
    | workerIdle => exact hahead (by rw [hloop]; rfl)
    | shutdown => rfl
  | timeout hlistens hloop => exact absurd (congrArg Loop.station hloop) hsaid
  | say hstation hloop hsignals hrun =>
    rw [hrun] at hstate'
    cases hstate'
  | leave hover => exact settled_of_over hover hstate

variable [HasFiles σ] {c : Collaborators σ} {acts more : List (Act σ)}

/-- What holds at first and is kept by every section holds after all sections. -/
theorem follow_induction {motive : Serving σ → Prop} (hw : motive w)
    (hstep : ∀ {w v : Serving σ} {act : Act σ}, act ∈ acts → motive w → w.Effect v act → motive v)
    (hrun : w.follow c acts = some v) : motive v := by
  induction acts generalizing w with
  | nil =>
    cases hrun
    exact hw
  | cons act acts ih =>
    obtain ⟨u, hu, hrest⟩ := follow_cons_eq_some.mp hrun
    exact ih (hstep List.mem_cons_self hw (effect_of_step hu))
      (fun hmem => hstep (List.mem_cons_of_mem _ hmem)) hrest

/-- Any number of sections keeps the passes with what has called for them. -/
theorem Sound.follow (h : w.Sound) (hrun : w.follow c acts = some v) : v.Sound :=
  follow_induction h (fun _ hsound he => hsound.effect he) hrun

/-- A settled state stays, as long as nobody asks for a reload. -/
theorem Settled.follow (h : w.Settled) (hsound : w.Sound) (htold : .shutdown ∈ w.told)
    (hcalls : ∀ act ∈ acts, act ≠ .call .reload) (hrun : w.follow c acts = some v) : v.Settled := by
  have hall : v.Sound ∧ .shutdown ∈ v.told ∧ v.Settled := by
    refine follow_induction (motive := fun w => w.Sound ∧ .shutdown ∈ w.told ∧ w.Settled)
      ⟨hsound, htold, h⟩ ?_ hrun
    rintro w v act hmem ⟨hsound, htold, hsettled⟩ he
    exact ⟨hsound.effect he, he.shutdown_told htold,
      hsettled.effect hsound htold he (hcalls act hmem)⟩
  exact hall.2.2

/-- If the loop takes up a shutdown and the state has been the same all along, it has been settled. -/
theorem settled_of_goesOn (hsound : w.Sound) (htold : .shutdown ∈ w.told) (hgoes : w.GoesOn c v)
    (htaken : .shutdown ∈ v.loop.taken)
    (hstate : ∀ more u, w.follow c more = some u → (∀ act ∈ more, act ≠ .call .reload) →
      u.state = .shutdownRequested) : w.Settled := by
  obtain ⟨acts, howns, hrun⟩ := hgoes
  induction acts generalizing w with
  | nil =>
    cases hrun
    have hover : v.loop.station.serves = false :=
      Bool.eq_false_iff.mpr fun hserves => hsound.going hserves htaken
    exact settled_of_over hover (hstate [] v rfl (List.forall_mem_nil _))
  | cons act acts ih =>
    obtain ⟨hown, howns⟩ := List.forall_mem_cons.mp howns
    obtain ⟨u, hu, hrest⟩ := follow_cons_eq_some.mp hrun
    have he := effect_of_step hu
    have hcall : act ≠ .call .reload := by
      rintro rfl
      cases hown
    have hfail : act ≠ .fail := by
      rintro rfl
      cases hown
    have hsettled := ih (hsound.effect he) (he.shutdown_told htold)
      (fun more x hmore hcalls => hstate (act :: more) x
        (follow_cons_eq_some.mpr ⟨u, hu, hmore⟩) (List.forall_mem_cons.mpr ⟨hcall, hcalls⟩))
      howns hrest
    exact hsettled.of_effect hsound htold he hfail (hstate [] w rfl (List.forall_mem_nil _))

/-- Exactly if it is settled, the state stays the same until somebody asks for a reload. -/
theorem settled_iff (c : Collaborators σ) (hsound : w.Sound) (htold : .shutdown ∈ w.told) :
    w.Settled ↔ ∀ more v, w.follow c more = some v → (∀ act ∈ more, act ≠ .call .reload) →
      v.state = .shutdownRequested := by
  refine ⟨fun h more v hrun hcalls => (h.follow hsound htold hcalls hrun).state, fun hstate => ?_⟩
  cases hserves : w.loop.station.serves with
  | true =>
    obtain ⟨v, hgoes, htaken⟩ := goesOn_shutdown (c := c) hserves (hsound.mem_signals hserves htold)
    exact settled_of_goesOn hsound htold hgoes htaken hstate
  | false => exact settled_of_over hserves (hstate [] w rfl (List.forall_mem_nil _))

/-- After any sections, in whatever order callers, the loop and all other threads have done them:
* The loop has done a pass for every reload that it has taken up, and one for each time that it has
  waited in vain, but for one that it may be about to do.
* Once it has taken up a shutdown, these are the reloads that the engine has been told before its
  first shutdown, and no pass begins any more.
* If the engine has been told to shut down, the loop can always go on to take this up.
* Then the engine goes on to say that it shuts down until somebody asks for a reload, exactly if it
  says so now and the loop is not going to say that it runs: it has not just woken up, and no reload
  is before the shutdown among what it still has to take up. -/
theorem shutdown_is_final {m : Moment σ} (hrun : (ofMoment m).follow c acts = some w) :
    w.loop.passes + w.loop.station.owed = passesFor w.loop.taken + w.loop.periods ∧
    (.shutdown ∈ w.loop.taken →
      w.loop.passes = passesFor w.told + w.loop.periods ∧
      ∀ more v, w.follow c more = some v →
        v.loop.passes = w.loop.passes ∧ v.loop.taken = w.loop.taken) ∧
    (.shutdown ∈ w.told →
      (w.loop.station.serves → ∃ v, w.GoesOn c v ∧ .shutdown ∈ v.loop.taken) ∧
      (w.Settled ↔ ∀ more v, w.follow c more = some v → (∀ act ∈ more, act ≠ .call .reload) →
        v.state = .shutdownRequested)) := by
  have hsound : w.Sound := (sound_ofMoment m).follow hrun
  refine ⟨hsound.counted, fun htaken => ?_, fun htold => ⟨fun hserves => ?_, ?_⟩⟩
  · have hover : w.loop.station.serves = false :=
      Bool.eq_false_iff.mpr fun hserves => hsound.going hserves htaken
    refine ⟨?_, fun more v hmore => ?_⟩
    · have hcounted := hsound.counted
      rw [Station.owed_of_not_serves hover] at hcounted
      rw [told, passesFor_append_of_mem htaken]
      exact hcounted
    · have hsame : v.loop.station.serves = false ∧ v.loop.passes = w.loop.passes ∧
          v.loop.taken = w.loop.taken := by
        refine follow_induction (motive := fun v => v.loop.station.serves = false ∧
          v.loop.passes = w.loop.passes ∧ v.loop.taken = w.loop.taken) ⟨hover, rfl, rfl⟩ ?_ hmore
        rintro u v act - ⟨hu, hpasses, htaken⟩ he
        obtain ⟨hv, hpasses', htaken'⟩ := he.over hu
        exact ⟨hv, hpasses'.trans hpasses, htaken'.trans htaken⟩
      exact hsame.2
  · exact goesOn_shutdown hserves (hsound.mem_signals hserves htold)
  · exact settled_iff c hsound htold

def reloadThenShutdown : List (Act FileWorld) :=
  [.other .start, .other .pass] ++ List.replicate 10 (.other .proceed) ++
    [.begin, .call .reload, .send 0, .take, .say, .pass] ++ List.replicate 7 (.other .proceed) ++
    [.call .shutdown, .send 0]

/-- When nothing is left to be taken up but the shutdown, the state stays, and there has been one
pass. -/
theorem shutdown_is_final_oneZone : ∃ w v : Serving FileWorld,
    (ofMoment .oneZone).follow fileCollaborators reloadThenShutdown = some w ∧
      (∀ more u, w.follow fileCollaborators more = some u →
        (∀ act ∈ more, act ≠ .call .reload) → u.state = .shutdownRequested) ∧
      (ofMoment .oneZone).follow fileCollaborators (reloadThenShutdown ++ [.take]) = some v ∧
      v.loop.passes = 1 ∧
      ∀ more u, v.follow fileCollaborators more = some u → u.loop.passes = v.loop.passes := by
  have hfirst : ((ofMoment .oneZone).follow fileCollaborators reloadThenShutdown).any fun w =>
      w.state = .shutdownRequested && w.loop.station = .waiting && w.signals = [.shutdown] := by
    decide +kernel
  have hlater : ((ofMoment .oneZone).follow fileCollaborators (reloadThenShutdown ++ [.take])).any
      fun v => v.loop.taken = [.reload, .shutdown] && v.loop.periods = 0 && v.signals = [] := by
    decide +kernel
  obtain ⟨w, hw, hw'⟩ := (Option.any_eq_true _ _).mp hfirst
  obtain ⟨v, hv, hv'⟩ := (Option.any_eq_true _ _).mp hlater
  simp only [Bool.and_eq_true, decide_eq_true_eq] at hw' hv'
  obtain ⟨⟨hstate, hstation⟩, hsignals⟩ := hw'
  obtain ⟨⟨htaken, hperiods⟩, hnone⟩ := hv'
  have hsettled : w.Settled := ⟨hstate, by rw [hstation]; nofun, fun _ => by rw [hsignals]; rfl⟩
  obtain ⟨-, -, hstays⟩ := shutdown_is_final hw
  obtain ⟨-, hover, -⟩ := shutdown_is_final hv
  obtain ⟨hpasses, hlast⟩ := hover (by rw [htaken]; decide)
  refine ⟨w, v, hw, (hstays ?_).2.mp hsettled, hv, ?_, fun more u hmore => (hlast more u hmore).1⟩
  · rw [told, hsignals]
    exact List.mem_append_right _ (List.mem_singleton_self _)
  · rw [hpasses, hperiods, told, htaken, hnone]
    rfl

/-- When the engine has been told to shut down, and the caller is done, the state is not final: the loop
says that it runs, if the engine has been told to reload before; and once somebody asks for a reload
again, the engine says that. -/
theorem shutdown_is_not_final : ∃ w r a : Serving FileWorld,
    (ofMoment .oneZone).follow fileCollaborators
      [.begin, .call .reload, .send 0, .call .shutdown, .send 0] = some w ∧
    (w.calls = [] ∧ w.told = [.reload, .shutdown] ∧ w.state = .shutdownRequested) ∧
    (w.follow fileCollaborators [.take, .say] = some r ∧ r.state = .run) ∧
    w.follow fileCollaborators [.call .reload, .send 0] = some a ∧ a.state = .reloadRequested := by
  have hrun : ((ofMoment .oneZone).follow fileCollaborators
      [.begin, .call .reload, .send 0, .call .shutdown, .send 0]).any fun w =>
        (w.calls = [] && w.told = [.reload, .shutdown] && w.state = .shutdownRequested) &&
          (w.follow fileCollaborators [.take, .say]).any (·.state = .run) &&
          (w.follow fileCollaborators [.call .reload, .send 0]).any
            (·.state = .reloadRequested) := by
    decide +kernel
  obtain ⟨w, hw, hw'⟩ := (Option.any_eq_true _ _).mp hrun
  simp only [Bool.and_eq_true, decide_eq_true_eq] at hw'
  obtain ⟨⟨hdone, hruns⟩, hasks⟩ := hw'
  obtain ⟨r, hr, hstate⟩ := (Option.any_eq_true _ _).mp hruns
  obtain ⟨a, ha, hstate'⟩ := (Option.any_eq_true _ _).mp hasks
  exact ⟨w, r, a, hw, and_assoc.mp hdone, ⟨hr, of_decide_eq_true hstate⟩, ha,
    of_decide_eq_true hstate'⟩

end Serving

end ZoneSigning
