import ZoneSigning.Proofs.ScheduleRuns

/-!
What is asked of a zone while its task is taken. The requests are recorded beside the schedule, so
that everything else goes on as if they had not been made; and when the task comes back it gets the
kind of work and the time that were asked for last, and is flushed if that has been asked for.
-/
namespace ZoneSigning

namespace Schedule.Op

def moves? (z : ZoneKey) : Op → Option (TaskKind × Nat)
  | reschedule y what due => if y = z then some (what, due) else none
  | _ => none

def flushes (z : ZoneKey) : Op → Bool
  | flushZone y => y = z
  | _ => false

def asks (z : ZoneKey) (op : Op) : Bool := (op.moves? z).isSome || op.flushes z

/-- The operation does not end that the zone's task is taken: it does not release the zone, hand its
task back or forget everything. -/
def Leaves (z : ZoneKey) : Op → Prop
  | release y => y ≠ z
  | resubmit t _ => t.zone ≠ z
  | clear => False
  | _ => True

def note (z : ZoneKey) (p : Pending) (op : Op) : Pending :=
  { interrupt := (op.moves? z).elim p.interrupt fun m => some m.1
    interruptDue := (op.moves? z).elim p.interruptDue fun m => m.2
    flush := p.flush || op.flushes z }

def lastMove? (z : ZoneKey) (ops : List Op) : Option (TaskKind × Nat) :=
  (ops.filterMap (moves? z)).getLast?

end Schedule.Op

open Schedule (Op)

/-- The task with what operations have asked of its zone: the last kind of work and due time, and to
be flushed if any operation has asked for that. -/
def Task.asked (t : Task) (ops : List Op) : Task :=
  { t with
    interrupt := (Op.lastMove? t.zone ops).elim t.interrupt fun m => some m.1
    interruptDue := (Op.lastMove? t.zone ops).elim t.interruptDue fun m => m.2
    flush := t.flush || ops.any (Op.flushes t.zone) }

namespace Schedule

variable {s : Schedule} {t : Task} {z : ZoneKey}

@[simp] theorem tasks_noted (s : Schedule) (z : ZoneKey) (p : Pending) :
    (s.noted z p).tasks = s.tasks := rfl

@[simp] theorem byZone_noted (s : Schedule) (z : ZoneKey) (p : Pending) :
    (s.noted z p).byZone = s.byZone := rfl

@[simp] theorem flushCount_noted (s : Schedule) (z : ZoneKey) (p : Pending) :
    (s.noted z p).flushCount = s.flushCount := rfl

@[simp] theorem waiting_noted (s : Schedule) (z : ZoneKey) (p : Pending) :
    (s.noted z p).waiting = s.waiting := rfl

private theorem hasTask_noted (hz : s.isInFlight z) (p : Pending) (y : ZoneKey) :
    (s.noted z p).hasTask y = s.hasTask y := by
  rw [hasTask, isScheduled_noted, isInFlight_noted, hasTask]
  by_cases hy : y = z
  · simp [hy, hz]
  · simp [hy]

private theorem noted_noted (s : Schedule) (z : ZoneKey) (p q : Pending) :
    (s.noted z p).noted z q = s.noted z q := by
  simp only [noted, OrderedMap.insert_insert]

private theorem noted_comm (s : Schedule) {y z : ZoneKey} (p q : Pending) (h : y ≠ z) :
    (s.noted z p).noted y q = (s.noted y q).noted z p := by
  simp only [noted, OrderedMap.insert_comm _ p q h]

private theorem schedule_noted (hz : s.isInFlight z) (p : Pending) (t : Task) :
    (s.noted z p).schedule t = Prod.map id (·.noted z p) (s.schedule t) := by
  simp only [schedule, hasTask_noted hz, tasks_noted]
  split
  · rfl
  · split <;> rfl

private theorem unschedule_noted (s : Schedule) (z : ZoneKey) (p : Pending) (k : TaskKey) :
    (s.noted z p).unschedule k = Prod.map id (·.noted z p) (s.unschedule k) := by
  unfold unschedule
  rw [tasks_noted]
  cases s.tasks.get? k <;> rfl

private theorem unscheduleZone_noted (s : Schedule) (y z : ZoneKey) (p : Pending) :
    (s.noted z p).unscheduleZone y = Prod.map id (·.noted z p) (s.unscheduleZone y) := by
  unfold unscheduleZone
  rw [byZone_noted]
  cases s.byZone.get? y with
  | none => rfl
  | some k => exact s.unschedule_noted z p k

/-- To remove a waiting task leaves it as it is which tasks are taken. -/
theorem isInFlight_unscheduleZone (s : Schedule) (y z : ZoneKey) :
    (s.unscheduleZone y).2.isInFlight z = s.isInFlight z := by
  unfold unscheduleZone unschedule
  split
  · rfl
  · split <;> rfl

private theorem amend_noted (hz : s.isInFlight z) (p : Pending) (y : ZoneKey) (f : Task → Task) :
    (s.noted z p).amend y f = Prod.map id (·.noted z p) (s.amend y f) := by
  have hfl := s.isInFlight_unscheduleZone y z
  unfold amend
  rw [unscheduleZone_noted]
  generalize s.unscheduleZone y = removed at hfl ⊢
  obtain ⟨found, s'⟩ := removed
  cases found with
  | error e => rfl
  | ok t =>
    simp only [Prod.map, id, schedule_noted (hfl.trans hz)]
    obtain ⟨answer, s''⟩ := s'.schedule (f t)
    cases answer <;> rfl

private theorem record_noted (s : Schedule) {y : ZoneKey} (p : Pending) (change : Pending → Pending)
    (hy : y ≠ z) :
    (s.noted z p).record y change = Prod.map id (·.noted z p) (s.record y change) := by
  have hget : (s.noted z p).inFlight.get? y = s.inFlight.get? y :=
    OrderedMap.get?_insert_of_ne _ p hy
  cases hq : s.inFlight.get? y with
  | none => simp only [record, hget, hq, Prod.map, id]
  | some q =>
    rw [record_of_isInFlight hq, record_of_isInFlight (hget.trans hq), Schedule.noted_comm s p _ hy]
    rfl

private theorem ask_noted (hz : s.isInFlight z) (p : Pending) {y : ZoneKey} (f : Task → Task)
    (note : Pending → Pending) (hy : y ≠ z) :
    (s.noted z p).ask y f note = Prod.map id (·.noted z p) (s.ask y f note) := by
  unfold ask
  rw [isScheduled_noted]
  split
  · exact amend_noted hz p y f
  · exact s.record_noted p note hy

private theorem peek_noted (s : Schedule) (z : ZoneKey) (p : Pending) :
    (s.noted z p).peek = Prod.map id (·.noted z p) s.peek := by
  unfold peek
  rw [flushCount_noted, waiting_noted]
  split
  · cases s.waiting.find? (·.flush) <;> rfl
  · rfl

private theorem release_noted (s : Schedule) {y : ZoneKey} (p : Pending) (hy : y ≠ z) :
    (s.noted z p).release y = Prod.map id (·.noted z p) (s.release y) := by
  simp only [release, noted, Prod.map, id, OrderedMap.get?_insert_of_ne _ p hy,
    OrderedMap.erase_insert_of_ne _ p hy]

private theorem returned_noted (s : Schedule) (p : Pending) (f : Task → Task) (ht : t.zone ≠ z) :
    (s.noted z p).returned t f = s.returned t f := by
  simp only [returned, noted, OrderedMap.get?_insert_of_ne _ p ht]

private theorem resubmit_noted (hz : s.isInFlight z) (p : Pending) (f : Task → Task) (ht : t.zone ≠ z) :
    (s.noted z p).resubmit t f = Prod.map id (·.noted z p) (s.resubmit t f) := by
  have hfl : (s.release t.zone).2.isInFlight z := by
    simp [isInFlight_release, hz, ht.symm]
  rw [Consistent.resubmit_eq, Consistent.resubmit_eq, returned_noted s p f ht, release_noted s p ht]
  exact schedule_noted hfl p _

/-- The next task is a task of another zone. -/
theorem Consistent.next_noted (h : s.Consistent) (hz : s.isInFlight z) (p : Pending) (now : Nat) :
    (s.noted z p).next now = Prod.map id (·.noted z p) (s.next now) := by
  have hpeek : (s.noted z p).peek.1 = s.peek.1 := by rw [peek_noted]; rfl
  have h' := h.noted hz p
  cases hp : s.peek.1 with
  | none =>
    rw [h.next_of_peek_none hp, h'.next_of_peek_none (hpeek.trans hp)]
    rfl
  | some t =>
    have hne : t.zone ≠ z := by
      rintro rfl
      simp [h.not_isInFlight (h.mem_of_peek hp)] at hz
    rcases h.next_of_peek hp now with ⟨⟨hflush, hdue⟩, he⟩ | ⟨hready, he⟩ <;>
      rcases h'.next_of_peek (hpeek.trans hp) now with ⟨⟨hflush', hdue'⟩, he'⟩ | ⟨hready', he'⟩
    · rw [he, he']
      rfl
    · simp [hflush, Nat.not_le.mpr hdue] at hready'
    · simp [hflush', Nat.not_le.mpr hdue'] at hready
    · rw [he, he']
      exact congrArg _ ((s.without t).noted_comm p {} hne)

/-- Everything else goes on as if a zone had not been asked for anything. -/
theorem Consistent.apply_noted (h : s.Consistent) (hz : s.isInFlight z) (p : Pending) {op : Op}
    (hleaves : op.Leaves z) (hasks : op.asks z = false) :
    op.apply (s.noted z p) = (op.apply s).noted z p := by
  cases op with
  | schedule t => exact congrArg Prod.snd (schedule_noted hz p t)
  | unschedule k => exact congrArg Prod.snd (s.unschedule_noted z p k)
  | unscheduleZone y => exact congrArg Prod.snd (s.unscheduleZone_noted y z p)
  | reschedule y what due =>
    have hy : y ≠ z := by rintro rfl; simp [Op.asks, Op.moves?] at hasks
    exact congrArg Prod.snd (ask_noted hz p _ _ hy)
  | flushZone y =>
    have hy : y ≠ z := by rintro rfl; simp [Op.asks, Op.flushes] at hasks
    exact congrArg Prod.snd (ask_noted hz p _ _ hy)
  | flushAll => rfl
  | peek => exact congrArg Prod.snd (s.peek_noted z p)
  | next now => exact congrArg Prod.snd (h.next_noted hz p now)
  | release y => exact congrArg Prod.snd (s.release_noted p hleaves)
  | resubmit t f => exact congrArg Prod.snd (resubmit_noted hz p f hleaves)
  | clear => exact hleaves.elim

private theorem Consistent.ask_taken (h : s.Consistent) (hz : s.isInFlight z) (p : Pending)
    (f : Task → Task) (note : Pending → Pending) :
    (s.noted z p).ask z f note = (.ok (), s.noted z (note p)) := by
  have hs : (s.noted z p).isScheduled z = false := Bool.eq_false_iff.mpr fun hs => h.apart hs hz
  have hp : (s.noted z p).inFlight.get? z = some p := OrderedMap.get?_insert_self ..
  simp only [ask, hs, Bool.false_eq_true, if_false, record_of_isInFlight hp, noted_noted]

/-- What is asked of a zone is recorded, and nothing else changes. -/
theorem Consistent.apply_request (h : s.Consistent) (hz : s.isInFlight z) (p : Pending) {op : Op}
    (hasks : op.asks z) : op.apply (s.noted z p) = s.noted z (op.note z p) := by
  cases op with
  | reschedule y | flushZone y =>
    obtain rfl : y = z := by simpa [Op.asks, Op.moves?, Op.flushes] using hasks
    refine (congrArg Prod.snd (h.ask_taken hz p _ _)).trans ?_
    simp [Op.note, Op.moves?, Op.flushes]
  | _ => cases hasks

private theorem Op.note_of_not_asks {op : Op} (hasks : op.asks z = false) (p : Pending) :
    op.note z p = p := by
  obtain ⟨hmove, hflush⟩ := Bool.or_eq_false_iff.mp hasks
  have hnone : op.moves? z = none := by simpa using hmove
  simp [note, hnone, hflush]

/-- To record what is recorded already changes nothing. -/
theorem noted_self {p : Pending} (hp : s.inFlight.get? z = some p) : s.noted z p = s := by
  simp only [noted, OrderedMap.insert_eq_self hp]

/-- A taken task stays taken through an operation that does not end that. -/
theorem Consistent.isInFlight_apply (h : s.Consistent) (hz : s.isInFlight z) {op : Op}
    (hleaves : op.Leaves z) : (op.apply s).isInFlight z := by
  obtain ⟨p, hp⟩ := OrderedMap.contains_iff.mp hz
  rw [← noted_self hp]
  cases hasks : op.asks z with
  | true => simp [h.apply_request hz p hasks, isInFlight_noted]
  | false => simp [h.apply_noted hz p hleaves hasks, isInFlight_noted]

/-- A run of operations is the run without those that ask something of the zone, with all that they
ask recorded. -/
theorem Consistent.foldl_noted (h : s.Consistent) (hz : s.isInFlight z) (p : Pending)
    {ops : List Op} (hleaves : ∀ op ∈ ops, op.Leaves z) :
    ops.foldl Op.apply (s.noted z p) =
      ((ops.filter fun op => !op.asks z).foldl Op.apply s).noted z (ops.foldl (Op.note z) p) := by
  induction ops generalizing s p with
  | nil => rfl
  | cons op ops ih =>
    obtain ⟨hop, hops⟩ := List.forall_mem_cons.mp hleaves
    rw [List.foldl_cons, List.foldl_cons, List.filter_cons]
    cases hasks : op.asks z with
    | true =>
      rw [h.apply_request hz p hasks]
      exact ih h hz _ hops
    | false =>
      rw [h.apply_noted hz p hop hasks, Op.note_of_not_asks hasks]
      exact ih (h.apply op) (h.isInFlight_apply hz hop) p hops

/-- A taken task stays taken through any number of operations that do not end that. -/
theorem Consistent.isInFlight_foldl (h : s.Consistent) (hz : s.isInFlight z)
    {ops : List Op} (hleaves : ∀ op ∈ ops, op.Leaves z) : (ops.foldl Op.apply s).isInFlight z := by
  induction ops generalizing s with
  | nil => exact hz
  | cons op ops ih =>
    obtain ⟨hop, hops⟩ := List.forall_mem_cons.mp hleaves
    exact ih (h.apply op) (h.isInFlight_apply hz hop) hops

private theorem Op.lastMove?_cons (z : ZoneKey) (op : Op) (ops : List Op) :
    lastMove? z (op :: ops) = (lastMove? z ops).or (op.moves? z) := by
  unfold lastMove?
  cases hm : op.moves? z with
  | none => simp [List.filterMap_cons_none hm]
  | some m =>
    rw [List.filterMap_cons_some hm, List.getLast?_cons]
    cases (ops.filterMap (moves? z)).getLast? <;> rfl

private theorem Op.foldl_note (z : ZoneKey) (p : Pending) (ops : List Op) :
    ops.foldl (note z) p =
      { interrupt := (lastMove? z ops).elim p.interrupt fun m => some m.1
        interruptDue := (lastMove? z ops).elim p.interruptDue fun m => m.2
        flush := p.flush || ops.any (flushes z) } := by
  induction ops generalizing p with
  | nil => simp [lastMove?]
  | cons op ops ih =>
    rw [List.foldl_cons, ih, lastMove?_cons, List.any_cons]
    cases lastMove? z ops <;> simp [note, Bool.or_assoc]

/-- Folding the recorded requests into the task gives it the last of them. -/
theorem Op.fold_asked (t : Task) (ops : List Op) :
    (ops.foldl (note t.zone) {}).fold t = t.asked ops := by
  rw [foldl_note, Task.asked, Pending.fold]
  cases lastMove? t.zone ops <;> simp

def signing : Task := { zone := ⟨.internet, "a"⟩, what := .sign, due := 0 }

/-- What may happen while the zone is signed: requests to it and to another zone, whose task is taken
too. -/
def meanwhile : List Op :=
  let other : Task := { zone := ⟨.internet, "b"⟩, what := .read, due := 10 }
  [.reschedule signing.zone .configure 30, .schedule other, .flushZone signing.zone, .next 10,
    .reschedule signing.zone .read 40, .flushAll, .reschedule other.zone .sign 90]

def signed : Task :=
  { signing with
    what := .read, due := 40, interruptDue := 40, halted := some .sign, haltedDue := 3600,
    flush := true }

end Schedule

end ZoneSigning
