import ZoneSigning.Proofs.Reconciliation

/-!
A list of zones that is brought up to date with one inventory again and again, and is settled, read
out and cleared of removed zones in between. Whatever the history, a call that succeeds leaves
exactly the zones that the inventory lists now, also if it does not look at the inventory because
its time of modification is not a later one.
-/
namespace ZoneSigning

def ZoneEntry.description (e : ZoneEntry) : Zone.Description := (e.toZone 0).description

private theorem ZoneEntry.description_toZone (e : ZoneEntry) (record : Nat) :
    (e.toZone record).description = e.description := rfl

/-- What is read from the inventory depends on the text of its file. -/
theorem Inventory.read_congr {files later : FileStore} {path : Path}
    (h : files.readText path = later.readText path) :
    Inventory.read files path = Inventory.read later path := by
  rw [Inventory.read, Inventory.read, h]

/-- If the contents of the file are others later, then its time of modification is a later one. -/
def FileStore.Steady (path : Path) (files later : FileStore) : Prop :=
  ∀ time time', files.modified path = .ok time → later.modified path = .ok time' →
    files.readText path ≠ later.readText path → time < time'

instance (path : Path) (files later : FileStore) : Decidable (files.Steady path later) :=
  match htime : files.modified path, htime' : later.modified path with
  | .ok time, .ok time' =>
    decidable_of_iff (files.readText path ≠ later.readText path → time < time') (by
      simp [FileStore.Steady, htime, htime'])
  | .error _, _ => isTrue fun _ _ h _ => by simp [htime] at h
  | .ok _, .error _ => isTrue fun _ _ _ h => by simp [htime'] at h

/-- What each operation keeps true of the values that have been seen, those that the operation itself
shows among them, holds of all of them in the end. -/
theorem seen_foldl {α β γ : Type} {P : List β → γ → Prop} {apply : γ → α → γ} {shown? : α → Option β}
    (hkeeps : ∀ {seen x} (op : α), P seen x → P (seen ++ (shown? op).toList) (apply x op))
    {seen : List β} {x : γ} (h : P seen x) (ops : List α) :
    P (seen ++ ops.filterMap shown?) (ops.foldl apply x) := by
  induction ops generalizing seen x with
  | nil => simpa using h
  | cons op ops ih =>
    have hseen : seen ++ (op :: ops).filterMap shown? =
        seen ++ (shown? op).toList ++ ops.filterMap shown? := by
      cases hop : shown? op <;> simp [hop]
    rw [hseen]
    exact ih (hkeeps op h)

namespace ZoneList

variable {l l' start : ZoneList} {k : ZoneKey} {path : Path} {files : FileStore}
  {entries : List ZoneEntry}

/-- The live zones are those of the entries, where the first entry of a key counts. -/
def Lists (l : ZoneList) (entries : List ZoneEntry) : Prop :=
  ∀ k, (l.live? k).map Zone.description =
    (entries.find? fun e => e.key = k).map ZoneEntry.description

inductive Op where
  | update (files : FileStore)
  | settle
  | takeCounts
  | evict (busy : Zone → Bool)

def Op.apply (path : Path) (l : ZoneList) : Op → ZoneList
  | update files =>
    match l.updateFrom files path with
    | .ok (_, l') => l'
    | .error _ => l
  | settle => l.settle
  | takeCounts => l.takeCounts.2
  | evict busy => (l.evict busy).2

def Op.files? : Op → Option FileStore
  | update files => some files
  | _ => none

def run (path : Path) (l : ZoneList) (ops : List Op) : ZoneList := ops.foldl (Op.apply path) l

/-- The list is as the inventory at one of these times has been, if one has been read at all. -/
def Current (path : Path) (seen : List FileStore) (l : ZoneList) : Prop :=
  ∀ time, l.modified = some time → ∃ files ∈ seen, files.modified path = .ok time ∧
    ∃ entries, Inventory.read files path = .ok entries ∧ l.Lists entries

/-- A list that is made of entries says at a key what the first entry with that key says. -/
theorem description_get?_ofEntries (made : Nat) (entries : List ZoneEntry) (k : ZoneKey) :
    ((ofEntries made entries).get? k).map Zone.description =
      (entries.find? fun e => e.key = k).map ZoneEntry.description := by
  suffices hfold : ∀ l : ZoneList, ((entries.foldl _ l).get? k).map Zone.description =
      ((l.get? k).map Zone.description).or
        ((entries.find? fun e => e.key = k).map ZoneEntry.description) from hfold { made := made }
  induction entries with
  | nil => exact fun l => Option.or_none.symm
  | cons e entries ih =>
    intro l
    rw [List.foldl_cons, ih, List.find?_cons]
    dsimp only
    by_cases hk : e.key = k
    · subst hk
      split
      · next hlisted =>
        obtain ⟨z, hz⟩ := OrderedMap.contains_iff.mp hlisted
        simp [get?, hz]
      · next hlisted =>
        rw [Bool.not_eq_true, OrderedMap.contains_eq_false_iff] at hlisted
        simp [get?, hlisted, ZoneEntry.description_toZone]
    · split
      · simp [get?, hk]
      · simp [get?, OrderedMap.get?_insert_of_ne _ _ (Ne.symm hk), hk]

/-- After a merge the live zones are those of the inventory. -/
theorem lists_merge (l : ZoneList) (made : Nat) (entries : List ZoneEntry) :
    (l.merge (ofEntries made entries)).Lists entries := fun k =>
  (mirrors_merge l (keyed_ofEntries made entries) k).trans
    (description_get?_ofEntries made entries k)

private theorem description_live?_settle (l : ZoneList) (k : ZoneKey) :
    (l.settle.live? k).map Zone.description = (l.live? k).map Zone.description := by
  rw [live?, live?, get?_settle]
  cases l.get? k with
  | none => rfl
  | some z => cases hz : z.status <;> simp [Option.filter_some, ZoneStatus.settled, hz]

/-- Only zones that are not live are evicted. -/
theorem live?_evict (l : ZoneList) (busy : Zone → Bool) (k : ZoneKey) :
    (l.evict busy).2.live? k = l.live? k := by
  have hget : (l.evict busy).2.get? k = (l.get? k).filter fun z => !isEvictable busy z :=
    OrderedMap.get?_filter _ _ _
  rw [live?, live?, hget]
  cases l.get? k with
  | none => rfl
  | some z =>
    by_cases hz : z.status = .removed
    · cases hbusy : busy z <;> simp [Option.filter_some, isEvictable, hz, hbusy]
    · simp [Option.filter_some, isEvictable, hz]

/-- Whether a list is current depends on its live zones and on the inventory's time only. -/
theorem Current.congr {seen : List FileStore} (h : l.Current path seen)
    (hmodified : l'.modified = l.modified)
    (hlive : ∀ k, (l'.live? k).map Zone.description = (l.live? k).map Zone.description) :
    l'.Current path seen := by
  intro time htime
  obtain ⟨files, hseen, hfiles, entries, hread, hlists⟩ := h time (hmodified ▸ htime)
  exact ⟨files, hseen, hfiles, entries, hread, fun k => (hlive k).trans (hlists k)⟩

/-- A list that is as the inventory was at some times is as it was at more of them. -/
theorem Current.mono {seen seen' : List FileStore} (h : l.Current path seen)
    (hseen : ∀ files ∈ seen, files ∈ seen') : l.Current path seen' := by
  intro time htime
  obtain ⟨files, hmem, hread⟩ := h time htime
  exact ⟨files, hseen files hmem, hread⟩

/-- Whatever is done with a list, it stays current. -/
theorem Current.apply {seen : List FileStore} (h : l.Current path seen) (op : Op) :
    (op.apply path l).Current path (seen ++ op.files?.toList) := by
  have hmore : ∀ files ∈ seen, files ∈ seen ++ op.files?.toList :=
    fun files hfiles => List.mem_append_left _ hfiles
  cases op with
  | settle => exact Current.mono (Current.congr h rfl l.description_live?_settle) hmore
  | takeCounts => exact Current.mono (Current.congr h rfl fun _ => rfl) hmore
  | evict busy =>
    refine Current.mono (Current.congr h rfl fun k => ?_) hmore
    exact congrArg _ (l.live?_evict busy k)
  | update files =>
    unfold Op.apply
    dsimp only
    split
    · next update l' hok =>
      obtain ⟨time, htime, -, ⟨-, rfl⟩ | ⟨-, -, entries, hread, rfl⟩⟩ := updateFrom_cases hok
      · exact Current.mono h hmore
      · rintro _ ⟨rfl⟩
        exact ⟨files, List.mem_append_right _ List.mem_cons_self, htime, entries, hread,
          l.lists_merge l.made entries⟩
    · exact Current.mono h hmore

/-- A list stays current through any history. -/
theorem Current.run {seen : List FileStore} (h : l.Current path seen) (ops : List Op) :
    (run path l ops).Current path (seen ++ ops.filterMap Op.files?) :=
  seen_foldl (P := Current path) (fun op h => Current.apply h op) h ops

/-- What a call that succeeds has done with a list, where the files are as they are now. -/
structure Followed (path : Path) (files : FileStore) (l : ZoneList) (update : ZoneListUpdate)
    (l' : ZoneList) : Prop where
  /-- The inventory can be read, and the live zones are those that it lists. -/
  lists : ∃ entries, Inventory.read files path = .ok entries ∧ l'.Lists entries
  /-- A list that is not brought up to date is the same list. -/
  unchanged : update = .unchanged → l' = l
  /-- A list that is brought up to date remembers a later time than before. -/
  merged : ∀ counts, update = .merged counts → l'.counts = counts ∧
    ∃ time, files.modified path = .ok time ∧ l'.modified = some time ∧
      ∀ last, l.modified = some last → last < time

/-- An inventory that has not been modified since the list was brought up to date is the one that the
list has been brought up to date with. -/
theorem Current.lists {seen : List FileStore} (h : l.Current path seen)
    (hsteady : ∀ old ∈ seen, old.Steady path files) {time : FileTime}
    (htime : files.modified path = .ok time) (hcurrent : l.modified.any (time ≤ ·)) :
    ∃ entries, Inventory.read files path = .ok entries ∧ l.Lists entries := by
  obtain ⟨last, hlast, hle⟩ := (Option.any_eq_true _ _).mp hcurrent
  obtain ⟨old, hseen, hold, entries, hread, hlists⟩ := h last hlast
  have hsame : old.readText path = files.readText path := by
    by_contra hne
    exact Nat.not_le_of_lt (hsteady old hseen last time hold htime hne) (decide_eq_true_eq.mp hle)
  exact ⟨entries, Inventory.read_congr hsame ▸ hread, hlists⟩

/-- The list follows the inventory, whatever its history: if changed contents of the file always come
with a later time of modification, then each call that succeeds leaves the live zones that the
inventory lists, and each call that does not bring the list up to date leaves it as it is. -/
theorem follows_inventory (hstart : start.modified = none) {ops : List Op}
    (hsteady : (ops.filterMap Op.files? ++ [files]).Pairwise (FileStore.Steady path)) :
    (∀ e, (run path start ops).updateFrom files path = .error e →
      run path start (ops ++ [.update files]) = run path start ops) ∧
    ∀ update l', (run path start ops).updateFrom files path = .ok (update, l') →
      run path start (ops ++ [.update files]) = l' ∧
        Followed path files (run path start ops) update l' := by
  have hrun : run path start (ops ++ [.update files]) =
      Op.apply path (run path start ops) (.update files) := by
    rw [run, List.foldl_append]
    rfl
  have hnone : start.Current path [] := by
    intro time htime
    cases hstart.symm.trans htime
  have hcurrent : (run path start ops).Current path (ops.filterMap Op.files?) := hnone.run ops
  have hseen : ∀ old ∈ ops.filterMap Op.files?, old.Steady path files := by
    rw [List.pairwise_append] at hsteady
    exact fun old hold => hsteady.2.2 old hold files List.mem_cons_self
  refine ⟨fun e herror => ?_, fun update l' hok => ⟨?_, ?_⟩⟩
  · simp only [hrun, Op.apply, herror]
  · simp only [hrun, Op.apply, hok]
  · obtain ⟨time, htime, hany, hcases⟩ := updateFrom_cases hok
    rcases hcases with ⟨rfl, rfl⟩ | ⟨rfl, hlater, entries, hread, rfl⟩
    · exact ⟨hcurrent.lists hseen htime hany, fun _ => rfl, nofun⟩
    · refine ⟨⟨entries, hread, lists_merge _ _ entries⟩, nofun, ?_⟩
      rintro _ ⟨rfl⟩
      exact ⟨rfl, time, htime, rfl, hlater⟩

private def inventoryAt (text : String) (time : FileTime) : FileStore where
  nodes := OrderedMap.ofList [(["z"], .file (.text text) time)]

private def listing (name policy : String) : String :=
  "\x7b\"name\":\"" ++ name ++ "\",\"policy\":\"" ++ policy ++ "\",\"signconf\":\"c\"," ++
    "\"input\":\x7b\"uri\":\"i\"\x7d,\"output\":\x7b\"uri\":\"o\"\x7d\x7d"

/-- The inventory is missing, loses a zone, cannot be read, and has the zone again, which is still
listed because it was busy. -/
theorem follows_inventory_readmission :
    let ops := [.update (inventoryAt ("[" ++ listing "a" "p" ++ "]") 1), .settle, .takeCounts,
      .update {}, .update (inventoryAt ("[" ++ listing "B." "p" ++ "," ++ listing "b" "q" ++ "]") 2),
      .update (inventoryAt "[" 3), .settle, .evict fun _ => true]
    let files := inventoryAt ("[" ++ listing "a" "p" ++ "," ++ listing "b" "q" ++ "]") 4
    (ops.filterMap Op.files? ++ [files]).Pairwise (FileStore.Steady ⟨"z"⟩) ∧
      ∃ l', (run ⟨"z"⟩ {} ops).updateFrom files ⟨"z"⟩ = .ok (.merged { updated := 2 }, l') ∧
        Followed ⟨"z"⟩ files (run ⟨"z"⟩ {} ops) (.merged { updated := 2 }) l' := by
  intro ops files
  have hsteady : (ops.filterMap Op.files? ++ [files]).Pairwise (FileStore.Steady ⟨"z"⟩) := by
    decide +kernel
  have hrun : ((run ⟨"z"⟩ {} ops).updateFrom files ⟨"z"⟩).toOption.any
      (·.1 = .merged { updated := 2 }) := by decide +kernel
  obtain ⟨⟨update, l'⟩, hok, hupdate⟩ := (Option.any_eq_true _ _).mp hrun
  obtain rfl : update = .merged { updated := 2 } := of_decide_eq_true hupdate
  have hanswer : (run ⟨"z"⟩ {} ops).updateFrom files ⟨"z"⟩ = .ok (.merged { updated := 2 }, l') := by
    cases hcases : (run ⟨"z"⟩ {} ops).updateFrom files ⟨"z"⟩ with
    | error e =>
      rw [hcases] at hok
      cases hok
    | ok answer =>
      rw [hcases] at hok
      exact congrArg Except.ok (Option.some.inj hok)
  exact ⟨hsteady, l', hanswer, ((follows_inventory rfl hsteady).2 _ l' hanswer).2⟩

end ZoneList

end ZoneSigning
