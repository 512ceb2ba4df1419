import ZoneSigning.Proofs.Adapters
import ZoneSigning.Proofs.InventoryHistories

/-!
A zone that is read again and again, while the inventory may name another input for it and the files
change. Only the time of modification is remembered of the input that the content comes from. So the
content is that of the zone's input now, unless that is another file with the same time.
-/
namespace ZoneSigning

namespace FileStore

/-- What is read from the path is the same whenever its time of modification is the same. -/
def Dates (path : Path) (files later : FileStore) : Prop :=
  ∀ time, files.modified path = .ok time → later.modified path = .ok time →
    files.readText path = later.readText path

/-- The names are those in the file, and the serial is the one in it if it has one. -/
def Describes (files : FileStore) (path : Path) (zone : ZoneKey) (db : NameDb) : Prop :=
  ∃ text content, files.readText path = .ok text ∧ ZoneText.read zone.name text = .ok content ∧
    db.names = content.names ∧ ∀ serial, content.serial = some serial → db.inboundSerial = some serial

end FileStore

def ZoneState.withContentOf (s old : ZoneState) : ZoneState :=
  { s with db := { s.db with
      names := old.db.names
      inboundSerial := old.db.inboundSerial
      lastRead := old.db.lastRead } }

/-- A zone, and the path that its content has been read from. -/
structure SourcedZone where
  zone : Zone
  source : Option Path := none

namespace SourcedZone

/-- What is done with the zone. -/
inductive Op where
  /-- Everything but its content changes, among others the path of its input. -/
  | become (s : ZoneState)
  | read (files : FileStore)

def Op.files? : Op → Option FileStore
  | read files => some files
  | become _ => none

def path (x : SourcedZone) : Path := x.zone.state.input.path

def db (x : SourcedZone) : NameDb := x.zone.state.db

def answer (x : SourcedZone) (files : FileStore) : Except AdapterFault ReadStatus :=
  (x.zone.state.readInput x.zone.key files).map Prod.fst

def read (x : SourcedZone) (files : FileStore) : SourcedZone :=
  match x.zone.state.readInput x.zone.key files with
  | .ok (.fresh, s) => { zone := { x.zone with state := s }, source := some x.path }
  | .ok (.unchanged, s) => { x with zone := { x.zone with state := s } }
  | .error _ => x

def become (x : SourcedZone) (s : ZoneState) : SourcedZone :=
  { x with zone := { x.zone with state := s.withContentOf x.zone.state } }

def Op.apply (x : SourcedZone) : Op → SourcedZone
  | become s => x.become s
  | read files => x.read files

def run (z : Zone) (ops : List Op) : SourcedZone := ops.foldl Op.apply { zone := z }

/-- A file that was modified when the one was that the content comes from, is this one. -/
def Traced (x : SourcedZone) (files : FileStore) : Prop :=
  ∀ time, files.modified x.path = .ok time → x.db.lastRead = some time →
    ∃ source, x.source = some source ∧ files.lookUp source = files.lookUp x.path

variable {x : SourcedZone} {files : FileStore} {seen : List FileStore} {status : ReadStatus}

/-- Those who work on files do this to a zone that they are to read. -/
theorem read_eq (x : SourcedZone) (world : FileWorld) :
    fileCollaborators.read x.zone world =
      ((x.answer world.files).mapError .adapter, (x.read world.files).zone.state, world) := by
  unfold answer read
  rcases hread : x.zone.state.readInput x.zone.key world.files with e | ⟨status, s⟩
  · simp only [fileCollaborators, hread]
    rfl
  · cases status <;> simp only [fileCollaborators, hread] <;> rfl

private theorem state_keep (fresh : ZoneList) (z : Zone) :
    fresh.keep z.key z = { z with state := (fresh.keep z.key z).state.withContentOf z.state } := by
  obtain ⟨_, he | ⟨_, he⟩⟩ := fresh.keep_cases z.key z <;> rw [he] <;> rfl

/-- Reconciling a list of zones leaves a zone its content. -/
theorem get?_merge_zone {l fresh : ZoneList} (hfresh : fresh.Keyed)
    (hz : l.get? x.zone.key = some x.zone) :
    (l.merge fresh).get? x.zone.key =
      some ((Op.become (fresh.keep x.zone.key x.zone).state).apply x).zone := by
  rw [ZoneList.get?_merge l (fun h => hfresh h), hz, Option.map_some, Option.some_or, state_keep]
  rfl

/-- The zone's content was read from its source at one of these times. -/
def Sound (seen : List FileStore) (x : SourcedZone) : Prop :=
  ∀ time, x.db.lastRead = some time → ∃ old ∈ seen, ∃ source, x.source = some source ∧
    old.modified source = .ok time ∧ old.Describes source x.zone.key x.db

/-- What is read from a zone's input is what its content is then. -/
theorem describes_withContent {text : String} {content : ZoneText} {path : Path}
    {zone : ZoneKey} (htext : files.readText path = .ok text)
    (hcontent : ZoneText.read zone.name text = .ok content) (s : ZoneState) (time : FileTime) :
    files.Describes path zone (s.withContent content time).db := by
  refine ⟨text, content, htext, hcontent, rfl, fun serial hserial => ?_⟩
  rw [ZoneState.withContent, hserial]
  rfl

/-- A read gives the zone the content of its input, or leaves it as it is. -/
theorem read_cases (x : SourcedZone) (files : FileStore) :
    (x.answer files = .ok .fresh ∧ (x.read files).source = some x.path ∧
      files.Describes x.path x.zone.key (x.read files).db ∧ ∃ time,
        files.modified x.path = .ok time ∧ (x.read files).db.lastRead = some time) ∨
    (x.answer files = .ok .unchanged ∧ x.read files = x ∧ ∃ time,
      files.modified x.path = .ok time ∧ x.db.lastRead = some time) ∨
    (∀ status, x.answer files ≠ .ok status) ∧ x.read files = x := by
  unfold answer read
  rcases hread : x.zone.state.readInput x.zone.key files with e | ⟨status, s⟩
  · exact .inr (.inr ⟨nofun, rfl⟩)
  · obtain ⟨time, htime, ⟨rfl, rfl, hlast⟩ | ⟨rfl, text, content, htext, hcontent, rfl⟩⟩ :=
      ZoneState.readInput_eq_ok hread
    · exact .inr (.inl ⟨rfl, rfl, time, htime, hlast⟩)
    · exact .inl ⟨rfl, rfl, describes_withContent htext hcontent _ time, time, htime, rfl⟩

private theorem key_apply (x : SourcedZone) (op : Op) : (op.apply x).zone.key = x.zone.key := by
  cases op with
  | become s => rfl
  | read files =>
    simp only [Op.apply, read]
    split <;> rfl

private theorem key_run (z : Zone) (ops : List Op) : (run z ops).zone.key = z.key := by
  suffices h : ∀ x, (ops.foldl Op.apply x).zone.key = x.zone.key from h { zone := z }
  induction ops with
  | nil => exact fun _ => rfl
  | cons op ops ih => exact fun x => (ih _).trans (x.key_apply op)

/-- Content that was read at one of some times was read at one of more of them. -/
theorem Sound.mono {more : List FileStore} (h : x.Sound seen) : x.Sound (seen ++ more) := by
  intro time htime
  obtain ⟨old, hold, hrest⟩ := h time htime
  exact ⟨old, List.mem_append_left _ hold, hrest⟩

/-- Whatever is done with a zone, its content has been read from its source. -/
theorem Sound.apply (h : x.Sound seen) (op : Op) : (op.apply x).Sound (seen ++ op.files?.toList) := by
  cases op with
  | become s => exact Sound.mono h
  | read files =>
    rcases x.read_cases files with ⟨-, hsource, hgives, time, htime, hlast⟩ | ⟨-, hsame, -⟩ | ⟨-, hsame⟩
    · intro time' htime'
      obtain rfl : time = time' := Option.some.inj (hlast.symm.trans htime')
      refine ⟨files, List.mem_append_right _ List.mem_cons_self, x.path, hsource, htime, ?_⟩
      rw [x.key_apply (.read files)]
      exact hgives
    · exact (congrArg (Sound _) hsame).mpr h.mono
    · exact (congrArg (Sound _) hsame).mpr h.mono

/-- A zone that begins without content has, whatever is done with it, only content that has been
read. -/
theorem sound_run {z : Zone} (hnone : z.state.db.lastRead = none) (ops : List Op) :
    (run z ops).Sound (ops.filterMap Op.files?) := by
  have hstart : Sound [] { zone := z } := fun time htime => by cases hnone.symm.trans htime
  exact seen_foldl (fun op h => h.apply op) hstart ops

/-- Content that has not been read anew is that of the zone's input. -/
theorem Sound.describes (h : x.Sound seen) (htraced : x.Traced files)
    (hdates : ∀ path, ∀ old ∈ seen, old.Dates path files) {time : FileTime}
    (htime : files.modified x.path = .ok time) (hlast : x.db.lastRead = some time) :
    files.Describes x.path x.zone.key x.db := by
  obtain ⟨old, hold, source, hsource, hmodified, text, content, htext, hrest⟩ := h time hlast
  obtain ⟨source', hsource', hsame⟩ := htraced time htime hlast
  obtain rfl : source = source' := Option.some.inj (hsource.symm.trans hsource')
  have hnow : files.modified source = .ok time := by
    rw [← htime, FileStore.modified, hsame, FileStore.modified]
  have hread : files.readText source = files.readText x.path := by
    simp only [FileStore.readText, FileStore.read, hsame]
  refine ⟨text, content, ?_, hrest⟩
  rw [← hread, ← hdates source old hold time hmodified hnow]
  exact htext

/-- A zone does not keep the content of another file. Let the zone start unread, and let it be read
any number of times while the path of its input and the files change in any way, where a file with the
same time of modification has the same text. If the zone's input, should it have been modified when
the one was that the content comes from, is this very file, then a read that does not fail leaves the
zone with the names, and the serial if there is one, that are in its input now. -/
theorem contents_are_fresh {z : Zone} (hnone : z.state.db.lastRead = none) {ops : List Op}
    (hdates : ∀ path, (ops.filterMap Op.files? ++ [files]).Pairwise (FileStore.Dates path))
    (htraced : (run z ops).Traced files) (hok : (run z ops).answer files = .ok status) :
    files.Describes (run z ops).path z.key (run z (ops ++ [.read files])).db := by
  have hrun : run z (ops ++ [.read files]) = (run z ops).read files := by
    rw [run, List.foldl_append, run]
    rfl
  rw [hrun, ← key_run z ops]
  rcases (run z ops).read_cases files with
    ⟨-, -, hgives, -⟩ | ⟨-, hsame, time, htime, hlast⟩ | ⟨hfails, -⟩
  · exact hgives
  · rw [hsame]
    refine (sound_run hnone ops).describes htraced (fun path old hold => ?_) htime hlast
    exact (List.pairwise_append.mp (hdates path)).2.2 old hold files List.mem_cons_self
  · exact absurd hok (hfails status)

def twoInputs (time time' : FileTime) : FileStore where
  nodes := OrderedMap.ofList
    [(["a"], .file (.text "@ SOA m h 1") time), (["b"], .file (.text "@ SOA m h 2") time')]

def readFrom (path : String) : ZoneState := { input := { path := ⟨path⟩ } }

def unread : Zone := { key := ⟨.internet, "z"⟩, record := 0, state := readFrom "a" }

def moved (files : FileStore) : List Op := [.read files, .become (readFrom "b")]

private theorem dates_replicate (n : Nat) (path : Path) (files : FileStore) :
    (List.replicate n files).Pairwise (FileStore.Dates path) :=
  List.pairwise_replicate.mpr (.inr fun _ _ _ => rfl)

def reread (files : FileStore) : List Op := moved files ++ [.read files]

/-- The other file was modified at another time. It is read, and not read again. -/
theorem contents_are_fresh_moved :
    (run unread (reread (twoInputs 1 2))).answer (twoInputs 1 2) = .ok .unchanged ∧
      (twoInputs 1 2).Describes ⟨"b"⟩ unread.key
        (run unread (reread (twoInputs 1 2) ++ [.read (twoInputs 1 2)])).db ∧
      (run unread (reread (twoInputs 1 2))).db.inboundSerial = some 2 := by
  have hdates (path : Path) : ((reread (twoInputs 1 2)).filterMap Op.files? ++
      [twoInputs 1 2]).Pairwise (FileStore.Dates path) := dates_replicate 3 path _
  have hpath : (run unread (reread (twoInputs 1 2))).path = ⟨"b"⟩ := by decide
  have htraced : (run unread (reread (twoInputs 1 2))).Traced (twoInputs 1 2) :=
    fun _ _ _ => ⟨⟨"b"⟩, by decide, by rw [hpath]⟩
  have hok : (run unread (reread (twoInputs 1 2))).answer (twoInputs 1 2) = .ok .unchanged := by rfl
  have hgives := contents_are_fresh (z := unread) rfl hdates htraced hok
  rw [hpath] at hgives
  exact ⟨hok, hgives, by decide⟩

/-- The other file was modified at the same time. It is taken for the one that has been read, and the
zone keeps the serial of this one. -/
theorem contents_left_stale :
    unread.state.db.lastRead = none ∧
    (∀ path, ((moved (twoInputs 1 1)).filterMap Op.files? ++ [twoInputs 1 1]).Pairwise
      (FileStore.Dates path)) ∧
    (run unread (moved (twoInputs 1 1))).answer (twoInputs 1 1) = .ok .unchanged ∧
    (run unread (moved (twoInputs 1 1))).path = ⟨"b"⟩ ∧
    ¬ (twoInputs 1 1).Describes ⟨"b"⟩ unread.key
      (run unread (reread (twoInputs 1 1))).db := by
  refine ⟨rfl, fun path => dates_replicate 2 path _, by rfl, by decide, ?_⟩
  rintro ⟨text, content, htext, hread, -, hserial⟩
  have hb : (twoInputs 1 1).readText ⟨"b"⟩ = .ok "@ SOA m h 2" := by rfl
  obtain rfl : "@ SOA m h 2" = text := Except.ok.inj (hb.symm.trans htext)
  have hparsed : (ZoneText.read "z" "@ SOA m h 2").map ZoneText.serial = .ok (some 2) := by rfl
  have hnow := hserial 2 (Except.ok.inj (hparsed.symm.trans (congrArg _ hread))).symm
  exact absurd hnow (by decide)

end SourcedZone

end ZoneSigning
