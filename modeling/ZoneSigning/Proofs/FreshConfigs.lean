import ZoneSigning.Proofs.InventoryHistories
import ZoneSigning.Proofs.Successes
import ZoneSigning.FileCollaborators

/-!
A zone whose signing configuration is loaded again and again, while the inventory may name another
file for it. A configuration that is not loaded anew is as old as the file that it was loaded from, and
so it is what is in the zone's file now, unless the inventory has named another file in between that
was modified no later.
-/
namespace ZoneSigning

/-- The configuration is what the file holds, but for its time. -/
def FileStore.Configures (files : FileStore) (path : Path) (c : SigningConfig) : Prop :=
  ∃ text, files.readText path = .ok text ∧
    SigningConfig.read path text = .ok { c with modified := none }

/-- What a file configures depends on its text only. -/
theorem FileStore.Configures.congr {files later : FileStore} {path : Path} {c : SigningConfig}
    (h : files.Configures path c) (hsame : files.readText path = later.readText path) :
    later.Configures path c := by
  obtain ⟨text, htext, hread⟩ := h
  exact ⟨text, hsame ▸ htext, hread⟩

/-- A zone, and the path that its configuration has been loaded from. -/
structure ConfiguredZone where
  zone : Zone
  source : Option Path := none

namespace ConfiguredZone

/-- What is done with the zone. -/
inductive Op where
  | merge (fresh : ZoneList)
  | load (files : FileStore)

def Op.files? : Op → Option FileStore
  | load files => some files
  | merge _ => none

def answer (x : ConfiguredZone) (files : FileStore) : Except ConfigFault ConfigStatus :=
  x.zone.state.loadConfig x.zone.key files

def path (x : ConfiguredZone) : Path := x.zone.state.configPath

def config (x : ConfiguredZone) : Option SigningConfig := x.zone.state.config

def load (x : ConfiguredZone) (files : FileStore) : ConfiguredZone where
  zone := { x.zone with state := (x.zone.state.configured ((x.answer files).mapError .config)).2 }
  source :=
    match x.answer files with
    | .ok (.reloaded _) => some x.path
    | _ => x.source

def Op.apply (x : ConfiguredZone) : Op → ConfiguredZone
  | merge fresh => { x with zone := fresh.keep x.zone.key x.zone }
  | load files => x.load files

def run (z : Zone) (ops : List Op) : ConfiguredZone := ops.foldl Op.apply { zone := z }

/-- A file that was modified no later than the zone's configuration is the one that the configuration
was loaded from. -/
def Traced (x : ConfiguredZone) (files : FileStore) : Prop :=
  ∀ c last time, x.config = some c → c.modified = some last → files.modified x.path = .ok time →
    time ≤ last → x.source = some x.path

variable {x : ConfiguredZone} {files : FileStore} {seen : List FileStore} {c : SigningConfig}
  {status : ConfigStatus}

/-- Reconciling a list of zones does this to the zone. -/
theorem get?_merge_zone {l fresh : ZoneList} (hfresh : fresh.Keyed)
    (hz : l.get? x.zone.key = some x.zone) :
    (l.merge fresh).get? x.zone.key = some ((Op.merge fresh).apply x).zone := by
  rw [ZoneList.get?_merge l (fun h => hfresh h), hz, Option.map_some, Option.some_or]
  rfl

/-- A step that asks those who work on files does this to the zone. -/
theorem state_load_eq (x : ConfiguredZone) (world : FileWorld) :
    (x.load world.files).zone.state =
      (x.zone.state.configured (fileCollaborators.loadConfig x.zone world).1).2 := rfl

/-- The zone's configuration has been loaded from its source at one of these times. -/
structure Loaded (seen : List FileStore) (x : ConfiguredZone) (c : SigningConfig) (old : FileStore)
    (path : Path) : Prop where
  source : x.source = some path
  seen : old ∈ seen
  modified : ∃ time, old.modified path = .ok time ∧ c.modified = some time
  configures : old.Configures path c

/-- Whatever configuration the zone has, it has been loaded. -/
def Sound (seen : List FileStore) (x : ConfiguredZone) : Prop :=
  ∀ c, x.config = some c → ∃ old path, x.Loaded seen c old path

private theorem modified_of_ofJson? {j : Json} (h : SigningConfig.ofJson? j = some c) : c.modified = none := by
  simp only [SigningConfig.ofJson?, bind, pure, Option.bind_eq_some_iff] at h
  obtain ⟨r, -, resign, -, validity, -, keys, -, hc⟩ := h
  cases hc
  rfl

/-- A document says nothing of the time of its file. -/
theorem modified_of_read {path : Path} {text : String} (h : SigningConfig.read path text = .ok c) :
    c.modified = none := by
  unfold SigningConfig.read at h
  split at h
  · cases h
  · next parsed hparsed =>
    obtain ⟨j, -, hj⟩ := Option.bind_eq_some_iff.mp hparsed
    simp only [check_eq_ok, pure_eq_ok] at h
    obtain ⟨-, -, rfl⟩ := h
    exact modified_of_ofJson? hj

/-- What is loaded from a file is what the file holds, with the file's time. -/
theorem configures_of_loaded {path : Path} {time : FileTime}
    (h : ∃ text, files.readText path = .ok text ∧
      ∃ config, SigningConfig.read path text = .ok config ∧
        ConfigStatus.reloaded { config with modified := some time } = status) :
    ∃ c, status = .reloaded c ∧ c.modified = some time ∧ files.Configures path c := by
  obtain ⟨text, htext, config, hread, rfl⟩ := h
  refine ⟨_, rfl, rfl, text, htext, ?_⟩
  rw [hread, ← modified_of_read hread]

/-- What the loader may answer. -/
theorem answer_cases (h : x.answer files = .ok status) :
    ∃ time, files.modified x.path = .ok time ∧
      (status = .unchanged ∧ (∃ c last, x.config = some c ∧ c.modified = some last ∧ time ≤ last) ∨
      ∃ c, status = .reloaded c ∧ c.modified = some time ∧ files.Configures x.path c) := by
  unfold answer ZoneState.loadConfig at h
  simp only [check_eq_ok, bind_eq_ok, mapError_eq_ok] at h
  obtain ⟨-, time, htime, h⟩ := h
  refine ⟨time, htime, ?_⟩
  split at h
  · next last hlast =>
    split at h
    · next hle =>
      obtain ⟨c, hc, hlast⟩ := Option.bind_eq_some_iff.mp hlast
      exact .inl ⟨(pure_eq_ok.mp h).symm, c, last, hc, hlast, hle⟩
    · simp only [bind_eq_ok, mapError_eq_ok, pure_eq_ok] at h
      exact .inr (configures_of_loaded h)
  · simp only [bind_eq_ok, mapError_eq_ok, pure_eq_ok] at h
    exact .inr (configures_of_loaded h)

private theorem path_load (x : ConfiguredZone) (files : FileStore) : (x.load files).path = x.path := by
  unfold path load ZoneState.configured
  dsimp only
  split
  · rfl
  · split <;> rfl
  · split <;> rfl

/-- A step leaves the configuration that the loader has given, or else the one that there was. -/
theorem load_cases (x : ConfiguredZone) (files : FileStore) :
    (∃ c, x.answer files = .ok (.reloaded c) ∧ (x.load files).config = some c ∧
      (x.load files).source = some x.path) ∨
    (∀ c, x.answer files ≠ .ok (.reloaded c)) ∧ (x.load files).config = x.config ∧
      (x.load files).source = x.source := by
  unfold config load
  cases x.answer files with
  | error e =>
    refine .inr ⟨nofun, ?_, rfl⟩
    simp only [Except.mapError, ZoneState.configured]
    split <;> rfl
  | ok status =>
    cases status with
    | reloaded c => exact .inl ⟨c, rfl, rfl, rfl⟩
    | unchanged =>
      refine .inr ⟨nofun, ?_, rfl⟩
      simp only [Except.mapError, ZoneState.configured]
      split <;> rfl

/-- Reconciliation leaves a zone its configuration. -/
theorem config_keep (fresh : ZoneList) (key : ZoneKey) (z : Zone) :
    (fresh.keep key z).state.config = z.state.config := by
  obtain ⟨_, he | ⟨_, he⟩⟩ := fresh.keep_cases key z <;> rw [he] <;> rfl

/-- What has been loaded at some times has been loaded at more of them. -/
theorem Sound.mono {more : List FileStore} (h : x.Sound seen) : x.Sound (seen ++ more) := by
  intro c hc
  obtain ⟨old, path, hloaded⟩ := h c hc
  exact ⟨old, path, { hloaded with seen := List.mem_append_left _ hloaded.seen }⟩

/-- Whatever is done with a zone, its configuration has been loaded. -/
theorem Sound.apply (h : x.Sound seen) (op : Op) :
    (op.apply x).Sound (seen ++ op.files?.toList) := by
  cases op with
  | merge fresh =>
    refine Sound.mono fun c hc => ?_
    obtain ⟨old, path, hloaded⟩ := h c ((config_keep fresh x.zone.key x.zone).symm.trans hc)
    exact ⟨old, path, { hloaded with }⟩
  | load files =>
    rcases x.load_cases files with ⟨c, hanswer, hc, hsource⟩ | ⟨-, hc, hsource⟩
    · intro c' hc'
      obtain rfl : c = c' := Option.some.inj (hc.symm.trans hc')
      obtain ⟨time, htime, ⟨hstatus, -⟩ | ⟨c', hstatus, hmodified, hgives⟩⟩ := answer_cases hanswer
      · cases hstatus
      · cases hstatus
        exact ⟨files, x.path, hsource, List.mem_append_right _ List.mem_cons_self,
          ⟨time, htime, hmodified⟩, hgives⟩
    · refine Sound.mono fun c hc' => ?_
      obtain ⟨old, path, hloaded⟩ := h c (hc.symm.trans hc')
      exact ⟨old, path, { hloaded with source := hsource.trans hloaded.source }⟩

/-- A zone that begins without a configuration has, whatever is done with it, only loaded ones. -/
theorem sound_run {z : Zone} (hnone : z.state.config = none) (ops : List Op) :
    (run z ops).Sound (ops.filterMap Op.files?) := by
  have hstart : Sound [] { zone := z } := fun c hc => by cases hnone.symm.trans hc
  exact seen_foldl (fun op h => h.apply op) hstart ops

/-- A configuration that has not been loaded anew is what the zone's file holds. -/
theorem Sound.configures (h : x.Sound seen) (htraced : x.Traced files)
    (hsteady : ∀ path, ∀ old ∈ seen, old.Steady path files) (hok : x.answer files = .ok .unchanged)
    (hc : x.config = some c) : files.Configures x.path c := by
  obtain ⟨old, path, hsource, hold, ⟨last, hlast, hmodified⟩, hgives⟩ := h c hc
  obtain ⟨time, htime, ⟨-, c', last', hc', hlast', hle⟩ | ⟨_, hstatus, -⟩⟩ := answer_cases hok
  · obtain rfl : c = c' := Option.some.inj (hc.symm.trans hc')
    obtain rfl : last = last' := Option.some.inj (hmodified.symm.trans hlast')
    obtain rfl : path = x.path :=
      Option.some.inj (hsource.symm.trans (htraced c last time hc hmodified htime hle))
    refine hgives.congr ?_
    by_contra hne
    exact Nat.not_le_of_lt (hsteady _ old hold last time hlast htime hne) hle
  · cases hstatus

/-- A zone's configuration is not stale. Let the zone start without one, let the inventory be merged
and the configuration be loaded any number of times, and let changed contents of a file always come
with a later time of modification. If the zone's file, should it have been modified no later than the
zone's configuration, is the one that the configuration was loaded from, then a step in which the
loader does not fail leaves the zone with what is in its file now. -/
theorem configs_are_fresh {z : Zone} (hnone : z.state.config = none) {ops : List Op}
    (hsteady : ∀ path, (ops.filterMap Op.files? ++ [files]).Pairwise (FileStore.Steady path))
    (htraced : (run z ops).Traced files) (hok : (run z ops).answer files = .ok status)
    (hc : (run z (ops ++ [.load files])).config = some c) :
    files.Configures (run z (ops ++ [.load files])).path c := by
  have hrun : run z (ops ++ [.load files]) = (run z ops).load files := by
    rw [run, List.foldl_append, run]
    rfl
  rw [hrun] at hc ⊢
  rw [path_load]
  have hseen (path : Path) (old : FileStore) (hold : old ∈ ops.filterMap Op.files?) :
      old.Steady path files :=
    (List.pairwise_append.mp (hsteady path)).2.2 old hold files List.mem_cons_self
  rcases (run z ops).load_cases files with ⟨c', hanswer, hc', -⟩ | ⟨hnot, hsame, -⟩
  · obtain rfl : c' = c := Option.some.inj (hc'.symm.trans hc)
    obtain ⟨time, htime, ⟨hstatus, -⟩ | ⟨c, hstatus, -, hgives⟩⟩ := answer_cases hanswer
    · cases hstatus
    · cases hstatus
      exact hgives
  · cases status with
    | reloaded c' => exact absurd hok (hnot c')
    | unchanged =>
      exact (sound_run hnone ops).configures htraced hseen hok (hsame.symm.trans hc)

def resigning (secs : String) : String := "\x7b\"resign_secs\":" ++ secs ++ "\x7d"

def twoConfigs (time time' : FileTime) : FileStore where
  nodes := OrderedMap.ofList
    [(["a"], .file (.text (resigning "60")) time), (["b"], .file (.text (resigning "120")) time')]

def zoneWith (path : String) : Zone :=
  { key := ⟨.internet, "z"⟩, record := 0, state := { configPath := ⟨path⟩ } }

def moved (files : FileStore) : List Op :=
  [.load files, .merge { zones := OrderedMap.insert ∅ ⟨.internet, "z"⟩ (zoneWith "b") }]

def reloaded (files : FileStore) : List Op := moved files ++ [.load files]

/-- Files that stay as they are never have other contents. -/
theorem steady_replicate (n : Nat) (path : Path) (files : FileStore) :
    (List.replicate n files).Pairwise (FileStore.Steady path) :=
  List.pairwise_replicate.mpr (.inr fun _ _ _ _ hne => absurd rfl hne)

/-- The other file was modified later. It is loaded, and not loaded again. -/
theorem configs_are_fresh_moved :
    ∃ c, (run (zoneWith "a") (reloaded (twoConfigs 1 2))).answer (twoConfigs 1 2) = .ok .unchanged ∧
      c.resignSecs = 120 ∧ (twoConfigs 1 2).Configures ⟨"b"⟩ c := by
  have hsteady (path : Path) : ((reloaded (twoConfigs 1 2)).filterMap Op.files? ++
      [twoConfigs 1 2]).Pairwise (FileStore.Steady path) := steady_replicate 3 path _
  have htraced : (run (zoneWith "a") (reloaded (twoConfigs 1 2))).Traced (twoConfigs 1 2) :=
    fun _ _ _ _ _ _ _ => by decide
  have hok : (run (zoneWith "a") (reloaded (twoConfigs 1 2))).answer (twoConfigs 1 2) =
      .ok .unchanged := by rfl
  have hc : (run (zoneWith "a") (reloaded (twoConfigs 1 2) ++ [.load (twoConfigs 1 2)])).config =
      some { resignSecs := 120, modified := some 2 } := by decide
  have hgives := configs_are_fresh rfl hsteady htraced hok hc
  exact ⟨_, hok, rfl, hgives⟩

/-- The other file was modified earlier. The loader takes it for the one that it has loaded, and leaves
the zone with what it does not hold. -/
theorem config_left_stale :
    (zoneWith "a").state.config = none ∧
    (∀ path, ((moved (twoConfigs 2 1)).filterMap Op.files? ++ [twoConfigs 2 1]).Pairwise
      (FileStore.Steady path)) ∧
    (run (zoneWith "a") (moved (twoConfigs 2 1))).answer (twoConfigs 2 1) = .ok .unchanged ∧
    (run (zoneWith "a") (reloaded (twoConfigs 2 1))).path = ⟨"b"⟩ ∧
    ∃ c, (run (zoneWith "a") (reloaded (twoConfigs 2 1))).config = some c ∧
      ¬ (twoConfigs 2 1).Configures ⟨"b"⟩ c := by
  refine ⟨rfl, fun path => steady_replicate 2 path _, by rfl, by decide,
    { resignSecs := 60, modified := some 2 }, by decide, ?_⟩
  rintro ⟨text, htext, hread⟩
  have hb : (twoConfigs 2 1).readText ⟨"b"⟩ = .ok (resigning "120") := by rfl
  obtain rfl : resigning "120" = text := Except.ok.inj (hb.symm.trans htext)
  have hparsed : SigningConfig.read ⟨"b"⟩ (resigning "120") = .ok { resignSecs := 120 } := by rfl
  cases hparsed.symm.trans hread

end ConfiguredZone

end ZoneSigning
