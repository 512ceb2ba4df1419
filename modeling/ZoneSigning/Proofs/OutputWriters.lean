import ZoneSigning.Proofs.Adapters
import ZoneSigning.Proofs.FilePlaces

/-!
Zones whose outputs are written at the same time. A call that writes an output does so in two steps, a
draft and its move to the output's place, and between the two other calls may take steps of theirs. As
long as no two zones share a place, for a draft or an output, each zone's output is as if the zone
were the only one. The name of a draft is the output's with another extension, and so zones with different
outputs may well share a place.
-/
namespace ZoneSigning

/-- A call that writes a zone to this output. -/
structure OutputCall (path : Path) where
  zone : Zone
  path_eq : zone.state.output.path = path

/-- What the call writes, unless it fails before it writes anything. -/
def OutputCall.text {path : Path} (call : OutputCall path) : Except AdapterFault String :=
  (call.zone.state.rendered call.zone).map (·.2)

/-- What has come of the last call that writes an output. -/
inductive OutputStatus where
  | untouched
  | drafted (text : String)
  | written (text : String)
  | failed
deriving DecidableEq

/-- A step of a call, where each `i` has its output. -/
inductive OutputMove {ι : Type} (out : ι → Path) where
  | draft (i : ι) (call : OutputCall (out i))
  | publish (i : ι)

def OutputMove.owner {ι : Type} {out : ι → Path} : OutputMove out → ι
  | draft i _ => i
  | publish i => i

/-- The files, and how the calls stand. -/
@[ext]
structure Writing (ι : Type) where
  files : FileStore
  status : ι → OutputStatus

namespace Writing

variable {ι : Type} [DecidableEq ι] {out : ι → Path}

def set (w : Writing ι) (i : ι) (x : OutputStatus) : Writing ι :=
  { w with status := fun j => if j = i then x else w.status j }

/-- Make a step. A call begins only after the last one has ended, and nothing is moved without a
draft. -/
def step (w : Writing ι) : OutputMove out → Writing ι
  | .draft i call =>
    match w.status i with
    | .drafted _ => w
    | _ =>
      match call.text with
      | .error _ => w.set i .failed
      | .ok text =>
        match w.files.writeDraft (out i) text with
        | .error _ => w.set i .failed
        | .ok files => { w with files }.set i (.drafted text)
  | .publish i =>
    match w.status i with
    | .drafted text =>
      match w.files.publish (out i) with
      | .error _ => w.set i .failed
      | .ok files => { w with files }.set i (.written text)
    | _ => w

def run (start : FileStore) (moves : List (OutputMove out)) : Writing ι :=
  moves.foldl step { files := start, status := fun _ => .untouched }

end Writing

namespace FileStore

def places (fs : FileStore) (p : Path) : List Location := [p.draft, p].filterMap fs.spot?

/-- No two outputs share a place. -/
def Apart {ι : Type} (fs : FileStore) (out : ι → Path) : Prop :=
  ∀ i j, i ≠ j → ∀ l ∈ fs.places (out i), l ∉ fs.places (out j)

def HasText (fs : FileStore) (p : Path) (text : String) : Prop :=
  ∃ l time, fs.spot? p = some l ∧ fs.node? l = some (.file (.text text) time)

variable {fs fs' : FileStore} {p : Path} {l : Location} {text : String}

private theorem spot?_mem_places (hl : fs.spot? p = some l) : l ∈ fs.places p :=
  List.mem_filterMap.mpr ⟨p, by simp, hl⟩

private theorem spot?_draft_mem_places (hl : fs.spot? p.draft = some l) : l ∈ fs.places p :=
  List.mem_filterMap.mpr ⟨p.draft, by simp, hl⟩

/-- An output has the same places in trees with the same directories. -/
theorem SameDirectories.places (h : fs.SameDirectories fs') (p : Path) :
    fs'.places p = fs.places p :=
  congrArg (List.filterMap · [p.draft, p]) (funext h.spot?)

/-- A file that holds a text is read as this text. -/
theorem HasText.readText (h : fs.HasText p text) : fs.readText p = .ok text := by
  obtain ⟨l, time, hl, hn⟩ := h
  exact readText_of_spot hl hn

/-- A file holds its text as long as nothing happens at its location. -/
theorem HasText.congr {cs : List Location} (h : fs.HasText p text) (hbut : SameBut cs fs fs')
    (hp : ∀ l, fs.spot? p = some l → l ∉ cs) : fs'.HasText p text := by
  obtain ⟨l, time, hl, hn⟩ := h
  refine ⟨l, time, (hbut.sameDirectories.spot? p).trans hl, ?_⟩
  rw [hbut.node? l (hp l hl), hn]

/-- A draft that has been written is there, and nothing has happened but at the places of the
output. -/
theorem writeDraft_ok (h : fs.writeDraft p text = .ok fs') :
    ∃ cs, SameBut cs fs fs' ∧ (∀ l ∈ cs, l ∈ fs.places p) ∧ fs'.HasText p.draft text := by
  obtain ⟨l, hl, hbut, hn⟩ := write_ok (mapError_eq_ok.mp h)
  refine ⟨[l], hbut, fun k hk => ?_, l, _, (hbut.sameDirectories.spot? _).trans hl, hn⟩
  exact List.mem_singleton.mp hk ▸ spot?_draft_mem_places hl

/-- A draft that has been moved is the output, and nothing has happened but at the places of the
output. -/
theorem publish_ok (hdraft : fs.HasText p.draft text) (h : fs.publish p = .ok fs') :
    ∃ cs, SameBut cs fs fs' ∧ (∀ l ∈ cs, l ∈ fs.places p) ∧ fs'.HasText p text := by
  obtain ⟨l, time, hl, hn⟩ := hdraft
  obtain ⟨l', hl', hbut, hn', -⟩ := rename_ok hl hn rfl (mapError_eq_ok.mp h)
  refine ⟨[l, l'], hbut, fun k hk => ?_, l', time, (hbut.sameDirectories.spot? _).trans hl', hn'⟩
  rcases List.mem_cons.mp hk with rfl | hk
  · exact spot?_draft_mem_places hl
  · exact List.mem_singleton.mp hk ▸ spot?_mem_places hl'

variable {gs : FileStore} {ls : List Location}

/-- A draft can be written in both trees or in none. -/
theorem AgreesAt.writeDraft (h : AgreesAt ls fs gs) (hp : ∀ l ∈ fs.places p, l ∈ ls) (text : String) :
    (∃ fs' gs', fs.writeDraft p text = .ok fs' ∧ gs.writeDraft p text = .ok gs' ∧
      AgreesAt ls fs' gs') ∨
    ∃ e e', fs.writeDraft p text = .error e ∧ gs.writeDraft p text = .error e' := by
  unfold FileStore.writeDraft
  rcases h.write (fun l hl => hp l (spot?_draft_mem_places hl)) (.text text) with
    ⟨fs', gs', hfs, hgs, hsame⟩ | ⟨e, e', hfs, hgs⟩
  · rw [hfs, hgs]
    exact .inl ⟨fs', gs', rfl, rfl, hsame⟩
  · rw [hfs, hgs]
    exact .inr ⟨_, _, rfl, rfl⟩

/-- A draft can be moved to its place in both trees or in none. -/
theorem AgreesAt.publish (h : AgreesAt ls fs gs) (hf : fs.HasText p.draft text)
    (hg : gs.HasText p.draft text) :
    (∃ fs' gs', fs.publish p = .ok fs' ∧ gs.publish p = .ok gs' ∧ AgreesAt ls fs' gs') ∨
    ∃ e e', fs.publish p = .error e ∧ gs.publish p = .error e' := by
  obtain ⟨l, time, hl, hn⟩ := hf
  obtain ⟨l', time', hl', hn'⟩ := hg
  obtain rfl : l' = l := by simpa [h.directories.spot?, hl] using hl'.symm
  unfold FileStore.publish
  rcases h.rename hl hn hn' rfl rfl p with ⟨fs', gs', hfs, hgs, hsame⟩ | ⟨e, e', hfs, hgs⟩
  · rw [hfs, hgs]
    exact .inl ⟨fs', gs', rfl, rfl, hsame⟩
  · rw [hfs, hgs]
    exact .inr ⟨_, _, rfl, rfl⟩

end FileStore

namespace OutputStatus

/-- What a call says that it has written is there. -/
def Holds (fs : FileStore) (p : Path) : OutputStatus → Prop
  | drafted text => fs.HasText p.draft text
  | written text => fs.HasText p text
  | _ => True

/-- What has been written is there as long as nothing happens at the places of the output. -/
theorem Holds.congr {fs fs' : FileStore} {p : Path} {cs : List Location} {x : OutputStatus}
    (h : x.Holds fs p) (hbut : FileStore.SameBut cs fs fs') (hp : ∀ l ∈ fs.places p, l ∉ cs) :
    x.Holds fs' p := by
  cases x with
  | drafted text =>
    exact FileStore.HasText.congr h hbut fun l hl => hp l (FileStore.spot?_draft_mem_places hl)
  | written text =>
    exact FileStore.HasText.congr h hbut fun l hl => hp l (FileStore.spot?_mem_places hl)
  | untouched => trivial
  | failed => trivial

end OutputStatus

namespace Writing

variable {ι : Type} [DecidableEq ι] {out : ι → Path} {start : FileStore} {w v : Writing ι} {i j : ι}

@[simp] theorem status_set_self (w : Writing ι) (i : ι) (x : OutputStatus) :
    (w.set i x).status i = x := if_pos rfl

private theorem status_set_of_ne (w : Writing ι) (x : OutputStatus) (h : j ≠ i) :
    (w.set i x).status j = w.status j := if_neg h

@[simp] theorem files_set (w : Writing ι) (i : ι) (x : OutputStatus) :
    (w.set i x).files = w.files := rfl

private theorem run_concat (start : FileStore) (moves : List (OutputMove out)) (move : OutputMove out) :
    run start (moves ++ [move]) = (run start moves).step move := by
  rw [run, List.foldl_append, List.foldl_cons, List.foldl_nil, run]

/-- A zone is written to the path of its output. -/
theorem path_of_rendered {s : ZoneState} {zone : Zone} {path : Path} {text : String}
    (h : s.rendered zone = .ok (path, text)) : path = s.output.path := by
  obtain ⟨p, hp, h⟩ := bind_eq_ok.mp h
  split at h
  · cases h
  · exact (congrArg Prod.fst (pure_eq_ok.mp h)).symm.trans (Endpoint.path_of_filePath hp).symm

/-- Where nobody else's step comes between them, the two steps of a call write the output as one. -/
theorem steps_eq_writeOutput (w : Writing ι) (call : OutputCall (out i))
    (hidle : ∀ text, w.status i ≠ .drafted text) :
    ((w.step (.draft i call)).step (.publish i : OutputMove out)).files =
      (w.files.writeOutput call.zone call.zone.state).2 ∧
    ((w.step (.draft i call)).step (.publish i : OutputMove out)).status i =
      match (w.files.writeOutput call.zone call.zone.state).1, call.text with
      | .ok _, .ok text => .written text
      | _, _ => .failed := by
  have hdraft : w.step (.draft i call) =
      match call.text with
      | .error _ => w.set i .failed
      | .ok text =>
        match w.files.writeDraft (out i) text with
        | .error _ => w.set i .failed
        | .ok files => { w with files }.set i (.drafted text) := by
    rw [step]
    cases hs : w.status i with
    | drafted text => exact absurd hs (hidle text)
    | _ => rfl
  rw [hdraft, FileStore.writeOutput, OutputCall.text]
  cases hr : call.zone.state.rendered call.zone with
  | error e => simp [Except.map, step]
  | ok rendered =>
    obtain ⟨path, text⟩ := rendered
    obtain rfl : path = out i := (path_of_rendered hr).trans call.path_eq
    cases hw : w.files.writeDraft (out i) text with
    | error e => simp [Except.map, hw, step]
    | ok files =>
      cases hp : files.publish (out i) with
      | error e => simp [Except.map, hw, step, hp]
      | ok files => simp [Except.map, hw, step, hp]

/-- What a step can do: nothing, fail, write a draft, or publish one. -/
theorem step_cases (w : Writing ι) (move : OutputMove out) :
    w.step move = w ∨ w.step move = w.set move.owner .failed ∨
    (∃ text files, w.files.writeDraft (out move.owner) text = .ok files ∧
      w.step move = { w with files }.set move.owner (.drafted text)) ∨
    (∃ text files, w.status move.owner = .drafted text ∧ w.files.publish (out move.owner) = .ok files ∧
      w.step move = { w with files }.set move.owner (.written text)) := by
  cases move with
  | draft i call =>
    simp only [step, OutputMove.owner]
    split
    · exact .inl rfl
    · split
      · exact .inr (.inl rfl)
      · next text _ =>
        split
        · exact .inr (.inl rfl)
        · next files hfiles => exact .inr (.inr (.inl ⟨text, files, hfiles, rfl⟩))
  | publish i =>
    simp only [step, OutputMove.owner]
    split
    · next text hstatus =>
      split
      · exact .inr (.inl rfl)
      · next files hfiles => exact .inr (.inr (.inr ⟨text, files, hstatus, hfiles, rfl⟩))
    · exact .inl rfl

/-- A step says nothing about the others' calls. -/
theorem status_step_of_ne (w : Writing ι) {move : OutputMove out} (h : j ≠ move.owner) :
    (w.step move).status j = w.status j := by
  rcases w.step_cases move with he | he | ⟨_, _, -, he⟩ | ⟨_, _, -, -, he⟩ <;> rw [he]
  all_goals exact status_set_of_ne _ _ h

/-- What has been written is still there. -/
structure Kept (out : ι → Path) (start : FileStore) (w : Writing ι) : Prop where
  directories : start.SameDirectories w.files
  holds : ∀ i, (w.status i).Holds w.files (out i)

/-- A step touches nothing but its owner's places. -/
theorem Kept.sameBut (h : w.Kept out start) (move : OutputMove out) :
    ∃ cs, FileStore.SameBut cs w.files (w.step move).files ∧
      ∀ l ∈ cs, l ∈ start.places (out move.owner) := by
  have hsame := h.directories.places (out move.owner)
  rcases w.step_cases move with
    he | he | ⟨text, files, hdraft, he⟩ | ⟨text, files, hs, hpublish, he⟩ <;> rw [he]
  · exact ⟨[], .refl _, nofun⟩
  · exact ⟨[], .refl _, nofun⟩
  · obtain ⟨cs, hbut, hcs, -⟩ := FileStore.writeDraft_ok hdraft
    exact ⟨cs, hbut, fun l hl => hsame ▸ hcs l hl⟩
  · have hheld := h.holds move.owner
    rw [hs] at hheld
    obtain ⟨cs, hbut, hcs, -⟩ := FileStore.publish_ok hheld hpublish
    exact ⟨cs, hbut, fun l hl => hsame ▸ hcs l hl⟩

/-- After a step of its own, a call has written what it says. -/
theorem Kept.holds_owner (h : w.Kept out start) (move : OutputMove out) :
    ((w.step move).status move.owner).Holds (w.step move).files (out move.owner) := by
  have hheld := h.holds move.owner
  rcases w.step_cases move with
    he | he | ⟨text, files, hdraft, he⟩ | ⟨text, files, hs, hpublish, he⟩ <;> rw [he]
  · exact hheld
  · rw [status_set_self]
    trivial
  · obtain ⟨_, -, -, htext⟩ := FileStore.writeDraft_ok hdraft
    rw [status_set_self]
    exact htext
  · rw [hs] at hheld
    obtain ⟨_, -, -, htext⟩ := FileStore.publish_ok hheld hpublish
    rw [status_set_self]
    exact htext

/-- A step for one output keeps what is written of all others. -/
theorem Kept.step (hapart : start.Apart out) (h : w.Kept out start) (move : OutputMove out) :
    (w.step move).Kept out start := by
  obtain ⟨cs, hbut, hcs⟩ := h.sameBut move
  refine ⟨h.directories.trans hbut.sameDirectories, fun j => ?_⟩
  by_cases hj : j = move.owner
  · subst hj
    exact h.holds_owner move
  · rw [w.status_step_of_ne hj]
    refine (h.holds j).congr hbut fun l hl hmem => ?_
    rw [h.directories.places] at hl
    exact hapart _ _ hj l hl (hcs l hmem)

private theorem kept_run (hapart : start.Apart out) (moves : List (OutputMove out)) :
    (run start moves).Kept out start := by
  suffices h : ∀ w : Writing ι, w.Kept out start → (moves.foldl Writing.step w).Kept out start from
    h _ ⟨.refl start, fun _ => trivial⟩
  induction moves with
  | nil => exact fun _ h => h
  | cons move moves ih => exact fun _ h => ih _ (h.step hapart move)

/-- For the zone `i`, all is the same in both but for the times. -/
structure Alike (out : ι → Path) (start : FileStore) (i : ι) (w v : Writing ι) : Prop where
  status : v.status i = w.status i
  files : FileStore.AgreesAt (start.places (out i)) w.files v.files

/-- A step of another zone makes no difference. -/
theorem Alike.step_other (hapart : start.Apart out) (h : w.Alike out start i v)
    (hw : w.Kept out start) {move : OutputMove out} (hi : i ≠ move.owner) :
    (w.step move).Alike out start i v := by
  obtain ⟨cs, hbut, hcs⟩ := hw.sameBut move
  refine ⟨h.status.trans (w.status_step_of_ne hi).symm,
    h.files.changeElsewhere hbut fun l hl hmem => ?_⟩
  exact hapart _ _ hi l hl (hcs l hmem)

/-- For a zone whose call has gone on in the same way, all is alike if the files at its places are.
-/
theorem Alike.set {fs gs : FileStore} (h : FileStore.AgreesAt (start.places (out i)) fs gs)
    (w v : Writing ι) (x : OutputStatus) :
    ({ w with files := fs }.set i x).Alike out start i ({ v with files := gs }.set i x) :=
  ⟨by rw [status_set_self, status_set_self], h⟩

/-- A step of the zone's own does the same in both, or fails in both. -/
theorem Alike.step_own (h : w.Alike out start i v) (hw : w.Kept out start) (hv : v.Kept out start)
    {move : OutputMove out} (hi : move.owner = i) :
    (w.step move).Alike out start i (v.step move) := by
  subst hi
  cases move with
  | draft i call =>
    simp only [OutputMove.owner] at h ⊢
    simp only [Writing.step, h.status]
    split
    · exact h
    · split
      · exact .set h.files w v _
      · next text _ =>
        have hplaces : ∀ l ∈ w.files.places (out i), l ∈ start.places (out i) := by
          rw [hw.directories.places]
          exact fun _ hl => hl
        rcases h.files.writeDraft hplaces text with ⟨fs, gs, hfs, hgs, hsame⟩ | ⟨e, e', hfs, hgs⟩
        · rw [hfs, hgs]
          exact .set hsame w v _
        · rw [hfs, hgs]
          exact .set h.files w v _
  | publish i =>
    simp only [OutputMove.owner] at h ⊢
    simp only [Writing.step, h.status]
    split
    · next text hs =>
      have hheld := hw.holds i
      have hheld' := hv.holds i
      rw [hs] at hheld
      rw [h.status, hs] at hheld'
      rcases h.files.publish hheld hheld' with ⟨fs, gs, hfs, hgs, hsame⟩ | ⟨e, e', hfs, hgs⟩
      · rw [hfs, hgs]
        exact .set hsame w v _
      · rw [hfs, hgs]
        exact .set h.files w v _
    · exact h

/-- Leaving out the steps of all others makes no difference. -/
theorem Alike.run (hapart : start.Apart out) (moves : List (OutputMove out)) (i : ι) :
    (run start moves).Alike out start i (run start (moves.filter (·.owner = i))) := by
  suffices h : ∀ w v : Writing ι, w.Kept out start → v.Kept out start → w.Alike out start i v →
      (moves.foldl Writing.step w).Alike out start i
        ((moves.filter (·.owner = i)).foldl Writing.step v) from
    h _ _ ⟨.refl start, fun _ => trivial⟩ ⟨.refl start, fun _ => trivial⟩
      ⟨rfl, .refl start, fun _ _ => rfl⟩
  induction moves with
  | nil => exact fun _ _ _ _ h => h
  | cons move moves ih =>
    intro w v hw hv h
    rw [List.foldl_cons, List.filter_cons]
    by_cases hi : move.owner = i
    · rw [if_pos (decide_eq_true hi), List.foldl_cons]
      exact ih _ _ (hw.step hapart move) (hv.step hapart move) (h.step_own hw hv hi)
    · rw [if_neg (by simpa using hi)]
      exact ih _ _ (hw.step hapart move) hv (h.step_other hapart hw (Ne.symm hi))

/-- Zones that share no place do not get into each other's way, in whatever order their calls take
their steps. When a call has succeeded, the output holds the zone's text until the zone is written
again; no step of another zone touches what is at the output's place, or at its draft's; and each
call succeeds or fails as it does when the other zones are not written at all. -/
theorem outputs_stay_apart (hapart : start.Apart out) (moves : List (OutputMove out)) (i : ι) :
    (∀ text, (run start moves).status i = .written text →
      (run start moves).files.readText (out i) = .ok text) ∧
    (∀ move : OutputMove out, move.owner ≠ i → ∀ l ∈ start.places (out i),
      (run start (moves ++ [move])).files.node? l = (run start moves).files.node? l) ∧
    (run start moves).status i = (run start (moves.filter (·.owner = i))).status i := by
  have hkept := kept_run hapart moves
  refine ⟨?_, ?_, ?_⟩
  · intro text hs
    have hheld := hkept.holds i
    rw [hs] at hheld
    exact FileStore.HasText.readText hheld
  · intro move hi l hl
    obtain ⟨cs, hbut, hcs⟩ := hkept.sameBut move
    rw [run_concat]
    exact hbut.node? l fun hmem => hapart _ _ (Ne.symm hi) l hl (hcs l hmem)
  · exact (Alike.run hapart moves i).status.symm

def emptyCall (name : String) (path : Path) : OutputCall path where
  zone :=
    { key := ⟨.internet, name⟩, record := 0,
      state := { output := { path }, db := { inboundSerial := some 1 } } }
  path_eq := rfl

def emptyText (second : Bool) : String :=
  bif second then "; b. signed, serial 1\n$TTL 0\n" else "; a. signed, serial 1\n$TTL 0\n"

def twoOutputs (p q : String) (second : Bool) : Path := bif second then ⟨q⟩ else ⟨p⟩

/-- The calls for two zones begin one after the other, and then end one after the other. -/
def crossing (p q : String) : List (OutputMove (twoOutputs p q)) :=
  [.draft false (emptyCall "a" _), .draft true (emptyCall "b" _), .publish false, .publish true]

def inTurn (p q : String) : List (OutputMove (twoOutputs p q)) :=
  [.draft true (emptyCall "b" _), .publish true, .draft false (emptyCall "a" _), .publish false]

def emptyHome : FileStore := .ofHome "home" 0

/-- Two zones that are written at the same time to files of different stems. -/
theorem outputs_stay_apart_twoZones :
    emptyHome.Apart (twoOutputs "a.signed" "b.signed") ∧
    (run emptyHome (crossing "a.signed" "b.signed")).files.readText ⟨"b.signed"⟩ =
      .ok (emptyText true) := by
  have hapart : emptyHome.Apart (twoOutputs "a.signed" "b.signed") := by
    unfold FileStore.Apart
    decide
  have hwritten : (run emptyHome (crossing "a.signed" "b.signed")).status true =
      .written (emptyText true) := by decide
  exact ⟨hapart, (outputs_stay_apart hapart _ true).1 _ hwritten⟩

def oneDraft : Writing Bool where
  files := emptyHome.putNew ["home", "zone.tmp"] (.file (.text (emptyText false)))
  status b := bif b then .untouched else .drafted (emptyText false)

def twoDrafts : Writing Bool where
  files := oneDraft.files.putNew ["home", "zone.tmp"] (.file (.text (emptyText true)))
  status b := .drafted (emptyText b)

def draftMoved : Writing Bool where
  files := (twoDrafts.files.takeAway ["home", "zone.tmp"]).put ["home", "zone.a"]
    (.file (.text (emptyText true)) 2)
  status b := bif b then .drafted (emptyText true) else .written (emptyText false)

def crossed : Writing Bool := draftMoved.set true .failed

private theorem run_crossing : run emptyHome (crossing "zone.a" "zone.b") = crossed := by
  -- Each step is evaluated from a state that is written out: nested ones take long to unfold.
  have hfirst : ({ files := emptyHome, status := fun _ => .untouched } : Writing Bool).step
      (.draft false (emptyCall "a" (twoOutputs "zone.a" "zone.b" false))) = oneDraft :=
    Writing.ext (by rfl) (by funext b; cases b <;> rfl)
  have hsecond : oneDraft.step (.draft true (emptyCall "b" (twoOutputs "zone.a" "zone.b" true))) =
      twoDrafts :=
    Writing.ext (by rfl) (by funext b; cases b <;> rfl)
  have hmove : twoDrafts.step (.publish false : OutputMove (twoOutputs "zone.a" "zone.b")) =
      draftMoved :=
    Writing.ext (by rfl) (by funext b; cases b <;> rfl)
  have hfail : draftMoved.step (.publish true : OutputMove (twoOutputs "zone.a" "zone.b")) =
      crossed :=
    Writing.ext (by rfl) (by funext b; cases b <;> rfl)
  rw [run, crossing, List.foldl_cons, hfirst, List.foldl_cons, hsecond, List.foldl_cons, hmove,
    List.foldl_cons, hfail, List.foldl_nil]

/-- Outputs that differ in their extensions only have one draft between them. When two calls cross,
one of them succeeds with the other's text, and the other one fails, which succeeds alone. And an
output that is called as another one's draft is gone when that one has been written. -/
theorem outputs_clobbered :
    (twoOutputs "zone.a" "zone.b" false ≠ twoOutputs "zone.a" "zone.b" true ∧
      (run emptyHome (crossing "zone.a" "zone.b")).status false = .written (emptyText false) ∧
      (run emptyHome (crossing "zone.a" "zone.b")).files.readText ⟨"zone.a"⟩ = .ok (emptyText true) ∧
      (run emptyHome (crossing "zone.a" "zone.b")).status true = .failed ∧
      (run emptyHome ((crossing "zone.a" "zone.b").filter (·.owner = true))).status true =
        .written (emptyText true)) ∧
    (twoOutputs "zone.signed" "zone.tmp" false ≠ twoOutputs "zone.signed" "zone.tmp" true ∧
      (run emptyHome (inTurn "zone.signed" "zone.tmp")).status true = .written (emptyText true) ∧
      (run emptyHome (inTurn "zone.signed" "zone.tmp")).files.readText ⟨"zone.tmp"⟩ =
        .error .missing) := by
  rw [run_crossing]
  refine ⟨⟨by decide, rfl, rfl, rfl, ?_⟩, by decide, ?_, rfl⟩
  · decide
  · decide

end Writing

end ZoneSigning
