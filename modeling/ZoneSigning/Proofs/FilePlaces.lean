import ZoneSigning.Proofs.OrderedMap
import ZoneSigning.FileStore

/-!
Where paths lead to, and what writing and moving files changes there. Which way a path goes depends on
the directories alone, and writing a file or moving one leaves the directories as they are. So paths
lead to the same places throughout, and only what is at the places written to changes.
-/
namespace ZoneSigning

namespace FileNode

def isFile : FileNode → Bool
  | file _ _ => true
  | _ => false

def undated : FileNode → FileNode
  | file body _ => file body 0
  | directory _ => directory 0
  | socket _ => socket 0

private theorem isFile_undated (n : FileNode) : n.undated.isFile = n.isFile := by cases n <;> rfl

private theorem isDirectory_of_isFile {n : FileNode} (h : n.isFile) : n.isDirectory = false := by
  cases n with
  | file => rfl
  | directory => cases h
  | socket => cases h

end FileNode

namespace FileStore

def isShort (l : Location) : Bool := l.getLast?.all (·.utf8ByteSize ≤ nameLimit)

/-- The location of the file that a path names, if the path can name one. -/
def spot? (fs : FileStore) (p : Path) : Option Location :=
  (fs.locate p).toOption.bind fun target =>
    if target.named && !target.slash && isShort target.location then some target.location else none

def hasDirectory (fs : FileStore) (l : Location) : Bool := (fs.node? l).any FileNode.isDirectory

/-- The trees have the same directories. -/
structure SameDirectories (fs fs' : FileStore) : Prop where
  home : fs'.home = fs.home
  hasDirectory : ∀ l, fs'.hasDirectory l = fs.hasDirectory l

variable {fs fs' fs'' : FileStore} {p q : Path} {l l' : Location}

private theorem toOption_enter (fs : FileStore) (l : Location) (r : Except FileError Target) :
    (match fs.node? l with
      | none => .error .missing
      | some (.directory _) => r
      | some _ => .error .notDirectory : Except FileError Target).toOption =
      if fs.hasDirectory l then r.toOption else none := by
  unfold hasDirectory
  cases fs.node? l with
  | none => rfl
  | some n => cases n <;> rfl

namespace SameDirectories

/-- A tree has the directories that it has. -/
theorem refl (fs : FileStore) : fs.SameDirectories fs := ⟨rfl, fun _ => rfl⟩

/-- If one tree has the directories of another, then the other has those of the one. -/
theorem symm (h : fs.SameDirectories fs') : fs'.SameDirectories fs :=
  ⟨h.home.symm, fun l => (h.hasDirectory l).symm⟩

/-- Trees that share their directories with a third one share them with each other. -/
theorem trans (h : fs.SameDirectories fs') (h' : fs'.SameDirectories fs'') :
    fs.SameDirectories fs'' :=
  ⟨h'.home.trans h.home, fun l => (h'.hasDirectory l).trans (h.hasDirectory l)⟩

/-- A path is followed to the same place in both trees, if it leads anywhere. -/
theorem follow (h : fs.SameDirectories fs') (dir : Location) (slash : Bool) (segments : List String) :
    (fs'.follow dir slash segments).toOption = (fs.follow dir slash segments).toOption := by
  induction segments generalizing dir with
  | nil => rfl
  | cons s rest ih =>
    simp only [FileStore.follow]
    split
    · exact ih dir
    · split
      · exact ih dir.dropLast
      · split
        · rfl
        · split
          · rfl
          · refine (fs'.toOption_enter _ _).trans (.trans ?_ (fs.toOption_enter _ _).symm)
            rw [h.hasDirectory, ih]

/-- A path leads to the same place in trees with the same directories. -/
theorem locate (h : fs.SameDirectories fs') (p : Path) :
    (fs'.locate p).toOption = (fs.locate p).toOption := by
  unfold FileStore.locate
  split
  · rfl
  · split
    · rfl
    · split
      · rfl
      · rw [h.home]
        exact h.follow _ _ _

/-- A path names the same location in trees with the same directories. -/
theorem spot? (h : fs.SameDirectories fs') (p : Path) : fs'.spot? p = fs.spot? p := by
  rw [FileStore.spot?, FileStore.spot?, h.locate p]

end SameDirectories

private theorem nodeAt_eq (fs : FileStore) (target : Target) :
    fs.nodeAt target =
      if isShort target.location then .ok (fs.node? target.location) else .error .nameTooLong := by
  unfold nodeAt isShort
  cases target.location.getLast? with
  | none => rfl
  | some name =>
    by_cases hname : name.utf8ByteSize ≤ nameLimit
    · simp [hname, Nat.not_lt.mpr hname]
    · simp [hname, Nat.lt_of_not_le hname]

private theorem spot?_eq_some_iff : fs.spot? p = some l ↔
    fs.locate p = .ok { location := l, slash := false, named := true } ∧ isShort l := by
  unfold spot?
  cases fs.locate p with
  | error e => simp [Except.toOption]
  | ok target =>
    obtain ⟨l', slash, named⟩ := target
    cases slash <;> cases named <;> simp [Except.toOption]
    exact ⟨fun h => ⟨h.2, h.2 ▸ h.1⟩, fun h => ⟨h.1 ▸ h.2, h.1⟩⟩

/-- A file can be written where nothing but a file is in its way. -/
theorem toOption_write (fs : FileStore) (p : Path) (body : FileBody) :
    (fs.write p body).toOption = (fs.spot? p).bind fun l =>
      if (fs.node? l).all FileNode.isFile then some (fs.putNew l (.file body)) else none := by
  unfold write spot?
  cases fs.locate p with
  | error e => rfl
  | ok target =>
    obtain ⟨l, slash, named⟩ := target
    cases slash <;> cases named <;> try rfl
    simp only [bind, Except.bind, Except.toOption, nodeAt_eq, Option.bind]
    cases isShort l with
    | false => rfl
    | true =>
      cases hn : fs.node? l with
      | none => simp [hn]; rfl
      | some n => cases n <;> simp [hn, FileNode.isFile] <;> rfl

/-- A file can be moved to where there is no directory. -/
theorem toOption_rename {n : FileNode} (hspot : fs.spot? p = some l) (hn : fs.node? l = some n)
    (hfile : n.isFile) :
    (fs.rename p q).toOption = (fs.spot? q).bind fun l' =>
      if fs.hasDirectory l' then none else some ((fs.takeAway l).put l' n) := by
  obtain ⟨hold, hshort⟩ := spot?_eq_some_iff.mp hspot
  have hplain := FileNode.isDirectory_of_isFile hfile
  unfold rename spot?
  simp only [hold, bind, Except.bind, nodeAt_eq, hshort, hn, if_true]
  cases fs.locate q with
  | error e => rfl
  | ok target =>
    obtain ⟨l', slash, named⟩ := target
    have hdir : (fs.node? l').any FileNode.isDirectory = fs.hasDirectory l' := rfl
    cases named <;> cases slash <;> cases hshort' : isShort l' <;> cases hd : fs.hasDirectory l' <;>
      simp [hshort', hd, hplain, hdir, Except.toOption, pure, Except.pure, throw, throwThe,
        MonadExceptOf.throw]

private theorem node?_put (fs : FileStore) (n : FileNode) (hl : l ≠ []) (k : Location) :
    (fs.put l n).node? k = if k = l then some n else fs.node? k := by
  unfold node?
  by_cases hk : k = l
  · simp [put, hk, hl]
  · simp [put, hk, OrderedMap.get?_insert_of_ne]

private theorem node?_takeAway (fs : FileStore) (hl : l ≠ []) (k : Location) :
    (fs.takeAway l).node? k = if k = l then none else fs.node? k := by
  unfold node?
  by_cases hk : k = l
  · simp [takeAway, hk, hl]
  · simp [takeAway, hk, OrderedMap.get?_erase_of_ne]

/-- The root is a directory. -/
theorem ne_root (h : fs.hasDirectory l = false) : l ≠ [] := by
  rintro rfl
  cases h

/-- The trees are the same but for these locations, and there is no directory in either tree there. -/
structure SameBut (ls : List Location) (fs fs' : FileStore) : Prop where
  home : fs'.home = fs.home
  node? : ∀ l, l ∉ ls → fs'.node? l = fs.node? l
  hasDirectory : ∀ l ∈ ls, fs.hasDirectory l = false ∧ fs'.hasDirectory l = false

/-- A tree differs nowhere from itself. -/
theorem SameBut.refl (fs : FileStore) : SameBut [] fs fs := ⟨rfl, fun _ _ => rfl, nofun⟩

/-- Trees that differ only in some files have the same directories. -/
theorem SameBut.sameDirectories {ls : List Location} (h : SameBut ls fs fs') :
    fs.SameDirectories fs' := by
  refine ⟨h.home, fun l => ?_⟩
  by_cases hl : l ∈ ls
  · rw [(h.hasDirectory l hl).1, (h.hasDirectory l hl).2]
  · rw [FileStore.hasDirectory, h.node? l hl, FileStore.hasDirectory]

/-- A file that is written is where its path leads to, and nothing else changes. -/
theorem write_ok {body : FileBody} (h : fs.write p body = .ok fs') :
    ∃ l, fs.spot? p = some l ∧ SameBut [l] fs fs' ∧
      fs'.node? l = some (.file body fs.clock) := by
  have hwrite := fs.toOption_write p body
  rw [h] at hwrite
  obtain ⟨l, hl, hput⟩ := Option.bind_eq_some_iff.mp hwrite.symm
  split at hput
  · next hfile =>
    cases hput
    have hdir : fs.hasDirectory l = false := by
      unfold hasDirectory
      cases hn : fs.node? l with
      | none => rfl
      | some n => exact FileNode.isDirectory_of_isFile (by simpa [hn] using hfile)
    have hnode (k : Location) := fs.node?_put (.file body fs.clock) (ne_root hdir) k
    have hself : (fs.putNew l (.file body)).node? l = some (.file body fs.clock) := by
      have := hnode l
      rwa [if_pos rfl] at this
    refine ⟨l, hl, ⟨rfl, fun k hk => ?_, fun k hk => ?_⟩, hself⟩
    · have := hnode k
      rwa [if_neg (by simpa using hk)] at this
    · obtain rfl := List.mem_singleton.mp hk
      exact ⟨hdir, by rw [hasDirectory, hself]; rfl⟩
  · cases hput

/-- A file that is moved is where its new path leads to, and no longer where its old one does. -/
theorem rename_ok {n : FileNode} (hspot : fs.spot? p = some l) (hn : fs.node? l = some n)
    (hfile : n.isFile) (h : fs.rename p q = .ok fs') :
    ∃ l', fs.spot? q = some l' ∧ SameBut [l, l'] fs fs' ∧ fs'.node? l' = some n ∧
      (l ≠ l' → fs'.node? l = none) := by
  have hrename := fs.toOption_rename (q := q) hspot hn hfile
  rw [h] at hrename
  obtain ⟨l', hl', hmove⟩ := Option.bind_eq_some_iff.mp hrename.symm
  split at hmove
  · cases hmove
  · next hdir' =>
    cases hmove
    have hdir : fs.hasDirectory l = false := by
      rw [hasDirectory, hn]
      exact FileNode.isDirectory_of_isFile hfile
    have hdir' : fs.hasDirectory l' = false := Bool.eq_false_iff.mpr hdir'
    have hnode (k : Location) : ((fs.takeAway l).put l' n).node? k =
        if k = l' then some n else if k = l then none else fs.node? k := by
      rw [node?_put _ _ (ne_root hdir'), node?_takeAway _ (ne_root hdir)]
    refine ⟨l', hl', ⟨rfl, fun k hk => ?_, fun k hk => ?_⟩, by simp [hnode],
      fun hne => by simp [hnode, hne]⟩
    · simp only [List.mem_cons, List.not_mem_nil, or_false, not_or] at hk
      rw [hnode, if_neg hk.2, if_neg hk.1]
    · simp only [List.mem_cons, List.not_mem_nil, or_false] at hk
      refine ⟨by rcases hk with rfl | rfl <;> assumption, ?_⟩
      rw [hasDirectory, hnode]
      split
      · exact FileNode.isDirectory_of_isFile hfile
      · split
        · rfl
        · next hne hne' => exact absurd hk (by simp [hne, hne'])

/-- The trees have the same directories, and the same at these locations but for the times. -/
structure AgreesAt (ls : List Location) (fs gs : FileStore) : Prop where
  directories : fs.SameDirectories gs
  node? : ∀ l ∈ ls, (gs.node? l).map FileNode.undated = (fs.node? l).map FileNode.undated

variable {gs gs' : FileStore} {ls cs : List Location}

/-- The trees go on to agree if the same is put at the same places. -/
theorem AgreesAt.change (h : AgreesAt ls fs gs) (hfs : SameBut cs fs fs') (hgs : SameBut cs gs gs')
    (hsame : ∀ l ∈ cs, (gs'.node? l).map FileNode.undated = (fs'.node? l).map FileNode.undated) :
    AgreesAt ls fs' gs' where
  directories := hfs.sameDirectories.symm.trans (h.directories.trans hgs.sameDirectories)
  node? l hl := by
    by_cases hc : l ∈ cs
    · exact hsame l hc
    · rw [hfs.node? l hc, hgs.node? l hc, h.node? l hl]

/-- What is put elsewhere makes no difference. -/
theorem AgreesAt.changeElsewhere (h : AgreesAt ls fs gs) (hfs : SameBut cs fs fs')
    (hls : ∀ l ∈ ls, l ∉ cs) : AgreesAt ls fs' gs where
  directories := hfs.sameDirectories.symm.trans h.directories
  node? l hl := by rw [hfs.node? l (hls l hl), h.node? l hl]

private theorem both_ok_or_both_error {ε α : Type} {x y : Except ε α}
    (h : y.toOption.isSome = x.toOption.isSome) :
    (∃ a b, x = .ok a ∧ y = .ok b) ∨ ∃ e e', x = .error e ∧ y = .error e' := by
  cases x <;> cases y
  · exact .inr ⟨_, _, rfl, rfl⟩
  · cases h
  · cases h
  · exact .inl ⟨_, _, rfl, rfl⟩

/-- A file can be written in both trees or in none. -/
theorem AgreesAt.write (h : AgreesAt ls fs gs) (hp : ∀ l, fs.spot? p = some l → l ∈ ls)
    (body : FileBody) :
    (∃ fs' gs', fs.write p body = .ok fs' ∧ gs.write p body = .ok gs' ∧ AgreesAt ls fs' gs') ∨
      ∃ e e', fs.write p body = .error e ∧ gs.write p body = .error e' := by
  have hboth : (gs.write p body).toOption.isSome = (fs.write p body).toOption.isSome := by
    rw [toOption_write, toOption_write, h.directories.spot?]
    cases hl : fs.spot? p with
    | none => rfl
    | some l =>
      have hfile : (gs.node? l).all FileNode.isFile = (fs.node? l).all FileNode.isFile := by
        have hnode := congrArg (Option.all FileNode.isFile) (h.node? l (hp l hl))
        simpa [Option.all_map, Function.comp_def, FileNode.isFile_undated] using hnode
      simp only [Option.bind_some, hfile]
      split <;> rfl
  refine (both_ok_or_both_error hboth).imp_left fun ⟨fs', gs', hfs, hgs⟩ => ?_
  obtain ⟨l, hl, hbut, hnode⟩ := write_ok hfs
  obtain ⟨l', hl', hbut', hnode'⟩ := write_ok hgs
  obtain rfl : l' = l := by simpa [h.directories.spot?, hl] using hl'.symm
  refine ⟨fs', gs', hfs, hgs, h.change hbut hbut' fun k hk => ?_⟩
  obtain rfl := List.mem_singleton.mp hk
  rw [hnode, hnode']
  rfl

/-- A file can be moved in both trees or in none. -/
theorem AgreesAt.rename {n n' : FileNode} (h : AgreesAt ls fs gs) (hspot : fs.spot? p = some l)
    (hn : fs.node? l = some n) (hn' : gs.node? l = some n') (hfile : n.isFile)
    (hsame : n'.undated = n.undated) (q : Path) :
    (∃ fs' gs', fs.rename p q = .ok fs' ∧ gs.rename p q = .ok gs' ∧ AgreesAt ls fs' gs') ∨
      ∃ e e', fs.rename p q = .error e ∧ gs.rename p q = .error e' := by
  have hspot' : gs.spot? p = some l := (h.directories.spot? p).trans hspot
  have hfile' : n'.isFile := by rw [← n'.isFile_undated, hsame, n.isFile_undated, hfile]
  have hboth : (gs.rename p q).toOption.isSome = (fs.rename p q).toOption.isSome := by
    rw [toOption_rename hspot hn hfile, toOption_rename hspot' hn' hfile', h.directories.spot?]
    cases fs.spot? q with
    | none => rfl
    | some l' =>
      simp only [Option.bind_some, h.directories.hasDirectory]
      split <;> rfl
  refine (both_ok_or_both_error hboth).imp_left fun ⟨fs', gs', hfs, hgs⟩ => ?_
  obtain ⟨k, hk, hbut, hnode, hgone⟩ := rename_ok hspot hn hfile hfs
  obtain ⟨k', hk', hbut', hnode', hgone'⟩ := rename_ok hspot' hn' hfile' hgs
  obtain rfl : k' = k := by simpa [h.directories.spot?, hk] using hk'.symm
  refine ⟨fs', gs', hfs, hgs, h.change hbut hbut' fun m hm => ?_⟩
  by_cases hmk : m = k'
  · rw [hmk, hnode, hnode', Option.map_some, Option.map_some, hsame]
  · obtain rfl : m = l := by simpa [hmk] using hm
    rw [hgone hmk, hgone' hmk]

/-- A text that is where a path leads to is what is read there. -/
theorem readText_of_spot {text : String} {time : FileTime} (hl : fs.spot? p = some l)
    (hn : fs.node? l = some (.file (.text text) time)) : fs.readText p = .ok text := by
  obtain ⟨hlocate, hshort⟩ := spot?_eq_some_iff.mp hl
  simp [readText, read, lookUp, hlocate, nodeAt_eq, hshort, hn, bind, Except.bind, pure, Except.pure]

end FileStore

end ZoneSigning
