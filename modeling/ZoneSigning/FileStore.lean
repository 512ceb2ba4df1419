import ZoneSigning.OrderedMap
import ZoneSigning.Path
import ZoneSigning.Zone.Basic

/-!
A tree of files as a value: what is at each location, and the operations on paths that read and
change it, with the errors that an operating system gives. A path is followed from the store's home
or from the root; every component before the last one must be a directory.
-/
namespace ZoneSigning

inductive FileError where
  | missing
  | noDevice
  | exists
  | notDirectory
  | isDirectory
  | busy
  | nameTooLong
  | nulByte
  | notText
  | addressInUse
  | socketNulByte
  | socketPathTooLong
deriving DecidableEq, Repr

def FileError.message : FileError → String
  | missing => "No such file or directory (os error 2)"
  | noDevice => "No such device or address (os error 6)"
  | .exists => "File exists (os error 17)"
  | notDirectory => "Not a directory (os error 20)"
  | isDirectory => "Is a directory (os error 21)"
  | busy => "Device or resource busy (os error 16)"
  | nameTooLong => "File name too long (os error 36)"
  | nulByte => "file name contained an unexpected NUL byte"
  | notText => "stream did not contain valid UTF-8"
  | addressInUse => "Address already in use (os error 98)"
  | socketNulByte => "paths must not contain interior null bytes"
  | socketPathTooLong => "path must be shorter than SUN_LEN"

/-- The content of a file. -/
inductive FileBody where
  | text (s : String)
  | binary (bytes : List UInt8)
deriving DecidableEq, Inhabited

/-- What is at a location. -/
inductive FileNode where
  | file (body : FileBody) (modified : FileTime)
  | directory (modified : FileTime)
  | socket (modified : FileTime)
deriving DecidableEq, Inhabited

namespace FileNode

def isDirectory : FileNode → Bool
  | directory _ => true
  | _ => false

def isSocket : FileNode → Bool
  | socket _ => true
  | _ => false

def modified : FileNode → FileTime
  | file _ time => time
  | directory time => time
  | socket time => time

end FileNode

/-- A place in the tree: the names of the directories from the root on, and the last name. -/
abbrev Location := List String

/-- A tree of files. The root is a directory that is always there. -/
structure FileStore where
  nodes : OrderedMap Location FileNode := ∅
  home : Location := []
  /-- The time of modification of what is written next. -/
  clock : FileTime := 0
  /-- When the root was last modified. -/
  rootModified : FileTime := 0
deriving Inhabited

namespace FileStore

def ofHome (name : String) (clock : FileTime) : FileStore where
  nodes := OrderedMap.insert ∅ [name] (.directory clock)
  home := [name]
  clock := clock + 1
  rootModified := clock

def node? (fs : FileStore) (at_ : Location) : Option FileNode :=
  if at_.isEmpty then some (.directory fs.rootModified) else fs.nodes.get? at_

def put (fs : FileStore) (at_ : Location) (n : FileNode) : FileStore :=
  { fs with nodes := fs.nodes.insert at_ n }

def putNew (fs : FileStore) (at_ : Location) (make : FileTime → FileNode) : FileStore :=
  { fs.put at_ (make fs.clock) with clock := fs.clock + 1 }

def takeAway (fs : FileStore) (at_ : Location) : FileStore :=
  { fs with nodes := fs.nodes.erase at_ }

/-- Where a path leads to. -/
structure Target where
  location : Location
  /-- Whether the path ends in a separator, so that it can only mean a directory. -/
  slash : Bool := false
  /-- Whether the last component is a name, and not `.`, `..` or the root. -/
  named : Bool := true

def nameLimit : Nat := 255

/-- Follow the segments of a path from the directory `dir`. Whether the last name is too long shows
only when it is looked for. -/
def follow (fs : FileStore) (dir : Location) (slash : Bool) :
    List String → Except FileError Target
  | [] => .ok ⟨dir, slash, false⟩
  | s :: rest =>
    if s = "" || s = "." then fs.follow dir slash rest
    else if s = ".." then fs.follow dir.dropLast slash rest
    else
      let at_ := dir ++ [s]
      if rest.isEmpty then .ok ⟨at_, slash, true⟩
      else if s.utf8ByteSize > nameLimit then .error .nameTooLong
      else
        match fs.node? at_ with
        | none => .error .missing
        | some (.directory _) => fs.follow at_ slash rest
        | some _ => .error .notDirectory

def locate (fs : FileStore) (p : Path) : Except FileError Target :=
  if p.isEmpty then .error .missing
  else if p.text.toList.contains '\x00' then .error .nulByte
  else if p.text.utf8ByteSize ≥ 4096 then .error .nameTooLong
  else
    let segments := Path.segments p.text.toList
    let trimmed := (segments.reverse.dropWhile List.isEmpty).reverse
    fs.follow (if p.isAbsolute then [] else fs.home) (trimmed.length < segments.length)
      (trimmed.map String.ofList)

/-- What is at the place where a path leads to, if anything can be there. -/
def nodeAt (fs : FileStore) (target : Target) : Except FileError (Option FileNode) :=
  if target.location.getLast?.any (·.utf8ByteSize > nameLimit) then .error .nameTooLong
  else .ok (fs.node? target.location)

def lookUp (fs : FileStore) (p : Path) : Except FileError (Location × FileNode) := do
  let target ← fs.locate p
  match ← fs.nodeAt target with
  | none => throw .missing
  | some n =>
    if target.slash && !n.isDirectory then throw .notDirectory
    return (target.location, n)

def modified (fs : FileStore) (p : Path) : Except FileError FileTime := do
  return (← fs.lookUp p).2.modified

def read (fs : FileStore) (p : Path) : Except FileError FileBody := do
  match (← fs.lookUp p).2 with
  | .file body _ => return body
  | .directory _ => throw .isDirectory
  | .socket _ => throw .noDevice

def readText (fs : FileStore) (p : Path) : Except FileError String := do
  match ← fs.read p with
  | .text s => return s
  | .binary _ => throw .notText

def write (fs : FileStore) (p : Path) (body : FileBody) : Except FileError FileStore := do
  let target ← fs.locate p
  if target.slash || !target.named then throw .isDirectory
  match ← fs.nodeAt target with
  | some (.directory _) => throw .isDirectory
  | some (.socket _) => throw .noDevice
  | _ => return fs.putNew target.location (.file body)

/-- Move a file to another path, in the stead of a file that is there. -/
def rename (fs : FileStore) (p q : Path) : Except FileError FileStore := do
  let old ← fs.locate p
  let new ← fs.locate q
  if !old.named || !new.named then throw .busy
  match ← fs.nodeAt old with
  | none => throw .missing
  | some n =>
    let replaced ← fs.nodeAt new
    if !n.isDirectory && (old.slash || new.slash) then throw .notDirectory
    if !n.isDirectory && replaced.any FileNode.isDirectory then throw .isDirectory
    return (fs.takeAway old.location).put new.location n

def remove (fs : FileStore) (p : Path) : Except FileError FileStore := do
  let target ← fs.locate p
  if !target.named then throw .isDirectory
  match ← fs.nodeAt target with
  | none => throw .missing
  | some (.directory _) => throw .isDirectory
  | some _ =>
    if target.slash then throw .notDirectory
    return fs.takeAway target.location

def makeDirectory (fs : FileStore) (p : Path) : Except FileError FileStore := do
  let target ← fs.locate p
  if (← fs.nodeAt target).isSome then throw .exists
  return fs.putNew target.location .directory

def isDirectory (fs : FileStore) (p : Path) : Bool :=
  match fs.lookUp p with
  | .ok (_, n) => n.isDirectory
  | .error _ => false

def ensureDirectory (fs : FileStore) (p : Path) : Except FileError Unit × FileStore :=
  match fs.makeDirectory p with
  | .ok fs => (.ok (), fs)
  | .error e => (if fs.isDirectory p then .ok () else .error e, fs)

def makeDirectoriesTo (fs : FileStore) (p : Path) : Nat → Except FileError Unit × FileStore
  | 0 => (.error .missing, fs)
  | depth + 1 =>
    if p.isEmpty then (.ok (), fs)
    else
      match fs.makeDirectory p, p.parent? with
      | .error .missing, some above =>
        match fs.makeDirectoriesTo above depth with
        | (.ok (), fs) => fs.ensureDirectory p
        | failed => failed
      | _, _ => fs.ensureDirectory p

/-- Make a directory and all that are missing above it. Where that fails, what was made on the way
stays. -/
def makeDirectories (fs : FileStore) (p : Path) : Except FileError Unit × FileStore :=
  fs.makeDirectoriesTo p (p.text.length + 1)

def touch (fs : FileStore) (p : Path) (time : FileTime) : Except FileError FileStore := do
  match ← fs.lookUp p with
  | (at_, .file body _) => return fs.put at_ (.file body time)
  | (_, .directory _) => throw .isDirectory
  | (_, .socket _) => throw .noDevice

/-- The length in bytes from which on a path cannot be the address of a socket. -/
def socketPathLimit : Nat := 108

def addSocket (fs : FileStore) (p : Path) : Except FileError FileStore := do
  if p.text.toList.contains '\x00' then throw .socketNulByte
  if p.text.utf8ByteSize ≥ socketPathLimit then throw .socketPathTooLong
  if p.isEmpty then return fs
  let target ← fs.locate p
  if !target.named || (← fs.nodeAt target).isSome then throw .addressInUse
  if target.slash then throw .missing
  return fs.putNew target.location .socket

/-- Put a listening socket at a path, in the stead of a file that is there. Where that fails, the
file may be gone. -/
def bindSocket (fs : FileStore) (p : Path) : Except FileError Unit × FileStore :=
  let cleared := if (fs.lookUp p).isOk then fs.remove p else .ok fs
  match cleared with
  | .error e => (.error e, fs)
  | .ok fs =>
    match fs.addSocket p with
    | .error e => (.error e, fs)
    | .ok fs => (.ok (), fs)

def hasListener (fs : FileStore) (p : Path) : Bool :=
  p.text.utf8ByteSize < socketPathLimit && (fs.lookUp p).toOption.any (·.2.isSocket)

/-- Everything below the home, each directory before what it holds, with a separator behind the
names of directories. -/
def listing (fs : FileStore) : List String :=
  fs.nodes.toList.filterMap fun (at_, n) =>
    if fs.home.isPrefixOf at_ && fs.home.length < at_.length then
      some (String.intercalate "/" (at_.drop fs.home.length) ++ if n.isDirectory then "/" else "")
    else none

end FileStore

end ZoneSigning
