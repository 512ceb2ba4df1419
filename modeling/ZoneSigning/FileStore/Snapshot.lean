import ZoneSigning.FileStore

/-!
Snapshots of a tree of files: building a tree from what is at each location, and what has to be done
to bring one tree to the state of another.
-/
namespace ZoneSigning

namespace FileBody

def ofBytes (bytes : ByteArray) : FileBody :=
  match String.fromUTF8? bytes with
  | some s => .text s
  | none => .binary bytes.toList

def bytes : FileBody → ByteArray
  | text s => s.toUTF8
  | binary bytes => ⟨bytes.toArray⟩

end FileBody

namespace Location

def ofText (path : String) : Location :=
  ((Path.segments path.toList).filter (!List.isEmpty ·)).map String.ofList

def text (at_ : Location) : String := "/" ++ String.intercalate "/" at_

end Location

/-- One step that changes a tree of files. -/
inductive FileChange where
  | remove (location : Location)
  | makeDirectory (location : Location)
  | write (location : Location) (body : FileBody)
deriving DecidableEq

namespace FileStore

/-- The tree with this home, the directories above it, and what is at the given locations. When the
directories above were modified is not known, and taken to be `clock`. -/
def ofNodes (home : Location) (clock : FileTime) (nodes : List (Location × FileNode)) : FileStore :=
  let above := (List.range home.length).map fun n => (home.take (n + 1), FileNode.directory clock)
  { nodes := OrderedMap.ofList (above ++ nodes)
    home := home
    clock := clock
    rootModified := clock }

def holdsSame : FileNode → FileNode → Bool
  | .file body _, .file body' _ => body == body'
  | .directory _, .directory _ => true
  | .socket _, .socket _ => true
  | _, _ => false

def changeTo? (location : Location) : FileNode → Option FileChange
  | .file body _ => some (.write location body)
  | .directory _ => some (.makeDirectory location)
  | .socket _ => none

/-- What has to be done to bring the tree `before` to the state of `fs`: first what is gone is
removed, then directories come before what they hold. -/
def changesSince (fs before : FileStore) : List FileChange :=
  let gone := before.nodes.toList.filterMap fun (location, n) =>
    if fs.nodes.contains location || n.isSocket then none else some (FileChange.remove location)
  let new := fs.nodes.toList.filterMap fun (location, n) =>
    if (before.nodes.get? location).any (holdsSame n) then none else changeTo? location n
  gone ++ new

end FileStore

end ZoneSigning
