/-!
File paths as text. A path is compared by its components, so that repeated and trailing separators
and inner `.` components do not count, while its text is kept as it was given.
-/
namespace ZoneSigning

/-- A path, as it was written. -/
structure Path where
  text : String
deriving DecidableEq, Repr, Inhabited

namespace Path

def segments (cs : List Char) : List (List Char) := cs.splitOn '/'

def join (ss : List (List Char)) : List Char := ['/'].intercalate ss

/-- Whether a segment names nothing: it is empty or `.`. -/
def isVoid (s : List Char) : Bool := s == [] || s == ['.']

def isAbsolute (p : Path) : Bool := p.text.toList.head? == some '/'

def isEmpty (p : Path) : Bool := p.text.isEmpty

/-- The root, or the leading `.`, that stands before the body of a path, and the body. -/
def splitHead (cs : List Char) : List Char × List Char :=
  match cs with
  | '/' :: rest => (['/'], rest)
  | ['.'] => (['.'], [])
  | '.' :: '/' :: rest => (['.'], '/' :: rest)
  | _ => ([], cs)

/-- The body's segments without those at the end that name nothing. -/
def bodySegments (body : List Char) : List (List Char) :=
  ((segments body).reverse.dropWhile isVoid).reverse

/-- The components of a path: the root or a leading `.`, then the segments that name something. -/
def components (p : Path) : List String :=
  let (head, body) := splitHead p.text.toList
  let rest := ((segments body).filter (!isVoid ·)).map String.ofList
  if head.isEmpty then rest else String.ofList head :: rest

def agrees (p q : Path) : Bool := p.components == q.components

def parent? (p : Path) : Option Path :=
  let (head, body) := splitHead p.text.toList
  match (bodySegments body).reverse with
  | _ :: before =>
    some ⟨String.ofList (head ++ join (before.dropWhile isVoid).reverse)⟩
  | [] => if head = ['.'] then some ⟨""⟩ else none

def within (base p : Path) : Path :=
  if p.isAbsolute || base.isEmpty then p
  else if base.text.toList.getLast? = some '/' then ⟨base.text ++ p.text⟩
  else ⟨base.text ++ "/" ++ p.text⟩

/-- The part of a file name before its last dot; a dot in front separates nothing. -/
def stem (name : List Char) : List Char :=
  match name.reverse.dropWhile (· != '.') with
  | _ :: before => if before.isEmpty then name else before.reverse
  | [] => name

/-- The name of the file that the path names, and what stands before it. -/
def splitName? (p : Path) : Option (List Char × List Char) :=
  let (head, body) := splitHead p.text.toList
  match (bodySegments body).reverse with
  | name :: before =>
    if name = ['.', '.'] then none
    else some (name, head ++ join (before.reverse ++ [[]]))
  | [] => none

def extensionLength (name : List Char) : Nat := name.length - (stem name).length - 1

/-- Put an extension behind the stem of the file name. A path that names no file stays as it is. -/
def setExtension (p : Path) (extension : String) : Path :=
  match p.splitName? with
  | some (name, before) => ⟨String.ofList (before ++ stem name ++ '.' :: extension.toList)⟩
  | none => p

/-- The path with another extension: as much as the old one is long is cut from the end, and the
new one is set. If what is left after the cut names no file, nothing is set. -/
def withExtension (p : Path) (extension : String) : Path :=
  match p.splitName? with
  | some (name, _) =>
    let cs := p.text.toList
    setExtension ⟨String.ofList (cs.take (cs.length - extensionLength name))⟩ extension
  | none => p

end Path

end ZoneSigning
