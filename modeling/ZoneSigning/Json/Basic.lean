import ZoneSigning.Binary64
import ZoneSigning.OrderedMap

/-!
JSON values. Besides the values proper there is `Json.unreadable`, for a part of a document that
follows the grammar and still has no reading: it may be skipped, and is refused where it is read.
-/
namespace ZoneSigning

/-- A JSON value. Objects keep their members as they were written, repetitions included. -/
inductive Json where
  | null
  | bool (b : Bool)
  | int (n : Int)
  | real (x : Binary64)
  | text (s : String)
  | array (items : List Json)
  | object (members : List (String × Json))
  /-- A string with half of a surrogate pair, an object with such a key, a number beyond the
  doubles, or an array or object below the deepest level that is read. -/
  | unreadable
deriving Repr, Inhabited, BEq

namespace Json

def depthLimit : Nat := 127

def nat (n : Nat) : Json := .int n

def ofOption {α : Type} (f : α → Json) : Option α → Json
  | none => .null
  | some a => f a

mutual

def isReadable : Json → Bool
  | .unreadable => false
  | .array items => allReadable items
  | .object members => membersReadable members
  | _ => true

def allReadable : List Json → Bool
  | [] => true
  | j :: rest => isReadable j && allReadable rest

def membersReadable : List (String × Json) → Bool
  | [] => true
  | (_, j) :: rest => isReadable j && membersReadable rest

end

/-- Members in key order, the last one of a key winning. -/
def sortMembers (members : List (String × Json)) : List (String × Json) :=
  (members.foldl (fun (m : OrderedMap String Json) e => m.insert e.1 e.2) ∅).toList

mutual

def canonical : Json → Json
  | .array items => .array (canonicalItems items)
  | .object members => .object (sortMembers (canonicalMembers members))
  | j => j

def canonicalItems : List Json → List Json
  | [] => []
  | j :: rest => canonical j :: canonicalItems rest

def canonicalMembers : List (String × Json) → List (String × Json)
  | [] => []
  | (k, j) :: rest => (k, canonical j) :: canonicalMembers rest

end

end Json

end ZoneSigning
