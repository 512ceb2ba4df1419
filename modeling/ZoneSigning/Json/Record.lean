import ZoneSigning.Json.Basic
import ZoneSigning.Text.Numeral

/-!
Reading typed records from JSON values. A record is an object with named members, or an array of
its fields in their declared order. A field may be given once; what an open record does not know it
skips, and a closed one refuses.
-/
namespace ZoneSigning.Json

/-- A record whose fields have been told apart. -/
structure Record where
  given : List (String × Json)
  /-- Whether the fields came in order and without names. -/
  positional : Bool

def distinct (names : List String) (members : List (String × Json)) : Bool :=
  names.all fun n => members.countP (fun m => m.1 == n) ≤ 1

/-- Tell apart the fields of a record that has the fields `names`. -/
def record? (names : List String) (closed : Bool) : Json → Option Record
  | .object members =>
    if distinct names members && (!closed || members.all fun m => names.contains m.1) then
      some ⟨members, false⟩
    else none
  | .array items =>
    if items.length ≤ names.length then some ⟨names.zip items, true⟩ else none
  | _ => none

def Record.get? (r : Record) (name : String) : Option Json := r.given.lookup name

def Record.required {α : Type} (r : Record) (name : String) (read : Json → Option α) : Option α :=
  (r.get? name).bind read

def Record.defaulted {α : Type} (r : Record) (name : String) (fallback : α)
    (read : Json → Option α) : Option α :=
  match r.get? name with
  | some j => read j
  | none => some fallback

/-- Read a value for which `null` stands for absence. -/
def nullable {α : Type} (read : Json → Option α) : Json → Option (Option α)
  | .null => some none
  | j => (read j).map some

/-- Read a field that may be `null`, and may be left out where fields are named. -/
def Record.optional {α : Type} (r : Record) (name : String) (read : Json → Option α) :
    Option (Option α) :=
  match r.get? name with
  | some j => nullable read j
  | none => if r.positional then none else some none

def natUpTo? (limit : Nat) : Json → Option Nat
  | .int n => if 0 ≤ n && n ≤ limit then some n.toNat else none
  | _ => none

def text? : Json → Option String
  | .text s => some s
  | _ => none

def bool? : Json → Option Bool
  | .bool b => some b
  | _ => none

def array? {α : Type} (read : Json → Option α) : Json → Option (List α)
  | .array items => items.mapM read
  | _ => none

def value? (j : Json) : Option Json := if j.isReadable then some j.canonical else none

end ZoneSigning.Json
