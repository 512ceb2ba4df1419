import ZoneSigning.Json.Printer
import ZoneSigning.Json.Record

/-!
The answer to a command, as a document: whether it succeeded, and a message or data. What is absent
is left out.
-/
namespace ZoneSigning

structure Response where
  ok : Bool
  message : Option String := none
  data : Option Json := none
deriving Repr, Inhabited, BEq

namespace Response

def success (message : String) : Response := { ok := true, message := some message }

/-- Success, with data. Objects in it have their members in key order. -/
def ofData (data : Json) : Response := { ok := true, data := some data.canonical }

def failure (message : String) : Response := { ok := false, message := some message }

def toJson (r : Response) : Json :=
  .object ([("ok", .bool r.ok)] ++ (r.message.map fun m => ("message", .text m)).toList ++
    (r.data.map fun d => ("data", d)).toList)

/-- Read the document of an answer. A member that is `null` is absent. -/
def ofJson? (j : Json) : Option Response := do
  let r ← j.record? ["ok", "message", "data"] false
  return {
    ok := ← r.required "ok" Json.bool?
    message := ← r.defaulted "message" none (Json.nullable Json.text?)
    data := ← r.defaulted "data" none (Json.nullable Json.value?) }

def line (r : Response) : String := r.toJson.compact ++ "\n"

end Response

end ZoneSigning
