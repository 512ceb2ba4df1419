import ZoneSigning.Text.Blank

/-!
The language of commands: one verb, in any case, and for some verbs the name of a zone.
-/
namespace ZoneSigning

inductive Command where
  | help
  | zones
  | queue
  | flush (zone : Option String)
  | sign (zone : String)
  | reload
  | stop
  | stats
deriving DecidableEq, Repr, Inhabited

namespace Command

/-- What can be wrong with a line. -/
inductive Fault where
  | extraWord (word : String)
  | noZone
  | empty
  | needlessWord (verb word : String)
  | unknown (verb : String)
deriving DecidableEq, Repr

def Fault.message : Fault → String
  | extraWord word => s!"unexpected argument `{word}`"
  | noZone => "sign requires a zone name"
  | empty => "empty command"
  | needlessWord verb word => s!"`{verb}` takes no argument, got `{word}`"
  | unknown verb => s!"unknown command `{verb}`"

def usage : List String := [
  "help              show this text",
  "zones             list known zones",
  "queue             list scheduled and running tasks",
  "flush [<zone>]    run a zone's task now, or every task",
  "sign <zone>       re-read and re-sign a zone now",
  "reload            re-read the zone list",
  "stop              stop the engine",
  "stats             show engine statistics"]

def startsUsage (s : String) : Bool := usage.any fun line => s.toList.isPrefixOf line.toList

def ofWords (verb : String) (word : Option String) : Except Fault Command :=
  match verb, word with
  | "help", none => .ok help
  | "zones", none => .ok zones
  | "queue", none => .ok queue
  | "flush", zone => .ok (flush zone)
  | "sign", some zone => .ok (sign zone)
  | "sign", none => .error .noZone
  | "reload", none => .ok reload
  | "stop", none => .ok stop
  | "stats", none => .ok stats
  | "", _ => .error .empty
  | verb, some word =>
    .error (if startsUsage verb then .needlessWord verb word else .unknown verb)
  | verb, none => .error (.unknown verb)

def parse (line : String) : Except Fault Command :=
  match Text.words line with
  | [] => .error .empty
  | [verb] => ofWords (Text.lower verb) none
  | [verb, word] => ofWords (Text.lower verb) (some word)
  | _ :: _ :: extra :: _ => .error (.extraWord extra)

def verb : Command → String
  | help => "help"
  | zones => "zones"
  | queue => "queue"
  | flush _ => "flush"
  | sign _ => "sign"
  | reload => "reload"
  | stop => "stop"
  | stats => "stats"

def zone? : Command → Option String
  | flush zone => zone
  | sign zone => some zone
  | _ => none

def text (c : Command) : String :=
  match c.zone? with
  | some zone => c.verb ++ " " ++ zone
  | none => c.verb

end Command

end ZoneSigning
