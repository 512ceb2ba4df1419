import ZoneSigning.EngineConfig

/-!
The options of the command line. An option has its value behind it, in the next word or after an
equals sign, and is given at most once.
-/
namespace ZoneSigning

/-- What the command line asks for. -/
structure Options where
  config : Option Path := none
  workers : Option Nat := none
  drudgers : Option Nat := none
deriving DecidableEq, Repr, Inhabited

namespace Options

/-- The names of the options. -/
inductive Name where
  | config
  | workers
  | drudgers
deriving DecidableEq, Repr

def Name.text : Name → String
  | config => "--config"
  | workers => "--workers"
  | drudgers => "--drudgers"

def Name.parse? : String → Option Name
  | "-c" | "--config" => some config
  | "--workers" => some workers
  | "--drudgers" => some drudgers
  | _ => none

/-- What can be wrong with a command line. -/
inductive Fault where
  | unknown (word : String)
  | repeated (name : Name)
  | noValue (name : Name)
  | badNumber (name : Name) (value : String)
deriving DecidableEq, Repr

def Fault.message : Fault → String
  | unknown word => s!"unexpected argument `{word}`"
  | repeated name => s!"{name.text} is given more than once"
  | noValue name => s!"{name.text} requires a value"
  | badNumber name value => s!"{name.text}: `{value}` is not a number"

/-- The name and the value in a word with an equals sign; any other word is all name. -/
def splitWord (word : String) : String × Option String :=
  let cs := word.toList
  match cs.dropWhile (· != '=') with
  | _ :: value => (String.ofList (cs.takeWhile (· != '=')), some (String.ofList value))
  | [] => (word, none)

def number (name : Name) (value : String) : Except Fault Nat :=
  match Text.readNumeral Text.maxLong value.toList with
  | some n => .ok n
  | none => .error (.badNumber name value)

def set (o : Options) (name : Name) (value : String) : Except Fault Options :=
  match name with
  | .config =>
    if o.config.isSome then .error (.repeated name) else .ok { o with config := some ⟨value⟩ }
  | .workers =>
    if o.workers.isSome then .error (.repeated name)
    else (number name value).map fun n => { o with workers := some n }
  | .drudgers =>
    if o.drudgers.isSome then .error (.repeated name)
    else (number name value).map fun n => { o with drudgers := some n }

def read (o : Options) : List String → Except Fault Options
  | [] => .ok o
  | [word] =>
    match splitWord word with
    | (name, value) =>
      match Name.parse? name, value with
      | none, _ => .error (.unknown word)
      | some name, some value => o.set name value
      | some name, none => .error (.noValue name)
  | word :: next :: rest =>
    match splitWord word with
    | (name, value) =>
      match Name.parse? name, value with
      | none, _ => .error (.unknown word)
      | some name, some value => (o.set name value).bind (read · (next :: rest))
      | some name, none => (o.set name next).bind (read · rest)

def parse (words : List String) : Except Fault Options := read {} words

def applyTo (o : Options) (c : EngineConfig) : EngineConfig :=
  { c with
    workers := o.workers.or c.workers
    drudgers := o.drudgers.getD c.drudgers }

end Options

end ZoneSigning
