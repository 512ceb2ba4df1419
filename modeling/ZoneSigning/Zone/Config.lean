import ZoneSigning.Json.Reader
import ZoneSigning.Json.Record
import ZoneSigning.StepError

/-!
Signing configurations: their documents, and loading them when their file has been modified.
-/
namespace ZoneSigning

namespace SigningKey

def ofJson? (j : Json) : Option SigningKey := do
  let r ← j.record? ["locator", "algorithm", "flags"] false
  return {
    locator := ← r.required "locator" Json.text?
    algorithm := ← r.required "algorithm" (Json.natUpTo? Text.maxByte)
    flags := ← r.defaulted "flags" 256 (Json.natUpTo? Text.maxHalf) }

def toJson (k : SigningKey) : Json :=
  .object [("locator", .text k.locator), ("algorithm", .nat k.algorithm), ("flags", .nat k.flags)]

end SigningKey

namespace SigningConfig

def ofJson? (j : Json) : Option SigningConfig := do
  let r ← j.record? ["resign_secs", "validity_secs", "keys"] false
  let fallback : SigningConfig := {}
  let seconds := Json.natUpTo? Text.maxLong
  return {
    resignSecs := ← r.defaulted "resign_secs" fallback.resignSecs seconds
    validitySecs := ← r.defaulted "validity_secs" fallback.validitySecs seconds
    keys := ← r.defaulted "keys" [] (Json.array? SigningKey.ofJson?) }

def toJson (c : SigningConfig) : Json :=
  .object [
    ("resign_secs", .nat c.resignSecs),
    ("validity_secs", .nat c.validitySecs),
    ("keys", .array (c.keys.map SigningKey.toJson))]

/-- Read a configuration from the text of the file at `path`. A zone is signed again after some
time, and before its signatures expire. -/
def read (path : Path) (text : String) : Except ConfigFault SigningConfig := do
  match (Json.parse? text).bind ofJson? with
  | none => throw (.document path)
  | some c =>
    if c.resignSecs = 0 then throw (.zeroResign path)
    if c.validitySecs < c.resignSecs then throw (.shortValidity path)
    return c

end SigningConfig

/-- What loading a configuration gives. -/
inductive ConfigStatus where
  | unchanged
  | reloaded (config : SigningConfig)
deriving DecidableEq, Repr

/-- Load a zone's signing configuration, unless its file has not been modified since. -/
def ZoneState.loadConfig (s : ZoneState) (zone : ZoneKey) (files : FileStore) :
    Except ConfigFault ConfigStatus := do
  let path := s.configPath
  if path.isEmpty then throw (.noPath zone.name)
  let time ← (files.modified path).mapError (.file path)
  if let some last := s.config.bind (·.modified) then
    if time ≤ last then return .unchanged
  let text ← (files.readText path).mapError (.file path)
  let config ← SigningConfig.read path text
  return .reloaded { config with modified := some time }

end ZoneSigning
