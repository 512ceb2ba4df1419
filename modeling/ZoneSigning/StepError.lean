import ZoneSigning.Failure
import ZoneSigning.FileStore
import ZoneSigning.Zone.Text

/-!
Why a step fails.
-/
namespace ZoneSigning

/-- What goes wrong between a zone and its files. -/
inductive AdapterFault where
  | unsupportedKind (kind : String)
  | emptyPath
  | file (path : Path) (error : FileError)
  | zoneText (error : ZoneText.ReadError)
  | noApex (path : Path)
  | notRead
  | refused (reason : String)
deriving DecidableEq, Repr

/-- What goes wrong with a signing configuration. -/
inductive ConfigFault where
  | noPath (zone : String)
  | file (path : Path) (error : FileError)
  | document (path : Path)
  | zeroResign (path : Path)
  | shortValidity (path : Path)
  | noneLoaded
  | refused (reason : String)
deriving DecidableEq, Repr

/-- What goes wrong with signatures. -/
inductive SignerFault where
  | zeroValidity (owner : String)
  | someFailed (failed appointed : Nat)
  | refused (reason : String)
deriving DecidableEq, Repr

/-- Why a step fails. -/
inductive StepError where
  | adapter (fault : AdapterFault)
  | config (fault : ConfigFault)
  | signer (fault : SignerFault)
  | shutdown
deriving DecidableEq, Repr

def AdapterFault.message : AdapterFault → String
  | unsupportedKind kind => s!"unsupported adapter kind `{kind}`"
  | emptyPath => "adapter path is empty"
  | file path e => s!"{path.text}: {e.message}"
  | zoneText e => e.message
  | noApex path => s!"{path.text}: no records at the apex"
  | notRead => "nothing to write, zone not read yet"
  | refused reason => reason

def ConfigFault.message : ConfigFault → String
  | noPath zone => s!"zone {zone} has no signer configuration path"
  | file path e => s!"{path.text}: {e.message}"
  | document path => s!"{path.text}: invalid document"
  | zeroResign path => s!"{path.text}: resign_secs must be greater than 0"
  | shortValidity path => s!"{path.text}: validity_secs must not be shorter than resign_secs"
  | noneLoaded => "no signer configuration loaded"
  | refused reason => reason

def SignerFault.message : SignerFault → String
  | zeroValidity owner => s!"{owner}: zero signature validity"
  | someFailed failed appointed => s!"{failed} of {appointed} signatures failed"
  | refused reason => reason

namespace StepError

def failure : StepError → Failure
  | adapter _ => .adapter
  | config _ => .signingConfig
  | signer _ => .signer
  | shutdown => .shutdown

def detail : StepError → String
  | adapter fault => fault.message
  | config fault => fault.message
  | signer fault => fault.message
  | shutdown => ""

def message (e : StepError) : String := e.failure.describe e.detail

end StepError

end ZoneSigning
