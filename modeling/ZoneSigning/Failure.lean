/-!
The kinds of failures, and how each of them is put into words around its detail.
-/
namespace ZoneSigning

inductive Failure where
  | duplicate
  | zoneBusy
  | notFound
  | closed
  | adapter
  | signingConfig
  | signer
  | shutdown
  | inventoryFile
  | inventoryText
  | config
  | setup
  | poolConfig
  | spawn (thread : String)
deriving DecidableEq, Repr

def Failure.describe (detail : String) : Failure → String
  | duplicate => s!"duplicate task: {detail}"
  | zoneBusy => s!"zone {detail} already has a task"
  | notFound => s!"task not found: {detail}"
  | closed => "hand-off queue is closed"
  | adapter => s!"adapter error: {detail}"
  | signingConfig => s!"signer configuration error: {detail}"
  | signer => s!"signer error: {detail}"
  | shutdown => "shutting down"
  | inventoryFile => s!"zone list I/O error: {detail}"
  | inventoryText => s!"zone list parse error: {detail}"
  | config => s!"configuration error: {detail}"
  | setup => s!"setup error: {detail}"
  | poolConfig => s!"invalid configuration: {detail}"
  | spawn thread => s!"failed to spawn {thread}: {detail}"

end ZoneSigning
