import ZoneSigning.StepError

/-!
Signing jobs, and a signer that counts what it signs.
-/
namespace ZoneSigning

/-- One name to be signed. -/
structure SignJob where
  zone : String
  owner : String
  serial : Nat
  validitySecs : Nat
deriving DecidableEq, Repr, Inhabited

/-- How many signatures have been made, in all and for each zone. -/
structure SignatureCount where
  total : Nat := 0
  perZone : OrderedMap String Nat := ∅
deriving Inhabited

namespace SignatureCount

def ofZone (c : SignatureCount) (zone : String) : Nat := (c.perZone.get? zone).getD 0

def sign (c : SignatureCount) (job : SignJob) : Except SignerFault Unit × SignatureCount :=
  if job.validitySecs = 0 then (.error (.zeroValidity job.owner), c)
  else
    (.ok (), { total := c.total + 1, perZone := c.perZone.insert job.zone (c.ofZone job.zone + 1) })

end SignatureCount

/-- How many jobs a worker has handed over, and how many have come back. -/
structure JobTally where
  appointed : Nat := 0
  completed : Nat := 0
  failed : Nat := 0
deriving DecidableEq, Repr, Inhabited

namespace JobTally

def isOutstanding (t : JobTally) : Bool := t.completed + t.failed < t.appointed

def report (t : JobTally) (signed : Bool) : JobTally :=
  if signed then { t with completed := t.completed + 1 } else { t with failed := t.failed + 1 }

end JobTally

end ZoneSigning
