import ZoneSigning.Inventory

/-!
The list of zones, and bringing it up to date with the inventory. A zone that both know keeps its
record and takes over what the inventory says; a zone that only the list knows is marked as removed,
and stays until its task is gone; a zone that only the inventory knows is added.
-/
namespace ZoneSigning

structure MergeCounts where
  added : Nat := 0
  updated : Nat := 0
  removed : Nat := 0
deriving DecidableEq, Repr, Inhabited

/-- What bringing the list up to date comes to. -/
inductive ZoneListUpdate where
  | unchanged
  | merged (counts : MergeCounts)
deriving DecidableEq, Repr

/-- The zones, by their keys. -/
structure ZoneList where
  zones : OrderedMap ZoneKey Zone := ∅
  /-- When the inventory that was merged last had been modified. -/
  modified : Option FileTime := none
  /-- What the last reconciliation has done. -/
  counts : MergeCounts := {}
  /-- How many records have been made. The next one gets this number. -/
  made : Nat := 0
deriving Inhabited

def ZoneEntry.toZone (e : ZoneEntry) (record : Nat) : Zone where
  key := e.key
  record := record
  state := {
    status := .added
    policy := e.policy
    configPath := e.configPath
    input := e.input
    output := e.output }

namespace Zone

def agrees (z fresh : Zone) : Bool :=
  z.state.policy == fresh.state.policy && z.state.configPath.agrees fresh.state.configPath &&
    z.state.input.agrees fresh.state.input && z.state.output.agrees fresh.state.output

def adopt (z fresh : Zone) : Zone :=
  { z with state := { z.state with
    policy := fresh.state.policy
    configPath := fresh.state.configPath
    input := fresh.state.input
    output := fresh.state.output } }

def isUpdatedBy (z fresh : Zone) : Bool := !z.agrees fresh || z.status == .removed

def reconcile (z fresh : Zone) : Zone :=
  let z' := if z.agrees fresh then z else z.adopt fresh
  if z.isUpdatedBy fresh then z'.withStatus .updated else z'

end Zone

namespace ZoneList

/-- How many zones are listed, those included that wait for their eviction. -/
def size (l : ZoneList) : Nat := l.zones.size

def isEmpty (l : ZoneList) : Bool := l.zones.isEmpty

def all (l : ZoneList) : List Zone := l.zones.values

def get? (l : ZoneList) (key : ZoneKey) : Option Zone := l.zones.get? key

def put (l : ZoneList) (z : Zone) : ZoneList := { l with zones := l.zones.insert z.key z }

/-- The zone of this name, in the Internet class if there is one. -/
def find? (l : ZoneList) (name : String) : Option Zone :=
  match l.get? (.of name .internet) with
  | some z => some z
  | none => l.all.find? fun z => z.name == normalizeName name

/-- The list of the zones that entries describe, with records numbered from `made`. Of two entries
with one key the first one counts. -/
def ofEntries (made : Nat) (entries : List ZoneEntry) : ZoneList :=
  entries.foldl
    (fun l e =>
      let next := { l with made := l.made + 1 }
      if l.zones.contains e.key then next
      else
        { next with
          zones := l.zones.insert e.key (e.toZone l.made)
          counts := { l.counts with added := l.counts.added + 1 } })
    { made := made }

/-- What becomes of a listed zone. -/
def keep (fresh : ZoneList) (key : ZoneKey) (z : Zone) : Zone :=
  match fresh.get? key with
  | some new => z.reconcile new
  | none => z.withStatus .removed

def admitted (l fresh : ZoneList) : List Zone :=
  fresh.all.filter fun z => !l.zones.contains z.key

def mergeCounts (l fresh : ZoneList) : MergeCounts where
  added := (l.admitted fresh).length
  updated := l.all.countP fun z => (fresh.get? z.key).any z.isUpdatedBy
  removed := l.all.countP fun z => (fresh.get? z.key).isNone && z.status != .removed

def merge (l fresh : ZoneList) : ZoneList where
  zones := (l.admitted fresh).foldl (fun zs z => zs.insert z.key (z.withStatus .added))
    (l.zones.mapValues fresh.keep)
  modified := l.modified
  counts := l.mergeCounts fresh
  made := fresh.made

/-- Bring the list up to date with the inventory at a path, unless that has not been modified. -/
def updateFrom (l : ZoneList) (files : FileStore) (path : Path) :
    Except ZoneListError (ZoneListUpdate × ZoneList) := do
  let time ← (files.modified path).mapError .file
  if l.modified.any (time ≤ ·) then return (.unchanged, l)
  let entries ← Inventory.read files path
  let l := l.merge (ofEntries l.made entries)
  return (.merged l.counts, { l with modified := some time })

def removed (l : ZoneList) : List Zone := l.all.filter (·.status == .removed)

def isEvictable (busy : Zone → Bool) (z : Zone) : Bool := z.status == .removed && !busy z

def evict (l : ZoneList) (busy : Zone → Bool) : List Zone × ZoneList :=
  (l.all.filter (isEvictable busy),
    { l with zones := l.zones.filter fun _ z => !isEvictable busy z })

/-- Note that the engine has acted on the zones that were added and updated. -/
def settle (l : ZoneList) : ZoneList :=
  { l with zones := l.zones.mapValues fun _ z => z.withStatus z.status.settled }

def takeCounts (l : ZoneList) : MergeCounts × ZoneList := (l.counts, { l with counts := {} })

/-- The list without its zones. Records made later still get new numbers. -/
def cleared (l : ZoneList) : ZoneList := { made := l.made }

end ZoneList

end ZoneSigning
