import LockManager.Json.Basic
import LockManager.Snapshot

/-! Locks, waiting requests and snapshots as JSON. A record is written as an object and read from
an object, whose other fields do not matter, or from a list of its fields in order. -/
namespace LockManager

def Mode.toJson (mode : Mode) : Json := .text mode.text

def Mode.ofJson? (json : Json) : Option Mode := json.choice? >>= Mode.ofText?

def Resource.toJson (resource : Resource) : Json := .text resource.text

def Resource.ofJson? (json : Json) : Option Resource :=
  json.text? >>= fun path => (Resource.parse path).toOption

def Txn.toJson (txn : Txn) : Json := .ofNat txn.id.toNat

def Txn.ofJson? (json : Json) : Option Txn :=
  (json.natBelow? UInt64.size).map fun number => ⟨.ofNat number⟩

namespace Lock

def toJson (lock : Lock) : Json :=
  .object [("name", lock.resource.toJson), ("lock_type", lock.mode.toJson),
    ("transaction", lock.owner.toJson)]

def ofFields? (resource mode owner : Json) : Option Lock :=
  return ⟨← Resource.ofJson? resource, ← Mode.ofJson? mode, ← Txn.ofJson? owner⟩

def ofJson? : Json → Option Lock
  | .object fields => do
      ofFields? (← fields.lookup "name") (← fields.lookup "lock_type")
        (← fields.lookup "transaction")
  | .list [resource, mode, owner] => ofFields? resource mode owner
  | _ => none

end Lock

namespace Snapshot

namespace Waiting

/-- An empty list of releases is left out. -/
def toJson (waiting : Waiting) : Json :=
  .object (("lock", waiting.lock.toJson) ::
    if waiting.releases.isEmpty then []
    else [("release_on_grant", .list (waiting.releases.map Lock.toJson))])

def ofFields? (lock : Json) (releases? : Option Json) : Option Waiting := do
  let lock ← Lock.ofJson? lock
  match releases? with
  | none => return ⟨lock, []⟩
  | some releases => return ⟨lock, ← releases.listOf? Lock.ofJson?⟩

def ofJson? : Json → Option Waiting
  | .object fields => do ofFields? (← fields.lookup "lock") (fields.lookup "release_on_grant")
  | .list [lock] => ofFields? lock none
  | .list [lock, releases] => ofFields? lock (some releases)
  | _ => none

end Waiting

def toJson (snapshot : Snapshot) : Json :=
  .object [("name", snapshot.resource.toJson),
    ("active", .list (snapshot.active.map Lock.toJson)),
    ("queued", .list (snapshot.queued.map Waiting.toJson))]

def ofFields? (resource active queued : Json) : Option Snapshot :=
  return ⟨← Resource.ofJson? resource, ← active.listOf? Lock.ofJson?,
    ← queued.listOf? Waiting.ofJson?⟩

def ofJson? : Json → Option Snapshot
  | .object fields => do
      ofFields? (← fields.lookup "name") (← fields.lookup "active") (← fields.lookup "queued")
  | .list [resource, active, queued] => ofFields? resource active queued
  | _ => none

end Snapshot
end LockManager
