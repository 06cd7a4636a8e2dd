import LockManager.Json.Basic
import LockManager.Settings

/-! Settings as JSON. Every field may be left out, but none may be null. -/
namespace LockManager.Settings

def toJson (settings : Settings) : Json :=
  .object [("root_name", .text settings.rootName),
    ("queue_warning_threshold", .ofNat settings.longQueue)]

def ofJsonFields? (rootName? longQueue? : Option Json) : Option Settings := do
  let rootName ← match rootName? with
    | none => some ({} : Settings).rootName
    | some json => json.text?
  let longQueue ← match longQueue? with
    | none => some ({} : Settings).longQueue
    | some json => json.natBelow? UInt64.size
  return { rootName, longQueue }

/-- The values are not checked yet. -/
def ofJson? : Json → Option Settings
  | .object fields =>
      ofJsonFields? (fields.lookup "root_name") (fields.lookup "queue_warning_threshold")
  | .list [] => ofJsonFields? none none
  | .list [rootName] => ofJsonFields? (some rootName) none
  | .list [rootName, longQueue] => ofJsonFields? (some rootName) (some longQueue)
  | _ => none

end LockManager.Settings
