import LockManager.Settings
import LockManager.Toml.Document

/-! Settings from a document. Fields that are left out have their defaults, and other fields do not
matter. The values are checked once the document as a whole has been read. -/
namespace LockManager.Settings

def ofTomlFields? (fields : Toml.Fields) : Option Settings := do
  let rootName ← match fields.lookup "root_name" with
    | none => some ({} : Settings).rootName
    | some (.leaf (.text name)) => some name
    | some _ => none
  let longQueue ← match fields.lookup "queue_warning_threshold" with
    | none => some ({} : Settings).longQueue
    | some (.leaf (.integer (.ofNat length))) => some length
    | some _ => none
  return { rootName, longQueue }

def ofToml (text : String) : Except SettingsError Settings :=
  match Toml.parse? text >>= ofTomlFields? with
  | none => .error .malformed
  | some settings => settings.check.map fun _ => settings

/-- The settings in a file; without content there is no such file. -/
def ofFile (content? : Option ByteArray) : Except SettingsError Settings :=
  match content? >>= String.fromUTF8? with
  | none => .error .unreadable
  | some text => ofToml text

end LockManager.Settings
