import LockManager.Fault

/-! Settings of a lock table: the name of its root context and the queue length that is worth a
warning. Every field has a default. -/
namespace LockManager

structure Settings where
  rootName : String := "database"
  /-- Zero turns the warning off. -/
  longQueue : Nat := 64
  deriving DecidableEq, Repr

inductive SettingsError
  /-- There is no such file, or its bytes are not UTF-8. -/
  | unreadable
  /-- The text is not a document with fields of the right types. -/
  | malformed
  | emptyRootName
  | separatorInRootName (name : String)
  deriving DecidableEq, Repr

namespace SettingsError

def kind : SettingsError → FaultKind
  | unreadable => .unreadableFile
  | malformed => .malformedSettings
  | emptyRootName | separatorInRootName _ => .invalidSettings

/-- The wording of a refused value; how an unreadable document is described is left open. -/
def message? : SettingsError → Option String
  | unreadable | malformed => none
  | emptyRootName => some "root_name must not be empty"
  | separatorInRootName name => some ("root_name '" ++ name ++ "' must not contain '/'")

end SettingsError

namespace Settings

/-- The root name has to be usable as one segment of a path. -/
def check (settings : Settings) : Except SettingsError Unit :=
  if settings.rootName.isEmpty then .error .emptyRootName
  else if settings.rootName.toList.any (· == separator) then
    .error (.separatorInRootName settings.rootName)
  else .ok ()

end Settings
end LockManager
