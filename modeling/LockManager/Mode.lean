/-! Multigranularity lock modes: which modes may be held side by side by different transactions,
and which mode permits everything another one does. -/
namespace LockManager

inductive Mode
  | noLock
  | intentShared
  | intentExclusive
  | shared
  | sharedIntentExclusive
  | exclusive
  deriving DecidableEq, Repr

namespace Mode

/-- Weakest first. -/
def all : List Mode :=
  [noLock, intentShared, intentExclusive, shared, sharedIntentExclusive, exclusive]

instance : Inhabited Mode := ⟨noLock⟩

/-- The modes that another transaction may hold beside this one. -/
def admitted : Mode → List Mode
  | noLock => all
  | intentShared => [noLock, intentShared, intentExclusive, shared, sharedIntentExclusive]
  | intentExclusive => [noLock, intentShared, intentExclusive]
  | shared => [noLock, intentShared, shared]
  | sharedIntentExclusive => [noLock, intentShared]
  | exclusive => [noLock]

/-- The modes whose permissions this one includes. -/
def included : Mode → List Mode
  | noLock => [noLock]
  | intentShared => [noLock, intentShared]
  | intentExclusive => [noLock, intentShared, intentExclusive]
  | shared => [noLock, intentShared, shared]
  | sharedIntentExclusive =>
      [noLock, intentShared, intentExclusive, shared, sharedIntentExclusive]
  | exclusive => all

def compatible (a b : Mode) : Bool := b ∈ a.admitted

/-- A holder of `weaker` may be switched to `stronger`. -/
def covers (stronger weaker : Mode) : Bool := weaker ∈ stronger.included

def isIntent : Mode → Bool
  | intentShared | intentExclusive | sharedIntentExclusive => true
  | noLock | shared | exclusive => false

/-- The short name that log lines, snapshots and encodings use. -/
def text : Mode → String
  | noLock => "NL"
  | intentShared => "IS"
  | intentExclusive => "IX"
  | shared => "S"
  | sharedIntentExclusive => "SIX"
  | exclusive => "X"

/-- Reads a short name exactly as written. -/
def ofText? (text : String) : Option Mode := all.find? fun mode => mode.text == text

/-- Reads a short name in any ASCII case; blanks around it are not skipped. -/
def parse? (text : String) : Option Mode :=
  all.find? fun mode => mode.text.toList == text.toList.map Char.toUpper

theorem compatible_comm (a b : Mode) : a.compatible b = b.compatible a := by
  cases a <;> cases b <;> rfl

@[simp] theorem ofText?_text (mode : Mode) : ofText? mode.text = some mode := by
  cases mode <;> rfl

end Mode
end LockManager
