import LockManager.Rejection
import LockManager.TextError

/-! Failures as callers see them: a kind with a stable code, and a detail in words. -/
namespace LockManager

/-- The part of the library a failure comes from. -/
inductive Domain
  | types
  | concurrency
  | config
  deriving DecidableEq, Repr

namespace Domain

def all : List Domain := [types, concurrency, config]

def text : Domain → String
  | types => "types"
  | concurrency => "concurrency"
  | config => "config"

/-- The spelling that encoded reports use. -/
def name : Domain → String
  | types => "Types"
  | concurrency => "Concurrency"
  | config => "Config"

end Domain

structure Code where
  number : UInt32
  deriving DecidableEq, Repr

/-- At least four digits. -/
def Code.text (code : Code) : String :=
  let digits := toString code.number.toNat
  String.ofList (List.replicate (4 - digits.length) '0') ++ digits

inductive FaultKind
  | duplicateLock
  | noLockHeld
  | invalidLock
  | tableUnavailable
  | unreadableText
  | unreadableFile
  | malformedSettings
  | invalidSettings
  deriving DecidableEq, Repr

namespace FaultKind

def domain : FaultKind → Domain
  | duplicateLock | noLockHeld | invalidLock | tableUnavailable => .concurrency
  | unreadableText => .types
  | unreadableFile | malformedSettings | invalidSettings => .config

/-- Codes are unique; each domain has a block of its own. -/
def code : FaultKind → Code
  | unreadableText => ⟨2001⟩
  | duplicateLock => ⟨6001⟩
  | noLockHeld => ⟨6002⟩
  | invalidLock => ⟨6003⟩
  | tableUnavailable => ⟨6004⟩
  | unreadableFile => ⟨7001⟩
  | malformedSettings => ⟨7002⟩
  | invalidSettings => ⟨7003⟩

def heading : FaultKind → String
  | duplicateLock => "Duplicate lock request: "
  | noLockHeld => "No lock held: "
  | invalidLock => "Invalid lock: "
  | tableUnavailable => "Lock table unavailable: "
  | unreadableText => "Parse error: "
  | unreadableFile => "I/O error: "
  | malformedSettings => "Parse error: "
  | invalidSettings => "Invalid configuration: "

end FaultKind

structure Fault where
  kind : FaultKind
  detail : String
  deriving DecidableEq, Repr

namespace Fault

def message (fault : Fault) : String := fault.kind.heading ++ fault.detail

/-- No failure goes away by calling again. -/
def isTransient (_ : Fault) : Bool := false

end Fault

def TextError.fault (problem : TextError) : Fault := ⟨.unreadableText, problem.message⟩

def Rejection.kind : Rejection → FaultKind
  | alreadyHolds .. | alreadyInMode .. => .duplicateLock
  | notHeld .. | listedTwice .. => .noLockHeld
  | notStronger .. => .invalidLock
  | tableDropped .. => .tableUnavailable

def Rejection.fault (rejection : Rejection) : Fault := ⟨rejection.kind, rejection.message⟩

end LockManager
