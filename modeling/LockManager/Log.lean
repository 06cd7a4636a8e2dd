import LockManager.Event

/-! The journal as lines of text, each with a level of severity. -/
namespace LockManager

inductive Level
  | warn
  | debug
  | trace
  deriving DecidableEq, Repr

namespace Level

def text : Level → String
  | warn => "WARN"
  | debug => "DEBUG"
  | trace => "TRACE"

def rank : Level → Nat
  | warn => 0
  | debug => 1
  | trace => 2

/-- A log kept at `threshold` has the lines of that level and of the more severe ones. -/
def shownAt (level threshold : Level) : Bool := level.rank ≤ threshold.rank

end Level

structure LogLine where
  level : Level
  message : String
  fields : List (String × String)
  deriving DecidableEq, Repr

namespace LogLine

def text (line : LogLine) : String :=
  line.level.text ++ " " ++ line.message ++
    String.join (line.fields.map fun field => " " ++ field.1 ++ "=" ++ field.2)

end LogLine

/-- The lines of one event. A queue that has grown to `longQueue` requests is worth a warning;
zero turns the warning off. What handles are told is not logged. -/
def Event.logLines (longQueue : Nat) : Event → List LogLine
  | conflict requested held =>
      [⟨.trace, "incompatible with active lock",
        [("requested", requested.text), ("conflicting", held.text)]⟩]
  | granted lock =>
      [⟨.debug, "lock granted", [("txn", lock.owner.text), ("resource", lock.resource.text),
        ("lock_type", lock.mode.text)]⟩]
  | replaced lock previous =>
      [⟨.debug, "lock replaced in place", [("txn", lock.owner.text),
        ("resource", lock.resource.text), ("from", previous.text), ("to", lock.mode.text)]⟩]
  | released lock =>
      [⟨.debug, "lock released", [("txn", lock.owner.text), ("resource", lock.resource.text),
        ("lock_type", lock.mode.text)]⟩]
  | queued request place length =>
      ⟨.debug, "request queued", [("txn", request.owner.text),
        ("resource", request.lock.resource.text), ("lock_type", request.lock.mode.text),
        ("position", place.text)]⟩ ::
      if 0 < longQueue ∧ longQueue ≤ length then
        [⟨.warn, "long lock queue", [("resource", request.lock.resource.text),
          ("queued", toString length)]⟩]
      else []
  | committed request =>
      [⟨.debug, "queued request granted", [("txn", request.owner.text),
        ("resource", request.lock.resource.text)]⟩]
  | staleRelease request lock =>
      [⟨.warn, "deferred release of a lock no longer held", [("txn", request.owner.text),
        ("resource", lock.resource.text)]⟩]
  | prepared _ | woken _ | suspended _ => []

/-- The log of a journal. -/
def Journal.log (journal : Journal) (longQueue : Nat) (threshold : Level) : List LogLine :=
  (journal.flatMap (Event.logLines longQueue)).filter fun line => line.level.shownAt threshold

end LockManager
