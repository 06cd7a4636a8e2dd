import LockManager.Fault
import LockManager.Json.Basic

/-! Failures in the structured form that logs keep. -/
namespace LockManager

structure Report where
  code : Code
  domain : Domain
  message : String
  details? : Option Json := none

def Fault.report (fault : Fault) : Report :=
  { code := fault.kind.code, domain := fault.kind.domain, message := fault.message }

def Code.toJson (code : Code) : Json := .ofNat code.number.toNat

def Code.ofJson? (json : Json) : Option Code :=
  (json.natBelow? UInt32.size).map fun number => ⟨.ofNat number⟩

def Domain.toJson (domain : Domain) : Json := .text domain.name

def Domain.ofJson? (json : Json) : Option Domain :=
  json.choice? >>= fun name => Domain.all.find? fun domain => domain.name == name

namespace Report

/-- Missing details are left out. -/
def toJson (report : Report) : Json :=
  .object ([("code", report.code.toJson), ("domain", report.domain.toJson),
    ("message", .text report.message)] ++
    match report.details? with
    | none => []
    | some details => [("details", details)])

def ofFields? (code domain message : Json) (details? : Option Json) : Option Report := do
  let details? := match details? with
    | some .null => none
    | other => other
  return { code := ← Code.ofJson? code, domain := ← Domain.ofJson? domain,
           message := ← message.text?, details? }

/-- Only an object may leave the details out. -/
def ofJson? : Json → Option Report
  | .object fields => do
      ofFields? (← fields.lookup "code") (← fields.lookup "domain") (← fields.lookup "message")
        (fields.lookup "details")
  | .list [code, domain, message, details] => ofFields? code domain message (some details)
  | _ => none

end Report
end LockManager
