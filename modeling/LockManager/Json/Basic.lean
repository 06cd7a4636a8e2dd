/-! Values of the data format that locks, snapshots, settings and reports are exchanged in. -/
namespace LockManager

/-- Integers are exact; any other number is kept as written, since nothing here computes with it. -/
inductive Json
  | null
  | truth (value : Bool)
  | integer (value : Int)
  | number (written : String)
  | text (value : String)
  | list (items : List Json)
  | object (fields : List (String × Json))

namespace Json

/-- A non-negative integer below the bound. -/
def natBelow? (bound : Nat) : Json → Option Nat
  | .integer (.ofNat value) => if value < bound then some value else none
  | _ => none

def text? : Json → Option String
  | .text value => some value
  | _ => none

def list? : Json → Option (List Json)
  | .list items => some items
  | _ => none

/-- A list whose items all have the form that `item?` reads. -/
def listOf? {α : Type} (item? : Json → Option α) (json : Json) : Option (List α) :=
  json.list? >>= List.mapM item?

/-- A plain choice is its name; an object with that name as its only key and null beside it
says the same. -/
def choice? : Json → Option String
  | .text name => some name
  | .object [(name, .null)] => some name
  | _ => none

def ofNat (value : Nat) : Json := .integer value

end Json
end LockManager
