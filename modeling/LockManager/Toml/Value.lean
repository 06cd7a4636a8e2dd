import LockManager.Toml.Number
import LockManager.Toml.Time

/-! Values of a settings document. Floats and times are recognised, and kept as they are written. -/
namespace LockManager.Toml
open Reader

inductive Value
  | text (value : String)
  | integer (value : Int)
  | float (written : String)
  | truth (value : Bool)
  | time (written : String)
  | list (items : List Value)
  | table (fields : List (String × Value))

namespace Value

/-- Adds a field under a dotted path, making tables on the way. A field is given only once. -/
def addField (fields : List (String × Value)) (value : Value) :
    List String → Option (List (String × Value))
  | [] => none
  | [key] =>
      match fields.lookup key with
      | some _ => none
      | none => some (fields ++ [(key, value)])
  | key :: path =>
      match fields.lookup key with
      | none => do return fields ++ [(key, .table (← addField [] value path))]
      | some (.table inner) => do
          let inner ← addField inner value path
          return fields.map fun field => if field.1 == key then (key, .table inner) else field
      | some _ => none

def scalar : Reader Value :=
  text <$> string <|>
  literal "true".toList *> pure (truth true) <|>
  literal "false".toList *> pure (truth false) <|>
  (fun chars => time (String.ofList chars)) <$> written Toml.time <|>
  (fun chars => float (String.ofList chars)) <$> written (Toml.float <|> specialFloat) <|>
  integer <$> Toml.integer

/-- Items over several lines, with a comma after the last one or not. -/
def array (item : Reader Value) : Reader Value := do
  char '['
  let items? ← option (sepBy1 (gap *> item <* gap) (char ',') <* option (char ','))
  gap
  char ']'
  return .list (items?.getD [])

/-- Fields on one line, without a comma after the last one. -/
def inlineTable (item : Reader Value) : Reader Value := do
  char '\x7b'
  let fields? ← option (sepBy1 field (char ','))
  blanks
  char '\x7d'
  let fields ← StateT.lift ((fields?.getD []).foldlM
    (fun fields (path, value) => addField fields value path) [])
  return .table fields
where
  field : Reader (List String × Value) := do
    let path ← key
    char '='
    blanks
    let value ← item
    blanks
    return (path, value)

/-- Arrays and inline tables may be nested as deep as `levels` says. -/
def reader : (levels : Nat) → Reader Value
  | 0 => scalar
  | levels + 1 => scalar <|> array (reader levels) <|> inlineTable (reader levels)

end Value
end LockManager.Toml
