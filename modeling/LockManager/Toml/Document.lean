import LockManager.Toml.Value

/-! Documents: lines that give fields and headers that say which table the fields below belong to.
A table is given in one place only, and so is a field. -/
namespace LockManager.Toml
open Reader

inductive Statement
  | field (path : List String) (value : Value)
  | header (path : List String)
  /-- Starts the next table of a series. -/
  | seriesHeader (path : List String)

/-- How a table came about: by a header or as the whole document, by the header of a table inside
it, or by a dotted key. -/
inductive Origin
  | declared
  | implied
  | dotted
  deriving DecidableEq

inductive Node
  | leaf (value : Value)
  | table (origin : Origin) (fields : List (String × Node))
  /-- The tables of a series, the last one first. -/
  | series (tables : List (List (String × Node)))

abbrev Fields := List (String × Node)

namespace Fields

def put (fields : Fields) (key : String) (node : Node) : Fields :=
  if (fields.lookup key).isSome then
    fields.map fun field => if field.1 == key then (key, node) else field
  else fields ++ [(key, node)]

/-- Changes the table at the end of a path, making the tables on the way that are missing. In a
series the path leads to its last table. Dotted keys do not lead into declared tables. -/
def change (byKey : Bool) (edit : Origin → Fields → Option Fields) :
    List String → Origin → Fields → Option Fields
  | [], origin, fields => edit origin fields
  | key :: path, _, fields =>
      match fields.lookup key with
      | none => do
          let origin := if byKey then Origin.dotted else .implied
          return fields.put key (.table origin (← change byKey edit path origin []))
      | some (.leaf _) => none
      | some (.table origin inner) =>
          if byKey ∧ origin = .declared then none
          else do return fields.put key (.table origin (← change byKey edit path origin inner))
      | some (.series []) => none
      | some (.series (last :: earlier)) => do
          return fields.put key (.series ((← change byKey edit path .declared last) :: earlier))

/-- A plain key goes into the table of the header; a dotted key into a table made by dotted keys. -/
def addField (fields : Fields) (header path : List String) (value : Value) : Option Fields := do
  let key ← path.getLast?
  let inside := path.dropLast
  let add (origin : Origin) (fields : Fields) : Option Fields :=
    if decide (origin = .dotted) == inside.isEmpty || (fields.lookup key).isSome then none
    else some (fields.put key (.leaf value))
  change false (fun origin fields => change true add inside origin fields) header .declared fields

/-- A header declares a new table, or one that so far only tables inside it have implied. -/
def declare (fields : Fields) (path : List String) : Option Fields := do
  let key ← path.getLast?
  let declared (_ : Origin) (fields : Fields) : Option Fields :=
    match fields.lookup key with
    | none => some (fields.put key (.table .declared []))
    | some (.table .implied inner) => some (fields.put key (.table .declared inner))
    | some _ => none
  change false declared path.dropLast .declared fields

/-- Adds an empty table to a series. -/
def declareNext (fields : Fields) (path : List String) : Option Fields := do
  let key ← path.getLast?
  let added (_ : Origin) (fields : Fields) : Option Fields :=
    match fields.lookup key with
    | none => some (fields.put key (.series [[]]))
    | some (.series tables) => some (fields.put key (.series ([] :: tables)))
    | some _ => none
  change false added path.dropLast .declared fields

/-- The document that statements describe; `header` is the path of the table in effect. -/
def ofStatements (fields : Fields) (header : List String) : List Statement → Option Fields
  | [] => some fields
  | .field path value :: later => do
      ofStatements (← fields.addField header path value) header later
  | .header path :: later => do ofStatements (← fields.declare path) path later
  | .seriesHeader path :: later => do ofStatements (← fields.declareNext path) path later

end Fields

namespace Statement

/-- How deep arrays and inline tables may be nested in one value. -/
def nesting : Nat := 127

def reader : Reader Statement :=
  (do
    literal ['[', '[']
    let path ← key
    literal [']', ']']
    endOfLine
    return .seriesHeader path) <|>
  (do
    char '['
    let path ← key
    char ']'
    endOfLine
    return .header path) <|>
  (do
    let path ← key
    char '='
    blanks
    let value ← Value.reader nesting
    endOfLine
    return .field path value)

/-- A line with a statement, with a comment, or with nothing. -/
def line : Reader (Option Statement) :=
  blanks *> (Functor.mapConst none (comment *> (newline <|> finish)) <|>
    Functor.mapConst none newline <|> some <$> reader)

end Statement

/-- A byte order mark at the start of a document does not belong to it. -/
def documentReader : Reader (List Statement) := do
  let _ ← option (char '\ufeff')
  let lines ← many Statement.line
  blanks
  finish
  return lines.filterMap id

/-- The fields of a document, unless its text or its structure is at fault. -/
def parse? (text : String) : Option Fields := do
  let (statements, _) ← documentReader text.toList
  Fields.ofStatements [] [] statements

end LockManager.Toml
