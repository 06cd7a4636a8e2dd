import LockManager.Toml.Reader

/-! The four forms of strings, and keys. -/
namespace LockManager.Toml
open Reader

def hexValue? (c : Char) : Option Nat :=
  if '0' ≤ c ∧ c ≤ '9' then some (c.toNat - '0'.toNat)
  else if 'a' ≤ c ∧ c ≤ 'f' then some (c.toNat - 'a'.toNat + 10)
  else if 'A' ≤ c ∧ c ≤ 'F' then some (c.toNat - 'A'.toNat + 10)
  else none

def isHex (c : Char) : Bool := (hexValue? c).isSome

/-- The value of digits in a base; characters that are no digits count as zero. -/
def numeral (base : Nat) (digits : List Char) : Nat :=
  digits.foldl (fun value c => value * base + (hexValue? c).getD 0) 0

/-- Only Unicode scalar values can be escaped. -/
def scalar? (value : Nat) : Option Char :=
  if valid : value.isValidChar then some (Char.ofNatAux value valid) else none

/-- What may follow a backslash. -/
def escaped : Reader Char := do
  match ← satisfy fun _ => true with
  | 'b' => return '\x08'
  | 'f' => return '\x0c'
  | 'n' => return '\n'
  | 'r' => return '\r'
  | 't' => return '\t'
  | '\\' => return '\\'
  | '"' => return '"'
  | 'u' => codePoint 4
  | 'U' => codePoint 8
  | _ => failure
where
  codePoint (digits : Nat) : Reader Char := do
    let digits ← exactly digits isHex
    StateT.lift (scalar? (numeral 16 digits))

def basicString : Reader String := do
  char '"'
  let content ← many (satisfy (fun c => isVisible c && c != '"' && c != '\\') <|>
    char '\\' *> escaped)
  char '"'
  return String.ofList content

def literalString : Reader String := do
  char '\''
  let content ← takeWhile fun c => isVisible c && c != '\''
  char '\''
  return String.ofList content

/-- Three quotes end a string over several lines. Up to two more in front of them belong to it. -/
def closing (quote : Char) : Reader (List Char) :=
  (do literal (List.replicate 5 quote); return [quote, quote]) <|>
  (do literal (List.replicate 4 quote); return [quote]) <|>
  (do literal (List.replicate 3 quote); return [])

/-- A quote that does not belong to the end of the string. -/
def innerQuote (quote : Char) : Reader (List Char) := fun input =>
  match closing quote input with
  | some _ => none
  | none => (do char quote; return [quote] : Reader (List Char)) input

def lineBreak : Reader (List Char) := newline *> pure ['\n']

/-- A backslash at the end of a line hides the line end and all blanks and line ends after it. -/
def joinedLines : Reader (List Char) := do
  char '\\'
  blanks
  newline
  let _ ← many (Functor.discard (satisfy isBlank) <|> newline)
  return []

/-- The line end right after the opening quotes does not count. -/
def longString (quote : Char) (content : Reader (List Char)) : Reader String := do
  literal (List.replicate 3 quote)
  let _ ← option newline
  let content ← many (content <|> lineBreak <|> innerQuote quote)
  return String.ofList (content.flatten ++ (← closing quote))

def longBasicString : Reader String :=
  longString '"'
    ((do return [← satisfy fun c => isVisible c && c != '"' && c != '\\']) <|> joinedLines <|>
      (do char '\\'; return [← escaped]))

def longLiteralString : Reader String :=
  longString '\'' (do return [← satisfy fun c => isVisible c && c != '\''])

def string : Reader String :=
  longBasicString <|> basicString <|> longLiteralString <|> literalString

def isBareKeyChar (c : Char) : Bool := c.isAlphanum || c == '_' || c == '-'

def simpleKey : Reader String :=
  basicString <|> literalString <|> (String.ofList <$> takeWhile1 isBareKeyChar)

/-- The parts of a dotted key, of which there may be fewer than 128. -/
def key : Reader (List String) := do
  let parts ← sepBy1 (blanks *> simpleKey <* blanks) (char '.')
  if parts.length < 128 then return parts else failure

end LockManager.Toml
