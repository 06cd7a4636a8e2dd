/-! Readers take something off the front of a text or fail; on failure another reader may try the
same text. -/
namespace LockManager.Toml

abbrev Reader := StateT (List Char) Option

namespace Reader

variable {α β : Type}

def satisfy (allowed : Char → Bool) : Reader Char
  | c :: rest => if allowed c then some (c, rest) else none
  | [] => none

def char (expected : Char) : Reader Unit
  | c :: rest => if c = expected then some ((), rest) else none
  | [] => none

def literal : List Char → Reader Unit
  | [] => pure ()
  | c :: more => do
      char c
      literal more

def takeWhile (allowed : Char → Bool) : Reader (List Char) := fun input =>
  some (input.takeWhile allowed, input.dropWhile allowed)

def takeWhile1 (allowed : Char → Bool) : Reader (List Char) := do
  return (← satisfy allowed) :: (← takeWhile allowed)

def finish : Reader Unit
  | [] => some ((), [])
  | _ => none

def option (reader : Reader α) : Reader (Option α) := some <$> reader <|> pure none

/-- At most so many items. -/
def upTo : Nat → Reader α → Reader (List α)
  | 0, _ => pure []
  | count + 1, reader => do
      match ← option reader with
      | none => return []
      | some item => return item :: (← upTo count reader)

/-- As many items as there are; each of them has to take a character. -/
def many (reader : Reader α) : Reader (List α) := do
  match ← option reader with
  | none => return []
  | some item => return item :: (← upTo (← get).length reader)

/-- One or more items; a separator that no item follows is left alone. -/
def sepBy1 (item : Reader α) (separator : Reader β) : Reader (List α) := do
  return (← item) :: (← many (separator *> item))

/-- The text that a reader takes. -/
def written (reader : Reader α) : Reader (List Char) := fun input => do
  let (_, rest) ← reader input
  return (input.take (input.length - rest.length), rest)

/-- An exact number of characters of one class. -/
def exactly (count : Nat) (allowed : Char → Bool) : Reader (List Char) :=
  match count with
  | 0 => pure []
  | count + 1 => do return (← satisfy allowed) :: (← exactly count allowed)

end Reader

open Reader

def isBlank (c : Char) : Bool := c == ' ' || c == '\t'

/-- Printable, a tab, or outside ASCII: what comments and strings may hold. -/
def isVisible (c : Char) : Bool := c == '\t' || (0x20 ≤ c.toNat && c.toNat != 0x7F)

def blanks : Reader Unit := Functor.discard (takeWhile isBlank)

def newline : Reader Unit := char '\n' <|> literal ['\r', '\n']

def comment : Reader Unit := char '#' *> Functor.discard (takeWhile isVisible)

/-- Blanks and perhaps a comment, up to the end of the line. -/
def endOfLine : Reader Unit := blanks *> Functor.discard (option comment) *> (newline <|> finish)

/-- Blanks, comments and line ends, as arrays allow between their items. -/
def gap : Reader Unit :=
  Functor.discard (many (Functor.discard (satisfy isBlank) <|> newline <|> comment))

end LockManager.Toml
