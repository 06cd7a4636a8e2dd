import LockManager.Toml.Text

/-! Integers and floats. Single underscores may stand between digits. -/
namespace LockManager.Toml
open Reader

/-- Digits of one class; the underscores between them are dropped. -/
def digits (isDigit : Char → Bool) : Reader (List Char) := do
  let groups := (← takeWhile fun c => isDigit c || c == '_').splitOn '_'
  if groups.any List.isEmpty then failure else return groups.flatten

def sign : Reader Bool := do
  match ← option (satisfy fun c => c == '+' || c == '-') with
  | some '-' => return true
  | _ => return false

/-- A decimal number without leading zeros: whether it is negative, and its digits. -/
def decimal : Reader (Bool × List Char) := do
  let negative ← sign
  match ← option (char '0') with
  | some () => return (negative, ['0'])
  | none => return (negative, ← digits Char.isDigit)

/-- Integers have 64 bits. -/
def bounded (value : Int) : Reader Int :=
  if Int64.minValue.toInt ≤ value ∧ value ≤ Int64.maxValue.toInt then return value else failure

def radixInteger (mark : Char) (base : Nat) (isDigit : Char → Bool) : Reader Int := do
  literal ['0', mark]
  bounded (numeral base (← digits isDigit))

def decimalInteger : Reader Int := do
  let (negative, digits) ← decimal
  let value : Int := numeral 10 digits
  bounded (if negative then -value else value)

def integer : Reader Int :=
  radixInteger 'x' 16 isHex <|> radixInteger 'o' 8 (fun c => '0' ≤ c && c ≤ '7') <|>
    radixInteger 'b' 2 (fun c => c == '0' || c == '1') <|> decimalInteger

/-- Whether `mantissa` times ten to the `exponent` rounds to a double beyond the largest one. The
number of digits decides unless it is close. -/
def exceedsDouble (mantissa : Nat) (exponent : Int) : Bool :=
  let magnitude := (Nat.repr mantissa).length + exponent
  if mantissa = 0 ∨ magnitude < 309 then false
  else if 309 < magnitude then true
  else
    let limit := Nat.pow 2 1024 - Nat.pow 2 970
    if exponent < 0 then limit * Nat.pow 10 exponent.natAbs ≤ mantissa
    else limit ≤ mantissa * Nat.pow 10 exponent.natAbs

def exponent : Reader Int := do
  let _ ← satisfy fun c => c == 'e' || c == 'E'
  let negative ← sign
  let value : Int := numeral 10 (← digits Char.isDigit)
  return if negative then -value else value

def fraction : Reader (List Char) := char '.' *> digits Char.isDigit

/-- A number with a fraction or an exponent. Its value is only looked at to refuse positive numbers
that are too large. -/
def float : Reader Unit := do
  let (negative, whole) ← decimal
  let fraction ← option fraction
  let exponent ← if fraction.isNone then some <$> exponent else option exponent
  let places := fraction.getD []
  let mantissa := numeral 10 (whole ++ places)
  if !negative && exceedsDouble mantissa (exponent.getD 0 - places.length) then failure

/-- Infinity and not-a-number, signed or not. -/
def specialFloat : Reader Unit := do
  let _ ← sign
  literal "inf".toList <|> literal "nan".toList

end LockManager.Toml
