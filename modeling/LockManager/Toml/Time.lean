import LockManager.Toml.Text

/-! Dates and times. Each part has its range; the days of a month are not counted. -/
namespace LockManager.Toml
open Reader

def twoDigits (low high : Nat) : Reader Unit := do
  let value := numeral 10 (← exactly 2 Char.isDigit)
  if low ≤ value ∧ value ≤ high then return () else failure

def date : Reader Unit := do
  let _ ← exactly 4 Char.isDigit
  char '-'
  twoDigits 1 12
  char '-'
  twoDigits 1 31

/-- Leap seconds are allowed. -/
def timeOfDay : Reader Unit := do
  twoDigits 0 23
  char ':'
  twoDigits 0 59
  char ':'
  twoDigits 0 60
  Functor.discard (option (char '.' *> takeWhile1 Char.isDigit))

def offset : Reader Unit :=
  Functor.discard (satisfy fun c => c == 'Z' || c == 'z') <|> do
    let _ ← satisfy fun c => c == '+' || c == '-'
    twoDigits 0 23
    char ':'
    twoDigits 0 59

def time : Reader Unit :=
  (do
    date
    let _ ← option do
      let _ ← satisfy fun c => c == 'T' || c == 't' || c == ' '
      timeOfDay
      Functor.discard (option offset)) <|>
  timeOfDay

end LockManager.Toml
