import RToJulia.Text.Bytes

/-!
# Timestamps

A scalar that writes a date of the calendar, alone or with a time of day.  The
time follows a letter `T` and ends with a zone, or follows blanks and has none.
-/

namespace RToJulia.Yaml

open Text

def shortNumber? : Bytes → Option (Nat × Bytes)
  | a :: b :: rest =>
      if !isDigitByte a then none
      else if isDigitByte b then some (digitsValue [a, b], rest)
      else some (digitsValue [a], b :: rest)
  | [a] => if isDigitByte a then some (digitsValue [a], []) else none
  | [] => none

def after? (b : UInt8) : Bytes → Option Bytes
  | c :: rest => if c = b then some rest else none
  | [] => none

def isLeapYear (year : Nat) : Bool :=
  year % 4 = 0 && (year % 100 ≠ 0 || year % 400 = 0)

def daysOf (year month : Nat) : Nat :=
  if month = 2 then (if isLeapYear year then 29 else 28)
  else if month = 4 || month = 6 || month = 9 || month = 11 then 30
  else 31

def afterDate? (s : Bytes) : Option Bytes := do
  let (year, s) := s.span isDigitByte
  if year.length ≠ 4 then none
  else
    let (month, s) ← shortNumber? (← after? 0x2d s)
    let (day, s) ← shortNumber? (← after? 0x2d s)
    if 1 ≤ month && month ≤ 12 && 1 ≤ day && day ≤ daysOf (digitsValue year) month then some s
    else none

def afterFraction : Bytes → Bytes
  | mark :: d :: rest =>
      if (mark = 0x2e || mark = 0x2c) && isDigitByte d then rest.dropWhile isDigitByte
      else mark :: d :: rest
  | s => s

def afterTime? (s : Bytes) : Option Bytes := do
  let (hour, s) ← shortNumber? s
  let (minute, s) ← shortNumber? (← after? 0x3a s)
  let (second, s) ← shortNumber? (← after? 0x3a s)
  if hour < 24 && minute < 60 && second < 60 then some (afterFraction s) else none

/-- Whether a text is a zone: the letter `Z`, or a signed offset of hours and minutes. -/
def isZone : Bytes → Bool
  | [0x5a] => true
  | [sign, a, b, 0x3a, c, d] =>
      (sign = 0x2b || sign = 0x2d) && [a, b, c, d].all isDigitByte &&
        digitsValue [a, b] ≤ 24 && digitsValue [c, d] ≤ 60
  | _ => false

def isTimestamp (s : Bytes) : Bool :=
  match afterDate? s with
  | none => false
  | some [] => true
  | some (b :: rest) =>
      if b = 0x54 || b = 0x74 then ((afterTime? rest).map isZone).getD false
      else if b = 0x20 then afterTime? (rest.dropWhile (· == 0x20)) = some []
      else false

end RToJulia.Yaml
