import RToJulia.Text.Bytes

/-!
# Reading integers and truth words

Integers of 64 bits with a sign, either in decimal or in the base that their
first digits name.  The digits are read from the left, and the first thing wrong
decides the fault.
-/

namespace RToJulia.Text

inductive NumberFault where
  | malformed
  | outOfRange
  deriving DecidableEq, Repr

def NumberFault.message : NumberFault → Bytes
  | malformed => "invalid syntax"
  | outOfRange => "value out of range"

def digitValue? (b : UInt8) : Option Nat :=
  let l := lowerByte b
  if isDigitByte b then some (b.toNat - 0x30)
  else if 0x61 ≤ l && l ≤ 0x7a then some (l.toNat - 0x57)
  else none

/-- Read digits after those that gave `n`, within 64 bits. -/
def readDigits (base : Nat) : Nat → Bytes → Except NumberFault Nat
  | n, [] => .ok n
  | n, b :: rest =>
      match digitValue? b with
      | none => .error .malformed
      | some d =>
          if base ≤ d then .error .malformed
          else if Nat.pow 2 64 ≤ base * n + d then .error .outOfRange
          else readDigits base (base * n + d) rest

def hexValue? (width : Nat) (s : Bytes) : Option Nat :=
  let digits := s.take width
  if digits.length = width then (readDigits 16 0 digits).toOption else none

def withSign (magnitude : Bytes → Except NumberFault Nat) : Bytes → Except NumberFault Int
  | 0x2d :: s => do
      let n ← magnitude s
      if n ≤ Nat.pow 2 63 then .ok (-n) else .error .outOfRange
  | 0x2b :: s => positive s
  | s => positive s
where
  positive (s : Bytes) : Except NumberFault Int := do
    let n ← magnitude s
    if n < Nat.pow 2 63 then .ok n else .error .outOfRange

def readMagnitude (base : Nat) : Bytes → Except NumberFault Nat
  | [] => .error .malformed
  | s => readDigits base 0 s

def readInteger : Bytes → Except NumberFault Int :=
  withSign (readMagnitude 10)

/-- The base named at the front of a magnitude, and its digits.  A zero that names no
other base names eight. -/
def splitBase : Bytes → Nat × Bytes
  | 0x30 :: mark :: b :: rest =>
      let l := lowerByte mark
      if l = 0x62 then (2, b :: rest)
      else if l = 0x6f then (8, b :: rest)
      else if l = 0x78 then (16, b :: rest)
      else (8, mark :: b :: rest)
  | 0x30 :: rest => (8, rest)
  | s => (10, s)

/-- Whether every underscore stands between two digits; `after` tells whether the
byte before counts as a digit. -/
def separates (isDigit : UInt8 → Bool) : Bool → Bytes → Bool
  | _, [] => true
  | after, 0x5f :: rest =>
      after && (rest.head?.map isDigit).getD false && separates isDigit false rest
  | _, b :: rest => separates isDigit (isDigit b) rest

/-- Whether the underscores of a magnitude are digit separators; the name of a base counts
as a digit. -/
def isSeparated (s : Bytes) : Bool :=
  let hexadecimal (b : UInt8) := isDigitByte b || (0x61 ≤ lowerByte b && lowerByte b ≤ 0x66)
  match s with
  | 0x30 :: mark :: rest =>
      let l := lowerByte mark
      if l = 0x78 then separates hexadecimal true rest
      else if l = 0x62 || l = 0x6f then separates isDigitByte true rest
      else separates isDigitByte false s
  | _ => separates isDigitByte false s

def readBased : Bytes → Except NumberFault Nat
  | [] => .error .malformed
  | s => do
      let (base, digits) := splitBase s
      let n ← readDigits base 0 (digits.filter (· != 0x5f))
      if digits.contains 0x5f && !isSeparated s then .error .malformed else .ok n

def readBasedInteger : Bytes → Except NumberFault Int :=
  withSign readBased

def readTruth? (s : Bytes) : Option Bool :=
  let among (words : List String) := words.any fun w => utf8 w = s
  if among ["1", "t", "T", "TRUE", "true", "True"] then some true
  else if among ["0", "f", "F", "FALSE", "false", "False"] then some false
  else none

end RToJulia.Text
