import RToJulia.Decimal.Binary64

/-!
# Reading decimal numbers

A decimal text is an optional sign, digits with an optional point, and an
optional exponent.  Its value is exact; rounding it to a floating-point number is
a separate step that fails when the number is too large.
-/

namespace RToJulia.Decimal

open Text

/-- The number `± significand * 10 ^ exponent`. -/
structure Number where
  negative : Bool
  significand : Nat
  exponent : Int
  deriving DecidableEq, Repr

def splitSign : Bytes → Bool × Bytes
  | 0x2d :: rest => (true, rest)
  | 0x2b :: rest => (false, rest)
  | s => (false, s)

/-- The value of exponent digits.  Digits past the first value of ten thousand or more
are not counted: no number of readable length needs them. -/
def exponentValue (ds : Bytes) : Nat :=
  ds.foldl (fun n d => if n < 10000 then 10 * n + (d.toNat - 0x30) else n) 0

def readExponent : Bytes → Int
  | b :: rest =>
      if b = 0x65 || b = 0x45 then
        let (negative, ds) := splitSign rest
        let n : Int := exponentValue (ds.takeWhile isDigitByte)
        if negative then -n else n
      else 0
  | [] => 0

def splitFraction : Bytes → Bytes × Bytes
  | 0x2e :: rest => rest.span isDigitByte
  | s => ([], s)

namespace Number

def ofText (s : Bytes) : Number :=
  let (negative, s) := splitSign s
  let (whole, s) := s.span isDigitByte
  let (fraction, s) := splitFraction s
  ⟨negative, digitsValue (whole ++ fraction), readExponent s - fraction.length⟩

/-- The nearest floating-point number; `none` when the number is too large. -/
def toBinary64? (x : Number) : Option Binary64 :=
  if x.significand = 0 then some (Binary64.zero x.negative)
  else Binary64.ofQuotient? x.negative (x.significand * Nat.pow 10 x.exponent.toNat)
    (Nat.pow 10 (-x.exponent).toNat)

end Number

/-- The floating-point number of a text that may also name an infinity or the
undefined value. -/
def Binary64.ofText? (s : Bytes) : Option Binary64 :=
  if s = "NaN" then some .undefined
  else if s = "Inf" || s = "+Inf" then some (.infinite false)
  else if s = "-Inf" then some (.infinite true)
  else (Number.ofText s).toBinary64?

end RToJulia.Decimal
