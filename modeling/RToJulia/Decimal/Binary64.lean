import RToJulia.Text.Bytes

/-!
# Binary floating-point numbers

The numbers with 53 significant bits and exponents down to -1074, together with
the infinities and an undefined value.  A quotient of naturals rounds to the
nearest of them, a tie going to the even significand.
-/

namespace RToJulia.Decimal

/-- A floating-point number; a finite one is `significand * 2 ^ exponent`. -/
inductive Binary64 where
  | undefined
  | infinite (negative : Bool)
  | finite (negative : Bool) (significand : Nat) (exponent : Int)
  deriving DecidableEq, Repr

/-- `num / den` to the nearest natural, a tie going to the even one. -/
def roundDiv (num den : Nat) : Nat :=
  let low := num / den
  let twice := 2 * (num % den)
  if twice < den || (twice == den && low % 2 == 0) then low else low + 1

/-- The numerator and denominator of `num / den / 2 ^ e`. -/
def scaleDown (num den : Nat) (e : Int) : Nat × Nat :=
  (num * Nat.pow 2 (-e).toNat, den * Nat.pow 2 e.toNat)

namespace Binary64

def minExponent : Int := -1074

def maxExponent : Int := 971

def zero (negative : Bool) : Binary64 :=
  .finite negative 0 minExponent

/-- The nearest number to a positive quotient; `none` when it is past the greatest one. -/
def ofQuotient? (negative : Bool) (num den : Nat) : Option Binary64 :=
  let guess : Int := (Nat.log2 num : Int) - Nat.log2 den - 53
  let (n, d) := scaleDown num den guess
  let e := max (if n / d < Nat.pow 2 53 then guess else guess + 1) minExponent
  let (n, d) := scaleDown num den e
  let m := roundDiv n d
  let (m, e) := if m = Nat.pow 2 53 then (Nat.pow 2 52, e + 1) else (m, e)
  if e ≤ maxExponent then some (.finite negative m e) else none

end Binary64

end RToJulia.Decimal
