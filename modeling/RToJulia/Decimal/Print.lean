import RToJulia.Decimal.Shortest

/-!
# Printing floating-point numbers

Two forms of the shortest decimal: always with an exponent, or positional while
the decimal exponent lies in a window.  An exponent has a sign and at least two
digits; a whole number is written without a point.
-/

namespace RToJulia.Decimal

open Text

def signText (negative : Bool) : Bytes :=
  if negative then "-" else ""

/-- An exponent: its mark, its sign and at least two digits. -/
def exponentText (x : Int) : Bytes :=
  let ds := decimal x.natAbs
  "e" ++ (if x < 0 then "-" else "+") ++ (if ds.length < 2 then 0x30 :: ds else ds)

/-- Digits with a point after the first, then the exponent `x`. -/
def scientific (ds : Bytes) (x : Int) : Bytes :=
  (if ds.length ≤ 1 then ds else ds.take 1 ++ "." ++ ds.drop 1) ++ exponentText x

def zeros (n : Nat) : Bytes :=
  List.replicate n 0x30

/-- Digits in their positions, the first one standing for `10 ^ x`. -/
def positional (ds : Bytes) (x : Int) : Bytes :=
  if x < 0 then "0." ++ zeros (-x - 1).toNat ++ ds
  else
    let n := x.toNat + 1
    if ds.length ≤ n then ds ++ zeros (n - ds.length)
    else ds.take n ++ "." ++ ds.drop n

/-- The shortest digits of a finite number and the decimal exponent of the first one. -/
def leadingDigits (m : Nat) (e : Int) : Bytes × Int :=
  let (c, k) := shortest m e
  let ds := decimal c
  (ds, k + ds.length - 1)

def isPositional (x : Int) : Bool :=
  -4 ≤ x && x < 6

namespace Binary64

def special : Binary64 → Option Bytes
  | undefined => some "NaN"
  | infinite negative => some (if negative then "-Inf" else "+Inf")
  | finite .. => none

def exponentForm : Binary64 → Bytes
  | finite negative m e =>
      let (ds, x) := leadingDigits m e
      signText negative ++ scientific ds x
  | v => v.special.getD []

/-- The general form: positional inside the window, else with an exponent. -/
def generalForm : Binary64 → Bytes
  | finite negative m e =>
      let (ds, x) := leadingDigits m e
      signText negative ++ if isPositional x then positional ds x else scientific ds x
  | v => v.special.getD []

end Binary64

end RToJulia.Decimal
