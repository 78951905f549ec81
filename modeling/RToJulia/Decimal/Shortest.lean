import RToJulia.Decimal.Binary64

/-!
# The shortest decimal of a floating-point number

Of all decimals that round to a number, the one with the fewest digits, and of
those the nearest; a tie goes to the even last digit.  The search walks the
decimal grids `10 ^ k` from coarse to fine and tests the two grid points around
the number against the interval of reals that round to it.
-/

namespace RToJulia.Decimal

/-- The number `significand * 2 ^ exponent` against the grid `10 ^ k`, as integers.

`mark x` is the real `x / 4 * 2 ^ exponent`, `grid c` the grid point `c * 10 ^ k`,
both in one common unit. -/
structure Scale where
  markUnit : Nat
  gridUnit : Nat

namespace Scale

def of (exponent k : Int) : Scale where
  markUnit := Nat.pow 2 (exponent - 2).toNat * Nat.pow 10 (-k).toNat
  gridUnit := Nat.pow 10 k.toNat * Nat.pow 2 (2 - exponent).toNat

end Scale

/-- Four times the lower end of the interval that rounds to a significand: the gap below a
power of two is half as wide, except at the least exponent. -/
def lowerEnd (m : Nat) (e : Int) : Nat :=
  if m = Nat.pow 2 52 && e != Binary64.minExponent then 4 * m - 1 else 4 * m - 2

/-- Whether the grid point `c` rounds to the number; the ends belong to an even significand. -/
def roundsTo (m : Nat) (e : Int) (s : Scale) (c : Nat) : Bool :=
  let lo := lowerEnd m e * s.markUnit
  let hi := (4 * m + 2) * s.markUnit
  let x := c * s.gridUnit
  if m % 2 = 0 then lo ≤ x && x ≤ hi else lo < x && x < hi

/-- The nearer of the two grid points around the number that round to it. -/
def gridPoint? (m : Nat) (e : Int) (k : Int) : Option Nat :=
  let s := Scale.of e k
  let v := 4 * m * s.markUnit
  let c := v / s.gridUnit
  if c = 0 then none
  else
    let low := roundsTo m e s c
    let high := roundsTo m e s (c + 1)
    let below := v - c * s.gridUnit
    let above := (c + 1) * s.gridUnit - v
    if low && high then
      if below < above || (below == above && c % 2 == 0) then some c else some (c + 1)
    else if low then some c
    else if high then some (c + 1)
    else none

/-- Search the grids `10 ^ k`, `10 ^ (k - 1)`, … for a point that rounds to the number. -/
def searchGrids (m : Nat) (e : Int) : Nat → Int → Nat × Int
  | 0, k => (4 * m * (Scale.of e k).markUnit / (Scale.of e k).gridUnit, k)
  | n + 1, k =>
      match gridPoint? m e k with
      | some c => (c, k)
      | none => searchGrids m e n (k - 1)

/-- Remove trailing zeros, at most `n` of them. -/
def stripZeros : Nat → Nat × Int → Nat × Int
  | 0, x => x
  | n + 1, (c, k) => if c % 10 = 0 && c != 0 then stripZeros n (c / 10, k + 1) else (c, k)

def upperPower (m : Nat) (e : Int) : Int :=
  ((Nat.log2 m : Int) + 1 + e) * 30103 / 100000 + 1

/-- Digits `c` and exponent `k` of the shortest decimal `c * 10 ^ k` of a finite number. -/
def shortest (m : Nat) (e : Int) : Nat × Int :=
  if m = 0 then (0, 0) else stripZeros 20 (searchGrids m e 24 (upperPower m e))

end RToJulia.Decimal
