import RToJulia.Decimal.Print
import RToJulia.Tree.Basic

/-!
# Literals in Julia text
-/

namespace RToJulia.Julia

/-- The inside of a string literal: a bare quote or `$` gets a backslash, and a backslash is
kept together with the byte after it. -/
def stringBody : Bytes → Bytes
  | [] => []
  | 0x5c :: [] => [0x5c]
  | 0x5c :: b :: rest => 0x5c :: b :: stringBody rest
  | b :: rest =>
      if b = 0x22 || b = 0x24 then 0x5c :: b :: stringBody rest else b :: stringBody rest

def stringLiteral (s : Bytes) : Bytes :=
  0x22 :: stringBody s ++ [0x22]

/-- Whether a number's text shows that it is no integer: a point, an exponent, an infinity
or the undefined value. -/
def showsFloat (text : Bytes) : Bool :=
  text.any fun b => b == 0x2e || b == 0x65 || b == 0x49 || b == 0x4e

/-- A floating-point literal; a whole number gets a point. -/
def floatLiteral (x : Decimal.Binary64) : Bytes :=
  let text := x.generalForm
  if showsFloat text then text else text ++ ".0"

def isStringText (text : Bytes) : Bool :=
  text.length ≥ 2 && text.head? == some 0x22 && text.getLast? == some 0x22

def typeName : Predicate → Bytes
  | .isDouble => "Float64"
  | .isInteger => "Int"
  | .isNumeric => "Number"
  | .isCharacter => "AbstractString"
  | .isLogical => "Bool"
  | .other _ => "Any"

end RToJulia.Julia
