import RToJulia.Token.Kind
import RToJulia.Text.Quoted
import RToJulia.Decimal.Print

/-!
# Tokens

A token is a kind, the bytes it was cut from, a line number and, for literals,
the value they write.
-/

namespace RToJulia

inductive Literal where
  | text (value : Bytes)
  | real (value : Decimal.Binary64)
  | truth (value : Bool)
  deriving DecidableEq, Repr

structure Token where
  kind : Kind
  lexeme : Bytes
  line : Int
  literal : Option Literal := none
  deriving DecidableEq, Repr

def truthText (b : Bool) : Bytes :=
  if b then "true" else "false"

namespace Literal

def text? : Option Literal → Bytes
  | none => "<nil>"
  | some (text value) => value
  | some (real value) => value.generalForm
  | some (truth value) => truthText value

end Literal

namespace Token

/-- The display of a token: kind, quoted lexeme, line and literal in braces. -/
def display (t : Token) : Bytes :=
  "\x7b" ++ t.kind.name ++ ", " ++ Text.quoted t.lexeme ++ ", " ++ Text.signedDecimal t.line ++ ", " ++
    Literal.text? t.literal ++ "\x7d"

def shown (t : Token) : Bytes :=
  if t.kind = .newline then "newline" else t.lexeme

end Token

end RToJulia
