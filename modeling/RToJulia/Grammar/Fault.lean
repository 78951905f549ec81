import RToJulia.Tree.Text

/-!
# Syntax faults

A syntax fault is a cause and the token it was noticed at.
-/

namespace RToJulia

open Text

inductive SyntaxCause where
  /-- One of the listed things should stand here. -/
  | expected (what : Bytes) (others : List Bytes)
  /-- A comparison follows a comparison. -/
  | nonAssociative (op : Bytes)
  /-- An assignment to something that cannot be assigned. -/
  | badTarget (target : Node)
  /-- A cause given by its own words. -/
  | said (message : Bytes)

namespace SyntaxCause

/-- The cause that one of several things is expected; there must be at least one. -/
def ofExpected? : List Bytes → Option SyntaxCause
  | [] => none
  | what :: others => some (expected what others)

def message : SyntaxCause → Bytes
  | expected what others =>
      "unexpected token: expected " ++ List.intercalate (utf8 ", ") (what :: others)
  | nonAssociative op =>
      "comparison operators are non-associative: unexpected `" ++ op ++ "`"
  | badTarget target => "invalid assignment target " ++ target.shown
  | said message => message

end SyntaxCause

structure SyntaxFault where
  place : Token
  cause : SyntaxCause

def SyntaxFault.message (f : SyntaxFault) : Bytes :=
  if f.place.kind = .eof then "at end: " ++ f.cause.message
  else
    "at " ++ signedDecimal f.place.line ++ ": `" ++ f.place.shown ++ "`, " ++ f.cause.message

end RToJulia
