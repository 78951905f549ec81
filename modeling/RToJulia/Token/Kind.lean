import RToJulia.Text.Bytes

/-!
# Token kinds

The kinds of tokens, in a fixed order that numbers them from zero.  A number
outside that order is a kind of its own, which no rule accepts.
-/

namespace RToJulia

inductive Kind where
  | eof
  | newline | semicolon | comma
  | leftParen | rightParen | leftBrace | rightBrace | leftBracket | rightBracket
  | plus | minus | star | slash | caret
  | equalEqual | bangEqual | less | lessEqual | greater | greaterEqual
  | and | or | bang | colon | dollar | backArrow | equal
  | ident | integer | float | string | bool
  | kwIf | kwElse | kwFor | kwIn | kwWhile | kwFunction | kwReturn
  | other (code : Int)
  deriving DecidableEq, Repr

namespace Kind

def table : List (Kind × String) := [
  (eof, "EOF"), (newline, "NEWLINE"), (semicolon, "SEMICOLON"), (comma, "COMMA"),
  (leftParen, "LEFTPAREN"), (rightParen, "RIGHTPAREN"), (leftBrace, "LEFTBRACE"),
  (rightBrace, "RIGHTBRACE"), (leftBracket, "LEFTBRACKET"), (rightBracket, "RIGHTBRACKET"),
  (plus, "PLUS"), (minus, "MINUS"), (star, "STAR"), (slash, "SLASH"), (caret, "CARET"),
  (equalEqual, "EQUALEQUAL"), (bangEqual, "BANGEQUAL"), (less, "LESS"), (lessEqual, "LESSEQUAL"),
  (greater, "GREATER"), (greaterEqual, "GREATEREQUAL"), (and, "AND"), (or, "OR"), (bang, "BANG"),
  (colon, "COLON"), (dollar, "DOLLAR"), (backArrow, "BACKARROW"), (equal, "EQUAL"),
  (ident, "IDENT"), (integer, "INTEGER"), (float, "FLOAT"), (string, "STRING"), (bool, "BOOL"),
  (kwIf, "IF"), (kwElse, "ELSE"), (kwFor, "FOR"), (kwIn, "IN"), (kwWhile, "WHILE"),
  (kwFunction, "FUNCTION"), (kwReturn, "RETURN")]

/-- The name of a kind; a kind outside the table shows its number. -/
def name : Kind → Bytes
  | other code => "Kind(" ++ Text.signedDecimal code ++ ")"
  | k => ((table.find? (·.1 = k)).map (·.2)).getD ""

def ofCode : Int → Kind
  | .ofNat n => ((table[n]?).map (·.1)).getD (other n)
  | .negSucc n => other (.negSucc n)

def ofName? (s : Bytes) : Option Kind :=
  (table.find? fun entry => Text.utf8 entry.2 = s).map (·.1)

/-- A comparison operator; comparisons do not associate. -/
def isComparison : Kind → Bool
  | equalEqual | bangEqual | less | lessEqual | greater | greaterEqual => true
  | _ => false

def isSeparator : Kind → Bool
  | newline | semicolon => true
  | _ => false

end Kind

end RToJulia
