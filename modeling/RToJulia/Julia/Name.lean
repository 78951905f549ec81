import RToJulia.Text.Utf8
import RToJulia.Text.Letter
import RToJulia.Text.Case

/-!
# Names and operators in Julia text
-/

namespace RToJulia.Julia

open Text

def unquote (name : Bytes) : Bytes :=
  if name.length ≥ 2 && name.head? == some 0x60 && name.getLast? == some 0x60 then
    (name.drop 1).dropLast
  else name

/-- Whether a name can be written as a symbol: letters and underscores, and digits except
in front. -/
def isIdentifier (name : Bytes) : Bool :=
  match chars name with
  | [] => false
  | c :: cs =>
      (c = '_' || isLetter c) && cs.all fun c => c = '_' || isLetter c || isDigit c

/-- A character of a record name: all but letters, digits and underscores become one. -/
def recordChar (c : Char) : Char :=
  if isLetter c || isDigit c || c = '_' then c else '_'

/-- The record type for a class: lower case, the first character upper case. -/
def recordName (cls : Bytes) : Bytes :=
  match (chars cls).map fun c => recordChar (lower c) with
  | [] => []
  | c :: cs => encode (upper c :: cs)

/-! ## Operators that can be declared for a class -/

def operatorTable : List (String × String) := [
  ("+", "+"), ("-", "-"), ("*", "*"), ("/", "/"), ("^", "^"), ("%%", "%"),
  ("==", "=="), ("!=", "!="), ("<", "<"), ("<=", "<="), (">", ">"), (">=", ">="),
  ("&", "&"), ("|", "|"), ("!", "!")]

def operator? (op : Bytes) : Option Bytes :=
  (operatorTable.find? fun entry => utf8 entry.1 = op).map (utf8 ·.2)

/-- A declaration name made of an operator, one period and a class. -/
def operatorClass? (name : Bytes) : Option (Bytes × Bytes) :=
  let (op, cls) := cut 0x2e name
  if name.count 0x2e = 1 && cls ≠ [] && (operator? op).isSome then some (op, cls) else none

/-- The two operands of an operator declaration, `e1` and `e2` where parameters are missing. -/
def operands : List Bytes → Bytes × Bytes
  | [] => ("e1", "e2")
  | [left] => (left, "e2")
  | left :: right :: _ => (left, right)

end RToJulia.Julia
