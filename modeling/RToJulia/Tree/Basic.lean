import RToJulia.Decimal.Binary64

/-!
# Program trees

Statements and expressions of a program.  A tree may have gaps: `gap` stands for
a child that is not there, and the body of a statement is `none` when it is
missing.  Three places are meant to be left open: the start of a plain iteration,
the value of a bare `return` and the else branch.
-/

namespace RToJulia

/-- The type tests that are rendered as such; a number outside the list is a test of no
known type. -/
inductive Predicate where
  | isDouble | isInteger | isNumeric | isCharacter | isLogical
  | other (code : Int)
  deriving DecidableEq, Repr

namespace Predicate

def table : List (Predicate × String) := [
  (isDouble, "is.double"), (isInteger, "is.integer"), (isNumeric, "is.numeric"),
  (isCharacter, "is.character"), (isLogical, "is.logical")]

def ofName? (name : Bytes) : Option Predicate :=
  (table.find? fun entry => Text.utf8 entry.2 = name).map (·.1)

def ofCode : Int → Predicate
  | .ofNat n => ((table[n]?).map (·.1)).getD (other n)
  | .negSucc n => other (.negSucc n)

def code : Predicate → Int
  | isDouble => 0
  | isInteger => 1
  | isNumeric => 2
  | isCharacter => 3
  | isLogical => 4
  | other n => n

/-- The function name of a type test; one outside the list shows its number. -/
def name : Predicate → Bytes
  | other n => "PredicateKind(" ++ Text.signedDecimal n ++ ")"
  | p => ((table.find? (·.1 = p)).map (·.2)).getD ""

end Predicate

inductive Node where
  /-- A missing child. -/
  | gap
  | program (statements : List Node)
  | block (statements : List Node)
  | assign (name : Bytes) (value : Node)
  | assignIndex (target index value : Node)
  | exprStmt (expr : Node)
  | ifElse (cond : Node) (yes no : Option (List Node))
  | whileLoop (cond : Node) (body : Option (List Node))
  /-- Iteration over `start:stop`, or over `stop` itself when `start` is a gap. -/
  | forLoop (var : Bytes) (start stop : Node) (body : Option (List Node))
  | function (name : Bytes) (params : List Bytes) (body : Option (List Node))
  /-- A declaration of the operator `op` for values of class `cls`. -/
  | operator (op cls : Bytes) (params : List Bytes) (body : Option (List Node))
  | ret (value : Node)
  /-- A call of a named function; the arguments are positional or `named`, in source order. -/
  | call (name : Bytes) (args : List Node)
  | named (name : Bytes) (value : Node)
  | binary (op : Bytes) (left right : Node)
  | unary (op : Bytes) (operand : Node)
  | var (name : Bytes)
  /-- An integer literal, kept as its digits. -/
  | int (digits : Bytes)
  | float (value : Decimal.Binary64)
  | string (value : Bytes)
  | bool (value : Bool)
  | index (target index : Node)
  | field (target : Node) (name : Bytes)
  | predicate (test : Predicate) (expr : Node)
  deriving Repr, Inhabited

/-- The body of a statement: its statements, or `none` when it is missing. -/
abbrev Body := Option (List Node)

namespace Node

def formName : Node → Bytes
  | gap => "<nil>"
  | program _ => "Program"
  | block _ => "Block"
  | assign _ _ => "Assign"
  | assignIndex _ _ _ => "AssignIndex"
  | exprStmt _ => "ExprStmt"
  | ifElse _ _ _ => "If"
  | whileLoop _ _ => "While"
  | forLoop _ _ _ _ => "For"
  | function _ _ _ => "FunctionDecl"
  | operator _ _ _ _ => "OperatorClassFunctionDecl"
  | ret _ => "Return"
  | call _ _ => "Call"
  | named _ _ => "NamedArg"
  | binary _ _ _ => "BinaryOp"
  | unary _ _ => "UnaryOp"
  | var _ => "Var"
  | int _ => "IntLiteral"
  | float _ => "FloatLiteral"
  | string _ => "StringLiteral"
  | bool _ => "BoolLiteral"
  | index _ _ => "IndexOp"
  | field _ _ => "FieldAccess"
  | predicate _ _ => "TypePredicate"

/-! ### Arguments of a call -/

def isNamed : Node → Bool
  | named _ _ => true
  | _ => false

def positional (args : List Node) : List Node :=
  args.filter (!·.isNamed)

def namedArgs (args : List Node) : List (Bytes × Node) :=
  args.filterMap fun
    | named name value => some (name, value)
    | _ => none

def lookup? (args : List Node) (name : Bytes) : Option Node :=
  ((namedArgs args).find? (·.1 = name)).map (·.2)

end Node

end RToJulia
