import RToJulia.Grammar.Parser

/-!
# The rules of the language

Each rule is a parser written over the rules one level down, and `rules n` ties
`n` levels together.  A level is spent at every step that may come back to the
same rule, and at most five are spent between two tokens, so a depth of five
levels per token reads every list.

Binary operators climb by level: `||` 1, `&&` 2, comparisons 4, `+ -` 5, `* /` 6,
`^` 7, `:` 8.  The signs `!` and `-` take an operand of level 3.
-/

namespace RToJulia.Grammar

open RToJulia.Grammar.Parser

structure Rules where
  /-- Statements and separators up to a closing kind or the end. -/
  statements : Kind → Parser (List Node)
  statement : Parser Node
  /-- An expression, assignments included. -/
  assignment : Parser Node
  /-- Operators of at least a level. -/
  binary : Nat → Parser Node
  /-- The operators of at least a level that follow a left operand. -/
  climb : Nat → Node → Parser Node
  /-- The indexes and fields that follow an expression. -/
  suffixes : Node → Parser Node
  /-- One argument or more. -/
  args : Parser (List Node)
  /-- One parameter or more. -/
  names : Parser (List Bytes)

def level? : Kind → Option Nat
  | .or => some 1
  | .and => some 2
  | .equalEqual | .bangEqual | .less | .lessEqual | .greater | .greaterEqual => some 4
  | .plus | .minus => some 5
  | .star | .slash => some 6
  | .caret => some 7
  | .colon => some 8
  | _ => none

/-- The least level of the right operand: `^` groups to the right, all else to the left. -/
def rightLevel (kind : Kind) (level : Nat) : Nat :=
  if kind = .caret then level else level + 1

def startsDeclaration : List Token → Bool
  | name :: arrow :: word :: _ =>
      name.kind = .ident && arrow.kind = .backArrow && word.kind = .kwFunction
  | _ => false

def startsNamed : List Token → Bool
  | name :: mark :: _ => name.kind = .ident && mark.kind = .equal
  | _ => false

/-- Whether the next token that is no line break is `else`. -/
def elseFollows (ts : List Token) : Bool :=
  match ts.dropWhile (·.kind = .newline) with
  | t :: _ => t.kind = .kwElse
  | [] => false

def ahead (test : List Token → Bool) : Parser Bool :=
  fun ts => .done (test ts) ts

/-- A name in backticks with one period between two parts that are not empty: the operator
and the class of an operator declaration. -/
def splitOperator? (name : Bytes) : Option (Bytes × Bytes) :=
  if name.length ≥ 2 && name.head? == some 0x60 && name.getLast? == some 0x60 then
    let inner := (name.drop 1).dropLast
    let (op, cls) := Text.cut 0x2e inner
    if inner.count 0x2e = 1 && op ≠ [] && cls ≠ [] then some (op, cls) else none
  else none

/-- The start and the stop of an iteration: the operands of a range, else a gap and the
whole expression. -/
def splitRange : Node → Node × Node
  | .binary op left right => if op = ":" then (left, right) else (.gap, .binary op left right)
  | e => (.gap, e)

/-- The tree of an assignment; a field is assigned by its name as a string. -/
def assignTo? (target value : Node) : Option Node :=
  match target with
  | .var name => some (.assign name value)
  | .index t i => some (.assignIndex t i value)
  | .field t name => some (.assignIndex t (.string name) value)
  | _ => none

/-- The tree of a call; a type test of one positional argument has its own. -/
def callTree (name : Bytes) (args : List Node) : Node :=
  match Predicate.ofName? name, args with
  | some test, [arg] => if arg.isNamed then .call name args else .predicate test arg
  | _, _ => .call name args

namespace Rules

variable (r : Rules)

/-! ### Statements -/

/-- Statements and separators up to `closer` or the end. -/
def statementsRule (closer : Kind) : Parser (List Node) := do
  let t ← peek
  if t.kind = .eof || t.kind = closer then return []
  else if t.kind.isSeparator then
    let _ ← take
    r.statements closer
  else
    let s ← r.statement
    let ss ← r.statements closer
    return s :: ss

def block : Parser (List Node) := do
  skipNewlines
  if ← next .leftBrace then
    let _ ← take
    let ss ← (r.statements .rightBrace).orSkim (Skim.kind .rightBrace)
    let _ ← expect .rightBrace
    return ss
  else
    let s ← r.statement
    return [s]

def condition : Parser Node := do
  let _ ← (expect .leftParen).orSkim (Skim.seq Skim.expr (Skim.kind .rightParen))
  let c ← r.assignment.orSkim (Skim.kind .rightParen)
  let _ ← expect .rightParen
  return c

def ifRule : Parser Node := do
  let _ ← take
  let c ← r.condition
  let yes ← r.block
  if ← ahead elseFollows then
    skipNewlines
    let _ ← expect .kwElse
    let no ← r.block
    return .ifElse c (some yes) (some no)
  else return .ifElse c (some yes) none

def whileRule : Parser Node := do
  let _ ← take
  let c ← r.condition
  let body ← r.block
  return .whileLoop c (some body)

def forRule : Parser Node := do
  let afterIn := Skim.seq Skim.expr (Skim.kind .rightParen)
  let afterName := Skim.seq (Skim.kind .kwIn) afterIn
  let _ ← take
  let _ ← (expect .leftParen).orSkim (Skim.seq (Skim.kind .ident) afterName)
  let name ← (expect .ident).orSkim afterName
  let _ ← (expect .kwIn).orSkim afterIn
  let range ← r.assignment.orSkim (Skim.kind .rightParen)
  let _ ← expect .rightParen
  let body ← r.block
  let (start, stop) := splitRange range
  return .forLoop name.lexeme start stop (some body)

/-- The tree of `return`, bare before a separator, a closing brace or the end. -/
def returnRule : Parser Node := do
  let _ ← take
  let t ← peek
  if t.kind = .eof || t.kind.isSeparator || t.kind = .rightBrace then return .ret .gap
  else
    let value ← r.assignment
    return .ret value

def params : Parser (List Bytes) := do
  skipNewlines
  if ← next .rightParen then return [] else r.names

def declarationRule : Parser Node := do
  let name ← take
  let _ ← take
  let _ ← take
  let _ ← (expect .leftParen).orSkim (Skim.seq Skim.params (Skim.kind .rightParen))
  let params ← r.params.orSkim (Skim.kind .rightParen)
  let _ ← expect .rightParen
  let body ← r.block
  match splitOperator? name.lexeme with
  | some (op, cls) => return .operator op cls params (some body)
  | none => return .function name.lexeme params (some body)

def exprRule : Parser Node := do
  let e ← r.assignment
  match e with
  | .assign .. | .assignIndex .. => return e
  | _ => return .exprStmt e

def statementRule : Parser Node := do
  let t ← peek
  match t.kind with
  | .kwIf => r.ifRule
  | .kwWhile => r.whileRule
  | .kwFor => r.forRule
  | .kwReturn => r.returnRule
  | _ => if ← ahead startsDeclaration then r.declarationRule else r.exprRule

/-! ### Expressions -/

/-- An expression, then an arrow and a value if an arrow follows. -/
def assignmentRule : Parser Node := do
  let target ← r.binary 1
  let arrow ← peek
  if arrow.kind = .backArrow || arrow.kind = .equal then
    let _ ← take
    let value ← r.assignment
    match assignTo? target value with
    | some tree => return tree
    | none => failAt arrow (.badTarget target)
  else return target

def arg : Parser Node := do
  if ← ahead startsNamed then
    let name ← take
    let _ ← take
    skipNewlines
    let value ← r.binary 1
    return .named name.lexeme value
  else r.binary 1

def argsRule : Parser (List Node) := do
  let a ← r.arg
  skipNewlines
  if ← next .comma then
    let _ ← take
    skipNewlines
    let rest ← r.args
    return a :: rest
  else return [a]

def namesRule : Parser (List Bytes) := do
  let name ← expect .ident
  skipNewlines
  if ← next .comma then
    let _ ← take
    skipNewlines
    let rest ← r.names
    return name.lexeme :: rest
  else return [name.lexeme]

def call (name : Bytes) : Parser Node := do
  let _ ← take
  skipNewlines
  let args ← if ← next .rightParen then pure [] else r.args.orSkim (Skim.kind .rightParen)
  let _ ← expect .rightParen
  return callTree name args

/-- A literal, a name, a call or an expression in parentheses. -/
def atom : Parser Node := do
  let t ← peek
  if t.kind = .eof then failAt t (.expected "expression" [])
  else
    let _ ← take
    match t.kind, t.literal with
    | .integer, some (.text digits) => return .int digits
    | .float, some (.real value) => return .float value
    | .string, some (.text value) => return .string value
    | .bool, some (.truth value) => return .bool value
    | .integer, _ | .float, _ | .string, _ | .bool, _ => stop .literal
    | .ident, _ => if ← next .leftParen then r.call t.lexeme else return .var t.lexeme
    | .leftParen, _ =>
        skipNewlines
        let e ← r.assignment.orSkim (Skim.kind .rightParen)
        skipNewlines
        let _ ← expect .rightParen
        return e
    | _, _ => failAt t (.expected "expression" [])

def suffixesRule (e : Node) : Parser Node := do
  let t ← peek
  match t.kind with
  | .leftBracket =>
      let _ ← take
      let i ← r.assignment.orSkim (Skim.kind .rightBracket)
      let _ ← expect .rightBracket
      r.suffixes (.index e i)
  | .dollar =>
      let _ ← take
      let name ← expect .ident
      r.suffixes (.field e name.lexeme)
  | _ => return e

/-- A sign and its operand, or an atom with its suffixes. -/
def unary : Parser Node := do
  let t ← peek
  if t.kind = .bang || t.kind = .minus then
    let _ ← take
    let operand ← r.binary 3
    return .unary t.lexeme operand
  else
    let e ← r.atom
    r.suffixes e

/-- The operators of at least level `least` after `left`. -/
def climbRule (least : Nat) (left : Node) : Parser Node := do
  let op ← peek
  match level? op.kind with
  | none => return left
  | some level =>
      if level < least then return left
      else
        let _ ← take
        let right ← r.binary (rightLevel op.kind level)
        let t ← peek
        if op.kind.isComparison && t.kind.isComparison then
          failAt t (.nonAssociative t.lexeme)
        else r.climb least (.binary op.lexeme left right)

def binaryRule (least : Nat) : Parser Node := do
  let left ← r.unary
  r.climb least left

/-! ### Levels of rules -/

/-- The rules of depth zero: every one halts. -/
def spent : Rules where
  statements _ := stop .depth
  statement := stop .depth
  assignment := stop .depth
  binary _ := stop .depth
  climb _ _ := stop .depth
  suffixes _ := stop .depth
  args := stop .depth
  names := stop .depth

def up : Rules where
  statements := r.statementsRule
  statement := r.statementRule
  assignment := r.assignmentRule
  binary := r.binaryRule
  climb := r.climbRule
  suffixes := r.suffixesRule
  args := r.argsRule
  names := r.namesRule

end Rules

def rules : Nat → Rules
  | 0 => Rules.spent
  | n + 1 => (rules n).up

/-- A depth that reads every list of a length. -/
def depthFor (length : Nat) : Nat :=
  5 * (length + 1)

end RToJulia.Grammar

namespace RToJulia

inductive Refusal where
  | fault (f : SyntaxFault)
  | halt (reason : Grammar.Halt)

/-- The statements of the program a token list writes, up to its first `eof`. -/
def parse (ts : List Token) : Except Refusal (List Node) :=
  match (Grammar.rules (Grammar.depthFor ts.length)).statements .eof ts with
  | .done ss _ => .ok ss
  | .fail f _ => .error (.fault f)
  | .halt reason => .error (.halt reason)

end RToJulia
