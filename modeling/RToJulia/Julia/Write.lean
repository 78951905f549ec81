import RToJulia.Julia.Call
import RToJulia.Julia.Loop

/-!
# Writing a tree as Julia text

Statements of a body stand on their own lines, one level deeper than the
statement they belong to.  Operators are written in parentheses; a range is not.
-/

namespace RToJulia.Julia

open Text Writer

/-- The class of a record construction: a call `structure(v, class = "c")`. -/
def recordClass? (name : Bytes) (args : List Node) : Option Bytes :=
  if name = "structure" then
    match Node.lookup? args "class" with
    | some (.string cls) => some cls
    | _ => none
  else none

def isSequence (o : Options) : Node → Bool
  | .var name => o.sequenceLead ≠ [] && o.sequenceLead.isPrefixOf (unquote name)
  | _ => false

def isStringIndex : Node → Bool
  | .string _ => true
  | _ => false

/-- An assignment to an element.  A string key makes the target a dictionary: a sequence is
converted, anything else starts empty. -/
def elementText (o : Options) (targetNode indexNode : Node) (target index value : Bytes) : Bytes :=
  if isStringText index && isSequence o targetNode then
    target ++ " = Dict(string(k) => v for (k, v) in enumerate(" ++ target ++ ")); " ++
      target ++ "[" ++ index ++ "] = " ++ value
  else if isStringIndex indexNode then
    target ++ " = Dict(); " ++ target ++ "[" ++ index ++ "] = " ++ value
  else target ++ "[" ++ index ++ "] = " ++ value

/-- A binary operation; `&` and `|` are written twice. -/
def binaryText (op left right : Bytes) : Bytes :=
  if op = ":" then left ++ ":" ++ right
  else
    let op := if op = "&" then utf8 "&&" else if op = "|" then utf8 "||" else op
    "(" ++ left ++ " " ++ op ++ " " ++ right ++ ")"

def functionText (name : Bytes) (params : List Bytes) (body margin : Bytes) : Bytes :=
  joinLines ["function " ++ name ++ "(" ++ commaList params ++ ")", body, margin ++ "end"]

def methodSignature (op type : Bytes) (params : List Bytes) : Bytes :=
  let (left, right) := operands params
  "Base.:(" ++ op ++ ")(" ++ left ++ "::" ++ type ++ ", " ++ right ++ "::" ++ type ++ ")"

/-- An operator method around a written body; a body of one line has the short form. -/
def methodText (signature body inner margin : Bytes) : Bytes :=
  if body = [] then signature ++ " = nothing"
  else if !body.contains 0x0a then
    signature ++ " = " ++ dropLead "return " (dropLead inner body)
  else joinLines ["function " ++ signature, body, margin ++ "end"]

def writeMethod (o : Options) (level : Nat) (op cls : Bytes) (params : List Bytes)
    (body : Writer Bytes) : Writer Bytes := do
  let type := recordName cls
  useRecord type
  let inner ← margin o (level + 1)
  let text ← body
  let outer ← margin o level
  return methodText (methodSignature op type params) text inner outer

def writeFunction (o : Options) (level : Nat) (name : Bytes) (params : List Bytes)
    (body : Writer Bytes) : Writer Bytes := do
  let text ← body
  return functionText name params text (← margin o level)

def writeAssign (name : Bytes) (value : Node) (plain : Writer Bytes) (args : List Argument) :
    Writer Bytes := do
  let cls? := match value with
    | .call function args => recordClass? function args
    | _ => none
  match cls? with
  | some cls =>
      let type := recordName cls
      useRecord type
      let text ← match Argument.positional args with
        | a :: _ => a.write
        | [] => pure "nothing"
      return unquote name ++ " = " ++ type ++ "(" ++ text ++ ")"
  | none => return unquote name ++ " = " ++ (← plain)

def writeWhile (o : Options) (level : Nat) (cond body : Writer Bytes) : Writer Bytes := do
  let c ← cond
  let b ← body
  return joinLines ["while " ++ c, b, (← margin o level) ++ "end"]

/-- Write a `let` that rebinds names around what is written one level deeper. -/
def writeLet (o : Options) (level : Nat) (names : List Bytes) (loop : Writer Bytes) :
    Writer Bytes := do
  let inner ← margin o (level + 1)
  let text ← loop
  return joinLines ["let " ++ commaList (names.map fun n => n ++ " = " ++ n), inner ++ text,
    (← margin o level) ++ "end"]

/-- Write what an iteration runs over: a range, or a value when there is no start. -/
def writeRange (startNode : Node) (start stop : Writer Bytes) : Writer Bytes :=
  match startNode with
  | .gap => stop
  | _ => do
      let a ← start
      let b ← stop
      return a ++ ":" ++ b

def writeReturn (valueNode : Node) (value : Writer Bytes) : Writer Bytes :=
  match valueNode with
  | .gap => return "return"
  | _ => do return "return " ++ (← value)

/-- The line of a statement in a body; an empty statement has none. -/
def bodyLine (o : Options) (level : Nat) (text : Bytes) : Writer (List Bytes) :=
  if text = [] then return [] else return [(← margin o level) ++ text]

/-- An argument of a call, given how the whole of it and the value of a named one are
written. -/
def argument (n : Node) (whole inner : Writer Bytes) : Argument :=
  match n with
  | .named name value => ⟨some name, value, inner⟩
  | _ => ⟨none, n, whole⟩

section

variable (o : Options)

mutual

def write : Node → Nat → Writer Bytes
  | .gap, _ => return []
  | .block ss, level => unlessRefused do
      return List.intercalate (utf8 "\n") (← writeStatements ss (level + 1))
  | .assign name value, level =>
      unlessRefused (writeAssign name value (write value level) (callArguments value level))
  | .assignIndex target index value, level => unlessRefused do
      let t ← write target level
      let i ← write index level
      let v ← write value level
      return elementText o target index t i v
  | .exprStmt expr, level => unlessRefused (write expr level)
  | .ifElse cond yes no, level => unlessRefused do
      let c ← write cond level
      let y ← writeBody yes level
      let n ← writeElse no level
      return joinLines (["if " ++ c, y] ++ n ++ [(← margin o level) ++ "end"])
  | .whileLoop cond body, level => unlessRefused do
      let names ← loopBindings cond body
      if names = [] then writeWhile o level (write cond level) (writeBody body level)
      else
        writeLet o level names
          (writeWhile o (level + 1) (write cond (level + 1)) (writeBody body (level + 1)))
  | .forLoop name start stop body, level => unlessRefused do
      let range ← writeRange start (write start level) (write stop level)
      let b ← writeBody body level
      return joinLines ["for " ++ unquote name ++ " in " ++ range, b, (← margin o level) ++ "end"]
  | .function name params body, level => unlessRefused do
      match operatorClass? (unquote name) with
      | some (op, cls) =>
          writeMethod o level ((operator? op).getD op) cls params (writeBody body level)
      | none => writeFunction o level (unquote name) params (writeBody body level)
  | .operator op cls params body, level => unlessRefused do
      match operator? op with
      | some op => writeMethod o level op cls params (writeBody body level)
      | none => writeFunction o level (op ++ "." ++ cls) params (writeBody body level)
  | .ret value, level => unlessRefused (writeReturn value (write value level))
  | .call name args, level => unlessRefused (writeCall o name (arguments args level))
  | .binary op left right, level => unlessRefused do
      let l ← write left level
      let r ← write right level
      return binaryText op l r
  | .unary op operand, level => unlessRefused do
      return "(" ++ op ++ (← write operand level) ++ ")"
  | .var name, _ => unlessRefused (return unquote name)
  | .int digits, _ => unlessRefused (return digits)
  | .float value, _ => unlessRefused (return floatLiteral value)
  | .string value, _ => unlessRefused (return stringLiteral value)
  | .bool value, _ => unlessRefused (return if value then "true" else "false")
  | .index target index, level => unlessRefused do
      let t ← write target level
      let i ← write index level
      return t ++ "[" ++ i ++ "]"
  | .field target name, level => unlessRefused do
      return (← write target level) ++ "[" ++ stringLiteral name ++ "]"
  | .predicate test expr, level => unlessRefused do
      return "(" ++ (← write expr level) ++ " isa " ++ typeName test ++ ")"
  | .named name value, _ => unlessRefused (refuse (.named name value))
  | .program ss, _ => unlessRefused (refuse (.program ss))

def writeNamedValue : Node → Nat → Writer Bytes
  | .named _ value, level => write value level
  | _, _ => return []

def arguments : List Node → Nat → List Argument
  | [], _ => []
  | n :: ns, level =>
      argument n (write n level) (writeNamedValue n level) :: arguments ns level

def callArguments : Node → Nat → List Argument
  | .call _ args, level => arguments args level
  | _, _ => []

def writeStatements : List Node → Nat → Writer (List Bytes)
  | [], _ => return []
  | n :: ns, level => do
      let text ← write n level
      let line ← bodyLine o level text
      return line ++ (← writeStatements ns level)

def writeBody : Option (List Node) → Nat → Writer Bytes
  | none, _ => halt .missingBody
  | some ss, level => do return List.intercalate (utf8 "\n") (← writeStatements ss (level + 1))

/-- Write the lines of an `if` that continues a chain; nothing else does. -/
def writeElseIf : Node → Nat → Option (Writer (List Bytes))
  | .ifElse cond yes no, level => some do
      let m ← margin o level
      let c ← write cond level
      let y ← writeBody yes level
      return [m ++ "elseif " ++ c, y] ++ (← writeElse no level)
  | _, _ => none

/-- Write the lines of an else branch that holds a single `if`. -/
def writeChain : List Node → Nat → Option (Writer (List Bytes))
  | [n], level => writeElseIf n level
  | _, _ => none

def writeElse : Option (List Node) → Nat → Writer (List Bytes)
  | none, _ => return []
  | some ss, level =>
      (writeChain ss level).getD do
        let m ← margin o level
        let lines ← writeStatements ss (level + 1)
        return [m ++ "else", List.intercalate (utf8 "\n") lines]

end

end

end RToJulia.Julia
