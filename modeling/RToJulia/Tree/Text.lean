import RToJulia.Tree.Basic
import RToJulia.Text.Quoted
import RToJulia.Token.Basic

/-!
# The S-expression of a tree

Every node is its head and its parts between parentheses, separated by single
spaces, and parts that are empty are left out.  A tree that lacks a required
child or body has no S-expression; the first one missing from the left is the
reason.
-/

namespace RToJulia.Node

open Text

/-- A head and parts between parentheses, without the empty ones. -/
def form (head : Bytes) (parts : List Bytes) : Bytes :=
  "(" ++ joinNonempty " " (head :: parts) ++ ")"

inductive Missing where
  | child
  | body
  deriving DecidableEq, Repr

def Missing.message : Missing → Bytes
  | child => "runtime error: invalid memory address or nil pointer dereference"
  | body =>
      "value method github.com/takoeight0821/rjulia/ast.Block.String called using nil *Block pointer"

/-- The text of a child that may be left open: a gap is empty. -/
def optional (child : Node) (text : Except Missing Bytes) : Except Missing Bytes :=
  match child with
  | gap => .ok []
  | _ => text

mutual

def render : Node → Except Missing Bytes
  | gap => .error .child
  | program ss => do return form "program" (← renderAll ss)
  | block ss => do return form "block" (← renderAll ss)
  | assign name value => do return form "assign" [name, ← render value]
  | assignIndex target i value => do
      return form "assign-index" [← render target, ← render i, ← render value]
  | exprStmt e => do return form "expr" [← render e]
  | ifElse cond yes no => do
      return form "if" [← render cond, ← renderBody yes, ← renderElse no]
  | whileLoop cond body => do return form "while" [← render cond, ← renderBody body]
  | forLoop name start stop body => do
      return form "for" [name, ← optional start (render start), ← render stop, ← renderBody body]
  | function name params body => do
      return form "function" [name, form [] params, ← renderBody body]
  | operator op cls params body => do
      return form "operator" [op, cls, form [] params, ← renderBody body]
  | ret value => do return form "return" [← optional value (render value)]
  | call name args => do return form "call" (name :: (← renderAll args))
  | named name value => do return form "named" [name, ← render value]
  | binary op left right => do return form op [← render left, ← render right]
  | unary op operand => do return form op [← render operand]
  | var name => .ok (form "var" [name])
  | int digits => .ok (form "int" [digits])
  | float value => .ok (form "float" [value.generalForm])
  | string value => .ok (form "string" [quoted value])
  | bool value => .ok (form "bool" [truthText value])
  | index target i => do return form "index" [← render target, ← render i]
  | field target name => do return form "field" [← render target, name]
  | predicate test e => do return form test.name [← render e]

def renderAll : List Node → Except Missing (List Bytes)
  | [] => .ok []
  | n :: ns => do return (← render n) :: (← renderAll ns)

def renderBody : Option (List Node) → Except Missing Bytes
  | none => .error .body
  | some ss => do return form "block" (← renderAll ss)

def renderElse : Option (List Node) → Except Missing Bytes
  | none => .ok []
  | some ss => do return form "block" (← renderAll ss)

end

def text? (n : Node) : Option Bytes :=
  (render n).toOption

/-- A tree inside a message, where something missing does not stop the message. -/
def shown (n : Node) : Bytes :=
  match n with
  | gap => "<nil>"
  | n =>
      match render n with
      | .ok text => text
      | .error missing => "%!v(PANIC=String method: " ++ missing.message ++ ")"

end RToJulia.Node
