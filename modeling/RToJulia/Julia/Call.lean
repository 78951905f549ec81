import RToJulia.Julia.Work
import RToJulia.Julia.Name
import RToJulia.Julia.Literal

/-!
# Calls

A call is written by a rule chosen by the name of the function.  The arguments
come to the rule unwritten: a rule decides which of them are written, in which
order and how often.
-/

namespace RToJulia.Julia

open Text Writer

/-- An argument of a call: its name, if it is passed by one, its value, and how the value is
written. -/
structure Argument where
  name : Option Bytes
  value : Node
  write : Writer Bytes

namespace Argument

def positional (args : List Argument) : List Argument :=
  args.filter (·.name.isNone)

def named (args : List Argument) : List (Bytes × Argument) :=
  args.filterMap fun a => a.name.map (·, a)

def lookup? (args : List Argument) (name : Bytes) : Option Argument :=
  args.find? (·.name = some name)

def writeAll (args : List Argument) : Writer (List Bytes) :=
  args.mapM (·.write)

/-- Write the named arguments in order, each after its key. -/
def writeNamed (args : List Argument) (key : Bytes → Bytes) : Writer (List Bytes) :=
  (named args).mapM fun (name, a) => do return key name ++ (← a.write)

def writeOptional : Option Argument → Writer Bytes
  | some a => a.write
  | none => return []

end Argument

open Argument

/-- `name(p, q; k=v)`, without the part after `;` when nothing is passed by name. -/
def plainCall (name : Bytes) (args : List Argument) : Writer Bytes := do
  useFunction name
  let pos := commaList (← writeAll (positional args))
  let kws ← writeNamed args (· ++ "=")
  if kws = [] then return name ++ "(" ++ pos ++ ")"
  else if pos = [] then return name ++ "(; " ++ commaList kws ++ ")"
  else return name ++ "(" ++ pos ++ "; " ++ commaList kws ++ ")"

/-- A vector of all values, names dropped. -/
def sequenceCall (args : List Argument) : Writer Bytes := do
  return "[" ++ commaList (← writeAll args) ++ "]"

/-- A dictionary of the named values, then of the positional ones by their position. -/
def mappingCall (o : Options) (args : List Argument) : Writer Bytes := do
  let keyed ← writeNamed args (stringLiteral · ++ " => ")
  let numbered ← if o.listPositionalKeys then
      let values ← writeAll (positional args)
      pure (values.mapIdx fun i v => stringLiteral (decimal (i + 1)) ++ " => " ++ v)
    else pure []
  return "Dict(" ++ commaList (keyed ++ numbered) ++ ")"

/-- A reshaped value; a dimension that is not given comes from the length. -/
def matrixCall (o : Options) (args : List Argument) : Writer Bytes := do
  let data ← writeOptional ((positional args).head? <|> lookup? args "data")
  let rows ← writeOptional (lookup? args "nrow")
  let cols ← writeOptional (lookup? args "ncol")
  let reshapes := o.matrixFallback = "reshape"
  if data = [] then
    if reshapes then return "reshape([], 0, 0)" else plainCall "matrix" args
  else if rows ≠ [] && cols ≠ [] then
    return "reshape(" ++ data ++ ", " ++ rows ++ ", " ++ cols ++ ")"
  else if rows ≠ [] then
    return "reshape(" ++ data ++ ", " ++ rows ++ ", div(length(" ++ data ++ "), " ++ rows ++ "))"
  else if cols ≠ [] then
    return "reshape(" ++ data ++ ", div(length(" ++ data ++ "), " ++ cols ++ "), " ++ cols ++ ")"
  else if reshapes then return "reshape(" ++ data ++ ", length(" ++ data ++ "), 1)"
  else plainCall "matrix" args

/-- A table of the named columns, then of the positional ones. -/
def tableCall (args : List Argument) : Writer Bytes := do
  let columns ← writeNamed args (· ++ " = ")
  let others ← writeAll (positional args)
  useFunction "DataFrame"
  return "DataFrame(" ++ commaList (columns ++ others) ++ ")"

def printCall (args : List Argument) : Writer Bytes := do
  return "println(" ++ commaList (← writeAll (positional args)) ++ ")"

/-- A test whether a name is defined; a name that is no symbol goes through `Symbol`. -/
def existsCall (args : List Argument) : Writer Bytes := do
  match positional args with
  | [] => plainCall "exists" args
  | a :: _ =>
      match a.value with
      | .string name =>
          if isIdentifier name then return "isdefined(Main, :" ++ name ++ ")"
          else return "isdefined(Main, Symbol(" ++ (← a.write) ++ "))"
      | _ => return "isdefined(Main, Symbol(" ++ (← a.write) ++ "))"

def renamed? (name : Bytes) : Option Bytes :=
  if name = "paste" then some "string"
  else if name = "nchar" then some "length"
  else if name = "min" then some "minimum"
  else if name = "max" then some "maximum"
  else if name = "sd" then some "std"
  else if name = "new.env" then some "Dict"
  else none

def writeCall (o : Options) (name : Bytes) (args : List Argument) : Writer Bytes :=
  if name = "c" then sequenceCall args
  else if name = "list" then mappingCall o args
  else if name = "matrix" then matrixCall o args
  else if name = "print" then printCall args
  else if name = "exists" then existsCall args
  else match renamed? name with
    | some name => plainCall name args
    | none =>
        if (utf8 "data.frame").isPrefixOf name then tableCall args else plainCall name args

end RToJulia.Julia
