import RToJulia.Julia.Work
import RToJulia.Julia.Name

/-!
# Names bound around a loop

A `while` loop is wrapped in a `let` that rebinds the names the loop assigns, so
that an assignment in the loop reaches the variable outside it.
-/

namespace RToJulia.Julia

mutual

/-- The names assigned by a statement, through nested blocks, branches and loops.
Declarations have a scope of their own. -/
def assigned : Node → Except Halt (List Bytes)
  | .assign name value => do return name :: (← assigned value)
  | .block ss => assignedAll ss
  | .ifElse cond yes no => do
      return (← assigned cond) ++ (← assignedBody yes) ++ (← assignedElse no)
  | .whileLoop cond body => do return (← assigned cond) ++ (← assignedBody body)
  | .forLoop _ start stop body => do
      return (← assigned start) ++ (← assigned stop) ++ (← assignedBody body)
  | .exprStmt expr => assigned expr
  | _ => return []

def assignedAll : List Node → Except Halt (List Bytes)
  | [] => return []
  | n :: ns => do return (← assigned n) ++ (← assignedAll ns)

def assignedBody : Option (List Node) → Except Halt (List Bytes)
  | none => .error .missingBody
  | some ss => assignedAll ss

def assignedElse : Option (List Node) → Except Halt (List Bytes)
  | none => return []
  | some ss => assignedAll ss

end

/-- The variable a condition compares, if its left operand is one. -/
def comparedVar : Node → List Bytes
  | .binary _ (.var name) _ => [name]
  | _ => []

def firsts : List Bytes → List Bytes
  | [] => []
  | n :: ns => n :: (firsts ns).filter (· ≠ n)

/-- The names a loop rebinds, each once, in order of first sight. -/
def loopBindings (cond : Node) (body : Body) : Except Halt (List Bytes) := do
  return firsts (((← assignedBody body) ++ comparedVar cond).map unquote)

end RToJulia.Julia
