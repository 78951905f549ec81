import RToJulia.Yaml.Document
import RToJulia.Yaml.Decode

/-!
# Files of test cases

A file of test cases is a YAML sequence of cases; a case takes part only if it is
enabled.
-/

namespace RToJulia

open Text Yaml

/-- A source with the texts expected of it by name. -/
structure Case where
  label : Bytes := []
  enable : Bool := false
  input : Bytes := []
  expected : List (Bytes × Bytes) := []
  deriving DecidableEq, Repr

namespace Case

/-- A mapping from names to texts; a null is an empty text. -/
def textsOf (before : List (Bytes × Bytes)) (v : Value) :
    Except Misfit (List (Bytes × Bytes)) :=
  match v with
  | .mapping _ entries =>
      match repeatedKeys entries with
      | m :: _ => .error m
      | [] => entries.mapM fun e => do
          let key ← e.1.toText []
          let text ← e.2.toText []
          pure (key, text)
  | _ => if v.isNull then .ok before else .error (.kind v "texts")

def readEntry (c : Case) (entry : Value × Value) : Except Misfit Case := do
  let key ← entry.1.toText []
  let v := entry.2
  if key = "label" then pure { c with label := ← v.toText c.label }
  else if key = "enable" then pure { c with enable := ← v.toTruth c.enable }
  else if key = "input" then pure { c with input := ← v.toText c.input }
  else if key = "expected" then pure { c with expected := ← textsOf c.expected v }
  else pure c

def ofValue (v : Value) : Except Misfit Case :=
  match v with
  | .mapping _ entries =>
      match repeatedKeys entries with
      | m :: _ => .error m
      | [] => entries.foldlM readEntry {}
  | _ => if v.isNull then .ok {} else .error (.kind v "case")

/-- The enabled cases of a file, in order; `none` if the file cannot be read. -/
def ofText? (s : Bytes) : Option (List Case) :=
  match read? s with
  | none => none
  | some (.sequence _ items) =>
      (items.mapM ofValue).toOption.map fun cases => cases.filter Case.enable
  | some v => if v.isNull then some [] else none

end Case

end RToJulia
