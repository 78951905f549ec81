import RToJulia.Julia.Write
import RToJulia.Tree.Text

/-!
# Sessions

A session writes one program after another and remembers which record types it
has defined and which packages it has loaded.  A program is written as the lines
that load packages, the definitions of the record types it is the first to use,
and its statements.  A program with a node that has no Julia form is refused as a
whole; the record types it was the first to use are forgotten again.
-/

namespace RToJulia.Julia

open Text Writer

structure Session where
  records : List Bytes := []
  packages : List Package := []

structure Unsupported where
  node : Node

def Unsupported.message (u : Unsupported) : Bytes :=
  "no code generation rule for *ast." ++ u.node.formName ++ ": " ++ u.node.shown

/-- The name of the only field of a record type. -/
def recordField : Bytes := "value"

def recordDefinition (o : Options) (type : Bytes) : Writer Bytes := do
  return joinLines ["struct " ++ type, (← margin o 1) ++ recordField, "end"]

/-- Write the statements of a program, the empty ones left out. -/
def writeProgram (o : Options) (statements : List Node) : Writer (List Bytes) := do
  return (← statements.mapM (write o · 0)).filter (· ≠ [])

namespace Session

def start (s : Session) : Work :=
  { records := s.records, packages := s.packages }

def afterRefusal (w : Work) : Session where
  records := w.records.filter (· ∉ w.fresh)
  packages := w.packages

def afterProgram (w : Work) : Session where
  records := w.records
  packages := w.packages

def generate (o : Options) (s : Session) (statements : List Node) :
    Except Halt (Except Unsupported Bytes × Session) := do
  let (lines, w) ← (writeProgram o statements).run s.start
  match w.unsupported with
  | some n => return (.error ⟨n⟩, afterRefusal w)
  | none =>
      let (definitions, _) ← (w.fresh.mapM (recordDefinition o)).run w
      return (.ok (joinLines (Package.header w.packages :: definitions ++ lines)), afterProgram w)

end Session

end RToJulia.Julia
