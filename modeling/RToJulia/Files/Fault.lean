import RToJulia.Text.Bytes

/-!
# Failed file operations

A failed operation names itself, the path it was given and the reason.
-/

namespace RToJulia

open Text

inductive Reason where
  | notFound
  | isDirectory
  | notDirectory
  | taken
  | other (words : Bytes)
  deriving DecidableEq, Repr

def Reason.message : Reason → Bytes
  | notFound => "no such file or directory"
  | isDirectory => "is a directory"
  | notDirectory => "not a directory"
  | taken => "file exists"
  | other words => words

inductive Operation where
  | open
  | read
  | makeDirectory
  deriving DecidableEq, Repr

def Operation.name : Operation → Bytes
  | .open => "open"
  | .read => "read"
  | .makeDirectory => "mkdir"

structure FileFault where
  operation : Operation
  path : Bytes
  reason : Reason
  deriving DecidableEq, Repr

def FileFault.message (f : FileFault) : Bytes :=
  f.operation.name ++ " " ++ f.path ++ ": " ++ f.reason.message

end RToJulia
