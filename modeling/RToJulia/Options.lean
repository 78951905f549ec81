import RToJulia.Text.Bytes

/-!
# Options of the writer

The choices that have more than one reasonable answer.  Options may hold any
values; `Options.faults` lists those that are not allowed.
-/

namespace RToJulia

open Text

structure Options where
  /-- The number of spaces per level of indentation. -/
  indentWidth : Int := 4
  /-- Whether `list` keys its positional entries by their position, or drops them. -/
  listPositionalKeys : Bool := true
  /-- What `matrix` without dimensions becomes: `reshape` or `passthrough`. -/
  matrixFallback : Bytes := "reshape"
  /-- The beginning of the names of variables that hold a sequence. -/
  sequenceLead : Bytes := "vec"
  deriving DecidableEq, Repr

namespace Options

inductive Fault where
  | indentWidth (value : Int)
  | matrixFallback (value : Bytes)
  deriving DecidableEq, Repr

def Fault.message : Fault → Bytes
  | indentWidth value => "invalid value for indent_width: " ++ signedDecimal value
  | matrixFallback value => "invalid value for matrix_fallback: " ++ value

def faults (o : Options) : List Fault :=
  (if o.indentWidth ≤ 0 then [.indentWidth o.indentWidth] else []) ++
  (if o.matrixFallback = "reshape" || o.matrixFallback = "passthrough" then []
   else [.matrixFallback o.matrixFallback])

end Options

end RToJulia
