import RToJulia.Command.Lines
import RToJulia.Text.Utf8

/-!
# History

The lines entered at a prompt, the oldest first.  A history has at most a
thousand lines, and a line is not added right after itself.
-/

namespace RToJulia.Command

open Text

abbrev History := List Bytes

namespace History

def limit : Nat := 1000

/-- Add a line at the end, dropping the oldest one if there are too many. -/
def push (h : History) (line : Bytes) : History :=
  let longer := h ++ [line]
  if limit < longer.length then longer.drop 1 else longer

/-- Add an entered line, unless it is the latest one again. -/
def enter (h : History) (line : Bytes) : History :=
  if h.getLast? = some line then h else h.push line

/-- Why the rest of a history file is not read; lines count from one. -/
inductive Fault where
  | tooLong (line : Nat)
  | notText (line : Nat)
  deriving DecidableEq, Repr

def Fault.message : Fault → Bytes
  | tooLong line => "line " ++ decimal line ++ " is too long"
  | notText line => "invalid string at line " ++ decimal line

/-- Add the lines of a history file, up to the first one at fault. -/
def addLines (h : History) (count : Nat) : List Line → History × Option Fault
  | [] => (h, none)
  | line :: rest =>
      if line.goesOn then (h, some (.tooLong (count + 1)))
      else if !isUtf8 line.text then (h, some (.notText (count + 1)))
      else addLines (h.push line.text) (count + 1) rest

def ofText (s : Bytes) : History × Option Fault :=
  addLines [] 0 (lines s)

def toText (h : History) : Bytes :=
  h.flatMap fun line => line ++ [0x0a]

end History

end RToJulia.Command
