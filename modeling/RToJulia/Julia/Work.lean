import RToJulia.Options
import RToJulia.Tree.Basic
import RToJulia.Julia.Package

/-!
# The state of a writer

While a program is written, a writer keeps the record types in use, those among
them that this program is the first to use, the packages in use, and the first
node that has no Julia form.  Once there is such a node, every further node is
written as nothing, and the writing goes on to its end.

A writer halts on a missing body and on an indentation that no line can have: one
below zero, or one longer than any block of memory.
-/

namespace RToJulia.Julia

inductive Halt where
  | missingBody
  | indentation
  deriving DecidableEq, Repr

structure Work where
  records : List Bytes
  /-- The record types first used by this program, in order of use. -/
  fresh : List Bytes := []
  packages : List Package
  /-- The first node without a Julia form. -/
  unsupported : Option Node := none

abbrev Writer := StateT Work (Except Halt)

namespace Writer

def halt {α : Type} (reason : Halt) : Writer α :=
  fun _ => .error reason

def useRecord (type : Bytes) : Writer Unit :=
  modify fun w =>
    if type ∈ w.records then w
    else { w with records := w.records ++ [type], fresh := w.fresh ++ [type] }

def useFunction (function : Bytes) : Writer Unit :=
  modify fun w =>
    match Package.ofFunction? function with
    | some p => if p ∈ w.packages then w else { w with packages := w.packages ++ [p] }
    | none => w

/-- Note a node without a Julia form; only the first one counts. -/
def refuse (n : Node) : Writer Bytes := do
  modify fun w => { w with unsupported := w.unsupported <|> some n }
  return []

/-- Write nothing once a node was refused. -/
def unlessRefused (m : Writer Bytes) : Writer Bytes := do
  if (← get).unsupported.isSome then return [] else m

/-- The number of spaces in front of a line of a level, counted in 64 bits with a sign. -/
def marginWidth (o : Options) (level : Nat) : Int :=
  (o.indentWidth * level).bmod (Nat.pow 2 64)

/-- The greatest number of spaces that can be asked for: addresses have 48 bits, and no longer block
of memory is handed out. -/
def maxMargin : Int := Nat.pow 2 48

def margin (o : Options) (level : Nat) : Writer Bytes :=
  let width := marginWidth o level
  if width < 0 || maxMargin < width then halt .indentation
  else return List.replicate width.toNat 0x20

end Writer

/-- The lines that are not empty, one after the other. -/
def joinLines (lines : List Bytes) : Bytes :=
  Text.joinNonempty "\n" lines

def commaList (parts : List Bytes) : Bytes :=
  List.intercalate (Text.utf8 ", ") parts

end RToJulia.Julia
