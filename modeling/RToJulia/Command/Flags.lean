import RToJulia.Text.Integer
import RToJulia.Text.Quoted
import RToJulia.Token.Basic

/-!
# Flags

Arguments that start with one or two dashes set flags, up to the first argument
that does not, or up to two dashes alone.  A flag's value follows an equals sign
or is the next argument; a truth flag takes a value only after an equals sign.
-/

namespace RToJulia.Command

open Text

structure Flags where
  input : Bytes := []
  output : Bytes := "juliaExamples"
  directory : Bytes := "RProjectExamples"
  address : Bytes := []
  settings : Bytes := []
  batch : Bool := false
  /-- The options set, each by its name and the text of its value. -/
  overrides : List (Bytes × Bytes) := []
  deriving DecidableEq, Repr

inductive FlagKind where
  | text
  | integer
  | truth
  deriving DecidableEq, Repr

def flagTable : List (String × FlagKind × String) :=
  [("batch", .truth, "translate files from -dir"),
   ("config", .text, "config file path (default $XDG_CONFIG_HOME/rjulia/config.yaml)"),
   ("dir", .text, "directory of R files for batch mode"),
   ("i", .text, "input file path (shorthand)"),
   ("indent", .integer, "spaces per indentation level (overrides the config file)"),
   ("input", .text, "input file path"),
   ("list-positional-keys", .truth,
     "key positional list() entries by position (overrides the config file)"),
   ("matrix-fallback", .text,
     "matrix() without dimensions: reshape or passthrough (overrides the config file)"),
   ("o", .text, "output directory (shorthand)"),
   ("output", .text, "output directory"),
   ("seq-prefix", .text, "name prefix of sequence variables (overrides the config file)"),
   ("serve", .text, "serve the web interface on this address, e.g. :8080")]

def usage : Bytes :=
  "Usage of rjulia:\n" ++ flagTable.flatMap fun f => utf8 ("  -" ++ f.1 ++ "\n    \t" ++ f.2.2 ++ "\n")

def kindOf? (name : Bytes) : Option FlagKind :=
  (flagTable.find? fun f => utf8 f.1 = name).map fun f => f.2.1

inductive FlagFault where
  /-- Help was asked for. -/
  | help
  | badSyntax (argument : Bytes)
  | notDefined (name : Bytes)
  | needsArgument (name : Bytes)
  | invalidInteger (name value : Bytes) (reason : NumberFault)
  | invalidTruth (name value : Bytes)
  deriving DecidableEq, Repr

def integerReason : NumberFault → Bytes
  | .malformed => "parse error"
  | .outOfRange => "value out of range"

/-- The message of a fault: the reason if there is one, and the usage. -/
def FlagFault.message : FlagFault → Bytes
  | help => usage
  | badSyntax argument => "bad flag syntax: " ++ argument ++ "\n" ++ usage
  | notDefined name => "flag provided but not defined: -" ++ name ++ "\n" ++ usage
  | needsArgument name => "flag needs an argument: -" ++ name ++ "\n" ++ usage
  | invalidInteger name value reason =>
      "invalid value " ++ quoted value ++ " for flag -" ++ name ++ ": " ++ integerReason reason ++
        "\n" ++ usage
  | invalidTruth name value =>
      "invalid boolean value " ++ quoted value ++ " for -" ++ name ++ ": parse error\n" ++ usage

/-- Note the value of an option, in place of an earlier one. -/
def noteOverride (name value : Bytes) : List (Bytes × Bytes) → List (Bytes × Bytes)
  | [] => [(name, value)]
  | x :: rest => if x.1 = name then (name, value) :: rest else x :: noteOverride name value rest

def Flags.setText (f : Flags) (name value : Bytes) : Flags :=
  if name = "input" || name = "i" then { f with input := value }
  else if name = "output" || name = "o" then { f with output := value }
  else if name = "dir" then { f with directory := value }
  else if name = "serve" then { f with address := value }
  else if name = "config" then { f with settings := value }
  else { f with overrides := noteOverride name value f.overrides }

def Flags.setValue (f : Flags) (kind : FlagKind) (name value : Bytes) : Except FlagFault Flags :=
  match kind with
  | .integer =>
      match readBasedInteger value with
      | .ok n => .ok (f.setText name (signedDecimal n))
      | .error reason => .error (.invalidInteger name value reason)
  | _ => .ok (f.setText name value)

def Flags.setTruth (f : Flags) (name value : Bytes) : Except FlagFault Flags :=
  match readTruth? value with
  | none => .error (.invalidTruth name value)
  | some b =>
      if name = "batch" then .ok { f with batch := b } else .ok (f.setText name (truthText b))

inductive Argument where
  /-- The flags end before this argument. -/
  | stop
  | bad
  | flag (name : Bytes) (value : Option Bytes)
  deriving DecidableEq, Repr

/-- Split the name of a flag from a value after an equals sign; the name is not empty. -/
def splitValue : Bytes → Bytes × Option Bytes
  | [] => ([], none)
  | b :: rest =>
      if rest.contains 0x3d then
        let (name, value) := cut 0x3d rest
        (b :: name, some value)
      else (b :: rest, none)

def Argument.ofName (s : Bytes) : Argument :=
  if s = [] || s.head? = some 0x2d || s.head? = some 0x3d then .bad
  else
    let (name, value) := splitValue s
    .flag name value

def Argument.ofText : Bytes → Argument
  | 0x2d :: 0x2d :: [] => .stop
  | 0x2d :: 0x2d :: name => Argument.ofName name
  | 0x2d :: b :: name => Argument.ofName (b :: name)
  | _ => .stop

/-- Set flags from arguments, the first of which may be the value that a flag waits for. -/
def Flags.readAfter (f : Flags) (waiting : Option (FlagKind × Bytes)) :
    List Bytes → Except FlagFault Flags
  | [] =>
      match waiting with
      | none => .ok f
      | some (_, name) => .error (.needsArgument name)
  | argument :: rest =>
      match waiting with
      | some (kind, name) =>
          match f.setValue kind name argument with
          | .ok f' => f'.readAfter none rest
          | .error e => .error e
      | none =>
          match Argument.ofText argument with
          | .stop => .ok f
          | .bad => .error (.badSyntax argument)
          | .flag name value =>
              match kindOf? name, value with
              | none, _ =>
                  if name = "help" || name = "h" then .error .help else .error (.notDefined name)
              | some .truth, _ =>
                  match f.setTruth name (value.getD "true") with
                  | .ok f' => f'.readAfter none rest
                  | .error e => .error e
              | some kind, some v =>
                  match f.setValue kind name v with
                  | .ok f' => f'.readAfter none rest
                  | .error e => .error e
              | some kind, none => f.readAfter (some (kind, name)) rest

def Flags.ofArguments (arguments : List Bytes) : Except FlagFault Flags :=
  Flags.readAfter {} none arguments

end RToJulia.Command
