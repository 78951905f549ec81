import RToJulia.Options.Override
import RToJulia.Yaml.Document
import RToJulia.Yaml.Decode

/-!
# The settings file

A settings file is a YAML mapping from the names of options to their values,
laid over the default options.  Names that are no options are passed over.
-/

namespace RToJulia.Settings

open Text Yaml

inductive Fault where
  /-- The file is not a document. -/
  | unreadable
  /-- Values do not fit their options. -/
  | misfits (list : List Misfit)
  /-- The options are not allowed. -/
  | invalid (faults : List Options.Fault)

def Fault.message (path : Bytes) : Fault → Bytes
  | unreadable => path ++ ": yaml: cannot read the document"
  | misfits list =>
      path ++ ": yaml: unmarshal errors:" ++ list.flatMap fun m => utf8 "\n  " ++ m.message
  | invalid faults => Options.faultLines faults

/-- Options together with the misfits met so far, in order. -/
abbrev Reading := Options × List Misfit

/-- Take a decoded value, or note why there is none. -/
def accept {α : Type} (r : Reading) (set : α → Options) : Except Misfit α → Reading
  | .ok a => (set a, r.2)
  | .error m => (r.1, r.2 ++ [m])

def readEntry (r : Reading) (entry : Value × Value) : Reading :=
  let o := r.1
  let v := entry.2
  match entry.1.toText [] with
  | .error m => (o, r.2 ++ [m])
  | .ok key =>
      if key = "indent_width" then
        accept r (fun n => { o with indentWidth := n }) (v.toInteger o.indentWidth)
      else if key = "list_positional_keys" then
        accept r (fun b => { o with listPositionalKeys := b }) (v.toTruth o.listPositionalKeys)
      else if key = "matrix_fallback" then
        accept r (fun s => { o with matrixFallback := s }) (v.toText o.matrixFallback)
      else if key = "sequence_prefix" then
        accept r (fun s => { o with sequenceLead := s }) (v.toText o.sequenceLead)
      else r

/-- The options of a document, with its misfits.  Repeated keys are reported alone. -/
def ofValue (v : Value) : Reading :=
  match v with
  | .mapping _ entries =>
      match repeatedKeys entries with
      | [] => entries.foldl readEntry ({}, [])
      | repeated => ({}, repeated)
  | _ => if v.isNull then ({}, []) else ({}, [.kind v "config.Config"])

def ofText (s : Bytes) : Except Fault Options :=
  match read? s with
  | none => .error .unreadable
  | some v =>
      match ofValue v with
      | (o, []) =>
          match o.check with
          | .ok o' => .ok o'
          | .error faults => .error (.invalid faults)
      | (_, list) => .error (.misfits list)

end RToJulia.Settings
