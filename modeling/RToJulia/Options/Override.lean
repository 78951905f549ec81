import RToJulia.Options
import RToJulia.Text.Integer
import RToJulia.Text.Quoted

/-!
# Overriding options by name

An override is the name of an option with the text of its value.  Overrides are
applied one after another, the result is then checked as a whole.
-/

namespace RToJulia

open Text

namespace Options

def check (o : Options) : Except (List Fault) Options :=
  if o.faults = [] then .ok o else .error o.faults

def faultLines (fs : List Fault) : Bytes :=
  List.intercalate (utf8 "\n") (fs.map Fault.message)

inductive OverrideFault where
  | unknown (name : Bytes)
  | indent (text : Bytes) (reason : NumberFault)
  | listPositionalKeys (text : Bytes)
  | invalid (faults : List Fault)
  deriving DecidableEq, Repr

def OverrideFault.message : OverrideFault → Bytes
  | unknown name => "unknown option -" ++ name
  | indent text reason =>
      "-indent: strconv.Atoi: parsing " ++ quoted text ++ ": " ++ reason.message
  | listPositionalKeys text =>
      "-list-positional-keys: strconv.ParseBool: parsing " ++ quoted text ++ ": " ++
        NumberFault.malformed.message
  | invalid faults => faultLines faults

inductive Name where
  | indent
  | listPositionalKeys
  | matrixFallback
  | sequenceLead
  deriving DecidableEq, Repr

def Name.ofText? (s : Bytes) : Option Name :=
  if s = "indent" then some .indent
  else if s = "list-positional-keys" then some .listPositionalKeys
  else if s = "matrix-fallback" then some .matrixFallback
  else if s = "seq-prefix" then some .sequenceLead
  else none

def set (o : Options) (name : Name) (value : Bytes) : Except OverrideFault Options :=
  match name with
  | .indent =>
      match readInteger value with
      | .ok n => .ok { o with indentWidth := n }
      | .error reason => .error (.indent value reason)
  | .listPositionalKeys =>
      match readTruth? value with
      | some b => .ok { o with listPositionalKeys := b }
      | none => .error (.listPositionalKeys value)
  | .matrixFallback => .ok { o with matrixFallback := value }
  | .sequenceLead => .ok { o with sequenceLead := value }

def setAll (o : Options) : List (Bytes × Bytes) → Except OverrideFault Options
  | [] => .ok o
  | (name, value) :: rest =>
      match Name.ofText? name with
      | none => .error (.unknown name)
      | some n =>
          match o.set n value with
          | .ok o' => o'.setAll rest
          | .error f => .error f

def override (o : Options) (changes : List (Bytes × Bytes)) : Except OverrideFault Options := do
  let o' ← o.setAll changes
  match o'.check with
  | .ok o'' => .ok o''
  | .error faults => .error (.invalid faults)

end Options

end RToJulia
