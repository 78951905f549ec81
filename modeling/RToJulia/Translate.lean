import RToJulia.Token.Lexer
import RToJulia.Grammar.Rules
import RToJulia.Julia.Session

/-!
# From R text to Julia text

A source is cut into tokens, read as a program and written in a session of its
own.  What could not be cut is reported as warnings and does not stop the rest.
-/

namespace RToJulia

open Text

inductive TranslateFault where
  | parse (f : SyntaxFault)
  | generate (u : Julia.Unsupported)

def TranslateFault.message : TranslateFault → Bytes
  | parse f => "parse: " ++ f.message
  | generate u => "generate: " ++ u.message

inductive Halt where
  | parser (reason : Grammar.Halt)
  | writer (reason : Julia.Halt)
  deriving DecidableEq, Repr

/-- The warnings about what could not be cut, one line each. -/
def warnings (source : Bytes) : Bytes :=
  (lexFaults source).flatMap fun f => "warning: " ++ f.message ++ "\n"

def parseSource (source : Bytes) : Except Refusal (List Node) :=
  parse (tokens source)

def translate (o : Options) (source : Bytes) : Except Halt (Except TranslateFault Bytes) :=
  match parseSource source with
  | .error (.fault f) => .ok (.error (.parse f))
  | .error (.halt reason) => .error (.parser reason)
  | .ok statements =>
      match Julia.Session.generate o {} statements with
      | .error reason => .error (.writer reason)
      | .ok (.error u, _) => .ok (.error (.generate u))
      | .ok (.ok text, _) => .ok (.ok text)

end RToJulia
