import RToJulia.Grammar.Fault

/-!
# Parsers over token lists

A parser takes a token list and yields a value and the tokens left, or a fault
and the tokens left at it, or it halts.  It halts when it reads past the last
token, which a list with an `eof` token never lets happen, or when a literal
token does not carry a value of its kind.

After a fault no more of the tree is built, but the constructs around it are
still closed: each takes its own closing tokens if they come next.  That never
changes the fault; it only decides whether the list is read past its end.
-/

namespace RToJulia.Grammar

inductive Halt where
  | pastEnd
  | literal
  /-- The given depth of rules was not enough. -/
  | depth
  deriving DecidableEq, Repr

inductive Outcome (α : Type) where
  | done (value : α) (rest : List Token)
  | fail (fault : SyntaxFault) (rest : List Token)
  | halt (reason : Halt)

def Parser (α : Type) := List Token → Outcome α

namespace Parser

variable {α β : Type}

protected def pure (a : α) : Parser α :=
  fun ts => .done a ts

protected def bind (p : Parser α) (f : α → Parser β) : Parser β :=
  fun ts => match p ts with
    | .done a rest => f a rest
    | .fail e rest => .fail e rest
    | .halt r => .halt r

instance : Monad Parser where
  pure := Parser.pure
  bind := Parser.bind

def stop (reason : Halt) : Parser α :=
  fun _ => .halt reason

def peek : Parser Token
  | [] => .halt .pastEnd
  | t :: ts => .done t (t :: ts)

def take : Parser Token
  | [] => .halt .pastEnd
  | t :: ts => .done t ts

def failAt (place : Token) (cause : SyntaxCause) : Parser α :=
  fun ts => .fail ⟨place, cause⟩ ts

def next (kind : Kind) : Parser Bool := do
  return (← peek).kind = kind

def expect (kind : Kind) : Parser Token := do
  let t ← peek
  if t.kind = kind then take else failAt t (.expected kind.name [])

def skipNewlines : Parser Unit := fun ts =>
  match ts.dropWhile (·.kind = .newline) with
  | [] => .halt .pastEnd
  | rest => .done () rest

/-- The tokens left after closing a construct behind a fault; `none` past the end. -/
abbrev Skim := List Token → Option (List Token)

/-- After a fault, close the construct around it. -/
def orSkim (p : Parser α) (skim : Skim) : Parser α := fun ts =>
  match p ts with
  | .fail e rest =>
      match skim rest with
      | some rest => .fail e rest
      | none => .halt .pastEnd
  | outcome => outcome

end Parser

namespace Skim

open RToJulia.Grammar.Parser (Skim)

def kind (k : Kind) : Skim
  | [] => none
  | t :: ts => some (if t.kind = k then ts else t :: ts)

/-- Take the signs in front of an expression. -/
def expr : Skim
  | [] => none
  | t :: ts => if t.kind = .bang || t.kind = .minus then expr ts else some (t :: ts)

/-- Take the first name of a parameter list. -/
def params : Skim
  | [] => none
  | t :: ts => some (if t.kind = .ident then ts else t :: ts)

def seq (first second : Skim) : Skim :=
  fun ts => first ts >>= second

end Skim

end RToJulia.Grammar
