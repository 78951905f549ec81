import RToJulia.Grammar.Rules

/-! # The ways a parser ends

`Outcome.Sat` reads an outcome through one condition for each way a parser can
end: with a value, at a fault, or halted. A parser made of others meets its
conditions when its parts meet theirs in turn, so a rule is checked one call at a
time from what its callees guarantee.
-/

namespace RToJulia.Grammar

open RToJulia.Grammar.Parser

variable {α β : Type}

/-- The outcome meets `done` with its value, `fail` at its fault or `halt` with its reason. -/
def Outcome.Sat (done : α → List Token → Prop) (fail : List Token → Prop) (halt : Halt → Prop) :
    Outcome α → Prop
  | .done value rest => done value rest
  | .fail _ rest => fail rest
  | .halt reason => halt reason

theorem Outcome.Sat.mono {o : Outcome α} {done done' : α → List Token → Prop}
    {fail fail' : List Token → Prop} {halt halt' : Halt → Prop} (h : o.Sat done fail halt)
    (hd : ∀ a rest, done a rest → done' a rest) (hf : ∀ rest, fail rest → fail' rest)
    (hh : ∀ reason, halt reason → halt' reason) : o.Sat done' fail' halt' := by
  cases o with
  | done a rest => exact hd a rest h
  | fail e rest => exact hf rest h
  | halt reason => exact hh reason h

theorem Outcome.Sat.bind {p : Parser α} {f : α → Parser β} {ts : List Token}
    {mid : α → List Token → Prop} {done : β → List Token → Prop} {fail : List Token → Prop}
    {halt : Halt → Prop} (hp : (p ts).Sat mid fail halt)
    (hf : ∀ a rest, mid a rest → (f a rest).Sat done fail halt) :
    ((p >>= f) ts).Sat done fail halt := by
  change (match p ts with
    | .done a rest => f a rest
    | .fail e rest => .fail e rest
    | .halt r => .halt r).Sat done fail halt
  cases h : p ts with
  | done a rest =>
      rw [h] at hp
      exact hf a rest hp
  | fail e rest =>
      rw [h] at hp
      exact hp
  | halt reason =>
      rw [h] at hp
      exact hp

theorem bind_eq_done {p : Parser α} {f : α → Parser β} {ts rest : List Token} {b : β}
    (h : (p >>= f) ts = .done b rest) : ∃ a mid, p ts = .done a mid ∧ f a mid = .done b rest := by
  change Parser.bind p f ts = .done b rest at h
  unfold Parser.bind at h
  cases hp : p ts with
  | done a mid =>
      rw [hp] at h
      exact ⟨a, mid, rfl, h⟩
  | fail e mid =>
      rw [hp] at h
      contradiction
  | halt reason =>
      rw [hp] at h
      contradiction

/-! ## Steps that read no more than the next token -/

section Steps

variable (f : α → Parser β)

theorem bind_done {p : Parser α} {ts rest : List Token} {a : α} (h : p ts = .done a rest) :
    (p >>= f) ts = f a rest := by
  change (match p ts with
    | .done a rest => f a rest
    | .fail e rest => .fail e rest
    | .halt r => .halt r) = f a rest
  rw [h]

theorem bind_halt {p : Parser α} {ts : List Token} {reason : Halt} (h : p ts = .halt reason) :
    (p >>= f) ts = .halt reason := by
  change (match p ts with
    | .done a rest => f a rest
    | .fail e rest => .fail e rest
    | .halt r => .halt r) = .halt reason
  rw [h]

theorem bind_pure (a : α) (ts : List Token) : ((pure a : Parser α) >>= f) ts = f a ts := rfl

theorem bind_peek (f : Token → Parser β) (t : Token) (ts : List Token) :
    (peek >>= f) (t :: ts) = f t (t :: ts) := rfl

theorem bind_take (f : Token → Parser β) (t : Token) (ts : List Token) :
    (take >>= f) (t :: ts) = f t ts := rfl

theorem bind_next (f : Bool → Parser β) (kind : Kind) (t : Token) (ts : List Token) :
    (next kind >>= f) (t :: ts) = f (decide (t.kind = kind)) (t :: ts) := rfl

theorem bind_ahead (f : Bool → Parser β) (test : List Token → Bool) (ts : List Token) :
    (ahead test >>= f) ts = f (test ts) ts := rfl

end Steps

theorem expect_pos {kind : Kind} {t : Token} (h : t.kind = kind) (ts : List Token) :
    expect kind (t :: ts) = .done t ts := by
  change (if t.kind = kind then take else failAt t (.expected kind.name [])) (t :: ts) = _
  rw [if_pos h]
  rfl

theorem expect_neg {kind : Kind} {t : Token} (h : t.kind ≠ kind) (ts : List Token) :
    ∃ e, expect kind (t :: ts) = .fail e (t :: ts) := by
  refine ⟨⟨t, .expected kind.name []⟩, ?_⟩
  change (if t.kind = kind then take else failAt t (.expected kind.name [])) (t :: ts) = _
  rw [if_neg h]
  rfl

theorem skipNewlines_cons {t : Token} (h : t.kind ≠ .newline) (ts : List Token) :
    skipNewlines (t :: ts) = .done () (t :: ts) := by
  simp [skipNewlines, h]

/-- Closing a construct behind a fault changes only what is left at the fault. -/
theorem orSkim_sat {p : Parser α} {skim : Skim} {ts : List Token} {done : α → List Token → Prop}
    {mid fail : List Token → Prop} {halt : Halt → Prop} (hp : (p ts).Sat done mid halt)
    (hs : ∀ rest, mid rest → ∃ left, skim rest = some left ∧ fail left) :
    ((p.orSkim skim) ts).Sat done fail halt := by
  unfold orSkim
  cases h : p ts with
  | done a rest =>
      rw [h] at hp
      exact hp
  | halt reason =>
      rw [h] at hp
      exact hp
  | fail e rest =>
      rw [h] at hp
      obtain ⟨left, hl, hfail⟩ := hs rest hp
      simp only [hl]
      exact hfail

/-- What is asked of values only is kept. -/
theorem Outcome.Sat.orSkim {p : Parser α} {skim : Skim} {ts : List Token}
    {done : α → List Token → Prop} (hp : (p ts).Sat done (fun _ => True) (fun _ => True)) :
    ((p.orSkim skim) ts).Sat done (fun _ => True) (fun _ => True) := by
  unfold Parser.orSkim
  cases h : p ts with
  | done a rest =>
      rw [h] at hp
      exact hp
  | halt reason => trivial
  | fail e rest =>
      dsimp only
      cases skim rest <;> trivial

/-! ## Rules chosen by the next token -/

def literalTree? (t : Token) : Option Node :=
  match t.kind, t.literal with
  | .integer, some (.text digits) => some (.int digits)
  | .float, some (.real value) => some (.float value)
  | .string, some (.text value) => some (.string value)
  | .bool, some (.truth value) => some (.bool value)
  | _, _ => none

def isTyped (t : Token) : Bool :=
  match t.kind with
  | .integer | .float | .string | .bool => (literalTree? t).isSome
  | _ => true

/-- The statement an expression makes; assignments are statements already. -/
def asStatement (e : Node) : Node :=
  match e with
  | .assign .. | .assignIndex .. => e
  | _ => .exprStmt e

def commaList (item : Parser α) (value : α → β) (more : Parser (List β)) : Parser (List β) := do
  let a ← item
  skipNewlines
  if ← next .comma then
    let _ ← take
    skipNewlines
    let rest ← more
    return value a :: rest
  else return [value a]

namespace Rules

variable (r : Rules) (ts : List Token)

theorem argsRule_eq : r.argsRule = commaList r.arg id r.args := rfl

theorem namesRule_eq : r.namesRule = commaList (expect .ident) Token.lexeme r.names := rfl

def group : Parser Node := do
  skipNewlines
  let e ← r.assignment.orSkim (Skim.kind .rightParen)
  skipNewlines
  let _ ← expect .rightParen
  return e

def nameOrCall (name : Bytes) : Parser Node := do
  if ← next .leftParen then r.call name else return .var name

theorem statementRule_cons (t : Token) :
    r.statementRule (t :: ts) =
      if t.kind = .kwIf then r.ifRule (t :: ts)
      else if t.kind = .kwWhile then r.whileRule (t :: ts)
      else if t.kind = .kwFor then r.forRule (t :: ts)
      else if t.kind = .kwReturn then r.returnRule (t :: ts)
      else if startsDeclaration (t :: ts) then r.declarationRule (t :: ts)
      else r.exprRule (t :: ts) := by
  unfold statementRule
  rw [bind_peek]
  cases h : t.kind <;> simp [bind_ahead] <;> split <;> rfl

theorem exprRule_eq : r.exprRule = r.assignment >>= fun e => pure (asStatement e) := by
  unfold exprRule
  congr 1
  funext e
  cases e <;> rfl

theorem suffixesRule_cons (e : Node) (t : Token) :
    r.suffixesRule e (t :: ts) =
      if t.kind = .leftBracket then
        (r.assignment.orSkim (Skim.kind .rightBracket) >>= fun i =>
          expect .rightBracket >>= fun _ => r.suffixes (.index e i)) ts
      else if t.kind = .dollar then
        (expect .ident >>= fun name => r.suffixes (.field e name.lexeme)) ts
      else .done e (t :: ts) := by
  unfold suffixesRule
  rw [bind_peek]
  cases h : t.kind <;> simp <;> rfl

theorem atom_literal {t : Token} {e : Node} (h : literalTree? t = some e) :
    r.atom (t :: ts) = .done e ts := by
  unfold literalTree? at h
  unfold atom
  rw [bind_peek]
  split at h <;> try contradiction
  all_goals
    rename_i hk hl
    cases h
    simp only [hk, hl]
    rfl

theorem atom_ident {t : Token} (h : t.kind = .ident) :
    r.atom (t :: ts) = r.nameOrCall t.lexeme ts := by
  unfold atom
  rw [bind_peek]
  simp only [h]
  rfl

theorem atom_group {t : Token} (h : t.kind = .leftParen) : r.atom (t :: ts) = r.group ts := by
  unfold atom
  rw [bind_peek]
  simp only [h]
  rfl

/-- All an atom can be: a literal, a name or a call, a group, a fault at the next token or
behind it, or an untyped literal. -/
theorem atom_cases (t : Token) :
    (∃ e, literalTree? t = some e) ∨ t.kind = .ident ∨ t.kind = .leftParen ∨
      (∃ e, r.atom (t :: ts) = .fail e (t :: ts)) ∨
      (t.kind ≠ .eof ∧ ∃ e, r.atom (t :: ts) = .fail e ts) ∨
      (isTyped t = false ∧ r.atom (t :: ts) = .halt .literal) := by
  by_cases hl : (literalTree? t).isSome
  · exact .inl (Option.isSome_iff_exists.mp hl)
  have hnone : literalTree? t = none := by simpa using hl
  unfold atom
  rw [bind_peek]
  cases hk : t.kind with
  | eof => exact .inr (.inr (.inr (.inl ⟨_, rfl⟩)))
  | ident => exact .inr (.inl rfl)
  | leftParen => exact .inr (.inr (.inl rfl))
  | integer | float | string | bool =>
      refine .inr (.inr (.inr (.inr (.inr ⟨by simp [isTyped, hk, hnone], ?_⟩))))
      simp only [literalTree?, hk] at hnone
      generalize t.literal = literal at hnone
      rcases literal with _ | (value | value | value) <;> first | contradiction | rfl
  | _ => exact .inr (.inr (.inr (.inr (.inl ⟨by simp, _, rfl⟩))))

end Rules

end RToJulia.Grammar
