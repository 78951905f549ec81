import RToJulia.Proofs.Grammar.Calculus

/-! # The labels of a tree

Names, operators and literals are the labels of a tree. A requirement on labels is
met by a tree when every node meets it, and carried by a token when the label the
token would give to a tree meets it.
-/

namespace RToJulia

structure Labels where
  name : Bytes → Prop
  operator : Bytes → Prop
  sign : Bytes → Prop
  digits : Bytes → Prop
  real : Decimal.Binary64 → Prop
  text : Bytes → Prop

namespace Labels

variable (L : Labels)

mutual

def Meets : Node → Prop
  | .gap => True
  | .program ss => MeetsAll ss
  | .block ss => MeetsAll ss
  | .assign name value => L.name name ∧ Meets value
  | .assignIndex target i value => Meets target ∧ Meets i ∧ Meets value
  | .exprStmt e => Meets e
  | .ifElse cond yes no => Meets cond ∧ MeetsBody yes ∧ MeetsBody no
  | .whileLoop cond body => Meets cond ∧ MeetsBody body
  | .forLoop name start stop body => L.name name ∧ Meets start ∧ Meets stop ∧ MeetsBody body
  | .function name params body => L.name name ∧ (∀ p ∈ params, L.name p) ∧ MeetsBody body
  -- An operator and its class are the two parts of one name.
  | .operator op cls params body =>
      L.name (0x60 :: (op ++ 0x2e :: cls ++ [0x60])) ∧ (∀ p ∈ params, L.name p) ∧ MeetsBody body
  | .ret value => Meets value
  | .call name args => L.name name ∧ MeetsAll args
  | .named name value => L.name name ∧ Meets value
  | .binary op left right => L.operator op ∧ Meets left ∧ Meets right
  | .unary op operand => L.sign op ∧ Meets operand
  | .var name => L.name name
  | .int digits => L.digits digits
  | .float value => L.real value
  | .string value => L.text value
  | .bool _ => True
  | .index target i => Meets target ∧ Meets i
  -- The name of a field is also the text of a key.
  | .field target name => L.name name ∧ L.text name ∧ Meets target
  | .predicate _ e => Meets e

def MeetsAll : List Node → Prop
  | [] => True
  | n :: ns => Meets n ∧ MeetsAll ns

def MeetsBody : Option (List Node) → Prop
  | none => True
  | some ss => MeetsAll ss

end

/-- The label that a token gives to a tree is as required; a name may also become a key. -/
structure Carried (t : Token) : Prop where
  name : t.kind = .ident → L.name t.lexeme ∧ L.text t.lexeme
  operator : (Grammar.level? t.kind).isSome → L.operator t.lexeme
  sign : t.kind = .bang ∨ t.kind = .minus → L.sign t.lexeme
  literal : ∀ e, Grammar.literalTree? t = some e → L.Meets e

theorem meetsAll_iff (ns : List Node) : L.MeetsAll ns ↔ ∀ n ∈ ns, L.Meets n := by
  induction ns with
  | nil => simp [MeetsAll]
  | cons n ns ih => simp [MeetsAll, ih]

structure Free : Prop where
  name : ∀ x, L.name x
  operator : ∀ op, L.operator op
  sign : ∀ op, L.sign op
  digits : ∀ ds, L.digits ds
  real : ∀ v, L.real v
  text : ∀ s, L.text s

variable {L}

mutual

theorem Free.meets (h : L.Free) : ∀ n : Node, L.Meets n
  | .gap | .bool _ => trivial
  | .program ss | .block ss => Free.meetsAll h ss
  | .assign x value | .named x value => ⟨h.name x, Free.meets h value⟩
  | .assignIndex target i value => ⟨Free.meets h target, Free.meets h i, Free.meets h value⟩
  | .exprStmt e | .ret e | .predicate _ e => Free.meets h e
  | .ifElse cond yes no => ⟨Free.meets h cond, Free.meetsBody h yes, Free.meetsBody h no⟩
  | .whileLoop cond body => ⟨Free.meets h cond, Free.meetsBody h body⟩
  | .forLoop x start stop body =>
      ⟨h.name x, Free.meets h start, Free.meets h stop, Free.meetsBody h body⟩
  | .function _ _ body | .operator _ _ _ body =>
      ⟨h.name _, fun p _ => h.name p, Free.meetsBody h body⟩
  | .call f args => ⟨h.name f, Free.meetsAll h args⟩
  | .binary op left right => ⟨h.operator op, Free.meets h left, Free.meets h right⟩
  | .unary op operand => ⟨h.sign op, Free.meets h operand⟩
  | .var x => h.name x
  | .int digits => h.digits digits
  | .float value => h.real value
  | .string value => h.text value
  | .index target i => ⟨Free.meets h target, Free.meets h i⟩
  | .field target x => ⟨h.name x, h.text x, Free.meets h target⟩

theorem Free.meetsAll (h : L.Free) : ∀ ns : List Node, L.MeetsAll ns
  | [] => trivial
  | n :: ns => ⟨Free.meets h n, Free.meetsAll h ns⟩

theorem Free.meetsBody (h : L.Free) : ∀ body : Option (List Node), L.MeetsBody body
  | none => trivial
  | some ss => Free.meetsAll h ss

end

end Labels

end RToJulia
