import RToJulia.Proofs.Grammar.Safety
import RToJulia.Proofs.Tree.WellFormed

/-! # Canonical tokens of a tree

Every well-formed tree has a canonical token list: each subexpression stands in
parentheses, each body in braces, and a semicolon follows each statement. The list
ends with `eof`, and its literals carry values of their kinds.
-/

namespace RToJulia

namespace Canonical

def mark (kind : Kind) (lexeme : Bytes) : Token := ⟨kind, lexeme, 1, none⟩

def name (lexeme : Bytes) : Token := mark .ident lexeme

def operators : List (String × Kind) := [
  ("||", .or), ("|", .or), ("&&", .and), ("&", .and), ("==", .equalEqual), ("!=", .bangEqual),
  ("<", .less), ("<=", .lessEqual), (">", .greater), (">=", .greaterEqual), ("+", .plus),
  ("-", .minus), ("*", .star), ("/", .slash), ("^", .caret), (":", .colon)]

/-- A token for a binary operator; one without a spelling of its own is a kind of sum. -/
def operator (op : Bytes) : Token :=
  mark (((operators.find? fun entry => Text.utf8 entry.1 = op).map (·.2)).getD .plus) op

def sign (op : Bytes) : Token := mark (if op = "!" then .bang else .minus) op

def grouped (ts : List Token) : List Token :=
  mark .leftParen "(" :: ts ++ [mark .rightParen ")"]

def separated : List (List Token) → List Token
  | [] => []
  | [item] => item
  | item :: items => item ++ mark .comma "," :: separated items

mutual

def expr : Node → List Token
  | .assign x value => name x :: mark .backArrow "<-" :: grouped (expr value)
  | .assignIndex target i value =>
      grouped (expr target) ++ mark .leftBracket "[" :: grouped (expr i) ++
        mark .rightBracket "]" :: mark .backArrow "<-" :: grouped (expr value)
  | .call f as => name f :: mark .leftParen "(" :: separated (args as) ++ [mark .rightParen ")"]
  | .named x value => name x :: mark .equal "=" :: grouped (expr value)
  | .binary op left right => grouped (expr left) ++ operator op :: grouped (expr right)
  | .unary op operand => sign op :: grouped (expr operand)
  | .var x => [name x]
  | .int digits => [⟨.integer, digits, 1, some (.text digits)⟩]
  | .float value => [⟨.float, value.generalForm, 1, some (.real value)⟩]
  | .string value => [⟨.string, Text.quoted value, 1, some (.text value)⟩]
  | .bool value => [⟨.bool, truthText value, 1, some (.truth value)⟩]
  | .index target i =>
      grouped (expr target) ++ mark .leftBracket "[" :: grouped (expr i) ++
        [mark .rightBracket "]"]
  | .field target x => grouped (expr target) ++ [mark .dollar "$", name x]
  | .predicate test e =>
      name test.name :: mark .leftParen "(" :: grouped (expr e) ++ [mark .rightParen ")"]
  | _ => []

def args : List Node → List (List Token)
  | [] => []
  | a :: as => (if a.isNamed then expr a else grouped (expr a)) :: args as

end

def arg (a : Node) : List Token :=
  if a.isNamed then expr a else grouped (expr a)

theorem args_eq_map (as : List Node) : args as = as.map arg := by
  induction as with
  | nil => simp [args]
  | cons a as ih => simp [args, arg, ih]

def range (start stop : Node) : List Token :=
  if start.isGap then grouped (expr stop) else expr (.binary ":" start stop)

def params (names : List Bytes) : List Token :=
  mark .leftParen "(" :: separated (names.map fun x => [name x]) ++ [mark .rightParen ")"]

mutual

def statement : Node → List Token
  | .exprStmt e => grouped (expr e)
  | .ifElse cond yes no =>
      mark .kwIf "if" :: mark .leftParen "(" :: grouped (expr cond) ++ mark .rightParen ")" ::
        body yes ++ orElse no
  | .whileLoop cond ss =>
      mark .kwWhile "while" :: mark .leftParen "(" :: grouped (expr cond) ++
        mark .rightParen ")" :: body ss
  | .forLoop x start stop ss =>
      mark .kwFor "for" :: mark .leftParen "(" :: name x :: mark .kwIn "in" ::
        range start stop ++ mark .rightParen ")" :: body ss
  | .function x ps ss =>
      name x :: mark .backArrow "<-" :: mark .kwFunction "function" :: params ps ++ body ss
  | .operator op cls ps ss =>
      name (0x60 :: (op ++ 0x2e :: cls ++ [0x60])) :: mark .backArrow "<-" ::
        mark .kwFunction "function" :: params ps ++ body ss
  | .ret value => mark .kwReturn "return" :: (if value.isGap then [] else grouped (expr value))
  | e => grouped (expr e)

/-- The tokens of statements, each followed by a semicolon. -/
def statements : List Node → List Token
  | [] => []
  | s :: ss => statement s ++ mark .semicolon ";" :: statements ss

def body : Option (List Node) → List Token
  | none => []
  | some ss => mark .leftBrace "\x7b" :: statements ss ++ [mark .rightBrace "\x7d"]

def orElse : Option (List Node) → List Token
  | none => []
  | some ss =>
      mark .kwElse "else" :: mark .leftBrace "\x7b" :: statements ss ++ [mark .rightBrace "\x7d"]

end

def program (ss : List Node) : List Token :=
  statements ss ++ [mark .eof []]

/-! ## The tokens are readable -/

open Grammar

theorem operator_level (op : Bytes) : (level? (operator op).kind).isSome = true := by
  have hall : ∀ entry ∈ operators, (level? entry.2).isSome = true := by decide
  unfold operator
  cases h : operators.find? fun entry => Text.utf8 entry.1 = op with
  | none => rfl
  | some entry => exact hall entry (List.mem_of_find?_eq_some h)

theorem operator_typed (op : Bytes) : isTyped (operator op) = true := by
  have h := operator_level op
  unfold isTyped
  split <;> simp_all [level?]

theorem sign_kind (op : Bytes) : (sign op).kind = .bang ∨ (sign op).kind = .minus := by
  unfold sign
  split
  · exact .inl rfl
  · exact .inr rfl

theorem sign_typed (op : Bytes) : isTyped (sign op) = true := by
  rcases sign_kind op with h | h <;> simp [isTyped, h]

theorem grouped_typed {ts : List Token} (h : ts.all isTyped = true) :
    (grouped ts).all isTyped = true := by
  simp [grouped, h, mark, isTyped]

theorem separated_typed {items : List (List Token)}
    (h : ∀ item ∈ items, item.all isTyped = true) : (separated items).all isTyped = true := by
  induction items with
  | nil => rfl
  | cons item items ih =>
      have hitem := h item (by simp)
      have hrest := ih fun i hi => h i (by simp [hi])
      cases items with
      | nil => exact hitem
      | cons second items =>
          rw [separated, List.all_append, List.all_cons, hitem, hrest]
          · rfl
          · simp

theorem params_typed (names : List Bytes) : (params names).all isTyped = true := by
  have h : (separated (names.map fun x => [name x])).all isTyped = true := by
    apply separated_typed
    intro item hi
    obtain ⟨x, _, rfl⟩ := List.mem_map.mp hi
    rfl
  simp [params, h, mark, isTyped]

mutual

theorem expr_typed : ∀ n : Node, (expr n).all isTyped = true
  | .assign x value => by simp [expr, name, grouped_typed (expr_typed value), mark, isTyped]
  | .assignIndex target i value => by
      simp [expr, grouped_typed (expr_typed target), grouped_typed (expr_typed i),
        grouped_typed (expr_typed value), mark, isTyped]
  | .call f as => by simp [expr, name, separated_typed (args_typed as), mark, isTyped]
  | .named x value => by simp [expr, name, grouped_typed (expr_typed value), mark, isTyped]
  | .binary op left right => by
      simp [expr, operator_typed, grouped_typed (expr_typed left), grouped_typed (expr_typed right)]
  | .unary op operand => by simp [expr, sign_typed, grouped_typed (expr_typed operand)]
  | .var x => by simp [expr, name, mark, isTyped]
  | .int digits | .float value | .string value | .bool value => by
      simp [expr, isTyped, literalTree?]
  | .index target i => by
      simp [expr, grouped_typed (expr_typed target), grouped_typed (expr_typed i), mark, isTyped]
  | .field target x => by
      simp [expr, name, grouped_typed (expr_typed target), mark, isTyped]
  | .predicate test e => by simp [expr, name, grouped_typed (expr_typed e), mark, isTyped]
  | .gap | .program _ | .block _ | .exprStmt _ | .ifElse .. | .whileLoop .. | .forLoop ..
  | .function .. | .operator .. | .ret _ => by simp [expr]

theorem args_typed : ∀ as : List Node, ∀ item ∈ args as, item.all isTyped = true
  | [] => by simp [args]
  | a :: as => by
      have ha := expr_typed a
      have hg := grouped_typed ha
      intro item hi
      rcases List.mem_cons.mp hi with rfl | hi
      · split
        · exact ha
        · exact hg
      · exact args_typed as item hi

end

theorem range_typed (start stop : Node) : (range start stop).all isTyped = true := by
  unfold range
  split
  · exact grouped_typed (expr_typed stop)
  · exact expr_typed _

mutual

theorem statement_typed : ∀ s : Node, (statement s).all isTyped = true
  | .exprStmt e => by simp [statement, grouped_typed (expr_typed e)]
  | .ifElse cond yes no => by
      simp [statement, grouped_typed (expr_typed cond), body_typed yes, orElse_typed no, mark,
        isTyped]
  | .whileLoop cond ss => by
      simp [statement, grouped_typed (expr_typed cond), body_typed ss, mark, isTyped]
  | .forLoop x start stop ss => by
      simp [statement, range_typed start stop, body_typed ss, name, mark, isTyped]
  | .function x ps ss => by
      simp [statement, params_typed ps, body_typed ss, name, mark, isTyped]
  | .operator op cls ps ss => by
      simp [statement, params_typed ps, body_typed ss, name, mark, isTyped]
  | .ret value => by
      cases h : value.isGap <;>
        simp [statement, h, grouped_typed (expr_typed value), mark, isTyped]
  | .gap | .program _ | .block _ | .assign .. | .assignIndex .. | .call .. | .named ..
  | .binary .. | .unary .. | .var _ | .int _ | .float _ | .string _ | .bool _ | .index ..
  | .field .. | .predicate .. => by
      simp [statement, grouped_typed (expr_typed _)]

theorem statements_typed : ∀ ss : List Node, (statements ss).all isTyped = true
  | [] => by simp [statements]
  | s :: ss => by simp [statements, statement_typed s, statements_typed ss, mark, isTyped]

theorem body_typed : ∀ ss : Option (List Node), (body ss).all isTyped = true
  | none => by simp [body]
  | some ss => by simp [body, statements_typed ss, mark, isTyped]

theorem orElse_typed : ∀ ss : Option (List Node), (orElse ss).all isTyped = true
  | none => by simp [orElse]
  | some ss => by simp [orElse, statements_typed ss, mark, isTyped]

end

theorem program_readable (ss : List Node) : Readable (program ss) where
  ends := ⟨mark .eof [], by simp [program], rfl⟩
  typed t ht := by
    rcases List.mem_append.mp ht with ht | ht
    · exact List.all_eq_true.mp (statements_typed ss) t ht
    · cases List.mem_singleton.mp ht
      rfl

end Canonical

end RToJulia
