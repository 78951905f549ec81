import RToJulia.Grammar.Rules

/-! # Well-formed trees

The trees a program can have. A place is left open only in an else branch, at
the start of an iteration and in a bare `return`. Statements stand in programs
and bodies, expressions everywhere else, and an assignment is both. A `named`
argument stands directly in a call. A few trees have another form that is read
in their place: a test of one positional argument, a range as the stop of an
iteration without a start, and a declaration named like an operator.
-/

namespace RToJulia

def Predicate.isKnown (test : Predicate) : Bool :=
  Predicate.ofName? test.name = some test

namespace Node

def isGap : Node → Bool
  | gap => true
  | _ => false

def isAssignment : Node → Bool
  | assign .. | assignIndex .. => true
  | _ => false

def isRange : Node → Bool
  | binary op _ _ => op = ":"
  | _ => false

def isTypeTest (name : Bytes) : List Node → Bool
  | [arg] => (Predicate.ofName? name).isSome && !arg.isNamed
  | _ => false

mutual

def isExpr : Node → Bool
  | assign _ value => isExpr value
  | assignIndex target i value => isExpr target && isExpr i && isExpr value
  | call name args => areArgs args && !isTypeTest name args
  | binary _ left right => isExpr left && isExpr right
  | unary _ operand => isExpr operand
  | var _ | int _ | float _ | string _ | bool _ => true
  | index target i => isExpr target && isExpr i
  | field target _ => isExpr target
  | predicate test e => test.isKnown && isExpr e
  | _ => false

def isNamedExpr : Node → Bool
  | named _ value => isExpr value
  | _ => false

def areArgs : List Node → Bool
  | [] => true
  | a :: args => (isExpr a || isNamedExpr a) && areArgs args

end

mutual

def isStatement : Node → Bool
  | assign name value => isExpr (assign name value)
  | assignIndex target i value => isExpr (assignIndex target i value)
  | exprStmt e => isExpr e && !e.isAssignment
  | ifElse cond yes no => isExpr cond && isBody yes && isElse no
  | whileLoop cond body => isExpr cond && isBody body
  | forLoop _ start stop body =>
      (isExpr start || start.isGap && !stop.isRange) && isExpr stop && isBody body
  | function name _ body => (Grammar.splitOperator? name).isNone && isBody body
  | operator op cls _ body =>
      op ≠ [] && cls ≠ [] && !op.contains 0x2e && !cls.contains 0x2e && isBody body
  | ret value => isExpr value || value.isGap
  | _ => false

def areStatements : List Node → Bool
  | [] => true
  | s :: ss => isStatement s && areStatements ss

def isBody : Option (List Node) → Bool
  | none => false
  | some ss => areStatements ss

def isElse : Option (List Node) → Bool
  | none => true
  | some ss => areStatements ss

end

theorem areStatements_iff (ss : List Node) :
    areStatements ss = true ↔ ∀ s ∈ ss, isStatement s = true := by
  induction ss with
  | nil => simp [areStatements]
  | cons s ss ih => simp [areStatements, ih]

theorem areArgs_iff (args : List Node) :
    areArgs args = true ↔ ∀ a ∈ args, isExpr a = true ∨ isNamedExpr a = true := by
  induction args with
  | nil => simp [areArgs]
  | cons a args ih => simp [areArgs, ih]

theorem eq_gap_of_isGap {n : Node} (h : n.isGap = true) : n = gap := by
  cases n <;> first | rfl | contradiction

theorem isNamed_of_isExpr {e : Node} (h : isExpr e = true) : e.isNamed = false := by
  cases e <;> simp_all [isExpr, isNamed]

theorem isGap_of_isExpr {e : Node} (h : isExpr e = true) : e.isGap = false := by
  cases e <;> simp_all [isExpr, isGap]

end Node

end RToJulia
