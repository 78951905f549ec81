import RToJulia.Julia.Session

/-! # Record types used by a tree

A construction and the declaration of an operator method have a record type of their
own, which their text names. A node uses its own type and the types used by the nodes
written inside it. Some arguments of a call are not written: what they hold is not used.
-/

namespace RToJulia

/-! ## What is written inside a node -/

namespace Node

def key? : Node → Option Bytes
  | named x _ => some x
  | _ => none

def content : Node → Node
  | named _ value => value
  | n => n

mutual

def isSilent : Node → Bool
  | gap => true
  | var name => (Julia.unquote name).isEmpty
  | int digits => digits.isEmpty
  | exprStmt expr => isSilent expr
  | block ss => areSilent ss
  | _ => false

def areSilent : List Node → Bool
  | [] => true
  | n :: ns => isSilent n && areSilent ns

end

theorem content_of_positional {args : List Node} {n : Node} (h : n ∈ positional args) :
    content n = n := by
  have hn := (List.mem_filter.mp h).2
  cases n with
  | named x value => exact nomatch hn
  | _ => rfl

/-- The arguments are those passed by position and those passed by name. -/
theorem exists_content_iff {args : List Node} {p : Node → Prop} :
    (∃ n ∈ args, p (content n)) ↔ (∃ n ∈ positional args, p n) ∨ ∃ e ∈ namedArgs args, p e.2 := by
  induction args with
  | nil => simp [positional, namedArgs]
  | cons n args ih =>
      simp only [List.mem_cons, exists_eq_or_imp, ih]
      cases n with
      | named x value =>
          simp only [content, positional, namedArgs, List.filter_cons, isNamed, List.filterMap_cons,
            List.mem_cons, exists_eq_or_imp]
          exact or_left_comm
      | _ =>
          simp only [content, positional, namedArgs, List.filter_cons, isNamed, List.filterMap_cons,
            List.mem_cons, exists_eq_or_imp, Bool.not_false, if_true]
          exact or_assoc.symm

end Node

namespace Julia

open Text
open Node (content isSilent namedArgs)

def constructed? : Node → Option Bytes
  | .call f args => recordClass? f args
  | _ => none

/-- The record type of a construction or of the declaration of an operator method. -/
def ownRecord? : Node → Option Bytes
  | .assign _ value => (constructed? value).map recordName
  | .function name _ _ => (operatorClass? (unquote name)).map fun (_, cls) => recordName cls
  | .operator op cls _ _ => (operator? op).map fun _ => recordName cls
  | _ => none

def matrixData? (args : List Node) : Option Node :=
  (Node.positional args).head? <|> Node.lookup? args "data"

/-- What is written of the arguments of `matrix`: the value and the sizes, and all of them when
the call stands as it is. -/
def matrixParts (o : Options) (args : List Node) : List Node :=
  let data? := matrixData? args
  let rows? := Node.lookup? args "nrow"
  let cols? := Node.lookup? args "ncol"
  let stands := data?.all isSilent || (rows?.all isSilent && cols?.all isSilent)
  data?.toList ++ rows?.toList ++ cols?.toList ++
    if stands && o.matrixFallback ≠ "reshape" then args.map content else []

def callParts (o : Options) (f : Bytes) (args : List Node) : List Node :=
  if f = "c" then args.map content
  else if f = "list" then
    (namedArgs args).map (·.2) ++ if o.listPositionalKeys then Node.positional args else []
  else if f = "matrix" then matrixParts o args
  else if f = "print" then Node.positional args
  else if f = "exists" then
    match Node.positional args with
    | [] => args.map content
    | n :: _ => [n]
  else args.map content

def parts (o : Options) : Node → List Node
  | .block ss => ss
  | .assign _ value =>
      match constructed? value, value with
      | some _, .call _ args => (Node.positional args).head?.toList
      | _, _ => [value]
  | .assignIndex target index value => [target, index, value]
  | .exprStmt expr => [expr]
  | .ifElse cond yes no => cond :: (yes.getD [] ++ no.getD [])
  | .whileLoop cond body => cond :: body.getD []
  | .forLoop _ start stop body => start :: stop :: body.getD []
  | .function _ _ body => body.getD []
  | .operator _ _ _ body => body.getD []
  | .ret value => [value]
  | .call f args => callParts o f args
  | .binary _ left right => [left, right]
  | .unary _ operand => [operand]
  | .index target index => [target, index]
  | .field target _ => [target]
  | .predicate _ expr => [expr]
  | _ => []

/-- Text that names a record type: it constructs a value of the type, or it declares a method for
two of them, in one line or in several. -/
inductive NamesRecord (type : Bytes) : Bytes → Prop
  | construction (x value : Bytes) : NamesRecord type (x ++ " = " ++ type ++ "(" ++ value ++ ")")
  | method {lead : Bytes} (op left right rest : Bytes) (hlead : lead = [] ∨ lead = "function ") :
      NamesRecord type (lead ++ ("Base.:(" ++ op ++ ")(" ++ left ++ "::" ++ type ++ ", " ++
        right ++ "::" ++ type ++ ")") ++ rest)

/-- The record types of a node and of the nodes written inside it, at any depth. -/
inductive Uses (o : Options) : Node → Bytes → Prop
  | own {n : Node} {type : Bytes} (h : ownRecord? n = some type) : Uses o n type
  | part {n p : Node} {type : Bytes} (mem : p ∈ parts o n) (h : Uses o p type) : Uses o n type

end Julia

end RToJulia
