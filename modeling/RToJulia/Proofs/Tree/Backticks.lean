import RToJulia.Julia.Name
import RToJulia.Proofs.Grammar.Calculus

/-! # Names in backticks

Variables, assigned names, the variables of iterations and the names of functions lose
their backticks when they are written; parameters, called functions, the names of arguments
and fields are written as they stand. `quote` puts the names of the first sort into
backticks and changes those of the second by a function, and `keptNames` lists the latter.
Up to backticks a tree and its kept names determine the tree up to the backticks that are
not written.
-/

namespace RToJulia

open Julia (unquote)
open Grammar

def inBackticks (name : Bytes) : Bytes :=
  0x60 :: unquote name ++ [0x60]

theorem unquote_quoted (body : Bytes) : unquote (0x60 :: body ++ [0x60]) = body := by
  have hlast : (0x60 :: body ++ [0x60]).getLast? = some 0x60 := List.getLast?_concat
  rw [unquote, hlast]
  simp

@[simp] theorem unquote_inBackticks (name : Bytes) : unquote (inBackticks name) = unquote name :=
  unquote_quoted _

@[simp] theorem inBackticks_inBackticks (name : Bytes) :
    inBackticks (inBackticks name) = inBackticks name := by
  rw [inBackticks, unquote_inBackticks, ← inBackticks]

namespace Node

def declared (name : Bytes) (params : List Bytes) (body : Body) : Node :=
  match splitOperator? name with
  | some (op, cls) => .operator op cls params body
  | none => .function name params body

section

variable (g : Bytes → Bytes)

mutual

/-- Put the names that are written without backticks into them, and change the other names and
the strings by `g`. -/
def quote : Node → Node
  | gap => gap
  | program ss => program (quoteAll ss)
  | block ss => block (quoteAll ss)
  | assign name value => assign (inBackticks name) (quote value)
  | assignIndex target i value => assignIndex (quote target) (quote i) (quote value)
  | exprStmt e => exprStmt (quote e)
  | ifElse cond yes no => ifElse (quote cond) (quoteBody yes) (quoteBody no)
  | whileLoop cond body => whileLoop (quote cond) (quoteBody body)
  | forLoop name start stop body =>
      forLoop (inBackticks name) (quote start) (quote stop) (quoteBody body)
  | function name params body => declared (inBackticks name) (params.map g) (quoteBody body)
  | operator op cls params body => operator op cls (params.map g) (quoteBody body)
  | ret value => ret (quote value)
  | call name args => call (g name) (quoteAll args)
  | named name value => named (g name) (quote value)
  | binary op left right => binary op (quote left) (quote right)
  | unary op operand => unary op (quote operand)
  | var name => var (inBackticks name)
  | int digits => int digits
  | float value => float value
  | string value => string (g value)
  | bool value => bool value
  | index target i => index (quote target) (quote i)
  | field target name => field (quote target) (g name)
  | predicate test e => predicate test (quote e)

def quoteAll : List Node → List Node
  | [] => []
  | n :: ns => quote n :: quoteAll ns

def quoteBody : Option (List Node) → Option (List Node)
  | none => none
  | some ss => some (quoteAll ss)

end

end

mutual

/-- The names that are written as they stand: parameters, called functions, the names of arguments
and fields, and the strings, as an assigned field is one. -/
def keptNames : Node → List Bytes
  | program ss | block ss => keptNamesAll ss
  | assign _ value | exprStmt value | ret value | unary _ value | predicate _ value =>
      keptNames value
  | assignIndex target i value => keptNames target ++ keptNames i ++ keptNames value
  | ifElse cond yes no => keptNames cond ++ keptNamesBody yes ++ keptNamesBody no
  | whileLoop cond body => keptNames cond ++ keptNamesBody body
  | forLoop _ start stop body => keptNames start ++ keptNames stop ++ keptNamesBody body
  | function _ params body | operator _ _ params body => params ++ keptNamesBody body
  | call name args => name :: keptNamesAll args
  | named name value => name :: keptNames value
  | binary _ left right | index left right => keptNames left ++ keptNames right
  | string value => [value]
  | field target name => keptNames target ++ [name]
  | gap | var _ | int _ | float _ | bool _ => []

def keptNamesAll : List Node → List Bytes
  | [] => []
  | n :: ns => keptNames n ++ keptNamesAll ns

def keptNamesBody : Option (List Node) → List Bytes
  | none => []
  | some ss => keptNamesAll ss

end

/-! ## Forms -/

/-- What does not tell the two sorts of declarations apart. -/
theorem apply_declared {β : Type} (f : Node → β) {d : β}
    (hfunction : ∀ x params body, f (.function x params body) = d)
    (hoperator : ∀ op cls params body, f (.operator op cls params body) = d) (name : Bytes)
    (params : List Bytes) (body : Body) : f (declared name params body) = d := by
  unfold declared
  split
  · exact hoperator _ _ _ _
  · exact hfunction _ _ _

section Forms

variable (g : Bytes → Bytes)

theorem quoteAll_eq_map (ns : List Node) : quoteAll g ns = ns.map (quote g) := by
  induction ns with
  | nil => rfl
  | cons n ns ih => rw [quoteAll, ih, List.map_cons]

theorem isNamed_quote (n : Node) : (quote g n).isNamed = n.isNamed := by
  cases n with
  | function =>
      exact apply_declared isNamed (fun _ _ _ => rfl) (fun _ _ _ _ => rfl) _ _ _
  | _ => rfl

end Forms

/-! ## Kept names put back -/

mutual

/-- Put kept names back in order; what is left of them comes behind. -/
def refill : Node → List Bytes → Node × List Bytes
  | program ss, ks => let (ss, ks) := refillAll ss ks; (program ss, ks)
  | block ss, ks => let (ss, ks) := refillAll ss ks; (block ss, ks)
  | assign name value, ks => let (value, ks) := refill value ks; (assign name value, ks)
  | assignIndex target i value, ks =>
      let (target, ks) := refill target ks
      let (i, ks) := refill i ks
      let (value, ks) := refill value ks
      (assignIndex target i value, ks)
  | exprStmt e, ks => let (e, ks) := refill e ks; (exprStmt e, ks)
  | ifElse cond yes no, ks =>
      let (cond, ks) := refill cond ks
      let (yes, ks) := refillBody yes ks
      let (no, ks) := refillBody no ks
      (ifElse cond yes no, ks)
  | whileLoop cond body, ks =>
      let (cond, ks) := refill cond ks
      let (body, ks) := refillBody body ks
      (whileLoop cond body, ks)
  | forLoop name start stop body, ks =>
      let (start, ks) := refill start ks
      let (stop, ks) := refill stop ks
      let (body, ks) := refillBody body ks
      (forLoop name start stop body, ks)
  | function name params body, ks =>
      let (body, left) := refillBody body (ks.drop params.length)
      (function name (ks.take params.length) body, left)
  | operator op cls params body, ks =>
      let (body, left) := refillBody body (ks.drop params.length)
      (operator op cls (ks.take params.length) body, left)
  | ret value, ks => let (value, ks) := refill value ks; (ret value, ks)
  | call _ args, k :: ks => let (args, ks) := refillAll args ks; (call k args, ks)
  | named _ value, k :: ks => let (value, ks) := refill value ks; (named k value, ks)
  | binary op left right, ks =>
      let (left, ks) := refill left ks
      let (right, ks) := refill right ks
      (binary op left right, ks)
  | unary op operand, ks => let (operand, ks) := refill operand ks; (unary op operand, ks)
  | string _, k :: ks => (string k, ks)
  | index target i, ks =>
      let (target, ks) := refill target ks
      let (i, ks) := refill i ks
      (index target i, ks)
  | field target name, ks =>
      let (target, ks) := refill target ks
      (field target (ks.headD name), ks.tail)
  | predicate test e, ks => let (e, ks) := refill e ks; (predicate test e, ks)
  | n, ks => (n, ks)

def refillAll : List Node → List Bytes → List Node × List Bytes
  | [], ks => ([], ks)
  | n :: ns, ks =>
      let (n, ks) := refill n ks
      let (ns, ks) := refillAll ns ks
      (n :: ns, ks)

def refillBody : Option (List Node) → List Bytes → Option (List Node) × List Bytes
  | none, ks => (none, ks)
  | some ss, ks => let (ss, ks) := refillAll ss ks; (some ss, ks)

end

theorem refill_declared (name : Bytes) (params : List Bytes) (body : Body) (ks : List Bytes) :
    refill (declared name params body) ks =
      (declared name (ks.take params.length) (refillBody body (ks.drop params.length)).1,
        (refillBody body (ks.drop params.length)).2) := by
  unfold declared
  cases splitOperator? name <;> rfl

mutual

/-- A tree is its kept names put back into the tree where all names are in backticks, up to
backticks that are not written. -/
theorem refill_quote (n : Node) (ks : List Bytes) :
    refill (quote inBackticks n) (keptNames n ++ ks) = (quote id n, ks) := by
  cases n with
  | function name params body =>
      rw [quote, refill_declared, keptNames]
      simp [quote, refillBody_quoteBody body]
  | program ss => simp [quote, refill, keptNames, refillAll_quoteAll ss]
  | block ss => simp [quote, refill, keptNames, refillAll_quoteAll ss]
  | assign name value => simp [quote, refill, keptNames, refill_quote value]
  | assignIndex target i value =>
      simp [quote, refill, keptNames, refill_quote target, refill_quote i, refill_quote value]
  | exprStmt e => simp [quote, refill, keptNames, refill_quote e]
  | ifElse cond yes no =>
      simp [quote, refill, keptNames, refill_quote cond, refillBody_quoteBody yes,
        refillBody_quoteBody no]
  | whileLoop cond body =>
      simp [quote, refill, keptNames, refill_quote cond, refillBody_quoteBody body]
  | forLoop name start stop body =>
      simp [quote, refill, keptNames, refill_quote start, refill_quote stop,
        refillBody_quoteBody body]
  | operator op cls params body => simp [quote, refill, keptNames, refillBody_quoteBody body]
  | ret value => simp [quote, refill, keptNames, refill_quote value]
  | call name args => simp [quote, refill, keptNames, refillAll_quoteAll args]
  | named name value => simp [quote, refill, keptNames, refill_quote value]
  | binary op left right =>
      simp [quote, refill, keptNames, refill_quote left, refill_quote right]
  | unary op operand => simp [quote, refill, keptNames, refill_quote operand]
  | index target i => simp [quote, refill, keptNames, refill_quote target, refill_quote i]
  | field target name => simp [quote, refill, keptNames, refill_quote target]
  | predicate test e => simp [quote, refill, keptNames, refill_quote e]
  | string value => rfl
  | gap | var _ | int _ | float _ | bool _ => rfl

theorem refillAll_quoteAll (ns : List Node) (ks : List Bytes) :
    refillAll (quoteAll inBackticks ns) (keptNamesAll ns ++ ks) = (quoteAll id ns, ks) := by
  cases ns with
  | nil => rfl
  | cons n ns =>
      simp [quoteAll, refillAll, keptNamesAll, refill_quote n, refillAll_quoteAll ns]

theorem refillBody_quoteBody (body : Option (List Node)) (ks : List Bytes) :
    refillBody (quoteBody inBackticks body) (keptNamesBody body ++ ks) = (quoteBody id body, ks) := by
  cases body with
  | none => rfl
  | some ss => simp [quoteBody, refillBody, keptNamesBody, refillAll_quoteAll ss]

end

/-- Trees that agree up to backticks and in their kept names agree up to backticks that are not
written. -/
theorem quoteAll_eq_of_keptNames {ns ms : List Node}
    (hquote : quoteAll inBackticks ns = quoteAll inBackticks ms)
    (hkept : keptNamesAll ns = keptNamesAll ms) : quoteAll id ns = quoteAll id ms := by
  have hns := refillAll_quoteAll ns []
  have hms := refillAll_quoteAll ms []
  rw [hquote, hkept, hms] at hns
  exact (Prod.mk.inj hns).1.symm

end Node

end RToJulia
