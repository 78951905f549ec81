import RToJulia.Tree.Text

/-!
# Visiting a tree

A traversal visits every node after its children and puts what the visitor
returns in the node's place.  A visitor is handed, beside the node, the fault
that the visit of the node's last child left behind, and leaves one itself.  A
body can only be replaced by a block: anything else leaves the body as it was
and a fault of its own.  A gap in a required place stops the traversal.
-/

namespace RToJulia.Node

inductive VisitFault where
  | raised (message : Bytes)
  /-- A body was replaced by something that is no block. -/
  | notBlock (replacement : Node)

def VisitFault.message : VisitFault → Bytes
  | raised message => message
  | notBlock replacement => "expected block, got " ++ replacement.shown

abbrev Visitor (σ : Type) := Node → Option VisitFault → σ → (Node × Option VisitFault) × σ

/-- Steps of a traversal; there is no result when it meets a gap in a required place. -/
abbrev Walk (σ : Type) := StateT σ Option

abbrev Visited (α : Type) := α × Option VisitFault

namespace Walk

variable {σ : Type}

def stop {α : Type} : Walk σ α :=
  fun _ => none

def visit (f : Visitor σ) (n : Node) (fault : Option VisitFault) : Walk σ (Visited Node) :=
  fun s => some (f n fault s)

end Walk

section

variable {σ : Type} (f : Visitor σ)

mutual

def traverse : Node → Walk σ (Visited Node)
  | gap => Walk.stop
  | program ss => do
      let (ss, e) ← traverseAll ss none
      Walk.visit f (program ss) e
  | block ss => do
      let (ss, e) ← traverseAll ss none
      Walk.visit f (block ss) e
  | assign name value => do
      let (value, e) ← traverse value
      Walk.visit f (assign name value) e
  | assignIndex target i value => do
      let (target, _) ← traverse target
      let (i, _) ← traverse i
      let (value, e) ← traverse value
      Walk.visit f (assignIndex target i value) e
  | exprStmt expr => do
      let (expr, e) ← traverse expr
      Walk.visit f (exprStmt expr) e
  | ifElse cond yes no => do
      let (cond, _) ← traverse cond
      let (yes, e) ← traverseBody yes
      let (no, e) ← traverseElse no e
      Walk.visit f (ifElse cond yes no) e
  | whileLoop cond body => do
      let (cond, _) ← traverse cond
      let (body, e) ← traverseBody body
      Walk.visit f (whileLoop cond body) e
  | forLoop name start stop body => do
      let (start, _) ← match start with
        | gap => pure (gap, none)
        | _ => traverse start
      let (stop, _) ← traverse stop
      let (body, e) ← traverseBody body
      Walk.visit f (forLoop name start stop body) e
  | function name params body => do
      let (body, e) ← traverseBody body
      Walk.visit f (function name params body) e
  | operator op cls params body => do
      let (body, e) ← traverseBody body
      Walk.visit f (operator op cls params body) e
  | ret value => do
      let (value, e) ← match value with
        | gap => pure (gap, none)
        | _ => traverse value
      Walk.visit f (ret value) e
  | call name args => do
      let (args, e) ← traverseAll args none
      Walk.visit f (call name args) e
  | named name value => do
      let (value, e) ← traverse value
      Walk.visit f (named name value) e
  | binary op left right => do
      let (left, _) ← traverse left
      let (right, e) ← traverse right
      Walk.visit f (binary op left right) e
  | unary op operand => do
      let (operand, e) ← traverse operand
      Walk.visit f (unary op operand) e
  | var name => Walk.visit f (var name) none
  | int digits => Walk.visit f (int digits) none
  | float value => Walk.visit f (float value) none
  | string value => Walk.visit f (string value) none
  | bool value => Walk.visit f (bool value) none
  | index target i => do
      let (target, _) ← traverse target
      let (i, e) ← traverse i
      Walk.visit f (index target i) e
  | field target name => do
      let (target, e) ← traverse target
      Walk.visit f (field target name) e
  | predicate test expr => do
      let (expr, e) ← traverse expr
      Walk.visit f (predicate test expr) e

/-- Visit a list of trees; the fault is that of the last one. -/
def traverseAll : List Node → Option VisitFault → Walk σ (Visited (List Node))
  | [], e => pure ([], e)
  | n :: ns, _ => do
      let (n, e) ← traverse n
      let (ns, e) ← traverseAll ns e
      pure (n :: ns, e)

def traverseBody : Option (List Node) → Walk σ (Visited (Option (List Node)))
  | none => Walk.stop
  | some ss => do
      let (ss, e) ← traverseAll ss none
      let (n, e) ← Walk.visit f (block ss) e
      match n with
      | block ss' => pure (some ss', e)
      | n => pure (some ss, some (.notBlock n))

def traverseElse : Option (List Node) → Option VisitFault → Walk σ (Visited (Option (List Node)))
  | none, e => pure (none, e)
  | some ss, _ => do
      let (ss, e) ← traverseAll ss none
      let (n, e) ← Walk.visit f (block ss) e
      match n with
      | block ss' => pure (some ss', e)
      | n => pure (some ss, some (.notBlock n))

end

end

def noting : Visitor (List Node) :=
  fun n _ seen => ((n, none), n :: seen)

/-- Every node of a tree, children before parents; `none` for a tree with a required
child missing. -/
def universe? (n : Node) : Option (List Node) :=
  (traverse noting n []).map fun (_, seen) => seen.reverse

def bodyNode : Option (List Node) → Node
  | some ss => block ss
  | none => gap

/-- The children of a node, in source order.  Places left open on purpose are skipped. -/
def children : Node → List Node
  | gap => []
  | program ss => ss
  | block ss => ss
  | assign _ value => [value]
  | assignIndex target i value => [target, i, value]
  | exprStmt expr => [expr]
  | ifElse cond yes no => cond :: bodyNode yes :: (no.map block).toList
  | whileLoop cond body => [cond, bodyNode body]
  | forLoop _ gap stop body => [stop, bodyNode body]
  | forLoop _ start stop body => [start, stop, bodyNode body]
  | function _ _ body => [bodyNode body]
  | operator _ _ _ body => [bodyNode body]
  | ret gap => []
  | ret value => [value]
  | call _ args => args
  | named _ value => [value]
  | binary _ left right => [left, right]
  | unary _ operand => [operand]
  | var _ => []
  | int _ => []
  | float _ => []
  | string _ => []
  | bool _ => []
  | index target i => [target, i]
  | field target _ => [target]
  | predicate _ expr => [expr]

end RToJulia.Node
