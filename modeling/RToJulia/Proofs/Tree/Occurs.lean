import RToJulia.Proofs.Tree.Labels
import RToJulia.Proofs.Tree.WellFormed
import RToJulia.Tree.Traversal

/-! # The nodes of a tree

A node occurs in a tree when it is reached through children. Every node of a
well-formed program is a statement, an expression, a named argument or a body, and
its labels are among those of the program.
-/

namespace RToJulia.Node

inductive Occurs (root : Node) : Node → Prop
  | root : Occurs root root
  | child {n c : Node} (parent : Occurs root n) (mem : c ∈ n.children) : Occurs root c

/-- The operands of an operator, and the target of an index or a field. -/
def operands : Node → List Node
  | binary _ left right => [left, right]
  | unary _ operand => [operand]
  | index target _ | field target _ => [target]
  | _ => []

theorem mem_children_of_mem_operands {n c : Node} (h : c ∈ n.operands) : c ∈ n.children := by
  cases n with
  | binary _ left right | unary _ operand | field operand _ => exact h
  | index target i => exact List.mem_cons.mpr (.inl (List.mem_singleton.mp h))
  | _ => simp [operands] at h

def isPart : Node → Bool
  | program ss | block ss => areStatements ss
  | n => isStatement n || isExpr n || isNamedExpr n

theorem isPart_of_isExpr {n : Node} (h : isExpr n = true) : isPart n = true := by
  cases n <;> simp_all [isPart, isExpr]

theorem isPart_of_isStatement {n : Node} (h : isStatement n = true) : isPart n = true := by
  cases n <;> simp_all [isPart, isStatement]

theorem isPart_bodyNode {body : Option (List Node)} (h : isBody body = true) :
    isPart (bodyNode body) = true := by
  cases body with
  | none => simp [isBody] at h
  | some ss => simpa [bodyNode, isPart, isBody] using h

theorem isPart_child {n c : Node} (h : isPart n = true) (hc : c ∈ n.children) :
    isPart c = true := by
  cases n with
  | gap | var _ | int _ | float _ | string _ | bool _ => simp [children] at hc
  | program ss | block ss => exact isPart_of_isStatement ((areStatements_iff ss).mp h c hc)
  | assign _ value | exprStmt value | named _ value | unary _ value | field value _
  | predicate _ value =>
      simp only [isPart, isStatement, isExpr, isNamedExpr, Bool.or_false, Bool.false_or, Bool.or_self,
        Bool.and_eq_true] at h
      cases List.mem_singleton.mp hc
      exact isPart_of_isExpr (by simp [h])
  | assignIndex target i value =>
      simp only [isPart, isStatement, isExpr, isNamedExpr, Bool.or_false, Bool.or_self,
        Bool.and_eq_true] at h
      simp only [children, List.mem_cons, List.not_mem_nil, or_false] at hc
      rcases hc with rfl | rfl | rfl <;> exact isPart_of_isExpr (by simp [h])
  | binary _ left right | index left right =>
      simp only [isPart, isStatement, isExpr, isNamedExpr, Bool.or_false, Bool.false_or,
        Bool.and_eq_true] at h
      simp only [children, List.mem_cons, List.not_mem_nil, or_false] at hc
      rcases hc with rfl | rfl <;> exact isPart_of_isExpr (by simp [h])
  | call name args =>
      simp only [isPart, isStatement, isExpr, isNamedExpr, Bool.or_false, Bool.false_or,
        Bool.and_eq_true] at h
      rcases (areArgs_iff args).mp h.1 c hc with he | he
      · exact isPart_of_isExpr he
      · cases c <;> simp_all [isPart, isNamedExpr]
  | ret value =>
      simp only [isPart, isStatement, isExpr, isNamedExpr, Bool.or_false, Bool.or_eq_true] at h
      cases value <;> simp_all [children, isPart_of_isExpr, isGap]
  | ifElse cond yes no =>
      simp only [isPart, isStatement, isExpr, isNamedExpr, Bool.or_false, Bool.and_eq_true] at h
      simp only [children, List.mem_cons, Option.mem_toList, Option.map_eq_some_iff] at hc
      rcases hc with rfl | rfl | ⟨ss, rfl, rfl⟩
      · exact isPart_of_isExpr h.1.1
      · exact isPart_bodyNode h.1.2
      · exact h.2
  | whileLoop cond body =>
      simp only [isPart, isStatement, isExpr, isNamedExpr, Bool.or_false, Bool.and_eq_true] at h
      simp only [children, List.mem_cons, List.not_mem_nil, or_false] at hc
      rcases hc with rfl | rfl
      · exact isPart_of_isExpr h.1
      · exact isPart_bodyNode h.2
  | forLoop name start stop body =>
      simp only [isPart, isStatement, isExpr, isNamedExpr, Bool.or_false, Bool.and_eq_true,
        Bool.or_eq_true] at h
      have hstop := isPart_of_isExpr h.1.2
      have hbody := isPart_bodyNode h.2
      have hstart : isExpr start = true ∨ start = .gap := by
        rcases h.1.1 with hs | hs
        · exact .inl hs
        · exact .inr (eq_gap_of_isGap (by simp_all))
      rcases hstart with hs | rfl
      · have hchildren : c ∈ [start, stop, bodyNode body] := by
          cases start <;> first | exact hc | simp [isExpr] at hs
        simp only [List.mem_cons, List.not_mem_nil, or_false] at hchildren
        rcases hchildren with rfl | rfl | rfl
        · exact isPart_of_isExpr hs
        · exact hstop
        · exact hbody
      · simp only [children, List.mem_cons, List.not_mem_nil, or_false] at hc
        rcases hc with rfl | rfl
        · exact hstop
        · exact hbody
  | function name params body | operator op cls params body =>
      simp only [isPart, isStatement, isExpr, isNamedExpr, Bool.or_false, Bool.and_eq_true] at h
      cases List.mem_singleton.mp hc
      exact isPart_bodyNode h.2

theorem meets_bodyNode {L : Labels} {body : Option (List Node)} (h : L.MeetsBody body) :
    L.Meets (bodyNode body) := by
  cases body with
  | none => trivial
  | some ss => exact h

theorem meets_child {L : Labels} {n c : Node} (h : L.Meets n) (hc : c ∈ n.children) :
    L.Meets c := by
  cases n with
  | gap | var _ | int _ | float _ | string _ | bool _ => simp [children] at hc
  | program ss | block ss => exact (L.meetsAll_iff ss).mp h c hc
  | assign _ value | named _ value | unary _ value =>
      cases List.mem_singleton.mp hc
      exact h.2
  | exprStmt value | predicate _ value =>
      cases List.mem_singleton.mp hc
      exact h
  | field value _ =>
      cases List.mem_singleton.mp hc
      exact h.2.2
  | assignIndex target i value =>
      simp only [children, List.mem_cons, List.not_mem_nil, or_false] at hc
      rcases hc with rfl | rfl | rfl
      · exact h.1
      · exact h.2.1
      · exact h.2.2
  | binary _ left right =>
      simp only [children, List.mem_cons, List.not_mem_nil, or_false] at hc
      rcases hc with rfl | rfl
      · exact h.2.1
      · exact h.2.2
  | index left right =>
      simp only [children, List.mem_cons, List.not_mem_nil, or_false] at hc
      rcases hc with rfl | rfl
      · exact h.1
      · exact h.2
  | call name args => exact (L.meetsAll_iff args).mp h.2 c hc
  | ret value =>
      have hvalue : L.Meets value := h
      cases value <;> simp only [children, List.mem_singleton, List.not_mem_nil] at hc <;>
        exact hc ▸ hvalue
  | ifElse cond yes no =>
      simp only [children, List.mem_cons, Option.mem_toList, Option.map_eq_some_iff] at hc
      rcases hc with rfl | rfl | ⟨ss, rfl, rfl⟩
      · exact h.1
      · exact meets_bodyNode h.2.1
      · exact h.2.2
  | whileLoop cond body =>
      simp only [children, List.mem_cons, List.not_mem_nil, or_false] at hc
      rcases hc with rfl | rfl
      · exact h.1
      · exact meets_bodyNode h.2
  | forLoop name start stop body =>
      have hall : ∀ d ∈ [start, stop, bodyNode body], L.Meets d := by
        simpa using ⟨h.2.1, h.2.2.1, meets_bodyNode h.2.2.2⟩
      refine hall c ?_
      cases start <;> first | exact hc | exact List.mem_cons_of_mem _ hc
  | function name params body | operator op cls params body =>
      cases List.mem_singleton.mp hc
      exact meets_bodyNode h.2.2

theorem Occurs.isPart {root n : Node} (h : Occurs root n) (hr : isPart root = true) :
    isPart n = true := by
  induction h with
  | root => exact hr
  | child _ hc ih => exact isPart_child ih hc

theorem Occurs.meets {L : Labels} {root n : Node} (h : Occurs root n) (hr : L.Meets root) :
    L.Meets n := by
  induction h with
  | root => exact hr
  | child _ hc ih => exact meets_child ih hc

theorem isExpr_operand {n c : Node} (h : isPart n = true) (hc : c ∈ n.operands) :
    isExpr c = true := by
  cases n with
  | binary _ left right =>
      simp only [isPart, isStatement, isExpr, isNamedExpr, Bool.or_false, Bool.false_or,
        Bool.and_eq_true] at h
      simp only [operands, List.mem_cons, List.not_mem_nil, or_false] at hc
      rcases hc with rfl | rfl
      · exact h.1
      · exact h.2
  | unary _ operand | index operand _ | field operand _ =>
      simp only [isPart, isStatement, isExpr, isNamedExpr, Bool.or_false, Bool.false_or,
        Bool.and_eq_true] at h
      cases List.mem_singleton.mp hc
      simp [h]
  | _ => simp [operands] at hc

end RToJulia.Node
