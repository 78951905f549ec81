import RToJulia.Proofs.Grammar.Canonical

/-! # Trees in the order of their levels

A tree is ordered when its operators nest as their levels ask: tighter operators
stand below looser ones, `^` groups to the right, comparisons do not group at all
and all else groups to the left. A sign takes all operators above its own level, so
it is never the end of a tighter left operand.

A bare tree is one that can stand in a source without parentheses, up to its levels.
-/

namespace RToJulia

open Grammar Canonical

/-! ## Levels of spellings -/

def operatorLevel? (op : Bytes) : Option Nat :=
  (operators.find? fun entry => Text.utf8 entry.1 = op).bind fun entry => level? entry.2

def Token.isSpelled (t : Token) : Bool :=
  if (level? t.kind).isSome then
    operators.any fun entry => Text.utf8 entry.1 = t.lexeme && entry.2 = t.kind
  else if t.kind = .bang then t.lexeme = "!"
  else true

theorem operatorLevel?_of_isSpelled {t : Token} {p : Nat} (ht : t.isSpelled = true)
    (h : level? t.kind = some p) : operatorLevel? t.lexeme = some p := by
  have hall : ∀ entry ∈ operators, operatorLevel? (Text.utf8 entry.1) = level? entry.2 := by
    decide
  rw [Token.isSpelled, if_pos (by simp [h]), List.any_eq_true] at ht
  obtain ⟨entry, hmem, hentry⟩ := ht
  rw [Bool.and_eq_true, decide_eq_true_eq, decide_eq_true_eq] at hentry
  rw [← hentry.1, hall entry hmem, hentry.2, h]

theorem sign_of_isSpelled {t : Token} (ht : t.isSpelled = true)
    (h : t.kind = .bang ∨ t.kind = .minus) : t.lexeme = "-" ∨ t.lexeme = "!" := by
  have hall : ∀ entry ∈ operators, entry.2 = .minus → Text.utf8 entry.1 = "-" := by decide
  rcases h with h | h
  · exact .inr (by simpa [Token.isSpelled, Grammar.level?, h] using ht)
  · rw [Token.isSpelled, if_pos (by simp [h, Grammar.level?]), List.any_eq_true] at ht
    obtain ⟨entry, hmem, hentry⟩ := ht
    rw [Bool.and_eq_true, decide_eq_true_eq, decide_eq_true_eq] at hentry
    exact .inl (by rw [← hentry.1, hall entry hmem (hentry.2.trans h)])

/-- The operator of a level is in the table, and its token is of the kind given there. -/
theorem operator_of_level {op : Bytes} {p : Nat} (h : operatorLevel? op = some p) :
    ∃ entry ∈ operators, Text.utf8 entry.1 = op ∧ (operator op).kind = entry.2 ∧
      level? entry.2 = some p := by
  obtain ⟨entry, hfind, hlevel⟩ := Option.bind_eq_some_iff.mp h
  have hop : Text.utf8 entry.1 = op := by simpa using List.find?_some hfind
  refine ⟨entry, List.mem_of_find?_eq_some hfind, hop, ?_, hlevel⟩
  rw [operator, hfind]
  rfl

theorem operatorLevel?_ne {op : Bytes} {p : Nat} (h : operatorLevel? op = some p) :
    1 ≤ p ∧ p ≠ 3 := by
  have hall : ∀ entry ∈ operators, ∀ p ∈ level? entry.2, 1 ≤ p ∧ p ≠ 3 := by decide
  obtain ⟨entry, hmem, -, -, hlevel⟩ := operator_of_level h
  exact hall entry hmem p hlevel

theorem caret_iff_level {kind : Kind} {p : Nat} (h : level? kind = some p) :
    kind = .caret ↔ p = 7 := by
  cases kind <;> simp_all [level?] <;> omega

theorem comparison_iff_level {kind : Kind} {p : Nat} (h : level? kind = some p) :
    kind.isComparison = true ↔ p = 4 := by
  cases kind <;> simp_all [level?, Kind.isComparison] <;> omega

def leastRight (p : Nat) : Nat := if p = 7 then p else p + 1

theorem rightLevel_eq {kind : Kind} {p : Nat} (h : level? kind = some p) :
    rightLevel kind p = leastRight p := by
  unfold rightLevel leastRight
  by_cases hp : p = 7
  · rw [if_pos hp, if_pos ((caret_iff_level h).mpr hp)]
  · rw [if_neg hp, if_neg (mt (caret_iff_level h).mp hp)]

def nextLevel : List Token → Nat
  | t :: _ => (level? t.kind).getD 0
  | [] => 0

namespace Node

/-! ## Ordered trees -/

def level? : Node → Option Nat
  | binary op _ _ => operatorLevel? op
  | _ => none

/-- A sign on the right spine of a tree. -/
def endsInSign : Node → Bool
  | unary _ _ => true
  | binary _ _ right => endsInSign right
  | _ => false

/-- The operands that an operator of level `p` may have. Comparisons are the operators of
level 4, and `^` is that of level 7. -/
def operandsFit (p : Nat) (left right : Node) : Bool :=
  left.level?.all (fun q => if p = 4 || p = 7 then p < q else p ≤ q) &&
    right.level?.all (fun q => if p = 7 then p ≤ q else p < q) &&
    !(3 ≤ p && left.endsInSign)

/-- Every operator has a level that its operands fit, and every sign an operand of level 4 or
more if that is an operator. -/
def isOrdered : Node → Bool
  | binary op left right =>
      (operatorLevel? op).any (operandsFit · left right) && isOrdered left && isOrdered right
  | unary op operand =>
      (op = "-" || op = "!") && operand.level?.all (4 ≤ ·) && isOrdered operand
  | index target i => isOrdered target && isOrdered i
  | field target _ => isOrdered target
  | assign _ value => isOrdered value
  | assignIndex target i value => isOrdered target && isOrdered i && isOrdered value
  | _ => true

theorem level_left {p q : Nat} {left right : Node} (hfit : operandsFit p left right = true)
    (hq : left.level? = some q) : p ≤ q := by
  simp only [operandsFit, Bool.and_eq_true] at hfit
  have hlevel := hfit.1.1
  rw [hq, Option.all_some] at hlevel
  split at hlevel <;> rw [decide_eq_true_eq] at hlevel <;> omega

theorem level_right {p q : Nat} {left right : Node} (hfit : operandsFit p left right = true)
    (hq : right.level? = some q) : leastRight p ≤ q := by
  simp only [operandsFit, Bool.and_eq_true] at hfit
  have hlevel := hfit.1.2
  rw [hq, Option.all_some] at hlevel
  unfold leastRight
  split at hlevel <;> rename_i hp <;> rw [decide_eq_true_eq] at hlevel
  · rwa [if_pos hp]
  · rwa [if_neg hp]

/-! ## Bare trees -/

/-- Where an expression stands: as the target of an index or a field, as an operand, or as a
whole index, value or statement. -/
inductive Place where
  | target | operand | whole
  deriving DecidableEq, Repr

/-- A tree whose place needs no parentheses, whatever the levels of its operators: a target is
no operator and no assignment, and an operand is no assignment. A call has parentheses itself. -/
def needsNoParens : Place → Node → Bool
  | _, var _ | _, int _ | _, float _ | _, string _ | _, bool _ => true
  | _, index target i => needsNoParens .target target && needsNoParens .whole i
  | _, field target _ => needsNoParens .target target
  | place, unary _ operand => place ≠ .target && needsNoParens .operand operand
  | place, binary _ left right =>
      place ≠ .target && needsNoParens .operand left && needsNoParens .operand right
  | place, assign _ value => place = .whole && needsNoParens .whole value
  | place, assignIndex target i value =>
      place = .whole && needsNoParens .target target && needsNoParens .whole i &&
        needsNoParens .whole value
  | _, _ => false

theorem needsNoParens_operand {e : Node} (h : needsNoParens .target e = true) :
    needsNoParens .operand e = true := by
  cases e <;> simp_all [needsNoParens]

theorem needsNoParens_whole {e : Node} (h : needsNoParens .operand e = true) :
    needsNoParens .whole e = true := by
  cases e <;> simp_all [needsNoParens]

/-! ## Where a tree stops -/

/-- An operator of level `q` behind the tree belongs to no operand in it. -/
def Stops (q : Nat) : Node → Prop
  | binary op _ right =>
      (∀ p, operatorLevel? op = some p → q < leastRight p ∧ ¬ (p = 4 ∧ q = 4)) ∧ Stops q right
  | unary _ operand => q < 3 ∧ Stops q operand
  | _ => True

theorem stops_of_target {e : Node} (h : needsNoParens .target e = true) (q : Nat) : Stops q e := by
  cases e <;> simp_all [needsNoParens, Stops]

/-- An ordered tree stops at an operator that it may be the left operand of. -/
theorem stops_of_isOrdered {e : Node} (he : isOrdered e = true) {q : Nat}
    (hlevel : ∀ p, e.level? = some p → q < p ∨ q = p ∧ q ≠ 4 ∧ q ≠ 7)
    (hsign : 3 ≤ q → endsInSign e = false) : Stops q e := by
  match e with
  | binary op left right =>
      simp only [isOrdered, Bool.and_eq_true, Option.any_eq_true] at he
      obtain ⟨⟨⟨p, hp, hfit⟩, -⟩, hright⟩ := he
      have hq := hlevel p hp
      have hbelow : q < leastRight p ∧ ¬ (p = 4 ∧ q = 4) := by
        unfold leastRight
        split <;> omega
      refine ⟨?_, stops_of_isOrdered hright ?_ hsign⟩
      · intro p' hp'
        cases hp.symm.trans hp'
        exact hbelow
      · intro r hr
        exact .inl (Nat.lt_of_lt_of_le hbelow.1 (level_right hfit hr))
  | unary op operand =>
      simp only [isOrdered, Bool.and_eq_true] at he
      have hq : q < 3 := Nat.lt_of_not_le fun h => by simpa [endsInSign] using hsign h
      refine ⟨hq, stops_of_isOrdered he.2 ?_ fun h => absurd h (by omega)⟩
      intro r hr
      have hr' := he.1.2
      rw [hr, Option.all_some, decide_eq_true_eq] at hr'
      omega
  | gap | program _ | block _ | assign .. | assignIndex .. | exprStmt _ | ifElse .. | whileLoop ..
  | forLoop .. | function .. | Node.operator .. | ret _ | call .. | named .. | var _ | int _
  | float _ | string _ | bool _ | index .. | field .. | predicate .. =>
      simp [Stops]

/-- A tree stops at the operator that it is the left operand of. -/
theorem stops_left {p : Nat} {left right : Node} (hfit : operandsFit p left right = true)
    (hleft : isOrdered left = true) : Stops p left := by
  simp only [operandsFit, Bool.and_eq_true, Bool.not_eq_true', Bool.and_eq_false_iff] at hfit
  obtain ⟨⟨hlevel, -⟩, hsign⟩ := hfit
  refine stops_of_isOrdered hleft ?_ ?_
  · intro q hq
    rw [hq, Option.all_some] at hlevel
    split at hlevel
    · rw [decide_eq_true_eq] at hlevel
      omega
    · rename_i hp
      simp only [Bool.or_eq_true, decide_eq_true_eq, not_or] at hp
      rw [decide_eq_true_eq] at hlevel
      omega
  · intro hp
    rcases hsign with h | h
    · rw [decide_eq_false_iff_not] at h
      omega
    · exact h

theorem endsInSign_of_stops {e : Node} {q : Nat} (h : Stops q e) (hq : 3 ≤ q) :
    endsInSign e = false := by
  match e with
  | binary op left right =>
      have hright : endsInSign right = false := endsInSign_of_stops h.2 hq
      rwa [endsInSign]
  | unary op operand => exact absurd h.1 (by omega)
  | gap | program _ | block _ | assign .. | assignIndex .. | exprStmt _ | ifElse .. | whileLoop ..
  | forLoop .. | function .. | Node.operator .. | ret _ | call .. | named .. | var _ | int _
  | float _ | string _ | bool _ | index .. | field .. | predicate .. =>
      rfl

/-- The operands of an operator fit when the left one stops at it. -/
theorem operandsFit_of_stops {p : Nat} {left right : Node} (hleft : Stops p left)
    (hright : ∀ q, right.level? = some q → leastRight p ≤ q) :
    operandsFit p left right = true := by
  have hlevel : ∀ q, left.level? = some q → p < leastRight q ∧ ¬ (q = 4 ∧ p = 4) := by
    intro q hq
    cases left with
    | binary op l r => exact hleft.1 q hq
    | _ => contradiction
  simp only [operandsFit, Bool.and_eq_true, Bool.not_eq_true', Bool.and_eq_false_iff]
  refine ⟨⟨?_, ?_⟩, ?_⟩
  · cases h : left.level? with
    | none => rfl
    | some q =>
        obtain ⟨hlt, hne⟩ := hlevel q h
        have hpq : p ≤ q ∧ (p = 4 ∨ p = 7 → p < q) := by
          unfold leastRight at hlt
          split at hlt <;> omega
        rw [Option.all_some]
        split
        · rename_i hp
          exact decide_eq_true (hpq.2 (by simpa using hp))
        · exact decide_eq_true hpq.1
  · cases h : right.level? with
    | none => rfl
    | some q =>
        have hpq := hright q h
        unfold leastRight at hpq
        rw [Option.all_some]
        split <;> rename_i hp
        · exact decide_eq_true (by rwa [if_pos hp] at hpq)
        · exact decide_eq_true (by rwa [if_neg hp] at hpq)
  · by_cases hp : 3 ≤ p
    · exact .inr (endsInSign_of_stops hleft hp)
    · exact .inl (decide_eq_false hp)

end Node

end RToJulia
