import RToJulia.Proofs.Grammar.Listing
import RToJulia.Proofs.Tree.Precedence

/-! # Reading without parentheses is ordered

From tokens without parentheses every expression is read as an ordered bare tree.
The climbing rule carries the invariant: the left operand stops at the operator that
comes next, so that operator may take it.
-/

namespace RToJulia

structure Token.Plain (t : Token) : Prop where
  left : t.kind ≠ .leftParen
  right : t.kind ≠ .rightParen
  spelled : t.isSpelled = true

namespace Grammar

open RToJulia.Grammar.Parser Node

/-! ## Reading plain tokens -/

variable {α β : Type}

def Outcome.Reads (P : α → List Token → Prop) (o : Outcome α) : Prop :=
  o.Sat (fun a rest => P a rest ∧ ∀ t ∈ rest, t.Plain) (fun _ => True) (fun _ => True)

namespace Outcome.Reads

variable {P : α → List Token → Prop} {Q : β → List Token → Prop} {ts : List Token}

theorem bind {p : Parser α} {f : α → Parser β} (hp : (p ts).Reads P)
    (hf : ∀ a mid, P a mid → (∀ t ∈ mid, t.Plain) → (f a mid).Reads Q) :
    ((p >>= f) ts).Reads Q :=
  Outcome.Sat.bind hp fun a mid hm => hf a mid hm.1 hm.2

theorem mono {P' : α → List Token → Prop} {o : Outcome α} (h : o.Reads P)
    (hp : ∀ a rest, P a rest → P' a rest) : o.Reads P' :=
  Outcome.Sat.mono h (fun a rest hd => ⟨hp a rest hd.1, hd.2⟩) (fun _ hf => hf) (fun _ hh => hh)

theorem orSkim {p : Parser α} {skim : Skim} (hp : (p ts).Reads P) :
    ((p.orSkim skim) ts).Reads P :=
  Outcome.Sat.orSkim hp

end Outcome.Reads

section Steps

variable {ts : List Token}

theorem plain_tail {t : Token} (hts : ∀ u ∈ t :: ts, u.Plain) : ∀ u ∈ ts, u.Plain :=
  fun u hu => hts u (by simp [hu])

theorem expect_reads {kind : Kind} (hts : ∀ t ∈ ts, t.Plain) :
    (expect kind ts).Reads (fun t _ => t.kind = kind) := by
  cases ts with
  | nil => trivial
  | cons t rest =>
      by_cases ht : t.kind = kind
      · rw [expect_pos ht]
        exact ⟨ht, plain_tail hts⟩
      · obtain ⟨e, he⟩ := expect_neg ht rest
        rw [he]
        trivial

/-- An opening parenthesis is never found, so nothing behind it is read. -/
theorem expect_leftParen {f : Token → Parser β} {skim : Skim} {Q : β → List Token → Prop}
    (hts : ∀ t ∈ ts, t.Plain) : (((expect .leftParen).orSkim skim >>= f) ts).Reads Q := by
  have hnone : (expect .leftParen ts).Reads (fun _ _ => False) := by
    cases ts with
    | nil => trivial
    | cons t rest =>
        obtain ⟨e, he⟩ := expect_neg (hts t (by simp)).left rest
        rw [he]
        trivial
  exact hnone.orSkim.bind fun _ _ h => h.elim

end Steps

/-! ## One level of rules -/

structure Ordered (place : Place) (e : Node) : Prop where
  bare : needsNoParens place e = true
  ordered : isOrdered e = true

/-- An operand that operators of at least a level may have in front of the tokens left. -/
structure Climbed (least : Nat) (e : Node) (rest : List Token) : Prop extends
    Ordered .operand e where
  level : ∀ p, e.level? = some p → least ≤ p
  stops : e.Stops (nextLevel rest)

theorem Ordered.operand {e : Node} (h : Ordered .target e) : Ordered .operand e :=
  ⟨needsNoParens_operand h.bare, h.ordered⟩

theorem Ordered.whole {e : Node} (h : Ordered .operand e) : Ordered .whole e :=
  ⟨needsNoParens_whole h.bare, h.ordered⟩

/-- A target is no operator, so it can be an operand anywhere. -/
theorem Ordered.climbed {e : Node} (h : Ordered .target e) (least : Nat) (rest : List Token) :
    Climbed least e rest where
  toOrdered := h.operand
  level p hp := by
    have hbare := h.bare
    cases e <;> simp_all [needsNoParens, Node.level?]
  stops := stops_of_target h.bare _

structure Rules.Orders (r : Rules) : Prop where
  statements : ∀ closer ts, (∀ t ∈ ts, t.Plain) →
    (r.statements closer ts).Reads (fun ss _ => ∀ e, .exprStmt e ∈ ss → Ordered .whole e)
  statement : ∀ ts, (∀ t ∈ ts, t.Plain) →
    (r.statement ts).Reads (fun s _ => ∀ e, s = .exprStmt e → Ordered .whole e)
  assignment : ∀ ts, (∀ t ∈ ts, t.Plain) → (r.assignment ts).Reads (fun e _ => Ordered .whole e)
  binary : ∀ least ts, 1 ≤ least → (∀ t ∈ ts, t.Plain) →
    (r.binary least ts).Reads (fun e rest => Climbed least e rest ∧ nextLevel rest < least)
  climb : ∀ least left ts, 1 ≤ least → Climbed least left ts → (∀ t ∈ ts, t.Plain) →
    (r.climb least left ts).Reads (fun e rest => Climbed least e rest ∧ nextLevel rest < least)
  suffixes : ∀ e ts, Ordered .target e → (∀ t ∈ ts, t.Plain) →
    (r.suffixes e ts).Reads (fun e _ => Ordered .target e)

namespace Rules

variable {r : Rules} {ts : List Token}

theorem Orders.spent : Rules.spent.Orders := by
  constructor <;> intros <;> trivial

theorem statementsRule_orders (hr : r.Orders) (closer : Kind) (hts : ∀ t ∈ ts, t.Plain) :
    (r.statementsRule closer ts).Reads (fun ss _ => ∀ e, .exprStmt e ∈ ss → Ordered .whole e) := by
  unfold statementsRule
  cases ts with
  | nil => trivial
  | cons t ts =>
      rw [bind_peek]
      split
      · exact ⟨by simp, hts⟩
      split
      · exact hr.statements closer ts (plain_tail hts)
      · refine (hr.statement _ hts).bind fun s mid hs hmid => ?_
        refine (hr.statements closer mid hmid).bind fun ss rest hss hrest => ?_
        refine ⟨fun e he => ?_, hrest⟩
        rcases List.mem_cons.mp he with he | he
        · exact hs e he.symm
        · exact hss e he

/-- Without parentheses there is no condition. -/
theorem condition_orders (hts : ∀ t ∈ ts, t.Plain) :
    (r.condition ts).Reads (fun _ _ => False) := by
  unfold condition
  exact expect_leftParen hts

theorem returnRule_orders (hr : r.Orders) {t : Token} (hts : ∀ u ∈ t :: ts, u.Plain) :
    (r.returnRule (t :: ts)).Reads (fun s _ => ∀ e, s = .exprStmt e → Ordered .whole e) := by
  have htail := plain_tail hts
  unfold returnRule
  rw [bind_take]
  cases ts with
  | nil => trivial
  | cons u ts =>
      rw [bind_peek]
      split
      · exact ⟨by simp, htail⟩
      · exact (hr.assignment _ htail).bind fun value rest _ hrest => ⟨by simp, hrest⟩

theorem declarationRule_orders {Q : Node → List Token → Prop}
    (hstart : startsDeclaration ts = true) (hts : ∀ t ∈ ts, t.Plain) :
    (r.declarationRule ts).Reads Q := by
  match ts, hstart, hts with
  | name :: arrow :: word :: ts, _, hts =>
    unfold declarationRule
    rw [bind_take, bind_take, bind_take]
    exact expect_leftParen (plain_tail (plain_tail (plain_tail hts)))

theorem exprRule_orders (hr : r.Orders) (hts : ∀ t ∈ ts, t.Plain) :
    (r.exprRule ts).Reads (fun s _ => ∀ e, s = .exprStmt e → Ordered .whole e) := by
  rw [exprRule_eq]
  refine (hr.assignment ts hts).bind fun e rest he hrest => ⟨fun e' h => ?_, hrest⟩
  have heq : e = e' := by
    unfold asStatement at h
    split at h <;> cases h
    rfl
  exact heq ▸ he

theorem statementRule_orders (hr : r.Orders) (hts : ∀ t ∈ ts, t.Plain) :
    (r.statementRule ts).Reads (fun s _ => ∀ e, s = .exprStmt e → Ordered .whole e) := by
  cases ts with
  | nil => trivial
  | cons t ts =>
      have htail := plain_tail hts
      rw [statementRule_cons]
      split
      · exact (condition_orders htail).bind fun _ _ h => h.elim
      split
      · exact (condition_orders htail).bind fun _ _ h => h.elim
      split
      · exact expect_leftParen htail
      split
      · exact returnRule_orders hr hts
      split
      · rename_i hstart
        exact declarationRule_orders hstart hts
      · exact exprRule_orders hr hts

theorem assignmentRule_orders (hr : r.Orders) (hts : ∀ t ∈ ts, t.Plain) :
    (r.assignmentRule ts).Reads (fun e _ => Ordered .whole e) := by
  unfold assignmentRule
  refine (hr.binary 1 ts (Nat.le_refl 1) hts).bind fun target mid htarget hmid => ?_
  obtain ⟨hbare, hordered⟩ := htarget.1.toOrdered
  cases mid with
  | nil => trivial
  | cons arrow rest =>
      rw [bind_peek]
      split
      · rw [bind_take]
        refine (hr.assignment rest (plain_tail hmid)).bind fun value rest' hvalue hrest' => ?_
        cases htree : assignTo? target value with
        | none => trivial
        | some tree =>
            refine ⟨?_, hrest'⟩
            unfold assignTo? at htree
            split at htree <;> cases htree
            · exact ⟨by simp [needsNoParens, hvalue.bare], by simpa [isOrdered] using hvalue.ordered⟩
            · simp only [needsNoParens, isOrdered, Bool.and_eq_true] at hbare hordered
              exact ⟨by simp [needsNoParens, hbare, hvalue.bare],
                by simp [isOrdered, hordered, hvalue.ordered]⟩
            · simp only [needsNoParens, isOrdered] at hbare hordered
              exact ⟨by simp [needsNoParens, hbare, hvalue.bare],
                by simp [isOrdered, hordered, hvalue.ordered]⟩
      · exact ⟨htarget.1.whole, hmid⟩

theorem atom_orders (hts : ∀ t ∈ ts, t.Plain) :
    (r.atom ts).Reads (fun e _ => Ordered .target e) := by
  cases ts with
  | nil => trivial
  | cons t ts =>
      have htail := plain_tail hts
      rcases r.atom_cases ts t with ⟨e, he⟩ | hk | hk | ⟨e, he⟩ | ⟨_, e, he⟩ | ⟨_, he⟩
      · rw [r.atom_literal ts he]
        unfold literalTree? at he
        split at he <;> cases he <;> exact ⟨⟨rfl, rfl⟩, htail⟩
      · rw [r.atom_ident ts hk]
        unfold nameOrCall
        cases ts with
        | nil => trivial
        | cons u ts =>
            -- A name is no call without an opening parenthesis behind it.
            rw [bind_next, decide_eq_false (hts u (by simp)).left]
            exact ⟨⟨rfl, rfl⟩, htail⟩
      · exact absurd hk (hts t (by simp)).left
      · rw [he]
        trivial
      · rw [he]
        trivial
      · rw [he]
        trivial

theorem suffixesRule_orders (hr : r.Orders) {e : Node} (he : Ordered .target e)
    (hts : ∀ t ∈ ts, t.Plain) : (r.suffixesRule e ts).Reads (fun e _ => Ordered .target e) := by
  cases ts with
  | nil => trivial
  | cons t ts =>
      have htail := plain_tail hts
      rw [suffixesRule_cons]
      split
      · refine (hr.assignment ts htail).orSkim.bind fun i ts₁ hi h₁ => ?_
        refine (expect_reads h₁).bind fun _ ts₂ _ h₂ => ?_
        exact hr.suffixes _ ts₂ ⟨by simp [needsNoParens, he.bare, hi.bare],
          by simp [isOrdered, he.ordered, hi.ordered]⟩ h₂
      split
      · refine (expect_reads htail).bind fun name ts₁ _ h₁ => ?_
        exact hr.suffixes _ ts₁ ⟨by simpa [needsNoParens] using he.bare,
          by simpa [isOrdered] using he.ordered⟩ h₁
      · exact ⟨he, hts⟩

/-- A sign takes all operators of at least level 3 that follow, so what comes next is looser. -/
theorem unary_orders (hr : r.Orders) (least : Nat) (hts : ∀ t ∈ ts, t.Plain) :
    (r.unary ts).Reads (Climbed least) := by
  unfold unary
  cases ts with
  | nil => trivial
  | cons t ts =>
      rw [bind_peek]
      split
      · rename_i hk
        have hsign := sign_of_isSpelled (hts t (by simp)).spelled (by simpa using hk)
        rw [bind_take]
        refine (hr.binary 3 ts (by omega) (plain_tail hts)).bind fun operand rest ho hrest => ?_
        obtain ⟨ho, hnext⟩ := ho
        refine ⟨⟨⟨by simp [needsNoParens, ho.bare], ?_⟩, by simp [Node.level?], hnext, ho.stops⟩, hrest⟩
        have hlevel : operand.level?.all (4 ≤ ·) = true := by
          cases h : operand.level? with
          | none => rfl
          | some p =>
              have hp := ho.level p h
              have hne : p ≠ 3 := by
                cases operand with
                | binary op l r => exact (operatorLevel?_ne h).2
                | _ => contradiction
              exact decide_eq_true (by omega)
        rw [isOrdered, hlevel, ho.ordered]
        simpa using hsign
      · refine (atom_orders hts).bind fun e ts₁ he h₁ => ?_
        exact (hr.suffixes e ts₁ he h₁).mono fun e rest he => he.climbed least rest

theorem climbRule_orders (hr : r.Orders) {least : Nat} {left : Node} (hleast : 1 ≤ least)
    (hleft : Climbed least left ts) (hts : ∀ t ∈ ts, t.Plain) :
    (r.climbRule least left ts).Reads
      (fun e rest => Climbed least e rest ∧ nextLevel rest < least) := by
  unfold climbRule
  cases ts with
  | nil => trivial
  | cons op ts =>
      rw [bind_peek]
      cases hlevel : level? op.kind with
      | none => exact ⟨⟨hleft, by simp [nextLevel, hlevel]; omega⟩, hts⟩
      | some p =>
          have hnext : nextLevel (op :: ts) = p := by simp [nextLevel, hlevel]
          have hop := operatorLevel?_of_isSpelled (hts op (by simp)).spelled hlevel
          dsimp only
          split
          · rename_i hlt
            exact ⟨⟨hleft, by rwa [hnext]⟩, hts⟩
          rename_i hle
          rw [bind_take, rightLevel_eq hlevel]
          have hleast' : 1 ≤ leastRight p := by
            unfold leastRight
            split <;> omega
          refine (hr.binary _ ts hleast' (plain_tail hts)).bind fun right mid hright hmid => ?_
          obtain ⟨hright, hstop⟩ := hright
          cases mid with
          | nil => trivial
          | cons t rest =>
              rw [bind_peek]
              split
              · trivial
              rename_i hcomparison
              have hfit := operandsFit_of_stops (hnext ▸ hleft.stops) hright.level
              -- Two comparisons in a row were refused just now.
              have hnot : ¬ (p = 4 ∧ nextLevel (t :: rest) = 4) := by
                rintro ⟨hp, hq⟩
                have ht : level? t.kind = some 4 := by
                  cases h : level? t.kind <;> simp_all [nextLevel]
                exact hcomparison (by
                  rw [(comparison_iff_level hlevel).mpr hp, (comparison_iff_level ht).mpr rfl]
                  rfl)
              refine hr.climb least _ _ hleast ⟨⟨?_, ?_⟩, ?_, ?_, hright.stops⟩ hmid
              · simp [needsNoParens, hleft.bare, hright.bare]
              · simp [isOrdered, hop, hfit, hleft.ordered, hright.ordered]
              · intro q hq
                cases hop.symm.trans hq
                omega
              · intro q hq
                cases hop.symm.trans hq
                exact ⟨hstop, hnot⟩

theorem binaryRule_orders (hr : r.Orders) {least : Nat} (hleast : 1 ≤ least)
    (hts : ∀ t ∈ ts, t.Plain) : (r.binaryRule least ts).Reads
      (fun e rest => Climbed least e rest ∧ nextLevel rest < least) := by
  unfold binaryRule
  exact (unary_orders hr least hts).bind fun left mid hleft hmid =>
    hr.climb least left mid hleast hleft hmid

theorem Orders.up (hr : r.Orders) : r.up.Orders where
  statements closer _ hts := statementsRule_orders hr closer hts
  statement _ hts := statementRule_orders hr hts
  assignment _ hts := assignmentRule_orders hr hts
  binary _ _ hleast hts := binaryRule_orders hr hleast hts
  climb _ _ _ hleast hleft hts := climbRule_orders hr hleast hleft hts
  suffixes _ _ he hts := suffixesRule_orders hr he hts

end Rules

theorem rules_orders (n : Nat) : (rules n).Orders := by
  induction n with
  | zero => exact Rules.Orders.spent
  | succ n ih => exact ih.up

end Grammar

/-- The expression statements read from plain tokens are ordered. -/
theorem parse_ordered {ts : List Token} {ss : List Node} (hts : ∀ t ∈ ts, t.Plain)
    (h : parse ts = .ok ss) {e : Node} (he : .exprStmt e ∈ ss) : Grammar.Ordered .whole e := by
  have horders := (Grammar.rules_orders (Grammar.depthFor ts.length)).statements .eof ts hts
  unfold parse at h
  cases hp : (Grammar.rules (Grammar.depthFor ts.length)).statements .eof ts with
  | done value rest =>
      rw [hp] at h horders
      cases h
      exact horders.1 e he
  | fail e rest =>
      rw [hp] at h
      contradiction
  | halt reason =>
      rw [hp] at h
      contradiction

end RToJulia
