import RToJulia.Proofs.Grammar.Forms
import RToJulia.Proofs.Grammar.Precedence
import RToJulia.Proofs.Token.Spelled

/-! # Ordered trees are read back

An ordered bare tree is read from its own marks, with no parentheses added. Two such
trees with the same marks are therefore the same tree: the levels leave no choice.
-/

namespace RToJulia

open Canonical (mark)

def Mark.token : Mark → Token
  | name x => Canonical.name x
  | operator op => if op = "!" then Canonical.sign op else Canonical.operator op
  | literal kind value => ⟨kind, [], 1, value⟩
  | arrow => Canonical.mark .backArrow "<-"
  | word kind => Canonical.mark kind kind.name

namespace Node

def bareTokens (e : Node) : List Token := e.listing.map Mark.token

/-- The tree may be an operand of operators of at least a level in front of one of level `q`. -/
structure Fits (e : Node) (least q : Nat) : Prop where
  level : ∀ p, e.level? = some p → least ≤ p
  stops : e.Stops q

end Node

namespace Grammar

open RToJulia.Grammar.Parser Node

/-! ## Reading ordered trees -/

theorem token_operator {op : Bytes} {p : Nat} (h : operatorLevel? op = some p) :
    level? (Mark.operator op).token.kind = some p ∧ (Mark.operator op).token.lexeme = op := by
  have hbang : op ≠ "!" := by
    rintro rfl
    contradiction
  obtain ⟨entry, -, -, hkind, hlevel⟩ := operator_of_level h
  rw [Mark.token, if_neg hbang, hkind]
  exact ⟨hlevel, rfl⟩

theorem token_sign {op : Bytes} (h : op = "-" ∨ op = "!") :
    ((Mark.operator op).token.kind = .bang ∨ (Mark.operator op).token.kind = .minus) ∧
      (Mark.operator op).token.lexeme = op := by
  rcases h with rfl | rfl
  · exact ⟨.inr (by decide), by decide⟩
  · exact ⟨.inl (by decide), by decide⟩

def RecoversAt : Place → Node → Prop
  | .target, e => RecoversTarget e e.bareTokens
  | .operand, e => RecoversOperand e.Fits e e.bareTokens
  | .whole, e => RecoversWhole e e.bareTokens

section Forms

variable {place : Place} {e target i value left right operand : Node}

/-- Each place takes what the places before it take. -/
theorem recoversAt_of_operand (hplace : place ≠ .target) (hordered : isOrdered e = true)
    (h : RecoversOperand e.Fits e e.bareTokens) : RecoversAt place e := by
  cases place with
  | target => contradiction
  | operand => exact h
  | whole =>
      have hlevel : ∀ p, e.level? = some p → 1 ≤ p := by
        intro p hp
        cases e with
        | binary op l r => exact (operatorLevel?_ne hp).1
        | _ => contradiction
      exact h.whole ⟨hlevel, stops_of_isOrdered hordered (fun p hp => .inl (hlevel p hp))
        fun h => absurd h (by omega)⟩

theorem recoversAt_of_target (h : RecoversTarget e e.bareTokens) : RecoversAt place e := by
  cases place with
  | target => exact h
  | operand => exact h.operand.mono fun _ _ _ => trivial
  | whole => exact h.whole

theorem recoversAt_index (ht : RecoversAt .target target) (hi : RecoversAt .whole i) :
    RecoversTarget (.index target i) (Node.index target i).bareTokens := by
  have h := recoversTarget_index (o := (Mark.word .leftBracket).token)
    (c := (Mark.word .rightBracket).token) rfl rfl ht hi
  simpa [bareTokens, listing] using h

theorem recoversAt_unary {op : Bytes} (hop : op = "-" ∨ op = "!")
    (hlevel : operand.level?.all (4 ≤ ·) = true) (ho : RecoversAt .operand operand) :
    RecoversOperand (Node.unary op operand).Fits (.unary op operand)
      (Node.unary op operand).bareTokens := by
  obtain ⟨hkind, hlexeme⟩ := token_sign hop
  have htokens : (Mark.operator op).token :: operand.bareTokens =
      (Node.unary op operand).bareTokens := by
    simp [bareTokens, listing]
  have h := recoversOperand_unary hkind ho
  rw [hlexeme, htokens] at h
  refine h.mono fun least q hfit => ?_
  refine ⟨hfit.stops.1, fun p hp => ?_, hfit.stops.2⟩
  rw [hp, Option.all_some, decide_eq_true_eq] at hlevel
  omega

theorem recoversAt_binary {op : Bytes} {p : Nat} (hop : operatorLevel? op = some p)
    (hfit : operandsFit p left right = true) (hordered : isOrdered left = true)
    (hl : RecoversAt .operand left) (hr : RecoversAt .operand right) :
    RecoversOperand (Node.binary op left right).Fits (.binary op left right)
      (Node.binary op left right).bareTokens := by
  obtain ⟨hlevel, hlexeme⟩ := token_operator hop
  have htokens : left.bareTokens ++ (Mark.operator op).token :: right.bareTokens =
      (Node.binary op left right).bareTokens := by
    simp [bareTokens, listing]
  have h := recoversOperand_binary hlevel hl hr
  rw [hlexeme, htokens] at h
  refine h.mono fun least q hfits => ?_
  have hleast := hfits.level p hop
  obtain ⟨hbelow, hcomparison⟩ := hfits.stops.1 p hop
  refine ⟨hleast, ⟨fun r hr => ?_, stops_left hfit hordered⟩, ⟨fun r hr => ?_, hfits.stops.2⟩,
    hbelow, hcomparison⟩
  · exact Nat.le_trans hleast (level_left hfit hr)
  · exact level_right hfit hr

end Forms

/-- Ordered bare trees are read back at their places. -/
theorem recoversAt (place : Place) (e : Node) (h : Ordered place e) : RecoversAt place e := by
  obtain ⟨hbare, hordered⟩ := h
  match e with
  | var x => exact recoversAt_of_target (recoversTarget_var (s := (Mark.name x).token) rfl)
  | int _ | float _ | string _ | Node.bool _ =>
      refine recoversAt_of_target ?_
      rw [bareTokens, listing]
      exact recoversTarget_literal rfl
  | index target i =>
      simp only [needsNoParens, Bool.and_eq_true] at hbare
      simp only [isOrdered, Bool.and_eq_true] at hordered
      exact recoversAt_of_target (recoversAt_index (recoversAt .target target ⟨hbare.1, hordered.1⟩)
        (recoversAt .whole i ⟨hbare.2, hordered.2⟩))
  | field target x =>
      have ht : RecoversTarget target target.bareTokens :=
        recoversAt .target target ⟨hbare, hordered⟩
      have h : RecoversTarget (.field target x)
          (target.bareTokens ++ [(Mark.word .dollar).token, (Mark.name x).token]) :=
        recoversTarget_field (x := (Mark.name x).token) rfl rfl ht
      exact recoversAt_of_target (by simpa [bareTokens, listing] using h)
  | unary op operand =>
      simp only [needsNoParens, Bool.and_eq_true, decide_eq_true_eq] at hbare
      have ho := hordered
      simp only [isOrdered, Bool.and_eq_true, Bool.or_eq_true, decide_eq_true_eq] at ho
      exact recoversAt_of_operand hbare.1 hordered (recoversAt_unary ho.1.1 ho.1.2
        (recoversAt .operand operand ⟨hbare.2, ho.2⟩))
  | binary op left right =>
      simp only [needsNoParens, Bool.and_eq_true, decide_eq_true_eq] at hbare
      have ho := hordered
      simp only [isOrdered, Bool.and_eq_true, Option.any_eq_true] at ho
      obtain ⟨⟨⟨p, hp, hfit⟩, hleft⟩, hright⟩ := ho
      exact recoversAt_of_operand hbare.1.1 hordered (recoversAt_binary hp hfit hleft
        (recoversAt .operand left ⟨hbare.1.2, hleft⟩)
        (recoversAt .operand right ⟨hbare.2, hright⟩))
  | assign x value =>
      simp only [needsNoParens, Bool.and_eq_true, decide_eq_true_eq] at hbare
      obtain ⟨rfl, hbare⟩ := hbare
      have hvalue : RecoversWhole value value.bareTokens :=
        recoversAt .whole value ⟨hbare, hordered⟩
      have h : RecoversWhole (.assign x value)
          ([(Mark.name x).token] ++ Mark.arrow.token :: value.bareTokens) :=
        recoversWhole_assignment (.inl rfl) rfl (recoversTarget_var rfl) hvalue
      simpa [RecoversAt, bareTokens, listing] using h
  | assignIndex target i value =>
      simp only [needsNoParens, Bool.and_eq_true, decide_eq_true_eq] at hbare
      obtain ⟨⟨⟨rfl, htarget⟩, hi⟩, hvalue⟩ := hbare
      simp only [isOrdered, Bool.and_eq_true] at hordered
      have hindex := recoversAt_index (recoversAt .target target ⟨htarget, hordered.1.1⟩)
        (recoversAt .whole i ⟨hi, hordered.1.2⟩)
      have hv : RecoversWhole value value.bareTokens :=
        recoversAt .whole value ⟨hvalue, hordered.2⟩
      have h : RecoversWhole (.assignIndex target i value)
          ((Node.index target i).bareTokens ++ Mark.arrow.token :: value.bareTokens) :=
        recoversWhole_assignment (.inl rfl) rfl hindex hv
      simpa [RecoversAt, bareTokens, listing] using h
  | gap | program _ | block _ | exprStmt _ | ifElse .. | whileLoop .. | forLoop .. | function ..
  | Node.operator .. | ret _ | call .. | named .. | predicate .. =>
      simp [needsNoParens] at hbare

/-! ## Ordered trees as programs -/

theorem token_operator_bare (op : Bytes) : isBareToken (Mark.operator op).token = true := by
  by_cases hop : op = "!"
  · rw [hop]
    decide
  · obtain ⟨p, hp⟩ := Option.isSome_iff_exists.mp (Canonical.operator_level op)
    rw [Mark.token, if_neg hop]
    exact isBareToken_of_level hp

theorem bareTokens_bare (place : Place) (e : Node) (h : needsNoParens place e = true) :
    e.bareTokens.all isBareToken = true := by
  match e with
  | var x => simp [bareTokens, listing, Mark.token, isBareToken, isTyped, Canonical.name, mark]
  | int _ | float _ | string _ | Node.bool _ =>
      simp [bareTokens, listing, Mark.token, isBareToken, isTyped, literalTree?]
  | index target i =>
      simp only [needsNoParens, Bool.and_eq_true] at h
      have htarget := bareTokens_bare .target target h.1
      have hi := bareTokens_bare .whole i h.2
      have hmarks : isBareToken (Mark.word .leftBracket).token = true ∧
          isBareToken (Mark.word .rightBracket).token = true := by decide
      simp_all [bareTokens, listing]
  | field target x =>
      have htarget := bareTokens_bare .target target h
      have hmarks : isBareToken (Mark.word .dollar).token = true ∧
          isBareToken (Mark.name x).token = true := ⟨by decide, rfl⟩
      simp_all [bareTokens, listing]
  | unary op operand =>
      simp only [needsNoParens, Bool.and_eq_true] at h
      have hoperand := bareTokens_bare .operand operand h.2
      simp_all [bareTokens, listing, token_operator_bare]
  | binary op left right =>
      simp only [needsNoParens, Bool.and_eq_true] at h
      have hleft := bareTokens_bare .operand left h.1.2
      have hright := bareTokens_bare .operand right h.2
      simp_all [bareTokens, listing, token_operator_bare]
  | assign x value =>
      simp only [needsNoParens, Bool.and_eq_true] at h
      have hvalue := bareTokens_bare .whole value h.2
      have hmarks : isBareToken Mark.arrow.token = true ∧
          isBareToken (Mark.name x).token = true := ⟨by decide, rfl⟩
      simp_all [bareTokens, listing]
  | assignIndex target i value =>
      simp only [needsNoParens, Bool.and_eq_true] at h
      have htarget := bareTokens_bare .target target h.1.1.2
      have hi := bareTokens_bare .whole i h.1.2
      have hvalue := bareTokens_bare .whole value h.2
      have hmarks : isBareToken (Mark.word .leftBracket).token = true ∧
          isBareToken (Mark.word .rightBracket).token = true ∧
          isBareToken Mark.arrow.token = true := by decide
      simp_all [bareTokens, listing]
  | gap | program _ | block _ | exprStmt _ | ifElse .. | whileLoop .. | forLoop .. | function ..
  | Node.operator .. | ret _ | call .. | named .. | predicate .. =>
      simp [needsNoParens] at h

theorem bareTokens_cons {place : Place} {e : Node} (h : needsNoParens place e = true) :
    ∃ s ts, e.bareTokens = s :: ts := by
  apply List.exists_cons_of_ne_nil
  cases e <;> simp_all [needsNoParens, bareTokens, listing]

theorem bareTokens_readable {place : Place} {e : Node} (h : needsNoParens place e = true) :
    Readable (e.bareTokens ++ [mark .eof []]) where
  ends := ⟨mark .eof [], by simp, rfl⟩
  typed t ht := by
    rcases List.mem_append.mp ht with ht | ht
    · have hbare := List.all_eq_true.mp (bareTokens_bare place e h) t ht
      simp only [isBareToken, Bool.and_eq_true] at hbare
      exact hbare.1.1.1.1.1.1.1.1
    · cases List.mem_singleton.mp ht
      rfl

theorem asStatement_injective {a b : Node} (h : asStatement a = asStatement b) : a = b := by
  unfold asStatement at h
  split at h <;> split at h <;> first | exact h | contradiction | (cases h; rfl)

end Grammar

open Grammar

/-- An ordered tree is the program of its tokens. -/
theorem parse_bareTokens {e : Node} (h : Ordered .whole e) :
    parse (e.bareTokens ++ [mark .eof []]) = .ok [asStatement e] := by
  have hall := List.all_eq_true.mp (bareTokens_bare .whole e h.bare)
  have hreadable := bareTokens_readable h.bare
  have hstart : startsDeclaration (e.bareTokens ++ [mark .eof []]) = false := by
    rw [← Bool.not_eq_true]
    intro hstart
    obtain ⟨t, ht, hk⟩ := startsDeclaration_mem hstart
    rcases List.mem_append.mp ht with ht | ht
    · have hbare := hall t ht
      simp [isBareToken, hk] at hbare
    · cases List.mem_singleton.mp ht
      contradiction
  have hwhole : RecoversWhole e e.bareTokens := recoversAt .whole e h
  obtain ⟨s, ts, hs⟩ := bareTokens_cons h.bare
  have hbegins := isBareToken.begins (hall s (by simp [hs]))
  rw [hs] at hwhole hstart hreadable ⊢
  exact parse_of_answers hreadable
    (statements_expr hbegins hwhole (endsWhole_of_mem (by decide)) hstart (statements_eof rfl))

/-- An expression that is read without parentheses is in the order of its levels, and no other
bare tree with the same marks is. -/
theorem parse_precedence (ts : List Token) (e : Node)
    (hparens : ∀ t ∈ ts, t.kind ≠ .leftParen ∧ t.kind ≠ .rightParen)
    (hspelled : ∀ t ∈ ts, t.isSpelled = true) (h : parse ts = .ok [.exprStmt e]) :
    (e.needsNoParens .whole = true ∧ e.isOrdered = true) ∧
      ∀ e' : Node, e'.needsNoParens .whole = true → e'.isOrdered = true →
        e'.listing = Mark.keyed (marks (ts.takeWhile (·.kind ≠ .eof))) → e' = e := by
  have hplain : ∀ t ∈ ts, t.Plain := fun t ht =>
    ⟨(hparens t ht).1, (hparens t ht).2, hspelled t ht⟩
  have hordered := parse_ordered hplain h (List.mem_singleton.mpr rfl)
  refine ⟨⟨hordered.bare, hordered.ordered⟩, ?_⟩
  intro e' hbare' hordered' hlisting
  have hmarks : Mark.keyed (marks (ts.takeWhile (·.kind ≠ .eof))) = e.listing := by
    have hkeyed := (Node.listing_settled _).keyed_of_same (parse_lists h)
    simpa [Node.listing, Node.listings] using hkeyed
  have htokens : e'.bareTokens = e.bareTokens := by
    rw [Node.bareTokens, Node.bareTokens, hlisting, hmarks]
  -- Both trees are read from the same tokens.
  have hread' := parse_bareTokens ⟨hbare', hordered'⟩
  rw [htokens, parse_bareTokens hordered] at hread'
  have hsame : asStatement e = asStatement e' := by simpa using hread'
  exact (asStatement_injective hsame).symm

/-- In `2 * -x + 1` the sign takes the sum. The tree that takes the sum last has the same marks
and is not ordered. -/
theorem parse_precedence_sign :
    let e := Node.binary "*" (.int "2") (.unary "-" (.binary "+" (.var "x") (.int "1")))
    let other := Node.binary "+" (.binary "*" (.int "2") (.unary "-" (.var "x"))) (.int "1")
    parse (tokens "2 * -x + 1") = .ok [.exprStmt e] ∧ e.isOrdered = true ∧
      (∀ e' : Node, e'.needsNoParens .whole = true → e'.isOrdered = true → e'.listing = e.listing →
        e' = e) ∧
      other.needsNoParens .whole = true ∧ other.listing = e.listing ∧ other.isOrdered = false := by
  intro e other
  obtain ⟨⟨-, hordered⟩, honly⟩ := parse_precedence (tokens "2 * -x + 1") e (by decide)
    (fun t ht => (tokens_spelled _ t ht).operator) rfl
  exact ⟨rfl, hordered, honly, rfl, rfl, rfl⟩

/-- The expression of a source has the marks of another ordered tree, which needs parentheses. -/
def OrderedOtherwise (source : Bytes) : Prop :=
  ∃ e other : Node, parse (tokens source) = .ok [.exprStmt e] ∧
    (∀ t ∈ tokens source, t.kind ≠ .leftParen ∧ t.kind ≠ .rightParen) ∧
    other.isOrdered = true ∧
    other.listing = Mark.keyed (marks ((tokens source).takeWhile (·.kind ≠ .eof))) ∧ other ≠ e

/-- The levels alone leave a choice: an operator as the target of an index, or an assignment as an
operand, is in order wherever it stands. -/
theorem levels_leave_targets_open :
    OrderedOtherwise "a + b[1]" ∧ OrderedOtherwise "-x[1]" ∧ OrderedOtherwise "a[x <- 1 + 2]" := by
  refine ⟨?_, ?_, ?_⟩
  · exact ⟨.binary "+" (.var "a") (.index (.var "b") (.int "1")),
      .index (.binary "+" (.var "a") (.var "b")) (.int "1"), rfl, by decide, rfl, rfl, by simp⟩
  · exact ⟨.unary "-" (.index (.var "x") (.int "1")), .index (.unary "-" (.var "x")) (.int "1"),
      rfl, by decide, rfl, rfl, by simp⟩
  · exact ⟨.index (.var "a") (.assign "x" (.binary "+" (.int "1") (.int "2"))),
      .index (.var "a") (.binary "+" (.assign "x" (.int "1")) (.int "2")),
      rfl, by decide, rfl, rfl, by simp⟩

end RToJulia
