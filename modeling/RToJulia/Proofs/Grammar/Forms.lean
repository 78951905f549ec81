import RToJulia.Proofs.Grammar.Completeness
import RToJulia.Proofs.Tree.Precedence

/-! # Reading forms back

Tokens recover a tree when the rules read them as that tree, whatever comes after. A
target is read up to the suffixes behind it and an operand up to the operators behind
it, so their lemmas leave open how reading goes on there. A whole expression ends in
front of a token that no expression goes on with.

There is one lemma for each form of an expression, in terms of the tokens of its
parts. How the tokens were chosen does not matter.
-/

namespace RToJulia

namespace Grammar

open RToJulia.Grammar.Parser

/-! ## Tokens behind an expression -/

structure EndsOperand (t : Token) : Prop where
  paren : t.kind ≠ .leftParen
  bracket : t.kind ≠ .leftBracket
  dollar : t.kind ≠ .dollar

structure EndsWhole (t : Token) : Prop extends EndsOperand t where
  level : level? t.kind = none
  arrow : t.kind ≠ .backArrow
  equal : t.kind ≠ .equal

theorem endsOperand_of_level {t : Token} {p : Nat} (h : level? t.kind = some p) :
    EndsOperand t := by
  constructor <;> intro hk <;> simp [hk, level?] at h

theorem endsWhole_of_mem {t : Token}
    (h : t.kind ∈ [Kind.rightParen, .rightBracket, .comma, .newline, .eof]) : EndsWhole t := by
  constructor
  · constructor <;> intro hk <;> simp [hk] at h
  · cases hk : t.kind <;> simp_all [level?]
  · intro hk
    simp [hk] at h
  · intro hk
    simp [hk] at h

/-- Climbing ends in front of an operator of a lower level. -/
theorem climb_stop (n : Nat) {least : Nat} (left : Node) {t : Token} {rest : List Token}
    (h : nextLevel (t :: rest) < least) :
    ((rules n).climb least left (t :: rest)).Answers left (t :: rest) := by
  cases n with
  | zero => exact .inl rfl
  | succ n =>
      refine .inr ?_
      change (rules n).climbRule least left (t :: rest) = _
      unfold Rules.climbRule
      rw [bind_peek]
      cases hlevel : level? t.kind with
      | none => rfl
      | some p =>
          have hp : p < least := by simpa [nextLevel, hlevel] using h
          dsimp only
          rw [if_pos hp]
          rfl

/-! ## Recovery -/

/-- The tokens are read as `e`, and reading goes on with the suffixes behind it. -/
def RecoversTarget (e : Node) (ts : List Token) : Prop :=
  ∀ (t : Token) (rest : List Token) (a : Node) (left : List Token), t.kind ≠ .leftParen →
    (∀ n, ((rules n).suffixes e (t :: rest)).Answers a left) →
    ∀ n, ((rules n).unary (ts ++ t :: rest)).Answers a left

/-- The tokens are read as `e`, and reading goes on with the operators behind it. What `fits`
asks of the least level and of the level that comes next keeps both out of the tree. -/
def RecoversOperand (fits : Nat → Nat → Prop) (e : Node) (ts : List Token) : Prop :=
  ∀ (least : Nat) (t : Token) (rest : List Token) (a : Node) (left : List Token), EndsOperand t →
    fits least (nextLevel (t :: rest)) →
    (∀ n, ((rules n).climb least e (t :: rest)).Answers a left) →
    ∀ n, ((rules n).binary least (ts ++ t :: rest)).Answers a left

def RecoversWhole (e : Node) (ts : List Token) : Prop :=
  ∀ (t : Token) (rest : List Token), EndsWhole t →
    ∀ n, ((rules n).assignment (ts ++ t :: rest)).Answers e (t :: rest)

/-! ## Targets -/

section Targets

variable {e target i : Node} {ts us : List Token}

theorem recoversTarget_var {s : Token} (hs : s.kind = .ident) :
    RecoversTarget (.var s.lexeme) [s] := by
  intro t rest a left ht hsuffixes n
  have hsign : (s.kind = .bang || s.kind = .minus) = false := by simp [hs]
  refine unary_of_atom hsign n ?_ (hsuffixes n)
  change ((rules n).atom (s :: t :: rest)).Answers _ _
  rw [Rules.atom_ident _ _ hs]
  unfold Rules.nameOrCall
  rw [bind_next, decide_eq_false ht]
  exact .inr rfl

theorem recoversTarget_literal {s : Token} (hs : literalTree? s = some e) :
    RecoversTarget e [s] := by
  intro t rest a left _ hsuffixes n
  have hsign : (s.kind = .bang || s.kind = .minus) = false := by
    unfold literalTree? at hs
    split at hs <;> simp_all
  exact unary_of_atom hsign n (.inr (Rules.atom_literal _ _ hs)) (hsuffixes n)

theorem recoversTarget_index {o c : Token} (ho : o.kind = .leftBracket)
    (hc : c.kind = .rightBracket) (ht : RecoversTarget target ts) (hi : RecoversWhole i us) :
    RecoversTarget (.index target i) (ts ++ o :: us ++ [c]) := by
  intro t rest a left _ hsuffixes n
  have htokens : ts ++ o :: us ++ [c] ++ t :: rest = ts ++ o :: (us ++ c :: t :: rest) := by simp
  have hends : EndsWhole c := endsWhole_of_mem (by simp [hc])
  rw [htokens]
  refine ht o (us ++ c :: t :: rest) a left (by simp [ho]) (fun n => ?_) n
  cases n with
  | zero => exact .inl rfl
  | succ n =>
      change ((rules n).suffixesRule target _).Answers _ _
      rw [Rules.suffixesRule_cons, if_pos ho]
      exact ((hi c (t :: rest) hends n).orSkim _).bind (.expect hc (hsuffixes n))

theorem recoversTarget_field {d x : Token} (hd : d.kind = .dollar) (hx : x.kind = .ident)
    (ht : RecoversTarget target ts) : RecoversTarget (.field target x.lexeme) (ts ++ [d, x]) := by
  intro t rest a left _ hsuffixes n
  have htokens : ts ++ [d, x] ++ t :: rest = ts ++ d :: (x :: t :: rest) := by simp
  rw [htokens]
  refine ht d (x :: t :: rest) a left (by simp [hd]) (fun n => ?_) n
  cases n with
  | zero => exact .inl rfl
  | succ n =>
      change ((rules n).suffixesRule target _).Answers _ _
      rw [Rules.suffixesRule_cons, if_neg (by simp [hd]), if_pos hd]
      exact .expect hx (hsuffixes n)

end Targets

/-! ## Operands -/

section Operands

variable {e left right inner : Node} {ts us : List Token} {fits fits' : Nat → Nat → Prop}

theorem RecoversTarget.operand (h : RecoversTarget e ts) :
    RecoversOperand (fun _ _ => True) e ts := by
  intro least t rest a left ht _ hclimb n
  cases n with
  | zero => exact .inl rfl
  | succ n =>
      have hsuffixes : ∀ n, ((rules n).suffixes e (t :: rest)).Answers e (t :: rest) :=
        fun n => suffixes_end n e rest ht.bracket ht.dollar
      exact (h t rest e (t :: rest) ht.paren hsuffixes n).bind (hclimb n)

theorem RecoversOperand.mono (h : RecoversOperand fits e ts)
    (hf : ∀ least q, fits' least q → fits least q) : RecoversOperand fits' e ts :=
  fun least t rest a left ht hfit hclimb n =>
    h least t rest a left ht (hf least _ hfit) hclimb n

/-- A sign takes the operators of level 3 and above, so a lower one has to come next. -/
theorem recoversOperand_unary {s : Token} (hs : s.kind = .bang ∨ s.kind = .minus)
    (ho : RecoversOperand fits inner ts) :
    RecoversOperand (fun _ q => q < 3 ∧ fits 3 q) (.unary s.lexeme inner) (s :: ts) := by
  intro least t rest a left ht hfit hclimb n
  cases n with
  | zero => exact .inl rfl
  | succ n =>
      refine Outcome.Answers.bind ?_ (hclimb n)
      change ((rules n).unary (s :: (ts ++ t :: rest))).Answers _ _
      unfold Rules.unary
      rw [bind_peek, if_pos (by simpa using hs), bind_take]
      have hinner := ho 3 t rest inner (t :: rest) ht hfit.2 (fun n => climb_stop n inner hfit.1) n
      exact hinner.bind (.done _ _)

/-- The left operand is read up to the operator, the operator takes the right operand, and
reading goes on behind it. -/
theorem recoversOperand_binary {o : Token} {p : Nat} (ho : level? o.kind = some p)
    {fitsLeft fitsRight : Nat → Nat → Prop} (hl : RecoversOperand fitsLeft left ts)
    (hr : RecoversOperand fitsRight right us) :
    RecoversOperand (fun least q => least ≤ p ∧ fitsLeft least p ∧ fitsRight (leastRight p) q ∧
      q < leastRight p ∧ ¬ (p = 4 ∧ q = 4)) (.binary o.lexeme left right) (ts ++ o :: us) := by
  intro least t rest a b ht hfit hclimb n
  obtain ⟨hleast, hfitLeft, hfitRight, hbelow, hcomparison⟩ := hfit
  have htokens : ts ++ o :: us ++ t :: rest = ts ++ o :: (us ++ t :: rest) := by simp
  have hnext : nextLevel (o :: (us ++ t :: rest)) = p := by simp [nextLevel, ho]
  rw [htokens]
  refine hl least o _ a b (endsOperand_of_level ho) (by rwa [hnext]) (fun n => ?_) n
  cases n with
  | zero => exact .inl rfl
  | succ n =>
      change ((rules n).climbRule least left _).Answers _ _
      rw [climbRule_cons ho hleast, rightLevel_eq ho]
      have hright := hr (leastRight p) t rest right (t :: rest) ht hfitRight
        (fun n => climb_stop n right hbelow) n
      refine hright.bind ?_
      rw [bind_peek, if_neg]
      · exact hclimb n
      · -- Another comparison would come next as one of level 4.
        rw [Bool.and_eq_true]
        rintro ⟨hfirst, hsecond⟩
        have hsome : ∃ q, level? t.kind = some q := by
          cases hk : t.kind <;> simp_all [Kind.isComparison, level?]
        obtain ⟨q, hq⟩ := hsome
        refine hcomparison ⟨(comparison_iff_level ho).mp hfirst, ?_⟩
        rw [nextLevel, hq]
        exact (comparison_iff_level hq).mp hsecond

end Operands

/-! ## Whole expressions -/

section Whole

variable {e target value : Node} {ts us : List Token} {fits : Nat → Nat → Prop}

theorem RecoversOperand.whole (h : RecoversOperand fits e ts) (hfit : fits 1 0) :
    RecoversWhole e ts := by
  intro t rest ht n
  have hnext : nextLevel (t :: rest) = 0 := by simp [nextLevel, ht.level]
  refine assignment_of_binary ht.arrow ht.equal (fun n => ?_) n
  exact h 1 t rest e (t :: rest) ht.toEndsOperand (by rwa [hnext])
    (fun n => climb_stop n e (by omega)) n

theorem RecoversTarget.whole (h : RecoversTarget e ts) : RecoversWhole e ts :=
  h.operand.whole trivial

/-- A target in front of an arrow and its value. -/
theorem recoversWhole_assignment {tree : Node} {arrow : Token}
    (harrow : arrow.kind = .backArrow ∨ arrow.kind = .equal)
    (htree : assignTo? target value = some tree) (ht : RecoversTarget target ts)
    (hv : RecoversWhole value us) : RecoversWhole tree (ts ++ arrow :: us) := by
  intro t rest hend n
  have hends : EndsOperand arrow ∧ nextLevel (arrow :: (us ++ t :: rest)) = 0 := by
    rcases harrow with h | h <;> exact ⟨⟨by simp [h], by simp [h], by simp [h]⟩, by
      simp [nextLevel, h, level?]⟩
  rw [List.append_assoc, List.cons_append]
  cases n with
  | zero => exact .inl rfl
  | succ n =>
      have htarget := ht.operand 1 arrow (us ++ t :: rest) target (arrow :: (us ++ t :: rest))
        hends.1 trivial (fun n => climb_stop n target (by omega)) n
      refine Outcome.Answers.bind htarget ?_
      rw [bind_peek, if_pos (by simpa using harrow), bind_take]
      refine (hv t rest hend n).bind ?_
      simp only [htree]
      exact .done tree (t :: rest)

/-- Parentheses make a target of any expression. -/
theorem recoversTarget_group {o s c : Token} (ho : o.kind = .leftParen) (hs : s.kind ≠ .newline)
    (hc : c.kind = .rightParen) (h : RecoversWhole e (s :: ts)) :
    RecoversTarget e (o :: s :: ts ++ [c]) := by
  intro t rest a left _ hsuffixes n
  have hsign : (o.kind = .bang || o.kind = .minus) = false := by simp [ho]
  have hends : EndsWhole c := endsWhole_of_mem (by simp [hc])
  have hread := h c (t :: rest) hends n
  refine unary_of_atom hsign n ?_ (hsuffixes n)
  have htokens : s :: ts ++ [c] ++ t :: rest = s :: (ts ++ c :: t :: rest) := by simp
  change ((rules n).atom (o :: (s :: ts ++ [c] ++ t :: rest))).Answers _ _
  rw [Rules.atom_group _ _ ho, htokens]
  refine .skipNewlines hs ((hread.orSkim _).bind ?_)
  exact .skipNewlines (by simp [hc]) (.expect hc (.done e (t :: rest)))

end Whole

/-! ## Calls -/

section Calls

variable {e : Node} {ts : List Token}

theorem endsWhole_of_endsExpr {t : Token} (h : endsExpr t.kind = true) : EndsWhole t := by
  obtain ⟨hlevel, hbracket, hdollar, hparen, harrow, hequal, -⟩ := endsExpr_spec h
  exact ⟨⟨hparen, hbracket, hdollar⟩, hlevel, harrow, hequal⟩

/-- A target is an argument by position if it does not begin as a named one does. -/
theorem RecoversTarget.item
    (hfront : ∃ s mid, ts = s :: mid ∧ s.kind ≠ .newline ∧ s.kind ≠ .rightParen)
    (hnamed : ∀ t rest, t.kind ≠ .equal → startsNamed (ts ++ t :: rest) = false)
    (h : RecoversTarget e ts) : RecoversItem (fun n => (rules n).arg) e ts := by
  refine ⟨hfront, fun n t rest ht => ?_⟩
  have hends := endsWhole_of_endsExpr ht
  have hnext : nextLevel (t :: rest) = 0 := by simp [nextLevel, hends.level]
  change ((rules n).arg _).Answers _ _
  unfold Rules.arg
  rw [bind_ahead, hnamed t rest hends.equal, if_neg Bool.false_ne_true]
  exact h.operand 1 t rest e (t :: rest) hends.toEndsOperand trivial
    (fun n => climb_stop n e (by omega)) n

theorem recoversTarget_call {ι : Type} {items : List ι} {s o comma close : Token}
    {tree : ι → Node} {toks : ι → List Token} (hs : s.kind = .ident) (ho : o.kind = .leftParen)
    (hcomma : comma.kind = .comma) (hclose : close.kind = .rightParen)
    (htest : Node.isTypeTest s.lexeme (items.map tree) = false)
    (h : ∀ i ∈ items, RecoversItem (fun n => (rules n).arg) (tree i) (toks i)) :
    RecoversTarget (.call s.lexeme (items.map tree))
      (s :: o :: [comma].intercalate (items.map toks) ++ [close]) := by
  intro t rest a left _ hsuffixes n
  have hsign : (s.kind = .bang || s.kind = .minus) = false := by simp [hs]
  have htokens : s :: o :: [comma].intercalate (items.map toks) ++ [close] ++ t :: rest =
      s :: o :: ([comma].intercalate (items.map toks) ++ close :: t :: rest) := by simp
  rw [htokens]
  refine unary_of_atom hsign n ?_ (hsuffixes n)
  rw [Rules.atom_ident _ _ hs, ← callTree_call htest]
  unfold Rules.nameOrCall
  rw [bind_next, if_pos (by simp [ho])]
  exact call_answers hcomma hclose h n (t :: rest)

end Calls

/-! ## Statements -/

section Statements

variable {e : Node} {ss : List Node} {ts rest left : List Token}

structure BeginsExpr (t : Token) : Prop where
  eof : t.kind ≠ .eof
  newline : t.kind ≠ .newline
  semicolon : t.kind ≠ .semicolon
  kwIf : t.kind ≠ .kwIf
  kwWhile : t.kind ≠ .kwWhile
  kwFor : t.kind ≠ .kwFor
  kwReturn : t.kind ≠ .kwReturn

/-- A token inside an expression: it carries a value if it is a literal, and begins or ends no
statement. -/
def isBareToken (t : Token) : Bool :=
  isTyped t && t.kind ≠ .eof && t.kind ≠ .newline && t.kind ≠ .semicolon && t.kind ≠ .kwIf &&
    t.kind ≠ .kwWhile && t.kind ≠ .kwFor && t.kind ≠ .kwReturn && t.kind ≠ .kwFunction

theorem isBareToken.begins {t : Token} (h : isBareToken t = true) : BeginsExpr t := by
  simp only [isBareToken, Bool.and_eq_true, decide_eq_true_eq] at h
  obtain ⟨⟨⟨⟨⟨⟨⟨⟨-, heof⟩, hnewline⟩, hsemicolon⟩, hif⟩, hwhile⟩, hfor⟩, hreturn⟩, -⟩ := h
  exact ⟨heof, hnewline, hsemicolon, hif, hwhile, hfor, hreturn⟩

theorem isBareToken_of_level {t : Token} {p : Nat} (h : level? t.kind = some p) :
    isBareToken t = true := by
  unfold isBareToken isTyped
  cases hk : t.kind <;> simp_all [level?]

theorem startsDeclaration_mem {ts : List Token} (h : startsDeclaration ts = true) :
    ∃ t ∈ ts, t.kind = .kwFunction := by
  match ts, h with
  | name :: arrow :: word :: ts, h =>
    simp only [startsDeclaration, Bool.and_eq_true, decide_eq_true_eq] at h
    exact ⟨word, by simp, h.2⟩

theorem statement_answers {s t : Token} (hs : BeginsExpr s) (h : RecoversWhole e (s :: ts))
    (ht : EndsWhole t) (hstart : startsDeclaration (s :: (ts ++ t :: rest)) = false) (n : Nat) :
    ((rules n).statement (s :: (ts ++ t :: rest))).Answers (asStatement e) (t :: rest) := by
  cases n with
  | zero => exact .inl rfl
  | succ n =>
      change ((rules n).statementRule _).Answers _ _
      rw [Rules.statementRule_cons, if_neg hs.kwIf, if_neg hs.kwWhile, if_neg hs.kwFor,
        if_neg hs.kwReturn, hstart, if_neg Bool.false_ne_true, Rules.exprRule_eq]
      exact (h t rest ht n).bind (.done _ _)

/-- An expression is a statement in front of others. -/
theorem statements_expr {s t : Token} (hs : BeginsExpr s) (h : RecoversWhole e (s :: ts))
    (ht : EndsWhole t) (hstart : startsDeclaration (s :: (ts ++ t :: rest)) = false)
    (hrest : ∀ n, ((rules n).statements .eof (t :: rest)).Answers ss left) (n : Nat) :
    ((rules n).statements .eof (s :: (ts ++ t :: rest))).Answers (asStatement e :: ss) left := by
  cases n with
  | zero => exact .inl rfl
  | succ n =>
      have hsep : s.kind.isSeparator = false := by
        have hnewline := hs.newline
        have hsemicolon := hs.semicolon
        cases hk : s.kind <;> simp_all [Kind.isSeparator]
      change ((rules n).statementsRule .eof _).Answers _ _
      unfold Rules.statementsRule
      rw [bind_peek, if_neg (by simp [hs.eof]), if_neg (by simp [hsep])]
      exact (statement_answers hs h ht hstart n).bind ((hrest n).bind (.done _ _))

/-- A line break in front of statements is taken and nothing else. -/
theorem statementsRule_newline (r : Rules) {closer : Kind} (hcloser : closer ≠ .newline) {t : Token}
    (ht : t.kind = .newline) (ts : List Token) :
    r.statementsRule closer (t :: ts) = r.statements closer ts := by
  unfold Rules.statementsRule
  rw [bind_peek, if_neg (by simp [ht, hcloser.symm]), if_pos (by rw [ht]; rfl), bind_take]

theorem statements_newline {t : Token} (ht : t.kind = .newline)
    (hrest : ∀ n, ((rules n).statements .eof rest).Answers ss left) (n : Nat) :
    ((rules n).statements .eof (t :: rest)).Answers ss left := by
  cases n with
  | zero => exact .inl rfl
  | succ n =>
      change ((rules n).statementsRule .eof _).Answers _ _
      rw [statementsRule_newline (rules n) (by simp) ht]
      exact hrest n

theorem statements_eof {t : Token} (ht : t.kind = .eof) (n : Nat) :
    ((rules n).statements .eof (t :: rest)).Answers [] (t :: rest) := by
  cases n with
  | zero => exact .inl rfl
  | succ n =>
      change ((rules n).statementsRule .eof _).Answers _ _
      unfold Rules.statementsRule
      rw [bind_peek, if_pos (by simp [ht])]
      exact .done _ _

end Statements

end Grammar

open Grammar

/-- A list of tokens that is answered at every depth is answered at its own. -/
theorem parse_of_answers {ts rest : List Token} {ss : List Node} (hts : Readable ts)
    (h : ∀ n, ((rules n).statements .eof ts).Answers ss rest) : parse ts = .ok ss := by
  rcases h (depthFor ts.length) with hdepth | hdone
  · have hhalt : parse ts = .error (.halt .depth) := by
      unfold parse
      rw [hdepth]
    exact (parse_ne_halt hts .depth hhalt).elim
  · unfold parse
    rw [hdone]

end RToJulia
