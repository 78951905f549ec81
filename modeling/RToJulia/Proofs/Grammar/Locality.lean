import RToJulia.Proofs.Token.Lexed

/-! # What the rules look at

The rules are put together from steps that look at the next tokens or take one. Run on two
lists that are the same up to the first `eof`, such a parser does the same on both as long as it
keeps in front of the `eof` in the first one. A parser that is made of others does the same
when they do, so nothing has to be known about a rule but what it calls. Safety says that the
rules do keep in front of the `eof`, and with it that what stands behind is never looked at.
-/

namespace RToJulia

namespace Grammar

open RToJulia.Grammar.Parser

variable {α β : Type} {more more' : List Token}

/-! ## Two lists with a common front -/

/-- The same tokens up to the first `eof`, and `more` and `more'` behind it. -/
inductive SameToEnd (more more' : List Token) : List Token → List Token → Prop
  | last {e : Token} (he : e.kind = .eof) : SameToEnd more more' (e :: more) (e :: more')
  | cons {t : Token} {ts us : List Token} (ht : t.kind ≠ .eof) (h : SameToEnd more more' ts us) :
      SameToEnd more more' (t :: ts) (t :: us)

namespace SameToEnd

variable {ts us : List Token}

theorem append {front : List Token} {e : Token} (hfront : ∀ t ∈ front, t.kind ≠ .eof)
    (he : e.kind = .eof) : SameToEnd more more' (front ++ e :: more) (front ++ e :: more') := by
  induction front with
  | nil => exact .last he
  | cons t front ih =>
      exact .cons (hfront t (by simp)) (ih fun u hu => hfront u (by simp [hu]))

theorem fronts (h : SameToEnd more more' ts us) : ∃ t ts' us', ts = t :: ts' ∧ us = t :: us' := by
  cases h with
  | last he => exact ⟨_, _, _, rfl, rfl⟩
  | cons ht h => exact ⟨_, _, _, rfl, rfl⟩

/-- Line breaks are passed over in both lists alike. -/
theorem dropWhile_newline (h : SameToEnd more more' ts us) :
    SameToEnd more more' (ts.dropWhile (·.kind = .newline)) (us.dropWhile (·.kind = .newline)) := by
  induction h with
  | last he =>
      rw [List.dropWhile_cons_of_neg (by simp [he]), List.dropWhile_cons_of_neg (by simp [he])]
      exact .last he
  | @cons t _ _ ht h ih =>
      by_cases hk : t.kind = .newline
      · rw [List.dropWhile_cons_of_pos (by simp [hk]), List.dropWhile_cons_of_pos (by simp [hk])]
        exact ih
      · rw [List.dropWhile_cons_of_neg (by simp [hk]), List.dropWhile_cons_of_neg (by simp [hk])]
        exact .cons ht h

theorem elseFollows_eq (h : SameToEnd more more' ts us) : elseFollows ts = elseFollows us := by
  obtain ⟨t, ts', us', hts, hus⟩ := h.dropWhile_newline.fronts
  unfold elseFollows
  rw [hts, hus]

theorem startsNamed_eq (h : SameToEnd more more' ts us) : startsNamed ts = startsNamed us := by
  cases h with
  | last he => cases more <;> cases more' <;> simp [startsNamed, he]
  | cons _ h => cases h <;> rfl

theorem startsDeclaration_eq (h : SameToEnd more more' ts us) :
    startsDeclaration ts = startsDeclaration us := by
  -- An `eof` among the first two tokens is no name and no arrow, whatever follows it.
  have hshort : ∀ {t u : Token} (ts : List Token), t.kind = .eof ∨ u.kind = .eof →
      startsDeclaration (t :: u :: ts) = false := by
    intro t u ts heof
    cases ts with
    | nil => rfl
    | cons v ts => rcases heof with he | he <;> simp [startsDeclaration, he]
  cases h with
  | last he =>
      cases more <;> cases more' <;> first | rfl | simp only [hshort _ (.inl he)]
      all_goals rfl
  | cons _ h =>
      cases h with
      | last he => rw [hshort _ (.inr he), hshort _ (.inr he)]
      | cons _ h => cases h <;> rfl

end SameToEnd

/-! ## Two outcomes -/

def Outcome.Within (k : Nat) (o : Outcome α) : Prop :=
  o.Sat (fun _ rest => rest.length ≤ k) (fun rest => rest.length ≤ k) fun _ => True

theorem Outcome.Within.bind {p : Parser α} {f : α → Parser β} {ts : List Token} {k : Nat}
    (hp : (p ts).Within k) (hf : ∀ a mid, (f a mid).Within mid.length) :
    ((p >>= f) ts).Within k :=
  Outcome.Sat.bind hp fun a mid hmid => (hf a mid).mono (fun _ _ hd => Nat.le_trans hd hmid)
    (fun _ hf => Nat.le_trans hf hmid) fun _ hh => hh

theorem Outcome.Within.orSkim {p : Parser α} {skim : Skim} {ts : List Token} {k : Nat}
    (hp : (p ts).Within k)
    (hskim : ∀ {rest left}, skim rest = some left → left.length ≤ rest.length) :
    (p.orSkim skim ts).Within k := by
  unfold Parser.orSkim
  generalize p ts = o at hp ⊢
  cases o with
  | done a rest => exact hp
  | halt reason => trivial
  | fail e rest =>
      dsimp only
      cases hs : skim rest with
      | none => trivial
      | some left => exact Nat.le_trans (hskim hs) hp

/-- The same value or the same fault with a common front left, unless the first outcome is a
halt or lies behind the `eof`. -/
inductive Outcome.Matches (more more' : List Token) : Outcome α → Outcome α → Prop
  | done {ts us : List Token} (a : α) (h : SameToEnd more more' ts us) :
      Matches more more' (.done a ts) (.done a us)
  | fail {ts us : List Token} (e : SyntaxFault) (h : SameToEnd more more' ts us) :
      Matches more more' (.fail e ts) (.fail e us)
  | past {o : Outcome α} (o' : Outcome α) (h : o.Within more.length) : Matches more more' o o'

structure Skim.Local (more more' : List Token) (skim : Skim) : Prop where
  shrinks : ∀ {ts rest}, skim ts = some rest → rest.length ≤ ts.length
  same : ∀ {ts us}, SameToEnd more more' ts us →
    ∃ left left', skim ts = some left ∧ skim us = some left' ∧ SameToEnd more more' left left'

structure Parser.Local (more more' : List Token) (p p' : Parser α) : Prop where
  shrinks : ∀ ts, (p ts).Within ts.length
  same : ∀ {ts us}, SameToEnd more more' ts us → (p ts).Matches more more' (p' us)

theorem bind_fail (f : α → Parser β) {p : Parser α} {ts rest : List Token} {e : SyntaxFault}
    (h : p ts = .fail e rest) : (p >>= f) ts = .fail e rest := by
  change Parser.bind p f ts = .fail e rest
  unfold Parser.bind
  rw [h]

theorem pure_local (a : α) : Parser.Local more more' (pure a) (pure a) where
  shrinks ts := Nat.le_refl ts.length
  same h := .done a h

theorem failAt_local (place : Token) (cause : SyntaxCause) :
    Parser.Local more more' (failAt place cause : Parser α) (failAt place cause) where
  shrinks ts := Nat.le_refl ts.length
  same h := .fail _ h

theorem stop_local (reason : Halt) (p' : Parser α) : Parser.Local more more' (stop reason) p' where
  shrinks _ := trivial
  same _ := .past _ trivial

theorem peek_local : Parser.Local more more' peek peek where
  shrinks ts := by
    cases ts with
    | nil => trivial
    | cons t ts => exact Nat.le_refl _
  same h := by
    cases h with
    | last he => exact .done _ (.last he)
    | cons ht h => exact .done _ (.cons ht h)

/-- The one step that can pass the `eof`. -/
theorem take_local : Parser.Local more more' take take where
  shrinks ts := by
    cases ts with
    | nil => trivial
    | cons t ts => exact Nat.le_succ _
  same h := by
    cases h with
    | last he => exact .past _ (Nat.le_refl more.length)
    | cons ht h => exact .done _ h

theorem ahead_local {test : List Token → Bool}
    (htest : ∀ {ts us}, SameToEnd more more' ts us → test ts = test us) :
    Parser.Local more more' (ahead test) (ahead test) where
  shrinks ts := Nat.le_refl ts.length
  same {ts us} h := by
    unfold ahead
    rw [htest h]
    exact .done _ h

theorem skipNewlines_local : Parser.Local more more' skipNewlines skipNewlines where
  shrinks ts := by
    have hle : (ts.dropWhile (·.kind = .newline)).length ≤ ts.length :=
      (List.dropWhile_sublist _).length_le
    unfold skipNewlines
    split
    · trivial
    · exact hle
  same h := by
    have hskip := h.dropWhile_newline
    obtain ⟨t, ts', us', hts, hus⟩ := hskip.fronts
    unfold skipNewlines
    rw [hts, hus] at hskip ⊢
    exact .done () hskip

theorem Parser.Local.bind {p p' : Parser α} {f f' : α → Parser β}
    (hp : Parser.Local more more' p p') (hf : ∀ a, Parser.Local more more' (f a) (f' a)) :
    Parser.Local more more' (p >>= f) (p' >>= f') where
  shrinks ts := (hp.shrinks ts).bind fun a mid => (hf a).shrinks mid
  same {ts us} h := by
    have hsame := hp.same h
    generalize ho : p ts = o at hsame
    generalize ho' : p' us = o' at hsame
    cases hsame with
    | done a hmid =>
        rw [bind_done f ho, bind_done f' ho']
        exact (hf a).same hmid
    | fail e hmid =>
        rw [bind_fail f ho, bind_fail f' ho']
        exact .fail e hmid
    | past _ hpast =>
        subst ho
        exact .past _ (hpast.bind fun a mid => (hf a).shrinks mid)

theorem Parser.Local.ite {c : Prop} [Decidable c] {p p' q q' : Parser α}
    (hp : Parser.Local more more' p p') (hq : Parser.Local more more' q q') :
    Parser.Local more more' (if c then p else q) (if c then p' else q') := by
  split
  · exact hp
  · exact hq

theorem next_local (kind : Kind) : Parser.Local more more' (next kind) (next kind) :=
  peek_local.bind fun _ => pure_local _

theorem expect_local (kind : Kind) : Parser.Local more more' (expect kind) (expect kind) :=
  peek_local.bind fun _ => take_local.ite (failAt_local _ _)

theorem Parser.Local.orSkim {p p' : Parser α} {skim : Skim} (hp : Parser.Local more more' p p')
    (hskim : Skim.Local more more' skim) :
    Parser.Local more more' (p.orSkim skim) (p'.orSkim skim) where
  shrinks ts := (hp.shrinks ts).orSkim hskim.shrinks
  same {ts us} h := by
    have hsame := hp.same h
    generalize ho : p ts = o at hsame
    generalize ho' : p' us = o' at hsame
    cases hsame with
    | done a hmid =>
        unfold Parser.orSkim
        rw [ho, ho']
        exact .done a hmid
    | fail e hmid =>
        obtain ⟨left, left', hl, hl', hleft⟩ := hskim.same hmid
        unfold Parser.orSkim
        simp only [ho, ho', hl, hl']
        exact .fail e hleft
    | past _ hpast =>
        subst ho
        exact .past _ (hpast.orSkim hskim.shrinks)

namespace Skim.Local

/-- A token that is no `eof` is taken, or left, in both lists. -/
theorem of_kinds (test : Token → Bool) (htest : ∀ {t}, test t = true → t.kind ≠ .eof) {skim : Skim}
    (hnil : skim [] = none)
    (hcons : ∀ t ts, skim (t :: ts) = some (if test t then ts else t :: ts)) :
    Local more more' skim where
  shrinks {ts rest} h := by
    cases ts with
    | nil => rw [hnil] at h; cases h
    | cons t ts =>
        rw [hcons] at h
        cases h
        split
        · exact Nat.le_succ _
        · exact Nat.le_refl _
  same {ts us} h := by
    cases h with
    | @last e he =>
        have hno : ¬ test e = true := fun hyes => htest hyes he
        refine ⟨_, _, hcons _ _, hcons _ _, ?_⟩
        rw [if_neg hno, if_neg hno]
        exact .last he
    | cons ht h =>
        refine ⟨_, _, hcons _ _, hcons _ _, ?_⟩
        split
        · exact h
        · exact .cons ht h

theorem kind {k : Kind} (hk : k ≠ .eof) : Local more more' (Skim.kind k) :=
  of_kinds (fun t => decide (t.kind = k)) (fun ht => of_decide_eq_true ht ▸ hk) rfl
    fun t ts => by simp [Skim.kind]

theorem params : Local more more' Skim.params :=
  of_kinds (fun t => decide (t.kind = .ident)) (fun ht => by simp [of_decide_eq_true ht]) rfl
    fun t ts => by simp [Skim.params]

theorem expr : Local more more' Skim.expr where
  shrinks {ts rest} h := by
    induction ts with
    | nil => cases h
    | cons t ts ih =>
        rw [Skim.expr] at h
        split at h
        · exact Nat.le_succ_of_le (ih h)
        · cases h
          exact Nat.le_refl _
  same {ts us} h := by
    induction h with
    | last he =>
        refine ⟨_, _, ?_, ?_, .last he⟩ <;> rw [Skim.expr, if_neg (by simp [he])]
    | @cons t _ _ ht h ih =>
        by_cases hsign : t.kind = .bang || t.kind = .minus
        · rw [Skim.expr, Skim.expr, if_pos hsign, if_pos hsign]
          exact ih
        · refine ⟨_, _, ?_, ?_, .cons ht h⟩ <;> rw [Skim.expr, if_neg hsign]

theorem seq {first second : Skim} (h₁ : Local more more' first)
    (h₂ : Local more more' second) :
    Local more more' (Skim.seq first second) where
  shrinks {ts rest} h := by
    obtain ⟨mid, hmid, hrest⟩ := Option.bind_eq_some_iff.mp h
    exact Nat.le_trans (h₂.shrinks hrest) (h₁.shrinks hmid)
  same {ts us} h := by
    obtain ⟨mid, mid', hm, hm', hmid⟩ := h₁.same h
    obtain ⟨left, left', hl, hl', hleft⟩ := h₂.same hmid
    exact ⟨left, left', by simp [Skim.seq, hm, hl], by simp [Skim.seq, hm', hl'], hleft⟩

end Skim.Local

/-! ## Rules -/

structure Rules.Local (more more' : List Token) (r r' : Rules) : Prop where
  statements : ∀ closer, Parser.Local more more' (r.statements closer) (r'.statements closer)
  statement : Parser.Local more more' r.statement r'.statement
  assignment : Parser.Local more more' r.assignment r'.assignment
  binary : ∀ least, Parser.Local more more' (r.binary least) (r'.binary least)
  climb : ∀ least left, Parser.Local more more' (r.climb least left) (r'.climb least left)
  suffixes : ∀ e, Parser.Local more more' (r.suffixes e) (r'.suffixes e)
  args : Parser.Local more more' r.args r'.args
  names : Parser.Local more more' r.names r'.names

namespace Rules.Local

variable {r r' : Rules} (h : Rules.Local more more' r r')

include h

theorem statementsRule (closer : Kind) :
    Parser.Local more more' (r.statementsRule closer) (r'.statementsRule closer) :=
  peek_local.bind fun _ => (pure_local []).ite <|
    (take_local.bind fun _ => h.statements closer).ite <|
    h.statement.bind fun _ => (h.statements closer).bind fun _ => pure_local _

theorem block : Parser.Local more more' r.block r'.block :=
  skipNewlines_local.bind fun _ => (next_local _).bind fun _ => Parser.Local.ite
    (take_local.bind fun _ => ((h.statements _).orSkim (.kind (by decide))).bind fun _ =>
      (expect_local _).bind fun _ => pure_local _)
    (h.statement.bind fun _ => pure_local _)

theorem condition : Parser.Local more more' r.condition r'.condition :=
  ((expect_local _).orSkim (.seq .expr (.kind (by decide)))).bind fun _ =>
    (h.assignment.orSkim (.kind (by decide))).bind fun _ => (expect_local _).bind fun _ =>
    pure_local _

theorem ifRule : Parser.Local more more' r.ifRule r'.ifRule :=
  take_local.bind fun _ => h.condition.bind fun _ => h.block.bind fun _ =>
    (ahead_local SameToEnd.elseFollows_eq).bind fun _ => Parser.Local.ite
      (skipNewlines_local.bind fun _ => (expect_local _).bind fun _ => h.block.bind fun _ =>
        pure_local _)
      (pure_local _)

theorem whileRule : Parser.Local more more' r.whileRule r'.whileRule :=
  take_local.bind fun _ => h.condition.bind fun _ => h.block.bind fun _ => pure_local _

theorem forRule : Parser.Local more more' r.forRule r'.forRule := by
  have hin : Skim.Local more more' (Skim.seq Skim.expr (Skim.kind .rightParen)) :=
    .seq .expr (.kind (by decide))
  have hname := Skim.Local.seq (.kind (by decide : Kind.kwIn ≠ .eof)) hin
  refine take_local.bind fun _ =>
    ((expect_local _).orSkim (.seq (.kind (by decide : Kind.ident ≠ .eof)) hname)).bind fun _ =>
    ((expect_local _).orSkim hname).bind fun _ => ((expect_local _).orSkim hin).bind fun _ => ?_
  exact (h.assignment.orSkim (.kind (by decide))).bind fun _ => (expect_local _).bind fun _ =>
    h.block.bind fun _ => pure_local _

theorem returnRule : Parser.Local more more' r.returnRule r'.returnRule :=
  take_local.bind fun _ => peek_local.bind fun _ => (pure_local _).ite <|
    h.assignment.bind fun _ => pure_local _

theorem params : Parser.Local more more' r.params r'.params :=
  skipNewlines_local.bind fun _ => (next_local _).bind fun _ => (pure_local []).ite h.names

theorem declarationRule : Parser.Local more more' r.declarationRule r'.declarationRule := by
  refine take_local.bind fun name => take_local.bind fun _ => take_local.bind fun _ =>
    ((expect_local _).orSkim (.seq .params (.kind (by decide)))).bind fun _ =>
    (h.params.orSkim (.kind (by decide))).bind fun _ => (expect_local _).bind fun _ =>
    h.block.bind fun _ => ?_
  cases splitOperator? name.lexeme <;> exact pure_local _

theorem exprRule : Parser.Local more more' r.exprRule r'.exprRule := by
  rw [Rules.exprRule_eq, Rules.exprRule_eq]
  exact h.assignment.bind fun _ => pure_local _

theorem statementRule : Parser.Local more more' r.statementRule r'.statementRule := by
  refine peek_local.bind fun t => ?_
  generalize t.kind = kind
  cases kind with
  | kwIf => exact h.ifRule
  | kwWhile => exact h.whileRule
  | kwFor => exact h.forRule
  | kwReturn => exact h.returnRule
  | _ =>
      exact (ahead_local SameToEnd.startsDeclaration_eq).bind fun _ =>
        h.declarationRule.ite h.exprRule

theorem assignmentRule : Parser.Local more more' r.assignmentRule r'.assignmentRule := by
  refine (h.binary 1).bind fun target => peek_local.bind fun _ => Parser.Local.ite
    (take_local.bind fun _ => h.assignment.bind fun value => ?_) (pure_local _)
  cases assignTo? target value with
  | none => exact failAt_local _ _
  | some tree => exact pure_local tree

theorem arg : Parser.Local more more' r.arg r'.arg :=
  (ahead_local SameToEnd.startsNamed_eq).bind fun _ => Parser.Local.ite
    (take_local.bind fun _ => take_local.bind fun _ => skipNewlines_local.bind fun _ =>
      (h.binary 1).bind fun _ => pure_local _)
    (h.binary 1)

omit h in
theorem commaList {item item' : Parser α} {value : α → β} {later later' : Parser (List β)}
    (hitem : Parser.Local more more' item item') (hlater : Parser.Local more more' later later') :
    Parser.Local more more' (commaList item value later) (commaList item' value later') :=
  hitem.bind fun _ => skipNewlines_local.bind fun _ => (next_local _).bind fun _ => Parser.Local.ite
    (take_local.bind fun _ => skipNewlines_local.bind fun _ => hlater.bind fun _ => pure_local _)
    (pure_local _)

theorem call (name : Bytes) : Parser.Local more more' (r.call name) (r'.call name) := by
  have hclose : ∀ args, Parser.Local more more'
      (expect .rightParen >>= fun _ => pure (callTree name args))
      (expect .rightParen >>= fun _ => pure (callTree name args)) :=
    fun args => (expect_local _).bind fun _ => pure_local _
  exact take_local.bind fun _ => skipNewlines_local.bind fun _ => (next_local _).bind fun _ =>
    ((pure_local []).bind hclose).ite ((h.args.orSkim (.kind (by decide))).bind hclose)

theorem atom : Parser.Local more more' r.atom r'.atom := by
  refine peek_local.bind fun t => (failAt_local t _).ite (take_local.bind fun _ => ?_)
  generalize t.kind = kind, t.literal = literal
  cases kind with
  | integer | float | string | bool =>
      rcases literal with _ | (value | value | value) <;>
        first | exact pure_local _ | exact stop_local _ _
  | ident => exact (next_local _).bind fun _ => (h.call t.lexeme).ite (pure_local _)
  | leftParen =>
      exact skipNewlines_local.bind fun _ => (h.assignment.orSkim (.kind (by decide))).bind fun _ =>
        skipNewlines_local.bind fun _ => (expect_local _).bind fun _ => pure_local _
  | _ => exact failAt_local t _

theorem suffixesRule (e : Node) :
    Parser.Local more more' (r.suffixesRule e) (r'.suffixesRule e) := by
  refine peek_local.bind fun t => ?_
  generalize t.kind = kind
  cases kind with
  | leftBracket =>
      exact take_local.bind fun _ => (h.assignment.orSkim (.kind (by decide))).bind fun _ =>
        (expect_local _).bind fun _ => h.suffixes _
  | dollar => exact take_local.bind fun _ => (expect_local _).bind fun _ => h.suffixes _
  | _ => exact pure_local e

theorem unary : Parser.Local more more' r.unary r'.unary :=
  peek_local.bind fun _ => Parser.Local.ite
    (take_local.bind fun _ => (h.binary 3).bind fun _ => pure_local _)
    (h.atom.bind fun e => h.suffixes e)

theorem climbRule (least : Nat) (left : Node) :
    Parser.Local more more' (r.climbRule least left) (r'.climbRule least left) := by
  refine peek_local.bind fun op => ?_
  cases level? op.kind with
  | none => exact pure_local left
  | some level =>
      exact (pure_local left).ite <| take_local.bind fun _ => (h.binary _).bind fun _ =>
        peek_local.bind fun t => (failAt_local t _).ite (h.climb least _)

theorem up : Rules.Local more more' r.up r'.up where
  statements := h.statementsRule
  statement := h.statementRule
  assignment := h.assignmentRule
  binary least := h.unary.bind fun left => h.climb least left
  climb := h.climbRule
  suffixes := h.suffixesRule
  args := commaList h.arg h.args
  names := commaList (expect_local _) h.names

omit h in
/-- Rules that are no deeper than others do the same. -/
theorem rules {n m : Nat} (hnm : n ≤ m) :
    Rules.Local more more' (Grammar.rules n) (Grammar.rules m) := by
  induction n generalizing m with
  | zero => constructor <;> intros <;> exact stop_local _ _
  | succ n ih =>
      cases m with
      | zero => omega
      | succ m => exact (ih (by omega)).up

end Rules.Local

end Grammar

open Grammar

/-! ## Programs -/

theorem exists_first_eof {ts : List Token} (h : ∃ t ∈ ts, t.kind = .eof) :
    ∃ front e more, ts = front ++ e :: more ∧ e.kind = .eof ∧ ∀ t ∈ front, t.kind ≠ .eof := by
  induction ts with
  | nil => simp at h
  | cons t ts ih =>
      by_cases ht : t.kind = .eof
      · exact ⟨[], t, ts, rfl, ht, by simp⟩
      · obtain ⟨u, hu, heof⟩ := h
        have hmem : u ∈ ts := (List.mem_cons.mp hu).resolve_left fun heq => ht (heq ▸ heof)
        obtain ⟨front, e, more, rfl, he, hfront⟩ := ih ⟨u, hmem, heof⟩
        refine ⟨t :: front, e, more, rfl, he, fun v hv => ?_⟩
        rcases List.mem_cons.mp hv with rfl | hv
        · exact ht
        · exact hfront v hv

/-- What is left in front of the first `eof` is the end of the front. -/
theorem Grammar.Reaches.split_front {front more rest : List Token} {e : Token} (he : e.kind = .eof)
    (h : Reaches (front ++ e :: more) rest) :
    ∃ taken left, front = taken ++ left ∧ rest = left ++ e :: more := by
  obtain ⟨taken, heq, htaken⟩ := h
  rcases List.append_eq_append_iff.mp heq with ⟨beyond, htk, hmore⟩ | ⟨left, hfront, hrest⟩
  · cases beyond with
    | nil => exact ⟨front, [], by simp, hmore.symm⟩
    | cons t beyond =>
        obtain ⟨rfl, -⟩ := List.cons.inj hmore
        exact absurd he (htaken e (by simp [htk]))
  · exact ⟨taken, left, hfront, hrest⟩

/-- A readable list has as its outcome a program or a fault, with its first `eof` still left. -/
theorem Grammar.Readable.outcome {front more : List Token} {e : Token} (he : e.kind = .eof)
    (h : Readable (front ++ e :: more)) : ∃ taken left, front = taken ++ left ∧
      ((∃ ss, (rules (depthFor (front ++ e :: more).length)).statements .eof (front ++ e :: more) =
        .done ss (left ++ e :: more)) ∨
      ∃ f, (rules (depthFor (front ++ e :: more).length)).statements .eof (front ++ e :: more) =
        .fail f (left ++ e :: more)) := by
  have hsafe := (rules_safe (depthFor (front ++ e :: more).length)).statements .eof _ h
  generalize (rules (depthFor (front ++ e :: more).length)).statements .eof (front ++ e :: more) = o
    at hsafe ⊢
  cases o with
  | done ss rest =>
      obtain ⟨taken, left, hfront, rfl⟩ := hsafe.1.split_front he
      exact ⟨taken, left, hfront, .inl ⟨ss, rfl⟩⟩
  | fail f rest =>
      obtain ⟨taken, left, hfront, rfl⟩ := Reaches.split_front he hsafe
      exact ⟨taken, left, hfront, .inr ⟨f, rfl⟩⟩
  | halt reason =>
      have hshort := hsafe.2
      unfold depthFor at hshort
      omega

/-- What stands behind the first `eof` makes no difference. -/
theorem parse_to_eof {front : List Token} {e : Token} (hfront : ∀ t ∈ front, t.kind ≠ .eof)
    (htyped : ∀ t ∈ front, isTyped t = true) (he : e.kind = .eof) (more : List Token) :
    parse (front ++ e :: more) = parse (front ++ [e]) := by
  have hread : Readable (front ++ [e]) := by
    refine ⟨⟨e, by simp, he⟩, fun t ht => ?_⟩
    rcases List.mem_append.mp ht with ht | ht
    · exact htyped t ht
    · rw [List.mem_singleton.mp ht]
      simp [isTyped, he]
  have hdepth : depthFor (front ++ [e]).length ≤ depthFor (front ++ e :: more).length := by
    simp only [depthFor, List.length_append, List.length_cons, List.length_nil]
    omega
  have hlists : SameToEnd [] more (front ++ [e]) (front ++ e :: more) := .append hfront he
  have hsame := ((Rules.Local.rules hdepth).statements .eof).same hlists
  obtain ⟨taken, left, -, houtcome⟩ := hread.outcome he
  unfold parse
  rcases houtcome with ⟨ss, hss⟩ | ⟨f, hf⟩
  · rw [hss] at hsame ⊢
    generalize (rules (depthFor (front ++ e :: more).length)).statements .eof
      (front ++ e :: more) = o at hsame ⊢
    cases hsame with
    | done a h => rfl
    | past _ h => simp [Outcome.Within, Outcome.Sat] at h
  · rw [hf] at hsame ⊢
    generalize (rules (depthFor (front ++ e :: more).length)).statements .eof
      (front ++ e :: more) = o at hsame ⊢
    cases hsame with
    | fail f h => rfl
    | past _ h => simp [Outcome.Within, Outcome.Sat] at h

/-- Every list that holds an `eof` and has typed literals, such as the tokens of a source, is
read to an end: it gives a program, or a fault and no tree, with the cursor at the first `eof` or
in front of it, and nothing behind this `eof` makes a difference. -/
theorem parse_reads_to_first_eof :
    (∀ source, Readable (tokens source)) ∧ ∀ {ts : List Token}, Readable ts →
      ∃ front e more, ts = front ++ e :: more ∧ e.kind = .eof ∧ (∀ t ∈ front, t.kind ≠ .eof) ∧
        (∃ taken left, front = taken ++ left ∧
          ((∃ ss, (rules (depthFor ts.length)).statements .eof ts = .done ss (left ++ e :: more) ∧
            parse ts = .ok ss) ∨
          ∃ f, (rules (depthFor ts.length)).statements .eof ts = .fail f (left ++ e :: more) ∧
            parse ts = .error (.fault f))) ∧
        ∀ more', parse (front ++ e :: more') = parse ts := by
  refine ⟨tokens_readable, fun {ts} h => ?_⟩
  obtain ⟨front, e, more, rfl, he, hfront⟩ := exists_first_eof h.ends
  refine ⟨front, e, more, rfl, he, hfront, ?_, fun more' => ?_⟩
  · obtain ⟨taken, left, heq, houtcome⟩ := h.outcome he
    refine ⟨taken, left, heq, ?_⟩
    rcases houtcome with ⟨ss, hss⟩ | ⟨f, hf⟩
    · exact .inl ⟨ss, hss, by rw [parse, hss]⟩
    · exact .inr ⟨f, hf, by rw [parse, hf]⟩
  · have htyped : ∀ t ∈ front, isTyped t = true :=
      fun t ht => h.typed t (List.mem_append_left _ ht)
    rw [parse_to_eof hfront htyped he more', parse_to_eof hfront htyped he more]

/-- `x` is a program whatever stands behind its end. -/
theorem parse_reads_to_first_eof_name :
    Readable [⟨.ident, "x", 1, none⟩, ⟨.eof, "", 1, none⟩, ⟨.rightParen, ")", 1, none⟩] ∧
      ∀ more, parse (⟨.ident, "x", 1, none⟩ :: ⟨.eof, "", 1, none⟩ :: more) =
        .ok [.exprStmt (.var "x")] := by
  have hread :
      Readable [⟨.ident, "x", 1, none⟩, ⟨.eof, "", 1, none⟩, ⟨.rightParen, ")", 1, none⟩] :=
    ⟨⟨_, .tail _ (.head _), rfl⟩, by decide⟩
  obtain ⟨front, e, more, heq, he, hfront, -, hsame⟩ := parse_reads_to_first_eof.2 hread
  refine ⟨hread, fun more' => ?_⟩
  rcases front with _ | ⟨t, _ | ⟨u, front⟩⟩
  · cases heq
    contradiction
  · cases heq
    exact hsame more'
  · obtain ⟨rfl, -⟩ := List.cons.inj (List.cons.inj heq).2
    exact absurd rfl (hfront _ (.tail _ (.head _)))

end RToJulia
