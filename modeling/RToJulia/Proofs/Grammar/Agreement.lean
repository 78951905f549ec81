import Mathlib.Data.List.Forall2
import RToJulia.Proofs.Grammar.Variants

/-! # Rules on variants

No rule counts line breaks and none asks how a name is spelled, so the same rules apply to
two lists that are variants of each other. They end in a fault on both, or build two trees
part by part. Which trees are related is left open: any relation will do that is kept by
what the rules build.
-/

namespace RToJulia

namespace Grammar

open RToJulia.Grammar.Parser

variable {α β : Type} {Q : Bytes → Bytes → Prop} {R : Node → Node → Prop}

/-! ## Trees -/

structure Builds (Q : Bytes → Bytes → Prop) (R : Node → Node → Prop) : Prop where
  literal : ∀ {t e}, literalTree? t = some e → R e e
  var : ∀ {x y}, Q x y → R (.var x) (.var y)
  call : ∀ {x y as bs}, Q x y → List.Forall₂ R as bs → R (callTree x as) (callTree y bs)
  named : ∀ {x y a b}, Q x y → R a b → R (.named x a) (.named y b)
  index : ∀ {a b i j}, R a b → R i j → R (.index a i) (.index b j)
  field : ∀ {a b x y}, R a b → Q x y → R (.field a x) (.field b y)
  unary : ∀ {op a b}, R a b → R (.unary op a) (.unary op b)
  binary : ∀ {op a b c d}, R a b → R c d → R (.binary op a c) (.binary op b d)
  assign : ∀ {a b c d}, R a b → R c d → Option.Rel R (assignTo? a c) (assignTo? b d)
  statement : ∀ {a b}, R a b → R (asStatement a) (asStatement b)
  ifElse : ∀ {a b ss ss'}, R a b → List.Forall₂ R ss ss' →
    R (.ifElse a (some ss) none) (.ifElse b (some ss') none)
  ifElseBoth : ∀ {a b ss ss' no no'}, R a b → List.Forall₂ R ss ss' → List.Forall₂ R no no' →
    R (.ifElse a (some ss) (some no)) (.ifElse b (some ss') (some no'))
  whileLoop : ∀ {a b ss ss'}, R a b → List.Forall₂ R ss ss' →
    R (.whileLoop a (some ss)) (.whileLoop b (some ss'))
  forLoop : ∀ {x y a b ss ss'}, Q x y → R a b → List.Forall₂ R ss ss' →
    R (.forLoop x (splitRange a).1 (splitRange a).2 (some ss))
      (.forLoop y (splitRange b).1 (splitRange b).2 (some ss'))
  ret : ∀ {a b}, R a b → R (.ret a) (.ret b)
  bareRet : R (.ret .gap) (.ret .gap)
  declaration : ∀ {x y ps qs ss ss'}, Q x y → List.Forall₂ Q ps qs → List.Forall₂ R ss ss' →
    R (declarationTree x ps ss) (declarationTree y qs ss')

/-- Equal parts make equal trees. -/
theorem Builds.eq : Builds Eq Eq := by
  have hlist : ∀ {α : Type} {as bs : List α}, List.Forall₂ Eq as bs → as = bs := by
    intro α as bs h
    rwa [List.forall₂_eq_eq_eq] at h
  constructor
  case assign =>
    rintro a _ c _ rfl rfl
    cases assignTo? a c <;> constructor
    rfl
  all_goals grind

/-! ## Rules -/

/-- The two sets of rules agree on variants. Statements may begin behind line breaks, of which
each list has its own. -/
structure Rules.Agree (Q : Bytes → Bytes → Prop) (R : Node → Node → Prop) (r r' : Rules) :
    Prop where
  statements : ∀ {closer ts us}, closer ≠ .newline → Variant Q (afterBreaks ts) (afterBreaks us) →
    (r.statements closer ts).Agrees Q (List.Forall₂ R) (r'.statements closer us)
  statement : ∀ {ts us}, Variant Q ts us → (r.statement ts).Agrees Q R (r'.statement us)
  assignment : ∀ {ts us}, Variant Q ts us → (r.assignment ts).Agrees Q R (r'.assignment us)
  binary : ∀ least {ts us}, Variant Q ts us → (r.binary least ts).Agrees Q R (r'.binary least us)
  climb : ∀ least {a b ts us}, R a b → Variant Q ts us →
    (r.climb least a ts).Agrees Q R (r'.climb least b us)
  suffixes : ∀ {a b ts us}, R a b → Variant Q ts us →
    (r.suffixes a ts).Agrees Q R (r'.suffixes b us)
  args : ∀ {ts us}, Variant Q ts us → (r.args ts).Agrees Q (List.Forall₂ R) (r'.args us)
  names : ∀ {ts us}, Variant Q ts us → (r.names ts).Agrees Q (List.Forall₂ Q) (r'.names us)

namespace Rules.Agree

variable {r r' : Rules} {ts us : List Token}

section Statements

variable (trees : Builds Q R) (h : Agree Q R r r')

include trees h

omit trees in
theorem block (hv : Variant Q ts us) :
    (r.block ts).Agrees Q (List.Forall₂ R) (r'.block us) := by
  refine (skipNewlines_agrees hv).bind fun _ _ ts us _ hv => ?_
  refine next_agrees (by simp) (by simp) hv ?_ ?_
  · rintro t u ts us rfl rfl hv
    refine (h.statements (by simp) hv.skip).orSkim.bind fun ss ss' ts us hss hv => ?_
    exact close_agrees (by simp) (by simp) hss hv
  · exact (h.statement hv).map fun s s' hs => .cons hs .nil

omit trees in
theorem condition (hv : Variant Q ts us) : (r.condition ts).Agrees Q R (r'.condition us) := by
  refine (expect_agrees (by simp) (by simp) hv).orSkim.bind fun _ _ ts us _ hv => ?_
  refine (h.assignment hv).orSkim.bind fun c c' ts us hc hv => ?_
  exact close_agrees (by simp) (by simp) hc hv

theorem ifRule {t u : Token} (hv : Variant Q ts us) :
    (r.ifRule (t :: ts)).Agrees Q R (r'.ifRule (u :: us)) := by
  unfold Rules.ifRule
  rw [bind_take, bind_take]
  refine (h.condition hv).bind fun c c' ts us hc hv => ?_
  refine (h.block hv).bind fun yes yes' ts us hyes hv => ?_
  rw [bind_ahead, bind_ahead, hv.elseFollows_eq]
  cases elseFollows us with
  | false => exact .done (trees.ifElse hc hyes) hv
  | true =>
      refine (skipNewlines_agrees hv).bind fun _ _ ts us _ hv => ?_
      refine (expect_agrees (by simp) (by simp) hv).bind fun _ _ ts us _ hv => ?_
      exact (h.block hv).map fun no no' hno => trees.ifElseBoth hc hyes hno

theorem whileRule {t u : Token} (hv : Variant Q ts us) :
    (r.whileRule (t :: ts)).Agrees Q R (r'.whileRule (u :: us)) := by
  unfold Rules.whileRule
  rw [bind_take, bind_take]
  refine (h.condition hv).bind fun c c' ts us hc hv => ?_
  exact (h.block hv).map fun body body' hbody => trees.whileLoop hc hbody

theorem forRule {t u : Token} (hv : Variant Q ts us) :
    (r.forRule (t :: ts)).Agrees Q R (r'.forRule (u :: us)) := by
  unfold Rules.forRule
  dsimp only
  rw [bind_take, bind_take]
  refine (expect_agrees (by simp) (by simp) hv).orSkim.bind fun _ _ ts us _ hv => ?_
  refine (expect_agrees (by simp) (by simp) hv).orSkim.bind fun x y ts us hx hv => ?_
  refine (expect_agrees (by simp) (by simp) hv).orSkim.bind fun _ _ ts us _ hv => ?_
  refine (h.assignment hv).orSkim.bind fun range range' ts us hrange hv => ?_
  refine (expect_agrees (by simp) (by simp) hv).bind fun _ _ ts us _ hv => ?_
  exact (h.block hv).map fun body body' hbody =>
    trees.forLoop (hx.2.name hx.1) hrange hbody

theorem returnRule {t u : Token} (hv : Variant Q ts us) :
    (r.returnRule (t :: ts)).Agrees Q R (r'.returnRule (u :: us)) := by
  unfold Rules.returnRule
  rw [bind_take, bind_take]
  obtain ⟨t, ts', u, us', rfl, rfl, hkind, -⟩ := hv.fronts
  rw [bind_peek, bind_peek, ← hkind]
  split
  · exact .done trees.bareRet hv
  · exact (h.assignment hv).map fun value value' hvalue => trees.ret hvalue

omit trees in
theorem params (hv : Variant Q ts us) :
    (r.params ts).Agrees Q (List.Forall₂ Q) (r'.params us) := by
  refine (skipNewlines_agrees hv).bind fun _ _ ts us _ hv => ?_
  exact next_agrees (by simp) (by simp) hv (fun _ _ _ _ _ _ _ => .done .nil hv) (h.names hv)

theorem declarationRule {t arrow word u arrow' word' : Token} (hname : Q t.lexeme u.lexeme)
    (hv : Variant Q ts us) :
    (r.declarationRule (t :: arrow :: word :: ts)).Agrees Q R
      (r'.declarationRule (u :: arrow' :: word' :: us)) := by
  unfold Rules.declarationRule
  rw [bind_take, bind_take, bind_take, bind_take, bind_take, bind_take]
  refine (expect_agrees (by simp) (by simp) hv).orSkim.bind fun _ _ ts us _ hv => ?_
  refine (h.params hv).orSkim.bind fun ps qs ts us hps hv => ?_
  refine (expect_agrees (by simp) (by simp) hv).bind fun _ _ ts us _ hv => ?_
  refine (h.block hv).bind fun body body' ts us hbody hv => ?_
  have htree := trees.declaration hname hps hbody
  revert htree
  unfold declarationTree
  cases splitOperator? t.lexeme <;> cases splitOperator? u.lexeme <;>
    exact fun htree => .done htree hv

theorem statementRule (hv : Variant Q ts us) :
    (r.statementRule ts).Agrees Q R (r'.statementRule us) := by
  have hdecl := hv.startsDeclaration_eq
  obtain ⟨t, ts, u, us, rfl, rfl, hkind, later⟩ := hv.fronts
  rw [Rules.statementRule_cons, Rules.statementRule_cons, ← hkind, ← hdecl]
  split
  case isTrue hk => exact h.ifRule trees (later (by simp [hk]) (by simp [hk])).2
  split
  case isTrue hk => exact h.whileRule trees (later (by simp [hk]) (by simp [hk])).2
  split
  case isTrue hk => exact h.forRule trees (later (by simp [hk]) (by simp [hk])).2
  split
  case isTrue hk => exact h.returnRule trees (later (by simp [hk]) (by simp [hk])).2
  split
  case isTrue hstarts =>
    obtain ⟨_, _, _, _, _, _, _, _, hts, hus, hname, hv⟩ := hv.declaration hstarts
    rw [hts, hus]
    exact h.declarationRule trees hname hv
  case isFalse =>
    rw [Rules.exprRule_eq, Rules.exprRule_eq]
    exact (h.assignment hv).map fun e e' he => trees.statement he

omit trees in
/-- Line breaks in front are passed over one at a time, in either list. -/
theorem statementsRule {closer : Kind} (hcloser : closer ≠ .newline)
    (hfirst : ∀ {ts us}, Variant Q (afterBreaks ts) (afterBreaks us) →
      (r.statements closer ts).Agrees Q (List.Forall₂ R) (r'.statementsRule closer us))
    (hsecond : ∀ {ts us}, Variant Q (afterBreaks ts) (afterBreaks us) →
      (r.statementsRule closer ts).Agrees Q (List.Forall₂ R) (r'.statements closer us))
    (hv : Variant Q (afterBreaks ts) (afterBreaks us)) :
    (r.statementsRule closer ts).Agrees Q (List.Forall₂ R) (r'.statementsRule closer us) := by
  cases ts with
  | nil => exact .haltFirst _ _
  | cons t ts =>
  cases us with
  | nil => exact .haltSecond _ _
  | cons u us =>
  by_cases ht : t.kind = .newline
  · rw [statementsRule_newline r hcloser ht]
    rw [afterBreaks_newline ht] at hv
    exact hfirst hv
  by_cases hu : u.kind = .newline
  · rw [statementsRule_newline r' hcloser hu]
    rw [afterBreaks_newline hu] at hv
    exact hsecond hv
  rw [afterBreaks_of_ne ht, afterBreaks_of_ne hu] at hv
  obtain ⟨_, _, _, _, ⟨⟩, ⟨⟩, hkind, later⟩ := hv.fronts
  unfold Rules.statementsRule
  rw [bind_peek, bind_peek, ← hkind]
  split
  case isTrue => exact .done .nil hv
  case isFalse hend =>
    split
    · rw [bind_take, bind_take]
      have hne : t.kind ≠ .eof := fun heq => hend (by simp [heq])
      exact h.statements hcloser (later hne ht).2.skip
    · refine (h.statement hv).bind fun s s' ts us hs hv => ?_
      exact (h.statements hcloser hv.skip).map fun ss ss' hss => .cons hs hss

end Statements

section Expressions

variable (trees : Builds Q R) (h : Agree Q R r r')

include trees h

theorem assignmentRule (hv : Variant Q ts us) :
    (r.assignmentRule ts).Agrees Q R (r'.assignmentRule us) := by
  refine (h.binary 1 hv).bind fun target target' ts us htarget hv => ?_
  obtain ⟨t, ts, u, us, rfl, rfl, hkind, later⟩ := hv.fronts
  rw [bind_peek, bind_peek, ← hkind]
  split
  case isTrue harrow =>
    have hne : t.kind ≠ .eof ∧ t.kind ≠ .newline := by
      constructor <;> intro heq <;> simp [heq] at harrow
    rw [bind_take, bind_take]
    refine (h.assignment (later hne.1 hne.2).2).bind fun value value' ts us hvalue hv => ?_
    have htree := trees.assign htarget hvalue
    cases ha : assignTo? target value <;> cases hb : assignTo? target' value' <;>
      rw [ha, hb] at htree <;> cases htree
    · exact .fail _ _ _ _
    · exact .done ‹_› hv
  case isFalse => exact .done htarget hv

theorem arg (hv : Variant Q ts us) : (r.arg ts).Agrees Q R (r'.arg us) := by
  unfold Rules.arg
  rw [bind_ahead, bind_ahead, ← hv.startsNamed_eq]
  split
  case isTrue hstarts =>
    obtain ⟨t, mark, ts, u, mark', us, rfl, rfl, hname, hv⟩ := hv.named hstarts
    rw [bind_take, bind_take, bind_take, bind_take]
    refine (skipNewlines_agrees hv).bind fun _ _ ts us _ hv => ?_
    exact (h.binary 1 hv).map fun value value' hvalue => trees.named hname hvalue
  case isFalse => exact h.binary 1 hv

omit trees h in
/-- Items with commas between them, where the items and what reads the later ones agree. -/
theorem commaList {item item' : Parser α} {value : α → β} {more more' : Parser (List β)}
    {S : β → β → Prop}
    (hitem : (item ts).Agrees Q (fun a b => S (value a) (value b)) (item' us))
    (hmore : ∀ {ts us}, Variant Q ts us → (more ts).Agrees Q (List.Forall₂ S) (more' us)) :
    (commaList item value more ts).Agrees Q (List.Forall₂ S) (commaList item' value more' us) := by
  refine hitem.bind fun a b ts us hab hv => ?_
  refine (skipNewlines_agrees hv).bind fun _ _ ts us _ hv => ?_
  refine next_agrees (by simp) (by simp) hv ?_ (.done (.cons hab .nil) hv)
  rintro t u ts us rfl rfl hv
  refine (skipNewlines_agrees hv).bind fun _ _ ts us _ hv => ?_
  exact (hmore hv).map fun rest rest' hrest => .cons hab hrest

theorem argsRule (hv : Variant Q ts us) :
    (r.argsRule ts).Agrees Q (List.Forall₂ R) (r'.argsRule us) := by
  rw [Rules.argsRule_eq, Rules.argsRule_eq]
  exact commaList (h.arg trees hv) h.args

omit trees in
theorem namesRule (hv : Variant Q ts us) :
    (r.namesRule ts).Agrees Q (List.Forall₂ Q) (r'.namesRule us) := by
  rw [Rules.namesRule_eq, Rules.namesRule_eq]
  refine commaList ?_ h.names
  exact (expect_agrees (by simp) (by simp) hv).mono fun x y hx => hx.2.name hx.1

theorem call {x y : Bytes} {t u : Token} (hxy : Q x y) (hv : Variant Q ts us) :
    (r.call x (t :: ts)).Agrees Q R (r'.call y (u :: us)) := by
  unfold Rules.call
  rw [bind_take, bind_take]
  refine (skipNewlines_agrees hv).bind fun _ _ ts us _ hv => ?_
  refine next_agrees (by simp) (by simp) hv ?_ ?_
  · intro _ _ _ _ _ _ _
    exact close_agrees (by simp) (by simp) (trees.call hxy .nil) hv
  · refine (h.args hv).orSkim.bind fun args args' ts us hargs hv => ?_
    exact close_agrees (by simp) (by simp) (trees.call hxy hargs) hv

omit trees h in
theorem atom_refuses (r : Rules) {t : Token} (hliteral : literalTree? t = none)
    (hident : t.kind ≠ .ident) (hparen : t.kind ≠ .leftParen) (ts : List Token) :
    (r.atom (t :: ts)).Refuses := by
  rcases r.atom_cases ts t with ⟨e, he⟩ | hk | hk | ⟨e, he⟩ | ⟨-, e, he⟩ | ⟨-, he⟩
  · rw [hliteral] at he
    contradiction
  · exact absurd hk hident
  · exact absurd hk hparen
  all_goals
    rw [he]
    trivial

omit trees in
theorem group (hv : Variant Q ts us) : (r.group ts).Agrees Q R (r'.group us) := by
  refine (skipNewlines_agrees hv).bind fun _ _ ts us _ hv => ?_
  refine (h.assignment hv).orSkim.bind fun e e' ts us he hv => ?_
  refine (skipNewlines_agrees hv).bind fun _ _ ts us _ hv => ?_
  exact close_agrees (by simp) (by simp) he hv

theorem atom (hv : Variant Q ts us) : (r.atom ts).Agrees Q R (r'.atom us) := by
  obtain ⟨t, ts, u, us, rfl, rfl, hkind, later⟩ := hv.fronts
  have hliteral := hv.literalTree?_eq
  by_cases hident : t.kind = .ident
  · obtain ⟨varies, hv⟩ := later (by simp [hident]) (by simp [hident])
    rw [Rules.atom_ident _ _ hident, Rules.atom_ident _ _ (hkind ▸ hident)]
    refine next_agrees (by simp) (by simp) hv ?_ (.done (trees.var (varies.name hident)) hv)
    rintro t' u' ts us rfl rfl hv
    exact h.call trees (varies.name hident) hv
  by_cases hparen : t.kind = .leftParen
  · rw [Rules.atom_group _ _ hparen, Rules.atom_group _ _ (hkind ▸ hparen)]
    exact h.group (later (by simp [hparen]) (by simp [hparen])).2
  cases he : literalTree? t with
  | some e =>
      rw [Rules.atom_literal _ _ he, Rules.atom_literal _ _ (hliteral ▸ he)]
      refine .done (trees.literal he) (later ?_ ?_).2 <;> intro heq <;>
        simp [literalTree?, heq] at he
  | none =>
      exact (atom_refuses r he hident hparen ts).agrees
        (atom_refuses r' (hliteral ▸ he) (hkind ▸ hident) (hkind ▸ hparen) us)

theorem suffixesRule {a b : Node} (hab : R a b) (hv : Variant Q ts us) :
    (r.suffixesRule a ts).Agrees Q R (r'.suffixesRule b us) := by
  obtain ⟨t, ts, u, us, rfl, rfl, hkind, later⟩ := hv.fronts
  rw [Rules.suffixesRule_cons, Rules.suffixesRule_cons, ← hkind]
  split
  case isTrue hk =>
    refine (h.assignment (later (by simp [hk]) (by simp [hk])).2).orSkim.bind
      fun i j ts us hij hv => ?_
    refine (expect_agrees (by simp) (by simp) hv).bind fun _ _ ts us _ hv => ?_
    exact h.suffixes (trees.index hab hij) hv
  split
  case isTrue hk =>
    refine (expect_agrees (by simp) (by simp) (later (by simp [hk]) (by simp [hk])).2).bind
      fun x y ts us hx hv => ?_
    exact h.suffixes (trees.field hab (hx.2.name hx.1)) hv
  case isFalse => exact .done hab hv

theorem unary (hv : Variant Q ts us) : (r.unary ts).Agrees Q R (r'.unary us) := by
  obtain ⟨t, ts, u, us, rfl, rfl, hkind, later⟩ := hv.fronts
  unfold Rules.unary
  rw [bind_peek, bind_peek, ← hkind]
  split
  case isTrue hsign =>
    have hne : t.kind ≠ .eof ∧ t.kind ≠ .newline ∧ t.kind ≠ .ident := by
      refine ⟨?_, ?_, ?_⟩ <;> intro heq <;> simp [heq] at hsign
    obtain ⟨varies, hv⟩ := later hne.1 hne.2.1
    rw [bind_take, bind_take, varies.lexeme hne.2.2]
    exact (h.binary 3 hv).map fun a b hab => trees.unary hab
  case isFalse => exact (h.atom trees hv).bind fun a b ts us hab hv => h.suffixes hab hv

theorem climbRule (least : Nat) {a b : Node} (hab : R a b) (hv : Variant Q ts us) :
    (r.climbRule least a ts).Agrees Q R (r'.climbRule least b us) := by
  obtain ⟨t, ts, u, us, rfl, rfl, hkind, later⟩ := hv.fronts
  unfold Rules.climbRule
  rw [bind_peek, bind_peek, ← hkind]
  cases hlevel : level? t.kind with
  | none => exact .done hab hv
  | some level =>
      dsimp only
      split
      · exact .done hab hv
      · have hne : t.kind ≠ .eof ∧ t.kind ≠ .newline ∧ t.kind ≠ .ident := by
          refine ⟨?_, ?_, ?_⟩ <;> intro heq <;> rw [heq] at hlevel <;> contradiction
        obtain ⟨varies, hv⟩ := later hne.1 hne.2.1
        rw [bind_take, bind_take, varies.lexeme hne.2.2]
        refine (h.binary _ hv).bind fun c d ts us hcd hv => ?_
        obtain ⟨t', ts, u', us, rfl, rfl, hkind', -⟩ := hv.fronts
        rw [bind_peek, bind_peek, ← hkind']
        split
        · exact .fail _ _ _ _
        · exact h.climb least (trees.binary hab hcd) hv

/-- The rules one level up agree, if statements do where only one list is behind a line break. -/
theorem up
    (hfirst : ∀ {closer ts us}, closer ≠ .newline → Variant Q (afterBreaks ts) (afterBreaks us) →
      (r.statements closer ts).Agrees Q (List.Forall₂ R) (r'.statementsRule closer us))
    (hsecond : ∀ {closer ts us}, closer ≠ .newline → Variant Q (afterBreaks ts) (afterBreaks us) →
      (r.statementsRule closer ts).Agrees Q (List.Forall₂ R) (r'.statements closer us)) :
    Agree Q R r.up r'.up where
  statements hcloser hv := h.statementsRule hcloser (hfirst hcloser) (hsecond hcloser) hv
  statement hv := h.statementRule trees hv
  assignment hv := h.assignmentRule trees hv
  binary least _ _ hv := (h.unary trees hv).bind fun _ _ _ _ hab hv => h.climb least hab hv
  climb least _ _ _ _ hab hv := h.climbRule trees least hab hv
  suffixes hab hv := h.suffixesRule trees hab hv
  args hv := h.argsRule trees hv
  names hv := h.namesRule hv

end Expressions

/-- Rules of any two depths agree. -/
theorem rules (trees : Builds Q R) (n m : Nat) :
    Agree Q R (Grammar.rules n) (Grammar.rules m) := by
  induction n generalizing m with
  | zero => constructor <;> intros <;> exact .haltFirst _ _
  | succ n ih =>
      induction m with
      | zero => constructor <;> intros <;> exact .haltSecond _ _
      | succ m ihm => exact (ih m).up trees (ih (m + 1)).statements ihm.statements

end Rules.Agree

end Grammar

open Grammar

/-- Variants are both programs, of related trees, or neither of them is one. -/
theorem parse_variant {Q : Bytes → Bytes → Prop} {R : Node → Node → Prop} (trees : Builds Q R)
    {ts us : List Token} (h : Variant Q ts us) (hts : Readable ts) (hus : Readable us) :
    (∃ ss ss', parse ts = .ok ss ∧ parse us = .ok ss' ∧ List.Forall₂ R ss ss') ∨
      ∃ f f', parse ts = .error (.fault f) ∧ parse us = .error (.fault f') := by
  have hagree := (Rules.Agree.rules trees (depthFor ts.length) (depthFor us.length)).statements
    (by simp : Kind.eof ≠ .newline) h.skip
  have hfirst := parse_ne_halt hts
  have hsecond := parse_ne_halt hus
  unfold parse at hfirst hsecond ⊢
  generalize (rules (depthFor ts.length)).statements .eof ts = o at *
  generalize (rules (depthFor us.length)).statements .eof us = o' at *
  cases hagree with
  | done related left => exact .inl ⟨_, _, rfl, rfl, related⟩
  | fail e e' ts us => exact .inr ⟨e, e', rfl, rfl⟩
  | haltFirst reason o => exact absurd rfl (hfirst reason)
  | haltSecond o reason => exact absurd rfl (hsecond reason)

end RToJulia
