import RToJulia.Proofs.Grammar.Soundness
import RToJulia.Proofs.Tree.Listing
import RToJulia.Token.Lexer

/-! # Reading keeps every mark

A rule that yields a tree has taken tokens whose marks are those of the tree: none is
left out, read twice or moved. The marks read before a rule was entered go along as
`before`, so that a left operand and the suffixes behind it are one listing.
-/

namespace RToJulia

open Mark (Same separated)

/-! ## The marks of single tokens -/

theorem marks_append (ts us : List Token) : marks (ts ++ us) = marks ts ++ marks us := by
  simp [marks]

theorem marks_grouping {t : Token} (h : t.kind.isGrouping = true) : marks [t] = [] := by
  simp [marks, h]

theorem marks_name {t : Token} (h : t.kind = .ident) : marks [t] = [.name t.lexeme] := by
  simp [marks, Token.mark, Kind.isGrouping, h]

theorem marks_arrow {t : Token} (h : t.kind = .backArrow ∨ t.kind = .equal) :
    marks [t] = [.arrow] := by
  rcases h with h | h <;> simp [marks, Token.mark, Kind.isGrouping, h]

theorem marks_operator {t : Token} (h : (Grammar.level? t.kind).isSome ∨ t.kind = .bang) :
    marks [t] = [.operator t.lexeme] := by
  obtain ⟨kind, lexeme, line, literal⟩ := t
  cases kind <;> first | rfl | (rcases h with h | h <;> contradiction)

def Kind.isWord : Kind → Bool
  | comma | leftBracket | rightBracket | dollar | kwIf | kwElse | kwFor | kwIn | kwWhile | kwFunction
  | kwReturn => true
  | _ => false

theorem marks_word {t : Token} (h : t.kind.isWord = true) : marks [t] = [.word t.kind] := by
  obtain ⟨kind, lexeme, line, literal⟩ := t
  cases kind <;> first | rfl | contradiction

theorem marks_literal {t : Token} {e : Node} (h : Grammar.literalTree? t = some e) :
    marks [t] = e.listing := by
  unfold Grammar.literalTree? at h
  split at h <;> cases h <;> simp [marks, Token.mark, Kind.isGrouping, Node.listing, *]

/-! ## Listings of the trees that rules build -/

namespace Grammar

open RToJulia.Grammar.Parser Node

theorem name_of_ofName? {name : Bytes} {test : Predicate} (h : Predicate.ofName? name = some test) :
    test.name = name := by
  have hall : ∀ entry ∈ Predicate.table, entry.1.name = Text.utf8 entry.2 := by decide
  obtain ⟨entry, hentry, rfl⟩ := Option.map_eq_some_iff.mp h
  have hname : Text.utf8 entry.2 = name := by simpa using List.find?_some hentry
  rw [hall entry (List.mem_of_find?_eq_some hentry), hname]

theorem callTree_listing (name : Bytes) (args : List Node) :
    (callTree name args).listing = .name name :: separated (args.map listing) := by
  rw [← listings_eq_map]
  unfold callTree
  split
  · rename_i test arg htest
    split
    · rw [listing]
    · rw [listing, name_of_ofName? htest, listings, listings, separated]
  · rw [listing]

theorem assignTo?_listing {target value tree : Node} (h : assignTo? target value = some tree) :
    Same (target.listing ++ .arrow :: value.listing) tree.listing := by
  unfold assignTo? at h
  split at h <;> try contradiction
  · cases h
    exact .of_eq (by simp [listing])
  · cases h
    exact .of_eq (by simp [listing])
  · rename_i t x
    cases h
    have hkey := ((Same.refl t.listing).append (Same.field x)).append (Same.refl value.listing)
    simpa [listing] using hkey

theorem splitRange_listing {range start stop : Node} (hrange : isExpr range = true)
    (h : splitRange range = (start, stop)) :
    (if start.isGap then stop.listing else start.listing ++ .operator ":" :: stop.listing) =
      range.listing := by
  unfold splitRange at h
  split at h
  · rename_i op left right
    split at h
    · rename_i hop
      cases h
      rw [isExpr, Bool.and_eq_true] at hrange
      simp [isGap_of_isExpr hrange.1, listing, hop]
    · cases h
      rfl
  · cases h
    rfl

theorem asStatement_listing (e : Node) : (asStatement e).listing = e.listing := by
  unfold asStatement
  split <;> simp [listing]

/-! ## Parsers that list what they take -/

variable {α β : Type}

/-- The tokens of `ts` that are taken have, behind `before`, the marks that `list` gives to
the value. -/
def Outcome.Lists (before : List Mark) (ts : List Token) (list : α → List Mark)
    (o : Outcome α) : Prop :=
  o.Sat (fun a rest => ∃ taken, ts = taken ++ rest ∧ (∀ t ∈ taken, t.kind ≠ .eof) ∧
    Same (before ++ marks taken) (list a)) (fun _ => True) (fun _ => True)

namespace Outcome.Lists

variable {before : List Mark} {ts : List Token} {list : α → List Mark} {list' : β → List Mark}

/-- A value that needs no token. -/
theorem done {a : α} (h : before = list a) : (Outcome.done a ts).Lists before ts list :=
  ⟨[], rfl, by simp, .of_eq (by simpa [marks] using h)⟩

/-- A token is taken before the rest is read. -/
theorem cons {t : Token} {o : Outcome α} (ht : t.kind ≠ .eof)
    (h : o.Lists (before ++ marks [t]) ts list) : o.Lists before (t :: ts) list := by
  refine Outcome.Sat.mono h ?_ (fun _ hf => hf) (fun _ hh => hh)
  rintro a rest ⟨taken, rfl, heof, hsame⟩
  refine ⟨t :: taken, rfl, by simpa using ⟨ht, heof⟩, ?_⟩
  rwa [List.append_assoc, ← marks_append] at hsame

/-- The listings of two parts in a row; `P` is what else is known of the first value. -/
theorem bind_of {p : Parser α} {f : α → Parser β} {P : α → Prop} (hp : (p ts).Lists before ts list)
    (hP : (p ts).Yields Labels.any P) (hf : ∀ a mid, P a → (f a mid).Lists (list a) mid list') :
    ((p >>= f) ts).Lists before ts list' := by
  cases h : p ts with
  | done a mid =>
      rw [h] at hp hP
      obtain ⟨taken, rfl, heof, hsame⟩ := hp
      rw [bind_done f h]
      refine Outcome.Sat.mono (hf a mid hP.1) ?_ (fun _ h => h) (fun _ h => h)
      rintro b rest ⟨more, rfl, heof', hsame'⟩
      refine ⟨taken ++ more, by simp, ?_, ?_⟩
      · intro t ht
        rcases List.mem_append.mp ht with ht | ht
        · exact heof t ht
        · exact heof' t ht
      · have hfirst := hsame.append (Same.refl (marks more))
        rw [marks_append, ← List.append_assoc]
        exact hfirst.trans hsame'
  | fail e rest =>
      have hnone : (p ts).Sat (fun _ _ => False) (fun _ => True) (fun _ => True) := by
        rw [h]
        trivial
      exact hnone.bind fun _ _ hfalse => hfalse.elim
  | halt reason =>
      have hnone : (p ts).Sat (fun _ _ => False) (fun _ => True) (fun _ => True) := by
        rw [h]
        trivial
      exact hnone.bind fun _ _ hfalse => hfalse.elim

theorem bind {p : Parser α} {f : α → Parser β} (hp : (p ts).Lists before ts list)
    (hf : ∀ a mid, (f a mid).Lists (list a) mid list') : ((p >>= f) ts).Lists before ts list' := by
  refine bind_of (P := fun _ => True) hp ?_ fun a mid _ => hf a mid
  cases p ts with
  | done a mid => exact ⟨trivial, fun t _ => Labels.any_carried t⟩
  | fail e rest => trivial
  | halt reason => trivial

theorem peek {f : Token → Parser β}
    (hf : ∀ t rest, (f t (t :: rest)).Lists before (t :: rest) list') :
    ((Parser.peek >>= f) ts).Lists before ts list' := by
  cases ts with
  | nil => trivial
  | cons t rest => exact hf t rest

theorem next {f : Bool → Parser β} {kind : Kind}
    (hyes : ∀ t rest, t.kind = kind → (f true (t :: rest)).Lists before (t :: rest) list')
    (hno : ∀ ts, (f false ts).Lists before ts list') :
    ((Parser.next kind >>= f) ts).Lists before ts list' := by
  cases ts with
  | nil => trivial
  | cons t rest =>
      rw [bind_next]
      by_cases ht : t.kind = kind
      · rw [decide_eq_true ht]
        exact hyes t rest ht
      · rw [decide_eq_false ht]
        exact hno (t :: rest)

theorem orSkim {p : Parser α} {skim : Skim} (hp : (p ts).Lists before ts list) :
    ((p.orSkim skim) ts).Lists before ts list :=
  Outcome.Sat.orSkim hp

end Outcome.Lists

section Steps

variable {before : List Mark} {ts : List Token}

/-- An expected token has the marks of its kind. -/
theorem expect_lists {kind : Kind} {list : Token → List Mark} (hkind : kind ≠ .eof)
    (hlist : ∀ t, t.kind = kind → marks [t] = list t) :
    (expect kind ts).Lists before ts (fun t => before ++ list t) := by
  cases ts with
  | nil => trivial
  | cons t rest =>
      by_cases ht : t.kind = kind
      · rw [expect_pos ht]
        exact Outcome.Lists.cons (by rwa [ht]) (.done (by rw [hlist t ht]))
      · obtain ⟨e, he⟩ := expect_neg ht rest
        rw [he]
        trivial

theorem expect_lists_grouping {kind : Kind} (h : kind.isGrouping = true) :
    (expect kind ts).Lists before ts (fun _ => before) := by
  have hkind : kind ≠ .eof := by
    rintro rfl
    contradiction
  have hlist : (expect kind ts).Lists before ts (fun _ => before ++ []) :=
    expect_lists hkind fun t ht => marks_grouping (by rwa [ht])
  simpa using hlist

theorem expect_lists_word {kind : Kind} (h : kind.isWord = true) :
    (expect kind ts).Lists before ts (fun _ => before ++ [.word kind]) := by
  have hkind : kind ≠ .eof := by
    rintro rfl
    contradiction
  refine expect_lists hkind fun t ht => ?_
  rw [marks_word (by rwa [ht]), ht]

theorem expect_lists_name :
    (expect .ident ts).Lists before ts (fun t => before ++ [.name t.lexeme]) :=
  expect_lists (by simp) fun _ ht => marks_name ht

theorem skipNewlines_lists : (skipNewlines ts).Lists before ts (fun _ => before) := by
  induction ts with
  | nil => trivial
  | cons t ts ih =>
      by_cases ht : t.kind = .newline
      · have hskip : skipNewlines (t :: ts) = skipNewlines ts := by simp [skipNewlines, ht]
        rw [hskip]
        refine Outcome.Lists.cons (by simp [ht]) ?_
        rw [marks_grouping (by rw [ht]; rfl), List.append_nil]
        exact ih
      · rw [skipNewlines_cons ht]
        exact .done rfl

/-- A list of items is not empty, so a comma is never the last token of it. -/
theorem commaList_nonempty {item : Parser α} {value : α → β} {more : Parser (List β)} :
    (commaList item value more ts).Yields Labels.any (· ≠ []) := by
  have hany : ∀ {γ : Type} (p : Parser γ) ts, (p ts).Yields Labels.any (fun _ => True) := by
    intro γ p ts
    cases p ts with
    | done a rest => exact ⟨trivial, fun t _ => Labels.any_carried t⟩
    | fail e rest => trivial
    | halt reason => trivial
  have hcarried : ∀ ts : List Token, ∀ t ∈ ts, Labels.any.Carried t :=
    fun _ t _ => Labels.any_carried t
  unfold commaList
  refine (hany item ts).bind fun a ts₁ _ _ => ?_
  refine (hany skipNewlines ts₁).bind fun _ ts₂ _ _ => ?_
  refine Outcome.Yields.next fun b => ?_
  cases b with
  | false => exact ⟨by simp, hcarried ts₂⟩
  | true =>
      refine (hany take ts₂).bind fun _ ts₃ _ _ => ?_
      refine (hany skipNewlines ts₃).bind fun _ ts₄ _ _ => ?_
      exact (hany more ts₄).bind fun rest ts₅ _ _ => ⟨by simp, hcarried ts₅⟩

theorem commaList_lists {item : Parser α} {value : α → β} {more : Parser (List β)}
    {list : β → List Mark}
    (hitem : (item ts).Lists before ts (fun a => before ++ list (value a)))
    (hmore : ∀ before ts, (more ts).Lists before ts (fun bs => before ++ separated (bs.map list)))
    (hne : ∀ ts, (more ts).Yields Labels.any (· ≠ [])) :
    (commaList item value more ts).Lists before ts
      (fun bs => before ++ separated (bs.map list)) := by
  unfold commaList
  refine hitem.bind fun a ts₁ => ?_
  refine skipNewlines_lists.bind fun _ ts₂ => ?_
  refine Outcome.Lists.next (fun t rest ht => ?_) fun rest => ?_
  · have hcomma : marks [t] = [.word .comma] := by
      rw [marks_word (by rw [ht]; rfl), ht]
    rw [if_pos rfl, bind_take]
    refine Outcome.Lists.cons (by simp [ht]) ?_
    refine skipNewlines_lists.bind fun _ ts₃ => ?_
    refine (hmore _ ts₃).bind_of (hne ts₃) fun bs ts₄ hbs => ?_
    obtain ⟨b, bs, rfl⟩ := List.exists_cons_of_ne_nil hbs
    exact .done (by simp [hcomma, separated])
  · exact .done (by simp [separated])

end Steps

/-! ## One level of rules -/

structure Rules.Lists (r : Rules) : Prop where
  sound : r.Sound Labels.any
  statements : ∀ closer before ts, (r.statements closer ts).Lists before ts
    (fun ss => before ++ (ss.map listing).flatten)
  statement : ∀ before ts, (r.statement ts).Lists before ts (fun s => before ++ s.listing)
  assignment : ∀ before ts, (r.assignment ts).Lists before ts (fun e => before ++ e.listing)
  binary : ∀ least before ts, (r.binary least ts).Lists before ts (fun e => before ++ e.listing)
  climb : ∀ least left before ts,
    (r.climb least left ts).Lists (before ++ left.listing) ts (fun e => before ++ e.listing)
  suffixes : ∀ e before ts,
    (r.suffixes e ts).Lists (before ++ e.listing) ts (fun e => before ++ e.listing)
  args : ∀ before ts,
    (r.args ts).Lists before ts (fun args => before ++ separated (args.map listing))
  args_nonempty : ∀ ts, (r.args ts).Yields Labels.any (· ≠ [])
  names : ∀ before ts,
    (r.names ts).Lists before ts (fun ns => before ++ separated (ns.map fun x => [.name x]))
  names_nonempty : ∀ ts, (r.names ts).Yields Labels.any (· ≠ [])

namespace Rules

variable {r : Rules} {before : List Mark} {ts : List Token}

theorem Lists.spent : Rules.spent.Lists := by
  constructor <;> intros <;> first | exact Sound.spent | trivial

theorem statementsRule_lists (hr : r.Lists) (closer : Kind) :
    (r.statementsRule closer ts).Lists before ts
      (fun ss => before ++ (ss.map listing).flatten) := by
  unfold statementsRule
  refine Outcome.Lists.peek fun t rest => ?_
  split
  · exact .done (by simp)
  split
  · rename_i heof hsep
    have ht : t.kind.isGrouping = true ∧ t.kind ≠ .eof := by
      cases hk : t.kind <;> simp_all [Kind.isSeparator, Kind.isGrouping]
    rw [bind_take]
    refine Outcome.Lists.cons ht.2 ?_
    simpa [marks_grouping ht.1] using hr.statements closer before rest
  · refine (hr.statement before _).bind fun s ts₁ => ?_
    refine (hr.statements closer _ ts₁).bind fun ss ts₂ => ?_
    exact .done (by simp)

theorem block_lists (hr : r.Lists) :
    (r.block ts).Lists before ts (fun ss => before ++ bodyListing (some ss)) := by
  unfold block
  refine skipNewlines_lists.bind fun _ ts₁ => ?_
  refine Outcome.Lists.next (fun t rest ht => ?_) fun rest => ?_
  · rw [if_pos rfl, bind_take]
    refine Outcome.Lists.cons (by simp [ht]) ?_
    rw [marks_grouping (by rw [ht]; rfl), List.append_nil]
    refine (hr.statements .rightBrace before rest).orSkim.bind fun ss ts₂ => ?_
    refine (expect_lists_grouping rfl).bind fun _ ts₃ => ?_
    exact .done (by simp [bodyListing, listings_eq_map])
  · refine (hr.statement before rest).bind fun s ts₂ => ?_
    exact .done (by simp [bodyListing, listings_eq_map])

theorem condition_lists (hr : r.Lists) :
    (r.condition ts).Lists before ts (fun e => before ++ e.listing) := by
  unfold condition
  refine (expect_lists_grouping rfl).orSkim.bind fun _ ts₁ => ?_
  refine (hr.assignment before ts₁).orSkim.bind fun c ts₂ => ?_
  exact (expect_lists_grouping rfl).bind fun _ ts₃ => .done rfl

theorem ifRule_lists (hr : r.Lists) {t : Token} (ht : t.kind = .kwIf) :
    (r.ifRule (t :: ts)).Lists before (t :: ts) (fun s => before ++ s.listing) := by
  have hword : marks [t] = [.word .kwIf] := by
    rw [marks_word (by rw [ht]; rfl), ht]
  unfold ifRule
  rw [bind_take]
  refine Outcome.Lists.cons (by simp [ht]) ?_
  refine (condition_lists hr).bind fun c ts₁ => ?_
  refine (block_lists hr).bind fun yes ts₂ => ?_
  rw [bind_ahead]
  split
  · refine skipNewlines_lists.bind fun _ ts₃ => ?_
    refine (expect_lists_word rfl).bind fun _ ts₄ => ?_
    refine (block_lists hr).bind fun no ts₅ => ?_
    exact .done (by simp [hword, listing, elseListing, bodyListing])
  · exact .done (by simp [hword, listing, elseListing])

theorem whileRule_lists (hr : r.Lists) {t : Token} (ht : t.kind = .kwWhile) :
    (r.whileRule (t :: ts)).Lists before (t :: ts) (fun s => before ++ s.listing) := by
  have hword : marks [t] = [.word .kwWhile] := by
    rw [marks_word (by rw [ht]; rfl), ht]
  unfold whileRule
  rw [bind_take]
  refine Outcome.Lists.cons (by simp [ht]) ?_
  refine (condition_lists hr).bind fun c ts₁ => ?_
  refine (block_lists hr).bind fun body ts₂ => ?_
  exact .done (by simp [hword, listing])

theorem forRule_lists (hr : r.Lists) {t : Token} (ht : t.kind = .kwFor) :
    (r.forRule (t :: ts)).Lists before (t :: ts) (fun s => before ++ s.listing) := by
  have hword : marks [t] = [.word .kwFor] := by
    rw [marks_word (by rw [ht]; rfl), ht]
  unfold forRule
  rw [bind_take]
  refine Outcome.Lists.cons (by simp [ht]) ?_
  refine (expect_lists_grouping rfl).orSkim.bind fun _ ts₁ => ?_
  refine expect_lists_name.orSkim.bind fun name ts₂ => ?_
  refine (expect_lists_word rfl).orSkim.bind fun _ ts₃ => ?_
  have hexpr := hr.sound.assignment ts₃ fun u _ => Labels.any_carried u
  refine (hr.assignment _ ts₃).orSkim.bind_of hexpr.orSkim fun range ts₄ hrange => ?_
  refine (expect_lists_grouping rfl).bind fun _ ts₅ => ?_
  refine (block_lists hr).bind fun body ts₆ => ?_
  obtain ⟨start, stop, hsplit⟩ : ∃ start stop, splitRange range = (start, stop) := ⟨_, _, rfl⟩
  have hover := splitRange_listing hrange.1 hsplit
  dsimp only
  rw [hsplit]
  exact .done (by simp [hword, listing, ← hover])

theorem returnRule_lists (hr : r.Lists) {t : Token} (ht : t.kind = .kwReturn) :
    (r.returnRule (t :: ts)).Lists before (t :: ts) (fun s => before ++ s.listing) := by
  have hword : marks [t] = [.word .kwReturn] := by
    rw [marks_word (by rw [ht]; rfl), ht]
  unfold returnRule
  rw [bind_take]
  refine Outcome.Lists.cons (by simp [ht]) ?_
  refine Outcome.Lists.peek fun u rest => ?_
  split
  · exact .done (by simp [hword, listing])
  · refine (hr.assignment _ _).bind fun value ts₁ => ?_
    exact .done (by simp [hword, listing])

theorem params_lists (hr : r.Lists) :
    (r.params ts).Lists before ts (fun ns => before ++ separated (ns.map fun x => [.name x])) := by
  unfold params
  refine skipNewlines_lists.bind fun _ ts₁ => ?_
  refine Outcome.Lists.next (fun t rest ht => ?_) fun rest => ?_
  · exact .done (by simp [separated])
  · exact hr.names before rest

theorem declarationRule_lists (hr : r.Lists) (hstart : startsDeclaration ts = true) :
    (r.declarationRule ts).Lists before ts (fun s => before ++ s.listing) := by
  match ts, hstart with
  | name :: arrow :: word :: ts, hstart =>
    simp only [startsDeclaration, Bool.and_eq_true, decide_eq_true_eq] at hstart
    obtain ⟨⟨hname, harrow⟩, hword⟩ := hstart
    have hmarks : marks [word] = [.word .kwFunction] := by
      rw [marks_word (by rw [hword]; rfl), hword]
    unfold declarationRule
    rw [bind_take, bind_take, bind_take]
    refine Outcome.Lists.cons (by simp [hname]) ?_
    refine Outcome.Lists.cons (by simp [harrow]) ?_
    refine Outcome.Lists.cons (by simp [hword]) ?_
    rw [marks_name hname, marks_arrow (.inl harrow), hmarks]
    refine (expect_lists_grouping rfl).orSkim.bind fun _ ts₁ => ?_
    refine (params_lists hr).orSkim.bind fun params ts₂ => ?_
    refine (expect_lists_grouping rfl).bind fun _ ts₃ => ?_
    refine (block_lists hr).bind fun body ts₄ => ?_
    cases hsplit : splitOperator? name.lexeme with
    | none => exact .done (by simp [listing])
    | some parts =>
        obtain ⟨op, cls⟩ := parts
        have hlex := (splitOperator?_eq_some_iff.mp hsplit).1
        exact .done (by simp [listing, hlex])

theorem exprRule_lists (hr : r.Lists) :
    (r.exprRule ts).Lists before ts (fun s => before ++ s.listing) := by
  rw [exprRule_eq]
  refine (hr.assignment before ts).bind fun e ts₁ => ?_
  exact .done (by rw [asStatement_listing])

theorem statementRule_lists (hr : r.Lists) :
    (r.statementRule ts).Lists before ts (fun s => before ++ s.listing) := by
  cases ts with
  | nil => trivial
  | cons t ts =>
      rw [statementRule_cons]
      split
      · rename_i ht
        exact ifRule_lists hr ht
      split
      · rename_i ht
        exact whileRule_lists hr ht
      split
      · rename_i ht
        exact forRule_lists hr ht
      split
      · rename_i ht
        exact returnRule_lists hr ht
      split
      · rename_i hstart
        exact declarationRule_lists hr hstart
      · exact exprRule_lists hr

theorem assignmentRule_lists (hr : r.Lists) :
    (r.assignmentRule ts).Lists before ts (fun e => before ++ e.listing) := by
  unfold assignmentRule
  refine (hr.binary 1 before ts).bind fun target ts₁ => ?_
  refine Outcome.Lists.peek fun arrow rest => ?_
  split
  · rename_i hk
    have harrow : arrow.kind = .backArrow ∨ arrow.kind = .equal := by simpa using hk
    have heof : arrow.kind ≠ .eof := by
      rcases harrow with h | h <;> simp [h]
    rw [bind_take]
    refine Outcome.Lists.cons heof ?_
    rw [marks_arrow harrow]
    -- What follows the value only decides whether the whole is a tree.
    have hvalue := hr.assignment (before ++ target.listing ++ [.arrow]) rest
    refine hvalue.bind fun value ts₂ => ?_
    cases htree : assignTo? target value with
    | none => trivial
    | some tree =>
        refine ⟨[], rfl, by simp, ?_⟩
        have hsame := (Same.refl before).append (assignTo?_listing htree)
        simpa [marks] using hsame
  · exact .done rfl

theorem arg_lists (hr : r.Lists) :
    (r.arg ts).Lists before ts (fun a => before ++ a.listing) := by
  unfold arg
  rw [bind_ahead]
  split
  · rename_i hstart
    match ts, hstart with
    | name :: mark :: ts, hstart =>
      simp only [startsNamed, Bool.and_eq_true, decide_eq_true_eq] at hstart
      rw [bind_take, bind_take]
      refine Outcome.Lists.cons (by simp [hstart.1]) ?_
      refine Outcome.Lists.cons (by simp [hstart.2]) ?_
      rw [marks_name hstart.1, marks_arrow (.inr hstart.2)]
      refine skipNewlines_lists.bind fun _ ts₁ => ?_
      refine (hr.binary 1 _ ts₁).bind fun value ts₂ => ?_
      exact .done (by simp [listing])
  · exact hr.binary 1 before ts

theorem argsRule_lists (hr : r.Lists) :
    (r.argsRule ts).Lists before ts (fun args => before ++ separated (args.map listing)) := by
  rw [argsRule_eq]
  exact commaList_lists (arg_lists hr) hr.args hr.args_nonempty

theorem namesRule_lists (hr : r.Lists) :
    (r.namesRule ts).Lists before ts
      (fun ns => before ++ separated (ns.map fun x => [.name x])) := by
  rw [namesRule_eq]
  exact commaList_lists expect_lists_name hr.names hr.names_nonempty

theorem nameOrCall_lists (hr : r.Lists) (name : Bytes) :
    (r.nameOrCall name ts).Lists (before ++ [.name name]) ts (fun e => before ++ e.listing) := by
  -- Both branches of the argument list go on with the closing parenthesis.
  have hclose : ∀ (args : List Node) (ts : List Token),
      ((expect .rightParen >>= fun _ => pure (callTree name args) : Parser Node) ts).Lists
        (before ++ [.name name] ++ separated (args.map listing)) ts
        (fun e => before ++ e.listing) := by
    intro args ts
    refine (expect_lists_grouping rfl).bind fun _ ts₁ => ?_
    exact .done (by simp [callTree_listing])
  unfold nameOrCall
  refine Outcome.Lists.next (fun t rest ht => ?_) fun rest => ?_
  · rw [if_pos rfl]
    unfold call
    rw [bind_take]
    refine Outcome.Lists.cons (by simp [ht]) ?_
    rw [marks_grouping (by rw [ht]; rfl), List.append_nil]
    refine skipNewlines_lists.bind fun _ ts₁ => ?_
    refine Outcome.Lists.next (fun u rest hu => ?_) fun rest => ?_
    · have hnone := hclose [] (u :: rest)
      rwa [List.map_nil, separated, List.append_nil] at hnone
    · exact (hr.args _ rest).orSkim.bind hclose
  · exact .done (by simp [listing])

theorem group_lists (hr : r.Lists) :
    (r.group ts).Lists before ts (fun e => before ++ e.listing) := by
  unfold group
  refine skipNewlines_lists.bind fun _ ts₁ => ?_
  refine (hr.assignment before ts₁).orSkim.bind fun e ts₂ => ?_
  refine skipNewlines_lists.bind fun _ ts₃ => ?_
  exact (expect_lists_grouping rfl).bind fun _ ts₄ => .done rfl

theorem atom_lists (hr : r.Lists) :
    (r.atom ts).Lists before ts (fun e => before ++ e.listing) := by
  cases ts with
  | nil => trivial
  | cons t ts =>
      rcases r.atom_cases ts t with ⟨e, he⟩ | hk | hk | ⟨e, he⟩ | ⟨_, e, he⟩ | ⟨_, he⟩
      · have heof : t.kind ≠ .eof := by
          intro hk
          simp [literalTree?, hk] at he
        rw [r.atom_literal ts he]
        exact Outcome.Lists.cons heof (.done (by rw [marks_literal he]))
      · rw [r.atom_ident ts hk]
        refine Outcome.Lists.cons (by simp [hk]) ?_
        rw [marks_name hk]
        exact nameOrCall_lists hr t.lexeme
      · rw [r.atom_group ts hk]
        refine Outcome.Lists.cons (by simp [hk]) ?_
        rw [marks_grouping (by rw [hk]; rfl), List.append_nil]
        exact group_lists hr
      · rw [he]
        trivial
      · rw [he]
        trivial
      · rw [he]
        trivial

theorem suffixesRule_lists (hr : r.Lists) (e : Node) :
    (r.suffixesRule e ts).Lists (before ++ e.listing) ts (fun e => before ++ e.listing) := by
  cases ts with
  | nil => trivial
  | cons t ts =>
      rw [suffixesRule_cons]
      split
      · rename_i ht
        have hopen : marks [t] = [.word .leftBracket] := by
          rw [marks_word (by rw [ht]; rfl), ht]
        refine Outcome.Lists.cons (by simp [ht]) ?_
        refine (hr.assignment _ ts).orSkim.bind fun i ts₁ => ?_
        refine (expect_lists_word rfl).bind fun _ ts₂ => ?_
        simpa [listing, hopen] using hr.suffixes (.index e i) before ts₂
      split
      · rename_i ht
        have hdollar : marks [t] = [.word .dollar] := by
          rw [marks_word (by rw [ht]; rfl), ht]
        refine Outcome.Lists.cons (by simp [ht]) ?_
        refine expect_lists_name.bind fun name ts₁ => ?_
        simpa [listing, hdollar] using hr.suffixes (.field e name.lexeme) before ts₁
      · exact .done rfl

theorem unary_lists (hr : r.Lists) :
    (r.unary ts).Lists before ts (fun e => before ++ e.listing) := by
  unfold unary
  refine Outcome.Lists.peek fun t rest => ?_
  split
  · rename_i hk
    have hsign : t.kind ≠ .eof ∧ marks [t] = [.operator t.lexeme] := by
      rcases (by simpa using hk : t.kind = .bang ∨ t.kind = .minus) with h | h
      · exact ⟨by simp [h], marks_operator (.inr h)⟩
      · exact ⟨by simp [h], marks_operator (.inl (by simp [h, level?]))⟩
    rw [bind_take]
    refine Outcome.Lists.cons hsign.1 ?_
    refine (hr.binary 3 _ rest).bind fun operand ts₁ => ?_
    exact .done (by simp [hsign.2, listing])
  · exact (atom_lists hr).bind fun e ts₁ => hr.suffixes e before ts₁

theorem climbRule_lists (hr : r.Lists) (least : Nat) (left : Node) :
    (r.climbRule least left ts).Lists (before ++ left.listing) ts
      (fun e => before ++ e.listing) := by
  unfold climbRule
  refine Outcome.Lists.peek fun op rest => ?_
  cases hlevel : level? op.kind with
  | none => exact .done rfl
  | some level =>
      have heof : op.kind ≠ .eof := by
        intro hk
        simp [hk, level?] at hlevel
      have hmark := marks_operator (t := op) (.inl (by simp [hlevel]))
      dsimp only
      split
      · exact .done rfl
      · rw [bind_take]
        refine Outcome.Lists.cons heof ?_
        refine (hr.binary _ _ rest).bind fun right ts₁ => ?_
        refine Outcome.Lists.peek fun t rest => ?_
        split
        · trivial
        · simpa [listing, hmark] using hr.climb least (.binary op.lexeme left right) before (t :: rest)

theorem binaryRule_lists (hr : r.Lists) (least : Nat) :
    (r.binaryRule least ts).Lists before ts (fun e => before ++ e.listing) := by
  unfold binaryRule
  exact (unary_lists hr).bind fun left ts₁ => hr.climb least left before ts₁

theorem Lists.up (hr : r.Lists) : r.up.Lists where
  sound := hr.sound.up
  statements closer _ _ := statementsRule_lists hr closer
  statement _ _ := statementRule_lists hr
  assignment _ _ := assignmentRule_lists hr
  binary least _ _ := binaryRule_lists hr least
  climb least left _ _ := climbRule_lists hr least left
  suffixes e _ _ := suffixesRule_lists hr e
  args _ _ := argsRule_lists hr
  args_nonempty _ := by
    change (r.argsRule _).Yields Labels.any (· ≠ [])
    rw [argsRule_eq]
    exact commaList_nonempty
  names _ _ := namesRule_lists hr
  names_nonempty _ := by
    change (r.namesRule _).Yields Labels.any (· ≠ [])
    rw [namesRule_eq]
    exact commaList_nonempty

end Rules

theorem rules_lists (n : Nat) : (rules n).Lists := by
  induction n with
  | zero => exact Rules.Lists.spent
  | succ n ih => exact ih.up

/-- Statements are read up to the end or the closing kind. -/
theorem statements_stop (n : Nat) (closer : Kind) (ts : List Token) :
    ((rules n).statements closer ts).Sat
      (fun _ rest => ∃ t left, rest = t :: left ∧ (t.kind = .eof ∨ t.kind = closer))
      (fun _ => True) (fun _ => True) := by
  induction n generalizing ts with
  | zero => trivial
  | succ n ih =>
      change ((rules n).statementsRule closer ts).Sat _ _ _
      unfold Rules.statementsRule
      cases ts with
      | nil => trivial
      | cons t ts =>
          rw [bind_peek]
          split
          · rename_i hend
            exact ⟨t, ts, rfl, by simpa using hend⟩
          split
          · exact ih ts
          · have hstatement := (rules_lists n).statement [] (t :: ts)
            refine Outcome.Sat.bind hstatement fun s mid _ => ?_
            exact Outcome.Sat.bind (ih mid) fun ss rest hrest => hrest

end Grammar

/-! ## Whole programs -/

theorem parse_lists {ts : List Token} {ss : List Node} (h : parse ts = .ok ss) :
    Same (marks (ts.takeWhile (·.kind ≠ .eof))) (Node.program ss).listing := by
  have hlists := (Grammar.rules_lists (Grammar.depthFor ts.length)).statements .eof [] ts
  have hstop := Grammar.statements_stop (Grammar.depthFor ts.length) .eof ts
  unfold parse at h
  cases hp : (Grammar.rules (Grammar.depthFor ts.length)).statements .eof ts with
  | fail e rest =>
      rw [hp] at h
      contradiction
  | halt reason =>
      rw [hp] at h
      contradiction
  | done value rest =>
      rw [hp] at h hlists hstop
      cases h
      obtain ⟨taken, rfl, heof, hsame⟩ := hlists
      obtain ⟨t, left, rfl, ht⟩ := hstop
      have hend : t.kind = .eof := by simpa using ht
      have htaken : (taken ++ t :: left).takeWhile (·.kind ≠ .eof) = taken := by
        rw [List.takeWhile_append_of_pos (by simpa using heof)]
        simp [hend]
      rw [htaken, Node.listing, Node.listings_eq_map]
      exact hsame

/-- No token is lost, read twice or moved: the statements that are read from a list have the
marks of its tokens up to the end, in their order. -/
theorem parse_listing (ts : List Token) (ss : List Node) (h : parse ts = .ok ss) :
    Mark.keyed (marks (ts.takeWhile (·.kind ≠ .eof))) = (Node.program ss).listing :=
  (Node.listing_settled _).keyed_of_same (parse_lists h)

/-- The marks of `for (i in 1:n) r$last <- f(-i, k = "a")[2]`. -/
theorem parse_listing_loop :
    ∃ ss, parse (tokens "for (i in 1:n) r$last <- f(-i, k = \"a\")[2]") = .ok ss ∧
      (Node.program ss).listing =
        [.word .kwFor, .name "i", .word .kwIn, .literal .integer (some (.text "1")), .operator ":",
          .name "n", .name "r", .word .leftBracket, .literal .string (some (.text "last")),
          .word .rightBracket, .arrow, .name "f", .operator "-", .name "i", .word .comma, .name "k",
          .arrow, .literal .string (some (.text "a")), .word .leftBracket,
          .literal .integer (some (.text "2")), .word .rightBracket] := by
  refine ⟨_, rfl, ?_⟩
  rw [← parse_listing (tokens "for (i in 1:n) r$last <- f(-i, k = \"a\")[2]") _ rfl]
  rfl

end RToJulia
