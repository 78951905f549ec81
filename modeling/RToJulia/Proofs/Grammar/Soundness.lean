import RToJulia.Proofs.Text.Bytes
import RToJulia.Proofs.Tree.Labels
import RToJulia.Proofs.Tree.WellFormed

/-! # Read trees are well-formed

Whatever the tokens, a tree that is read is well-formed, and its labels are those
its tokens carry. Each rule is checked from what the rules one level down yield;
nothing is said about faults and halts.
-/

namespace RToJulia

namespace Labels

variable (L : Labels)

def Expr (e : Node) : Prop := Node.isExpr e = true ∧ L.Meets e

def Arg (a : Node) : Prop := (Node.isExpr a = true ∨ Node.isNamedExpr a = true) ∧ L.Meets a

def Statement (s : Node) : Prop := Node.isStatement s = true ∧ L.Meets s

def Statements (ss : List Node) : Prop := Node.areStatements ss = true ∧ L.MeetsAll ss

theorem statements_cons {s : Node} {ss : List Node} (h : L.Statement s) (hs : L.Statements ss) :
    L.Statements (s :: ss) :=
  ⟨by simp [Node.areStatements, h.1, hs.1], h.2, hs.2⟩

end Labels

namespace Grammar

open RToJulia.Grammar.Parser Node

/-! ## Trees built by the rules -/

section Trees

variable {L : Labels}

/-- The names that split: two parts without periods around one period, in backticks. -/
theorem splitOperator?_eq_some_iff {name op cls : Bytes} :
    splitOperator? name = some (op, cls) ↔
      name = 0x60 :: (op ++ 0x2e :: cls ++ [0x60]) ∧ op ≠ [] ∧ cls ≠ [] ∧ 0x2e ∉ op ∧ 0x2e ∉ cls := by
  constructor
  · intro h
    unfold splitOperator? at h
    split at h <;> try contradiction
    rename_i hq
    obtain ⟨inner, rfl⟩ := Text.backticks_iff.mp hq
    rw [Text.drop_dropLast_wrap] at h
    dsimp only at h
    split at h <;> try contradiction
    rename_i hc
    simp only [Bool.and_eq_true, decide_eq_true_eq] at hc
    obtain ⟨front, tail, rfl, hf, ht⟩ := Text.eq_append_of_count_one hc.1.1
    rw [Text.cut_append hf] at h hc
    cases h
    exact ⟨rfl, hc.1.2, hc.2, hf, ht⟩
  · rintro ⟨rfl, hop, hcls, hf, ht⟩
    have hcount : (op ++ 0x2e :: cls).count 0x2e = 1 := by
      simp [List.count_append, List.count_eq_zero_of_not_mem hf, List.count_eq_zero_of_not_mem ht]
    unfold splitOperator?
    rw [if_pos (Text.backticks_iff.mpr ⟨_, rfl⟩), Text.drop_dropLast_wrap]
    dsimp only
    rw [Text.cut_append hf]
    simp [hcount, hop, hcls]

theorem isKnown_of_ofName? {name : Bytes} {test : Predicate}
    (h : Predicate.ofName? name = some test) : test.isKnown = true := by
  have hall : ∀ entry ∈ Predicate.table, entry.1.isKnown = true := by decide
  obtain ⟨entry, he, rfl⟩ := Option.map_eq_some_iff.mp h
  exact hall entry (List.mem_of_find?_eq_some he)

theorem callTree_expr {name : Bytes} {args : List Node} (hname : L.name name)
    (hargs : ∀ a ∈ args, L.Arg a) : L.Expr (callTree name args) := by
  have hshape : areArgs args = true := (areArgs_iff args).mpr fun a ha => (hargs a ha).1
  have hmeets : L.MeetsAll args := (L.meetsAll_iff args).mpr fun a ha => (hargs a ha).2
  -- Only a known test of one positional argument changes its form.
  have hcall : isTypeTest name args = false → L.Expr (.call name args) :=
    fun h => ⟨by simp [isExpr, hshape, h], hname, hmeets⟩
  unfold callTree
  split
  · rename_i test arg htest
    split
    · rename_i hn
      exact hcall (by simp [isTypeTest, hn])
    · rename_i hn
      obtain ⟨he | he, hm⟩ := hargs arg (by simp)
      · exact ⟨by simp [isExpr, isKnown_of_ofName? htest, he], hm⟩
      · cases arg <;> simp_all [isNamedExpr, isNamed]
  · rename_i hno
    apply hcall
    unfold isTypeTest
    split
    · rename_i arg
      cases htest : Predicate.ofName? name with
      | none => rfl
      | some test => exact (hno test arg htest rfl).elim
    · rfl

theorem assignTo?_expr {target value tree : Node} (ht : L.Expr target) (hv : L.Expr value)
    (h : assignTo? target value = some tree) : L.Expr tree := by
  obtain ⟨hts, htm⟩ := ht
  obtain ⟨hvs, hvm⟩ := hv
  unfold assignTo? at h
  split at h <;> try contradiction
  · cases h
    exact ⟨by simpa [isExpr] using hvs, htm, hvm⟩
  · cases h
    simp only [isExpr, Bool.and_eq_true] at hts
    exact ⟨by simp [isExpr, hts, hvs], htm.1, htm.2, hvm⟩
  · cases h
    simp only [isExpr] at hts
    exact ⟨by simp [isExpr, hts, hvs], htm.2.2, htm.2.1, hvm⟩

theorem splitRange_for {range start stop : Node} {name : Bytes} {body : List Node}
    (hn : L.name name) (h : L.Expr range) (hb : L.Statements body)
    (hs : splitRange range = (start, stop)) :
    L.Statement (.forLoop name start stop (some body)) := by
  unfold splitRange at hs
  split at hs
  · rename_i op left right
    split at hs
    · cases hs
      obtain ⟨hl, hr⟩ := Bool.and_eq_true .. ▸ h.1
      exact ⟨by simp [isStatement, hl, hr, isBody, hb.1], hn, h.2.2.1, h.2.2.2, hb.2⟩
    · rename_i hop
      cases hs
      exact ⟨by simp [isStatement, isGap, isRange, hop, h.1, isBody, hb.1], hn, trivial, h.2, hb.2⟩
  · rename_i hno
    cases hs
    have hrange : range.isRange = false := by
      cases range <;> first | rfl | exact (hno _ _ _ rfl).elim
    exact ⟨by simp [isStatement, isGap, hrange, h.1, isBody, hb.1], hn, trivial, h.2, hb.2⟩

theorem asStatement_statement {e : Node} (h : L.Expr e) : L.Statement (asStatement e) := by
  obtain ⟨hs, hm⟩ := h
  unfold asStatement
  split
  · exact ⟨hs, hm⟩
  · exact ⟨hs, hm⟩
  · rename_i hassign hindex
    refine ⟨?_, hm⟩
    have hno : e.isAssignment = false := by
      cases e <;> first | rfl | exact (hassign _ _ rfl).elim | exact (hindex _ _ _ rfl).elim
    simp [isStatement, hs, hno]

end Trees

/-! ## Yielding values -/

variable {α β : Type}

def Outcome.Yields (L : Labels) (P : α → Prop) (o : Outcome α) : Prop :=
  o.Sat (fun a rest => P a ∧ ∀ t ∈ rest, L.Carried t) (fun _ => True) (fun _ => True)

namespace Outcome.Yields

variable {L : Labels} {P : α → Prop} {Q : β → Prop} {ts : List Token}

theorem bind {p : Parser α} {f : α → Parser β} (hp : (p ts).Yields L P)
    (hf : ∀ a mid, P a → (∀ t ∈ mid, L.Carried t) → (f a mid).Yields L Q) :
    ((p >>= f) ts).Yields L Q :=
  Outcome.Sat.bind hp fun a mid hm => hf a mid hm.1 hm.2

theorem done {a : α} (h : P a) (hts : ∀ t ∈ ts, L.Carried t) : (Outcome.done a ts).Yields L P :=
  ⟨h, hts⟩

theorem mono {P' : α → Prop} {o : Outcome α} (h : o.Yields L P) (hp : ∀ a, P a → P' a) :
    o.Yields L P' :=
  Outcome.Sat.mono h (fun a _ hd => ⟨hp a hd.1, hd.2⟩) (fun _ hf => hf) (fun _ hh => hh)

theorem peek {f : Token → Parser β} (hts : ∀ t ∈ ts, L.Carried t)
    (hf : ∀ t rest, L.Carried t → (∀ t ∈ rest, L.Carried t) → (f t (t :: rest)).Yields L Q) :
    ((Parser.peek >>= f) ts).Yields L Q := by
  cases ts with
  | nil => trivial
  | cons t rest =>
      rw [bind_peek]
      exact hf t rest (hts t (by simp)) fun u hu => hts u (by simp [hu])

theorem take {f : Token → Parser β} (hts : ∀ t ∈ ts, L.Carried t)
    (hf : ∀ t rest, L.Carried t → (∀ t ∈ rest, L.Carried t) → (f t rest).Yields L Q) :
    ((Parser.take >>= f) ts).Yields L Q := by
  cases ts with
  | nil => trivial
  | cons t rest =>
      rw [bind_take]
      exact hf t rest (hts t (by simp)) fun u hu => hts u (by simp [hu])

theorem next {f : Bool → Parser β} {kind : Kind} (hf : ∀ b, (f b ts).Yields L Q) :
    ((Parser.next kind >>= f) ts).Yields L Q := by
  cases ts with
  | nil => trivial
  | cons t rest =>
      rw [bind_next]
      exact hf _

theorem orSkim {p : Parser α} {skim : Skim} (hp : (p ts).Yields L P) :
    ((p.orSkim skim) ts).Yields L P := by
  unfold Parser.orSkim
  cases h : p ts with
  | done a rest =>
      rw [h] at hp
      exact hp
  | halt reason => trivial
  | fail e rest =>
      dsimp only
      cases skim rest <;> trivial

end Outcome.Yields

section Steps

variable {L : Labels} {ts : List Token}

theorem expect_yields {kind : Kind} (hts : ∀ t ∈ ts, L.Carried t) :
    (expect kind ts).Yields L (fun t => t.kind = kind ∧ L.Carried t) := by
  cases ts with
  | nil => trivial
  | cons t rest =>
      by_cases ht : t.kind = kind
      · rw [expect_pos ht]
        exact ⟨⟨ht, hts t (by simp)⟩, fun u hu => hts u (by simp [hu])⟩
      · obtain ⟨e, he⟩ := expect_neg ht rest
        rw [he]
        trivial

theorem skipNewlines_yields (hts : ∀ t ∈ ts, L.Carried t) :
    (skipNewlines ts).Yields L (fun _ => True) := by
  unfold skipNewlines
  cases h : ts.dropWhile (·.kind = .newline) with
  | nil => trivial
  | cons t rest =>
      refine ⟨trivial, fun u hu => hts u ?_⟩
      exact (List.dropWhile_sublist _).subset (h ▸ hu)

theorem commaList_yields {item : Parser α} {value : α → β} {more : Parser (List β)}
    {P : α → Prop} {Q : β → Prop} (hitem : (item ts).Yields L P) (hvalue : ∀ a, P a → Q (value a))
    (hmore : ∀ rest, (∀ t ∈ rest, L.Carried t) → (more rest).Yields L (fun bs => ∀ b ∈ bs, Q b)) :
    (commaList item value more ts).Yields L (fun bs => ∀ b ∈ bs, Q b) := by
  unfold commaList
  refine hitem.bind fun a ts₁ ha h₁ => ?_
  refine (skipNewlines_yields h₁).bind fun _ ts₂ _ h₂ => ?_
  refine Outcome.Yields.next fun b => ?_
  cases b with
  | false => exact ⟨by simpa using hvalue a ha, h₂⟩
  | true =>
      refine Outcome.Yields.take h₂ fun _ ts₃ _ h₃ => ?_
      refine (skipNewlines_yields h₃).bind fun _ ts₄ _ h₄ => ?_
      refine (hmore ts₄ h₄).bind fun rest ts₅ hrest h₅ => ?_
      refine Outcome.Yields.done ?_ h₅
      intro b hb
      rcases List.mem_cons.mp hb with rfl | hb
      · exact hvalue a ha
      · exact hrest b hb

end Steps

/-! ## One level of rules -/

structure Rules.Sound (L : Labels) (r : Rules) : Prop where
  statements : ∀ closer ts, (∀ t ∈ ts, L.Carried t) → (r.statements closer ts).Yields L L.Statements
  statement : ∀ ts, (∀ t ∈ ts, L.Carried t) → (r.statement ts).Yields L L.Statement
  assignment : ∀ ts, (∀ t ∈ ts, L.Carried t) → (r.assignment ts).Yields L L.Expr
  binary : ∀ least ts, (∀ t ∈ ts, L.Carried t) → (r.binary least ts).Yields L L.Expr
  climb : ∀ least left ts, L.Expr left → (∀ t ∈ ts, L.Carried t) →
    (r.climb least left ts).Yields L L.Expr
  suffixes : ∀ e ts, L.Expr e → (∀ t ∈ ts, L.Carried t) → (r.suffixes e ts).Yields L L.Expr
  args : ∀ ts, (∀ t ∈ ts, L.Carried t) → (r.args ts).Yields L (fun args => ∀ a ∈ args, L.Arg a)
  names : ∀ ts, (∀ t ∈ ts, L.Carried t) → (r.names ts).Yields L (fun ns => ∀ n ∈ ns, L.name n)

namespace Rules

variable {L : Labels} {r : Rules} {ts : List Token}

theorem Sound.spent : Rules.spent.Sound L := by
  constructor <;> intros <;> trivial

theorem statementsRule_sound (hr : r.Sound L) (closer : Kind) (hts : ∀ t ∈ ts, L.Carried t) :
    (r.statementsRule closer ts).Yields L L.Statements := by
  unfold statementsRule
  refine Outcome.Yields.peek hts fun t rest ht hrest => ?_
  have hts : ∀ u ∈ t :: rest, L.Carried u := by simpa using ⟨ht, hrest⟩
  split
  · exact ⟨⟨rfl, trivial⟩, hts⟩
  split
  · exact Outcome.Yields.take hts fun _ left _ hleft => hr.statements closer left hleft
  · refine (hr.statement _ hts).bind fun s mid hs hmid => ?_
    refine (hr.statements closer mid hmid).bind fun ss left hss hleft => ?_
    exact ⟨L.statements_cons hs hss, hleft⟩

theorem block_sound (hr : r.Sound L) (hts : ∀ t ∈ ts, L.Carried t) :
    (r.block ts).Yields L L.Statements := by
  unfold block
  refine (skipNewlines_yields hts).bind fun _ mid _ hmid => ?_
  refine Outcome.Yields.next fun b => ?_
  cases b with
  | true =>
      refine Outcome.Yields.take hmid fun _ ts₁ _ h₁ => ?_
      refine (hr.statements _ ts₁ h₁).orSkim.bind fun ss ts₂ hss h₂ => ?_
      exact (expect_yields h₂).bind fun _ ts₃ _ h₃ => ⟨hss, h₃⟩
  | false =>
      refine (hr.statement mid hmid).bind fun s rest hs hrest => ?_
      exact ⟨L.statements_cons hs ⟨rfl, trivial⟩, hrest⟩

theorem condition_sound (hr : r.Sound L) (hts : ∀ t ∈ ts, L.Carried t) :
    (r.condition ts).Yields L L.Expr := by
  unfold condition
  refine (expect_yields hts).orSkim.bind fun _ ts₁ _ h₁ => ?_
  refine (hr.assignment ts₁ h₁).orSkim.bind fun c ts₂ hc h₂ => ?_
  exact (expect_yields h₂).bind fun _ ts₃ _ h₃ => ⟨hc, h₃⟩

theorem ifRule_sound (hr : r.Sound L) (hts : ∀ t ∈ ts, L.Carried t) :
    (r.ifRule ts).Yields L L.Statement := by
  unfold ifRule
  refine Outcome.Yields.take hts fun _ ts₁ _ h₁ => ?_
  refine (condition_sound hr h₁).bind fun c ts₂ hc h₂ => ?_
  refine (block_sound hr h₂).bind fun yes ts₃ hyes h₃ => ?_
  rw [bind_ahead]
  split
  · refine (skipNewlines_yields h₃).bind fun _ ts₄ _ h₄ => ?_
    refine (expect_yields h₄).bind fun _ ts₅ _ h₅ => ?_
    refine (block_sound hr h₅).bind fun no ts₆ hno h₆ => ?_
    exact ⟨⟨by simp [isStatement, isBody, isElse, hc.1, hyes.1, hno.1], hc.2, hyes.2, hno.2⟩, h₆⟩
  · exact ⟨⟨by simp [isStatement, isBody, isElse, hc.1, hyes.1], hc.2, hyes.2, trivial⟩, h₃⟩

theorem whileRule_sound (hr : r.Sound L) (hts : ∀ t ∈ ts, L.Carried t) :
    (r.whileRule ts).Yields L L.Statement := by
  unfold whileRule
  refine Outcome.Yields.take hts fun _ ts₁ _ h₁ => ?_
  refine (condition_sound hr h₁).bind fun c ts₂ hc h₂ => ?_
  refine (block_sound hr h₂).bind fun body ts₃ hbody h₃ => ?_
  exact ⟨⟨by simp [isStatement, isBody, hc.1, hbody.1], hc.2, hbody.2⟩, h₃⟩

theorem forRule_sound (hr : r.Sound L) (hts : ∀ t ∈ ts, L.Carried t) :
    (r.forRule ts).Yields L L.Statement := by
  unfold forRule
  refine Outcome.Yields.take hts fun _ ts₁ _ h₁ => ?_
  refine (expect_yields h₁).orSkim.bind fun _ ts₂ _ h₂ => ?_
  refine (expect_yields h₂).orSkim.bind fun name ts₃ hname h₃ => ?_
  refine (expect_yields h₃).orSkim.bind fun _ ts₄ _ h₄ => ?_
  refine (hr.assignment ts₄ h₄).orSkim.bind fun range ts₅ hrange h₅ => ?_
  refine (expect_yields h₅).bind fun _ ts₆ _ h₆ => ?_
  refine (block_sound hr h₆).bind fun body ts₇ hbody h₇ => ?_
  exact ⟨splitRange_for (hname.2.name hname.1).1 hrange hbody rfl, h₇⟩

theorem returnRule_sound (hr : r.Sound L) (hts : ∀ t ∈ ts, L.Carried t) :
    (r.returnRule ts).Yields L L.Statement := by
  unfold returnRule
  refine Outcome.Yields.take hts fun _ ts₁ _ h₁ => ?_
  refine Outcome.Yields.peek h₁ fun t rest ht hrest => ?_
  have h₁ : ∀ u ∈ t :: rest, L.Carried u := by simpa using ⟨ht, hrest⟩
  split
  · exact ⟨⟨rfl, trivial⟩, h₁⟩
  · refine (hr.assignment _ h₁).bind fun value ts₂ hv h₂ => ?_
    exact ⟨⟨by simp [isStatement, hv.1], hv.2⟩, h₂⟩

theorem params_sound (hr : r.Sound L) (hts : ∀ t ∈ ts, L.Carried t) :
    (r.params ts).Yields L (fun ns => ∀ n ∈ ns, L.name n) := by
  unfold params
  refine (skipNewlines_yields hts).bind fun _ mid _ hmid => ?_
  refine Outcome.Yields.next fun b => ?_
  cases b with
  | true => exact ⟨by simp, hmid⟩
  | false => exact hr.names mid hmid

theorem declarationRule_sound (hr : r.Sound L) (hstart : startsDeclaration ts = true)
    (hts : ∀ t ∈ ts, L.Carried t) : (r.declarationRule ts).Yields L L.Statement := by
  match ts, hstart, hts with
  | name :: arrow :: word :: ts, hstart, hts =>
    have hkind : name.kind = .ident := by
      simp only [startsDeclaration, Bool.and_eq_true, decide_eq_true_eq] at hstart
      exact hstart.1.1
    have hname := ((hts name (by simp)).name hkind).1
    unfold declarationRule
    rw [bind_take, bind_take, bind_take]
    have h₀ : ∀ t ∈ ts, L.Carried t := fun t ht => hts t (by simp [ht])
    refine (expect_yields h₀).orSkim.bind fun _ ts₁ _ h₁ => ?_
    refine (params_sound hr h₁).orSkim.bind fun params ts₂ hparams h₂ => ?_
    refine (expect_yields h₂).bind fun _ ts₃ _ h₃ => ?_
    refine (block_sound hr h₃).bind fun body ts₄ hbody h₄ => ?_
    cases hsplit : splitOperator? name.lexeme with
    | none =>
        exact ⟨⟨by simp [isStatement, hsplit, isBody, hbody.1], hname, hparams, hbody.2⟩, h₄⟩
    | some parts =>
        obtain ⟨op, cls⟩ := parts
        obtain ⟨hlex, hop, hcls, hno, hnc⟩ := splitOperator?_eq_some_iff.mp hsplit
        rw [hlex] at hname
        exact ⟨⟨by simp [isStatement, isBody, hop, hcls, hno, hnc, hbody.1], hname, hparams,
          hbody.2⟩, h₄⟩

theorem exprRule_sound (hr : r.Sound L) (hts : ∀ t ∈ ts, L.Carried t) :
    (r.exprRule ts).Yields L L.Statement := by
  rw [exprRule_eq]
  exact (hr.assignment ts hts).bind fun e rest he hrest => ⟨asStatement_statement he, hrest⟩

theorem statementRule_sound (hr : r.Sound L) (hts : ∀ t ∈ ts, L.Carried t) :
    (r.statementRule ts).Yields L L.Statement := by
  cases ts with
  | nil => trivial
  | cons t ts =>
      rw [statementRule_cons]
      split
      · exact ifRule_sound hr hts
      split
      · exact whileRule_sound hr hts
      split
      · exact forRule_sound hr hts
      split
      · exact returnRule_sound hr hts
      split
      · rename_i hd
        exact declarationRule_sound hr hd hts
      · exact exprRule_sound hr hts

theorem assignmentRule_sound (hr : r.Sound L) (hts : ∀ t ∈ ts, L.Carried t) :
    (r.assignmentRule ts).Yields L L.Expr := by
  unfold assignmentRule
  refine (hr.binary 1 ts hts).bind fun target ts₁ ht h₁ => ?_
  refine Outcome.Yields.peek h₁ fun arrow rest harrow hrest => ?_
  split
  · rw [bind_take]
    refine (hr.assignment rest hrest).bind fun value ts₂ hv h₂ => ?_
    cases htree : assignTo? target value with
    | none => trivial
    | some tree => exact ⟨assignTo?_expr ht hv htree, h₂⟩
  · exact ⟨ht, by simpa using ⟨harrow, hrest⟩⟩

theorem arg_sound (hr : r.Sound L) (hts : ∀ t ∈ ts, L.Carried t) :
    (r.arg ts).Yields L L.Arg := by
  unfold arg
  rw [bind_ahead]
  split
  · rename_i hstart
    match ts, hstart, hts with
    | name :: mark :: ts, hstart, hts =>
      have hkind : name.kind = .ident := by
        simp only [startsNamed, Bool.and_eq_true, decide_eq_true_eq] at hstart
        exact hstart.1
      rw [bind_take, bind_take]
      have h₀ : ∀ t ∈ ts, L.Carried t := fun t ht => hts t (by simp [ht])
      refine (skipNewlines_yields h₀).bind fun _ ts₁ _ h₁ => ?_
      refine (hr.binary 1 ts₁ h₁).bind fun value ts₂ hv h₂ => ?_
      exact ⟨⟨.inr hv.1, ((hts name (by simp)).name hkind).1, hv.2⟩, h₂⟩
  · exact (hr.binary 1 ts hts).mono fun e he => ⟨.inl he.1, he.2⟩

theorem argsRule_sound (hr : r.Sound L) (hts : ∀ t ∈ ts, L.Carried t) :
    (r.argsRule ts).Yields L (fun args => ∀ a ∈ args, L.Arg a) := by
  rw [argsRule_eq]
  exact commaList_yields (arg_sound hr hts) (fun _ ha => ha) hr.args

theorem namesRule_sound (hr : r.Sound L) (hts : ∀ t ∈ ts, L.Carried t) :
    (r.namesRule ts).Yields L (fun ns => ∀ n ∈ ns, L.name n) := by
  rw [namesRule_eq]
  exact commaList_yields (expect_yields hts) (fun _ ht => (ht.2.name ht.1).1) hr.names

theorem nameOrCall_sound (hr : r.Sound L) {name : Bytes} (hname : L.name name)
    (hts : ∀ t ∈ ts, L.Carried t) : (r.nameOrCall name ts).Yields L L.Expr := by
  unfold nameOrCall
  refine Outcome.Yields.next fun b => ?_
  cases b with
  | false => exact ⟨⟨rfl, hname⟩, hts⟩
  | true =>
      -- Both branches of the argument list go on with the closing parenthesis.
      have hclose : ∀ args ts, (∀ a ∈ args, L.Arg a) → (∀ t ∈ ts, L.Carried t) →
          ((expect .rightParen >>= fun _ => pure (callTree name args) : Parser Node) ts).Yields L
            L.Expr :=
        fun args ts hargs hts =>
          (expect_yields hts).bind fun _ rest _ hrest => ⟨callTree_expr hname hargs, hrest⟩
      rw [if_pos rfl]
      unfold call
      refine Outcome.Yields.take hts fun _ ts₁ _ h₁ => ?_
      refine (skipNewlines_yields h₁).bind fun _ ts₂ _ h₂ => ?_
      refine Outcome.Yields.next fun b => ?_
      cases b with
      | true => exact hclose [] ts₂ (by simp) h₂
      | false =>
          refine (hr.args ts₂ h₂).orSkim.bind fun args ts₃ hargs h₃ => ?_
          exact hclose args ts₃ hargs h₃

theorem group_sound (hr : r.Sound L) (hts : ∀ t ∈ ts, L.Carried t) :
    (r.group ts).Yields L L.Expr := by
  unfold group
  refine (skipNewlines_yields hts).bind fun _ ts₁ _ h₁ => ?_
  refine (hr.assignment ts₁ h₁).orSkim.bind fun e ts₂ he h₂ => ?_
  refine (skipNewlines_yields h₂).bind fun _ ts₃ _ h₃ => ?_
  exact (expect_yields h₃).bind fun _ ts₄ _ h₄ => ⟨he, h₄⟩

theorem isExpr_of_literalTree? {t : Token} {e : Node} (h : literalTree? t = some e) :
    isExpr e = true := by
  unfold literalTree? at h
  split at h <;> cases h <;> rfl

theorem atom_sound (hr : r.Sound L) (hts : ∀ t ∈ ts, L.Carried t) :
    (r.atom ts).Yields L L.Expr := by
  cases ts with
  | nil => trivial
  | cons t ts =>
      have ht := hts t (by simp)
      have hrest : ∀ u ∈ ts, L.Carried u := fun u hu => hts u (by simp [hu])
      rcases r.atom_cases ts t with ⟨e, he⟩ | hk | hk | ⟨e, he⟩ | ⟨_, e, he⟩ | ⟨_, he⟩
      · rw [r.atom_literal ts he]
        exact ⟨⟨isExpr_of_literalTree? he, ht.literal e he⟩, hrest⟩
      · rw [r.atom_ident ts hk]
        exact nameOrCall_sound hr (ht.name hk).1 hrest
      · rw [r.atom_group ts hk]
        exact group_sound hr hrest
      · rw [he]
        trivial
      · rw [he]
        trivial
      · rw [he]
        trivial

theorem suffixesRule_sound (hr : r.Sound L) {e : Node} (he : L.Expr e)
    (hts : ∀ t ∈ ts, L.Carried t) : (r.suffixesRule e ts).Yields L L.Expr := by
  cases ts with
  | nil => trivial
  | cons t ts =>
      have hrest : ∀ u ∈ ts, L.Carried u := fun u hu => hts u (by simp [hu])
      rw [suffixesRule_cons]
      split
      · refine (hr.assignment ts hrest).orSkim.bind fun i ts₁ hi h₁ => ?_
        refine (expect_yields h₁).bind fun _ ts₂ _ h₂ => ?_
        exact hr.suffixes _ ts₂ ⟨by simp [isExpr, he.1, hi.1], he.2, hi.2⟩ h₂
      split
      · refine (expect_yields hrest).bind fun name ts₁ hname h₁ => ?_
        obtain ⟨hn, ht⟩ := hname.2.name hname.1
        exact hr.suffixes _ ts₁ ⟨by simp [isExpr, he.1], hn, ht, he.2⟩ h₁
      · exact ⟨he, hts⟩

theorem unary_sound (hr : r.Sound L) (hts : ∀ t ∈ ts, L.Carried t) :
    (r.unary ts).Yields L L.Expr := by
  unfold unary
  refine Outcome.Yields.peek hts fun t rest ht hrest => ?_
  split
  · rename_i hk
    rw [bind_take]
    refine (hr.binary 3 rest hrest).bind fun operand ts₁ ho h₁ => ?_
    exact ⟨⟨by simpa [isExpr] using ho.1, ht.sign (by simpa using hk), ho.2⟩, h₁⟩
  · have hts : ∀ u ∈ t :: rest, L.Carried u := by simpa using ⟨ht, hrest⟩
    exact (atom_sound hr hts).bind fun e ts₁ he h₁ => hr.suffixes e ts₁ he h₁

theorem climbRule_sound (hr : r.Sound L) (least : Nat) {left : Node} (hl : L.Expr left)
    (hts : ∀ t ∈ ts, L.Carried t) : (r.climbRule least left ts).Yields L L.Expr := by
  unfold climbRule
  refine Outcome.Yields.peek hts fun op rest hop hrest => ?_
  have hts : ∀ u ∈ op :: rest, L.Carried u := by simpa using ⟨hop, hrest⟩
  cases hlevel : level? op.kind with
  | none => exact ⟨hl, hts⟩
  | some level =>
      dsimp only
      split
      · exact ⟨hl, hts⟩
      · rw [bind_take]
        refine (hr.binary _ rest hrest).bind fun right ts₁ hright h₁ => ?_
        refine Outcome.Yields.peek h₁ fun t rest ht hrest => ?_
        have h₁ : ∀ u ∈ t :: rest, L.Carried u := by simpa using ⟨ht, hrest⟩
        split
        · trivial
        · have hlabel := hop.operator (by simp [hlevel])
          exact hr.climb least _ _ ⟨by simp [isExpr, hl.1, hright.1], hlabel, hl.2, hright.2⟩ h₁

theorem binaryRule_sound (hr : r.Sound L) (least : Nat) (hts : ∀ t ∈ ts, L.Carried t) :
    (r.binaryRule least ts).Yields L L.Expr := by
  unfold binaryRule
  exact (unary_sound hr hts).bind fun left ts₁ hl h₁ => hr.climb least left ts₁ hl h₁

theorem Sound.up (hr : r.Sound L) : r.up.Sound L where
  statements closer _ hts := statementsRule_sound hr closer hts
  statement _ hts := statementRule_sound hr hts
  assignment _ hts := assignmentRule_sound hr hts
  binary least _ hts := binaryRule_sound hr least hts
  climb least _ _ hl hts := climbRule_sound hr least hl hts
  suffixes _ _ he hts := suffixesRule_sound hr he hts
  args _ hts := argsRule_sound hr hts
  names _ hts := namesRule_sound hr hts

end Rules

theorem rules_sound (L : Labels) (n : Nat) : (rules n).Sound L := by
  induction n with
  | zero => exact Rules.Sound.spent
  | succ n ih => exact ih.up

end Grammar

/-- The statements read from a list are well-formed, with labels that its tokens carry. -/
theorem parse_sound {L : Labels} {ts : List Token} {ss : List Node}
    (hts : ∀ t ∈ ts, L.Carried t) (h : parse ts = .ok ss) : L.Statements ss := by
  have hs := (Grammar.rules_sound L (Grammar.depthFor ts.length)).statements .eof ts hts
  unfold parse at h
  cases hp : (Grammar.rules (Grammar.depthFor ts.length)).statements .eof ts with
  | done value rest =>
      rw [hp] at h hs
      cases h
      exact hs.1
  | fail e rest =>
      rw [hp] at h
      contradiction
  | halt reason =>
      rw [hp] at h
      contradiction

def Labels.any : Labels where
  name _ := True
  operator _ := True
  sign _ := True
  digits _ := True
  real _ := True
  text _ := True

theorem Labels.any_carried (t : Token) : Labels.any.Carried t where
  name _ := ⟨trivial, trivial⟩
  operator _ := trivial
  sign _ := trivial
  literal e h := by
    unfold Grammar.literalTree? at h
    split at h <;> cases h <;> trivial

theorem parse_wellFormed {ts : List Token} {ss : List Node} (h : parse ts = .ok ss) :
    Node.areStatements ss = true :=
  (parse_sound (fun t _ => Labels.any_carried t) h).1

end RToJulia
