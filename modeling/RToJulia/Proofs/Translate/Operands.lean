import RToJulia.Proofs.Grammar.Soundness
import RToJulia.Proofs.Julia.Names
import RToJulia.Proofs.Julia.Totality
import RToJulia.Proofs.Tree.Occurs
import RToJulia.Translate

/-! # The operands of a translation

The labels of a program that was read from a source are names, operators and
literals of that source, so an operand or a target is written as delimited text
unless it stands bare or a name in it loses backticks that it needs. Such operands
do lose their grouping.
-/

namespace RToJulia

open Text Julia Node

/-- Text that is one name wherever it stands: a name without backticks, or one in backticks. -/
def IsNameText (t : Bytes) : Prop :=
  standsAsName t = true ∨ ∃ body, 0x60 ∉ body ∧ t = 0x60 :: body ++ [0x60]

/-! ## Labels of a source -/

theorem isNameByte_spec {b : UInt8} (h : Lexer.isNameByte b = true) : b ≠ 0x5c ∧ b ≠ 0x60 := by
  constructor <;> rintro rfl <;> contradiction

theorem isPlainName_spec {x : Bytes} (h : isPlainName x = true) :
    0x5c ∉ x ∧ x.head? ≠ some 0x60 := by
  have hbytes := (isPlainName_bytes h).2
  constructor
  · intro hslash
    exact (isNameByte_spec (hbytes _ hslash)).1 rfl
  · intro hhead
    exact (isNameByte_spec (hbytes _ (List.mem_of_mem_head? hhead))).2 rfl

theorem unquote_plain {x : Bytes} (h : isPlainName x = true) : unquote x = x := by
  have hhead : (x.head? == some 0x60) = false := by simpa using (isPlainName_spec h).2
  rw [unquote, hhead]
  simp

theorem isWhole_quoted (body : Bytes) : isWhole (0x60 :: body ++ [0x60]) = true := by
  rw [isWhole, pending_append]
  cases pending false (0x60 :: body) <;> rfl

theorem balanced_symbols {name : Bytes → Prop} {op : Bytes} (h : op.all isSymbol = true) :
    Balanced name op := by
  refine balanced_plain (List.all_eq_true.mpr fun b hb => ?_)
  have hsym := List.all_eq_true.mp h b hb
  have hall : ([0x21, 0x26, 0x2a, 0x2b, 0x2d, 0x2f, 0x3a, 0x3c, 0x3d, 0x3e, 0x5e, 0x7c] : Bytes).all
      isPlainByte = true := by decide
  exact List.all_eq_true.mp hall b (of_decide_eq_true hsym)

/-- What a token of a source carries: a name that is plain or in backticks, an operator of symbols,
or a literal without a sign. -/
theorem Lexed.carried {L : Labels} {t : Token} (h : Lexed t)
    (hplain : t.kind = .ident → isPlainName t.lexeme = true → L.name t.lexeme ∧ L.text t.lexeme)
    (hquoted : ∀ body : Bytes, t.kind = .ident → body ≠ [] → 0x60 ∉ body →
      t.lexeme = 0x60 :: body ++ [0x60] → L.name t.lexeme ∧ L.text t.lexeme)
    (hop : ∀ op : Bytes, op.all isSymbol = true → L.operator op ∧ L.sign op)
    (hdigits : ∀ ds, areDigits ds = true → L.digits ds)
    (hreal : ∀ m e, L.real (.finite false m e)) (htext : ∀ s, isWhole s = true → L.text s) :
    L.Carried t := by
  cases h with
  | eof line | newline lexeme line =>
      exact ⟨by simp, by simp [Grammar.level?], by simp, by simp [Grammar.literalTree?]⟩
  | @mark kind lexeme line hmark hsymbols =>
      refine ⟨?_, fun hlevel => (hop _ (hsymbols (.inl hlevel))).1, ?_, ?_⟩
      · rintro rfl
        contradiction
      · rintro (rfl | rfl)
        · exact (hop _ (hsymbols (.inr rfl))).2
        · exact (hop _ (hsymbols (.inl rfl))).2
      · intro e he
        cases kind <;> contradiction
  | name line plain =>
      exact ⟨fun hk => hplain hk plain, by simp [Grammar.level?], by simp, by simp [Grammar.literalTree?]⟩
  | quoted line nonempty backtick =>
      exact ⟨fun hk => hquoted _ hk nonempty backtick rfl, by simp [Grammar.level?], by simp,
        by simp [Grammar.literalTree?]⟩
  | truth line value =>
      refine ⟨by simp, by simp [Grammar.level?], by simp, ?_⟩
      rintro e ⟨⟩
      trivial
  | integer line nonempty all =>
      refine ⟨by simp, by simp [Grammar.level?], by simp, ?_⟩
      rintro e ⟨⟩
      exact hdigits _ ((areDigits_iff _).mpr ⟨nonempty, List.all_eq_true.mp all⟩)
  | float line m e =>
      refine ⟨by simp, by simp [Grammar.level?], by simp, ?_⟩
      rintro e ⟨⟩
      exact hreal _ _
  | string line whole =>
      refine ⟨by simp, by simp [Grammar.level?], by simp, ?_⟩
      rintro e ⟨⟩
      exact htext _ whole

/-- The labels that the tokens of a source carry have texts that fit into a tree's text. -/
theorem tokens_carried (source : Bytes) : ∀ t ∈ tokens source, (texts IsNameText).Carried t := by
  intro t ht
  have hstring : ∀ s, isWhole s = true → Delimited IsNameText (stringLiteral s) :=
    fun s hs => .literal (stringLiteral_isLiteral hs)
  apply (tokens_lexed source t ht).carried
  · intro _ hplain
    have hkey := hstring t.lexeme (isWhole_of_not_mem (isPlainName_spec hplain).1)
    exact ⟨⟨.inl (standsAsName_of_plain hplain), hkey⟩, hkey⟩
  · intro body _ _ hbody heq
    have hkey := hstring t.lexeme (by rw [heq]; exact isWhole_quoted body)
    exact ⟨⟨.inr ⟨body, hbody, heq⟩, hkey⟩, hkey⟩
  · intro op hop
    exact ⟨balanced_symbols hop, balanced_symbols hop⟩
  · intro ds hds
    exact .literal (.number ⟨by simp, hds, .inl rfl, .inl rfl⟩)
  · intro m e
    exact .literal (floatLiteral_isLiteral m e)
  · exact hstring

/-! ## Operands -/

theorem operand_writes (o : Options) {source : Bytes} {ss : List Node}
    (hparse : parseSource source = .ok ss) {n c : Node} (hn : Occurs (.program ss) n)
    (hc : c ∈ n.operands) (hu : ∀ x ∈ unquotedNames c, Balanced IsNameText (unquote x)) (level : Nat) :
    Writes (Grouped IsNameText c) False (write o c level) := by
  obtain ⟨hshape, hmeets⟩ := parse_sound (tokens_carried source) hparse
  have hprogram : (texts IsNameText).Meets (.program ss) := hmeets
  have hchild := Occurs.child hn (mem_children_of_mem_operands hc)
  exact write_expr o (fun t ht => .inl ht) c (isExpr_operand (hn.isPart hshape) hc)
    (hchild.meets hprogram) hu level

/-- Wherever an operator or an index stands in a program, an operand or the target is written. If
the names that lose their backticks in it are balanced without them, the text is balanced, and it is
delimited unless it stands bare. -/
theorem operand_delimited (o : Options) (source : Bytes) (ss : List Node)
    (hparse : parseSource source = .ok ss) (n c : Node) (hn : Occurs (.program ss) n)
    (hc : c ∈ n.operands) (level : Nat) (w : Work) (hw : w.unsupported = none) :
    ∃ text w', write o c level w = .ok (text, w') ∧ w'.unsupported = none ∧
      ((∀ x ∈ unquotedNames c, Balanced IsNameText (unquote x)) →
        Balanced IsNameText text ∧ (isBare c = false → Delimited IsNameText text)) := by
  have hpart := hn.isPart (parse_wellFormed hparse : isPart (.program ss) = true)
  have hwritten : Writes (fun _ => True) False (write o c level) :=
    write_expr_any (isExpr_operand hpart hc) level
  rcases hwritten w hw with ⟨text, w', hrun, hw', -⟩ | ⟨-, hfalse⟩
  · refine ⟨text, w', hrun, hw', fun hu => ?_⟩
    rcases operand_writes o hparse hn hc hu level w hw with ⟨t, w₁, hrun₁, -, ht⟩ | ⟨-, hfalse⟩
    · rw [hrun] at hrun₁
      cases hrun₁
      exact ⟨ht.balanced, fun hbare => by simpa [Grouped, hbare] using ht⟩
    · exact hfalse.elim
  · exact hfalse.elim

/-- The target of the index in `(a + 1)[2] * -b` keeps its parentheses. -/
theorem operand_delimited_sum :
    ∃ text w', write {} (.binary "+" (.var "a") (.int "1")) 0 { records := [], packages := [] } =
        .ok (text, w') ∧ w'.unsupported = none ∧ Balanced IsNameText text ∧
      Delimited IsNameText text := by
  let sum : Node := .binary "+" (.var "a") (.int "1")
  let product : Node := .binary "*" (.index sum (.int "2")) (.unary "-" (.var "b"))
  have hproduct : Occurs (.program [.exprStmt product]) product :=
    .child (.child .root List.mem_cons_self) List.mem_cons_self
  obtain ⟨text, w', hrun, hw', hgrouped⟩ :=
    operand_delimited {} "(a + 1)[2] * -b" [.exprStmt product] rfl (.index sum (.int "2")) sum
      (.child hproduct List.mem_cons_self) List.mem_cons_self 0 { records := [], packages := [] } rfl
  have hnames : ∀ x ∈ unquotedNames sum, Balanced IsNameText (unquote x) := by
    intro x hx
    rw [List.mem_singleton.mp hx]
    exact .name (.inl rfl)
  obtain ⟨hbalanced, hdelimited⟩ := hgrouped hnames
  exact ⟨text, w', hrun, hw', hbalanced, hdelimited rfl⟩

/-! ## Operands that regroup -/

/-- An operand or a target somewhere in the program of a source is written as text that is not
delimited. -/
def Regroups (source : Bytes) : Prop :=
  ∃ ss n c text w', parseSource source = .ok ss ∧ Occurs (.program ss) n ∧ c ∈ n.operands ∧
    write {} c 0 { records := [], packages := [] } = .ok (text, w') ∧
    ¬ Delimited IsNameText text

theorem not_delimited {text : Bytes} (hp : text.getLast? ≠ some 0x29)
    (hb : text.getLast? ≠ some 0x5d) (hname : standsAsName text = false)
    (hquoted : text.head? ≠ some 0x60) (hnumber : text.all isNumberByte = false)
    (hquote : text.head? ≠ some 0x22) (htrue : text ≠ "true") (hfalse : text ≠ "false") :
    ¬ Delimited IsNameText text := by
  intro h
  rcases h.unit hp hb with (hstands | ⟨body, -, rfl⟩) | hlit
  · rw [hname] at hstands
    contradiction
  · exact hquoted rfl
  · rcases hlit.cases_bytes with hn | hs | ht | hf
    · rw [hnumber] at hn
      contradiction
    · exact hquote hs
    · exact htrue ht
    · exact hfalse hf

theorem count_parens_of_bytes {t : Bytes} {p : UInt8 → Prop} (hopen : ¬ p 0x28) (hclose : ¬ p 0x29)
    (h : ∀ b ∈ t, p b) : t.count 0x28 = t.count 0x29 := by
  rw [List.count_eq_zero.mpr fun hb => hopen (h _ hb), List.count_eq_zero.mpr fun hb => hclose (h _ hb)]

theorem count_parens_of_name {t : Bytes} (h : standsAsName t = true) : t.count 0x28 = t.count 0x29 := by
  rw [standsAsName, Bool.or_eq_true] at h
  rcases h with h | h
  · exact count_parens_of_bytes (by decide) (by decide) (isPlainName_bytes h).2
  · exact count_parens_of_bytes (by decide) (by decide) (isIdentifier_bytes h)

theorem count_parens_of_literal {t : Bytes} (h : IsLiteral t) (hs : 0x22 ∉ t) :
    t.count 0x28 = t.count 0x29 := by
  rcases h.cases_bytes with hn | hq | rfl | rfl
  · exact count_parens_of_bytes (by decide) (by decide) (List.all_eq_true.mp hn)
  · exact (hs (List.mem_of_mem_head? hq)).elim
  · rfl
  · rfl

/-- In balanced text without backticks and quotes as many parentheses close as open. -/
theorem count_parens_of_balanced {t : Bytes} (h : Balanced IsNameText t) (hq : 0x60 ∉ t)
    (hs : 0x22 ∉ t) : t.count 0x28 = t.count 0x29 := by
  induction h with
  | nil => rfl
  | byte hb =>
      exact count_parens_of_bytes (p := (isPlainByte · = true)) (by decide) (by decide) (by simpa using hb)
  | name h =>
      rcases h with hstands | ⟨body, -, rfl⟩
      · exact count_parens_of_name hstands
      · exact (hq List.mem_cons_self).elim
  | record cls => exact count_parens_of_bytes (by decide) (by decide) (recordName_bytes cls)
  | literal h => exact count_parens_of_literal h hs
  | @parens t h ih =>
      simp only [List.mem_append, not_or] at hq hs
      have hinner := ih hq.1.2 hs.1.2
      simp only [List.count_append, hinner]
      have houter : (utf8 "(").count 0x28 = 1 ∧ (utf8 "(").count 0x29 = 0 ∧
          (utf8 ")").count 0x28 = 0 ∧ (utf8 ")").count 0x29 = 1 := by decide
      omega
  | @brackets t h ih =>
      simp only [List.mem_append, not_or] at hq hs
      have hinner := ih hq.1.2 hs.1.2
      simp only [List.count_append, hinner]
      have houter : (utf8 "[").count 0x28 = (utf8 "[").count 0x29 ∧
          (utf8 "]").count 0x28 = (utf8 "]").count 0x29 := by decide
      omega
  | append hs' ht' ihs iht =>
      simp only [List.mem_append, not_or] at hq hs
      rw [List.count_append, List.count_append, ihs hq.1 hs.1, iht hq.2 hs.2]

theorem not_delimited_of_count {text : Bytes} (hq : 0x60 ∉ text) (hs : 0x22 ∉ text)
    (hcount : text.count 0x28 ≠ text.count 0x29) : ¬ Delimited IsNameText text :=
  fun h => hcount (count_parens_of_balanced h.balanced hq hs)

theorem Regroups.of_operand {source text : Bytes} {e c : Node} {w : Work} (hd : ¬ Delimited IsNameText text)
    (hparse : parseSource source = .ok [.exprStmt e]) (hc : c ∈ e.operands)
    (hrun : write {} c 0 { records := [], packages := [] } = .ok (text, w)) : Regroups source :=
  ⟨_, e, c, text, w, hparse, .child (.child .root List.mem_cons_self) List.mem_cons_self, hc, hrun, hd⟩

/-- A range as a target and assignments as operands lose their parentheses. A variable loses its
backticks, and so does one inside a call. -/
theorem bare_operands_regroup :
    Regroups "(1:3)[2]" ∧ Regroups "(x <- 1) + 2" ∧ Regroups "(x[1] <- 2) + 3" ∧
      Regroups "`a + b` * c" ∧ Regroups "`a)` + 1" ∧ Regroups "f(`a)`) + 1" := by
  have hrange : ¬ Delimited IsNameText "1:3" := by apply not_delimited <;> decide
  have hassign : ¬ Delimited IsNameText "x = 1" := by apply not_delimited <;> decide
  have helement : ¬ Delimited IsNameText "x[1] = 2" := by apply not_delimited <;> decide
  have hsum : ¬ Delimited IsNameText "a + b" := by apply not_delimited <;> decide
  have hclose : ¬ Delimited IsNameText "a)" := by apply not_delimited_of_count <;> decide
  have hcall : ¬ Delimited IsNameText "f(a))" := by apply not_delimited_of_count <;> decide
  exact ⟨.of_operand hrange rfl List.mem_cons_self rfl, .of_operand hassign rfl List.mem_cons_self rfl,
    .of_operand helement rfl List.mem_cons_self rfl, .of_operand hsum rfl List.mem_cons_self rfl,
    .of_operand hclose rfl List.mem_cons_self rfl, .of_operand hcall rfl List.mem_cons_self rfl⟩

end RToJulia
