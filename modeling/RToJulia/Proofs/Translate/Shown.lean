import RToJulia.Proofs.Julia.Common
import RToJulia.Proofs.Token.Pieces
import RToJulia.Proofs.Tree.Legible
import RToJulia.Translate

/-!
# The S-expressions of programs

A source without names in backticks gives its program labels that are words, exact numbers and
well-formed text.  So the program is legible, and its S-expression determines it.
-/

namespace RToJulia

open Text Decimal Lexer

/-! ## Labels of a source without backticks -/

def hasQuotedName (source : Bytes) : Bool :=
  (tokens source).any fun t => t.kind = .ident && t.lexeme.head? = some 0x60

def Labels.shown : Labels where
  name x := isPlainName x = true
  operator op := (operatorLevel? op).isSome = true
  sign op := op = "-" ∨ op = "!"
  digits d := d ≠ [] ∧ d.all isDigitByte = true
  real v := ∃ m e, v = .finite false m e ∧ Binary64.IsCanonical m e
  text t := ∃ cs, t = encode cs

theorem isNameByte_shown {b : UInt8} (h : isNameByte b = true) :
    Sexp.isWordByte b = true ∧ b.toNat < 0x80 := by
  simp only [isNameByte, isNameStart, isDigitByte, Bool.or_eq_true, Bool.and_eq_true,
    decide_eq_true_eq, beq_iff_eq, UInt8.le_iff_toNat_le, ← UInt8.toNat_inj,
    UInt8.reduceToNat] at h
  simp only [Sexp.isWordByte, decide_eq_true_eq, List.mem_cons, List.not_mem_nil, or_false,
    ← UInt8.toNat_inj, UInt8.reduceToNat]
  omega

theorem isWord_of_nameBytes {x : Bytes} (hne : x ≠ []) (h : ∀ b ∈ x, isNameByte b = true) :
    Sexp.isWord x = true := by
  simp only [Sexp.isWord, Bool.and_eq_true, decide_eq_true_eq, List.all_eq_true]
  exact ⟨hne, fun b hb => (isNameByte_shown (h b hb)).1⟩

theorem isWord_of_isPlainName {x : Bytes} (h : isPlainName x = true) : Sexp.isWord x = true :=
  isWord_of_nameBytes (isPlainName_bytes h).1 (isPlainName_bytes h).2

theorem isWord_of_digits {d : Bytes} (hne : d ≠ []) (h : d.all isDigitByte = true) :
    Sexp.isWord d = true :=
  isWord_of_nameBytes hne fun b hb => by simp [isNameByte, List.all_eq_true.mp h b hb]

theorem encode_of_ascii {x : Bytes} (h : ∀ b ∈ x, b.toNat < 0x80) : ∃ cs, x = encode cs := by
  refine ⟨x.map fun b => Char.ofNat b.toNat, ?_⟩
  induction x with
  | nil => rfl
  | cons b x ih =>
      rw [List.map_cons, encode, List.flatMap_cons, encode_ascii (h b List.mem_cons_self), ← encode,
        ← ih fun c hc => h c (List.mem_cons_of_mem _ hc)]
      rfl

/-- The literal of a token is an exact number or, in a string, well-formed text. -/
def Token.IsExact (t : Token) : Prop :=
  match t.literal with
  | some (.real v) => ∃ m e, v = .finite false m e ∧ Binary64.IsCanonical m e
  | some (.text s) => t.kind = .string → ∃ cs, s = encode cs
  | _ => True

theorem float_exact {s : Bytes} {v : Binary64} (hs : IsFloat s)
    (h : (Number.ofText s).toBinary64? = some v) :
    ∃ m e, v = .finite false m e ∧ Binary64.IsCanonical m e := by
  obtain ⟨b, rest, rfl, hb⟩ := hs.head
  obtain ⟨m, e, hfinite⟩ := toBinary64?_finite hb h
  obtain ⟨m', e', hexact, hc⟩ := Number.toBinary64?_isCanonical h
  rw [hfinite, Binary64.finite.injEq] at hexact
  obtain ⟨-, rfl, rfl⟩ := hexact
  exact ⟨m, e, hfinite, hc⟩

theorem nameToken_exact (line : Nat) (x : Bytes) : (nameToken line x).IsExact := by
  unfold nameToken
  repeat' split
  all_goals trivial

theorem piece_exact {line : Nat} {b : UInt8} {rest : Bytes} {t : Token}
    (h : piece line b rest = .token t) : t.IsExact := by
  obtain ⟨p, left, hcut⟩ := exists_cut line b rest
  rw [hcut.piece_eq] at h
  generalize b :: rest = s at hcut
  cases hcut with
  | float longest reads =>
      cases h
      exact float_exact longest.1 reads
  | string left hquote closed =>
      cases h
      exact fun _ => ⟨_, rfl⟩
  | integer digits suffix longest noFloat =>
      cases h
      intro hkind
      cases hkind
  | name plain ends =>
      cases h
      exact nameToken_exact _ _
  | newline | quoted | pair | operator | single =>
      cases h
      trivial
  | blank | comment | unterminated | backtick | floatRange | unexpected => cases h

theorem tokens_exact (source : Bytes) : ∀ t ∈ tokens source, t.IsExact :=
  tokens_of_pieces (fun _ _ _ _ h => piece_exact h) (fun _ => trivial) source

/-- Without names in backticks the tokens of a source carry labels that an S-expression shows. -/
theorem tokens_shown {source : Bytes} (hfree : hasQuotedName source = false) :
    ∀ t ∈ tokens source, Labels.shown.Carried t := by
  intro t ht
  have hspelled := tokens_spelled source t ht
  have hname : t.kind = .ident → isPlainName t.lexeme = true := by
    intro hkind
    have hplain : t.lexeme.head? ≠ some 0x60 := by
      intro hhead
      have hany := List.any_eq_false.mp hfree t ht
      simp [hkind, hhead] at hany
    have hfreeName := hspelled.name hkind hplain
    simp only [isFreeName, Bool.and_eq_true] at hfreeName
    exact hfreeName.1
  refine ⟨fun hkind => ⟨hname hkind, ?_⟩, fun hlevel => ?_, sign_of_isSpelled hspelled.operator,
    fun e he => ?_⟩
  · exact encode_of_ascii fun b hb =>
      (isNameByte_shown ((isPlainName_bytes (hname hkind)).2 b hb)).2
  · obtain ⟨p, hp⟩ := Option.isSome_iff_exists.mp hlevel
    change (operatorLevel? t.lexeme).isSome = true
    rw [operatorLevel?_of_isSpelled hspelled.operator hp]
    rfl
  · have hexact := tokens_exact source t ht
    unfold Grammar.literalTree? at he
    unfold Token.IsExact at hexact
    split at he <;> cases he
    · rename_i digits hkind hliteral
      exact (tokens_lexed source t ht).digits hkind hliteral
    · rename_i hkind hliteral
      rw [hliteral] at hexact
      exact hexact
    · rename_i hkind hliteral
      rw [hliteral] at hexact
      exact hexact hkind
    · trivial

/-! ## Programs are legible -/

namespace Node

mutual

theorem legible_of_isExpr : ∀ e : Node, isExpr e = true → Labels.shown.Meets e → Legible e
  | assign x value, h, hl => .assign (isWord_of_isPlainName hl.1) (legible_of_isExpr value h hl.2)
  | assignIndex target i value, h, hl => by
      simp only [isExpr, Bool.and_eq_true] at h
      exact .assignIndex (legible_of_isExpr target h.1.1 hl.1) (legible_of_isExpr i h.1.2 hl.2.1)
        (legible_of_isExpr value h.2 hl.2.2)
  | call f args, h, hl => by
      simp only [isExpr, Bool.and_eq_true] at h
      exact .call (isWord_of_isPlainName hl.1) (legible_of_areArgs args h.1 hl.2)
  | binary op left right, h, hl => by
      simp only [isExpr, Bool.and_eq_true] at h
      exact .binary hl.1 (legible_of_isExpr left h.1 hl.2.1) (legible_of_isExpr right h.2 hl.2.2)
  | unary op operand, h, hl => .unary hl.1 (legible_of_isExpr operand h hl.2)
  | var x, _, hl => .var (isWord_of_isPlainName hl)
  | int d, _, hl => .int (isWord_of_digits hl.1 hl.2)
  | float v, _, hl => by
      obtain ⟨m, e, rfl, hc⟩ := hl
      exact .float hc
  | string t, _, hl => by
      obtain ⟨cs, rfl⟩ := hl
      exact .string cs
  | Node.bool b, _, _ => .bool b
  | index target i, h, hl => by
      simp only [isExpr, Bool.and_eq_true] at h
      exact .index (legible_of_isExpr target h.1 hl.1) (legible_of_isExpr i h.2 hl.2)
  | field target _, h, hl =>
      .field (legible_of_isExpr target h hl.2.2) (isWord_of_isPlainName hl.1)
  | predicate test e, h, hl => by
      simp only [isExpr, Bool.and_eq_true] at h
      exact .predicate h.1 (legible_of_isExpr e h.2 hl)

theorem legible_of_isNamedExpr : ∀ a : Node, isNamedExpr a = true → Labels.shown.Meets a → Legible a
  | named _ value, h, hl => .named (isWord_of_isPlainName hl.1) (legible_of_isExpr value h hl.2)

theorem legible_of_areArgs : ∀ args : List Node, areArgs args = true →
    Labels.shown.MeetsAll args → ∀ a ∈ args, Legible a
  | [], _, _ => by simp
  | a :: args, h, hl => by
      simp only [areArgs, Bool.and_eq_true, Bool.or_eq_true] at h
      refine List.forall_mem_cons.mpr ⟨?_, legible_of_areArgs args h.2 hl.2⟩
      rcases h.1 with ha | ha
      · exact legible_of_isExpr a ha hl.1
      · exact legible_of_isNamedExpr a ha hl.1

end

mutual

theorem legible_of_isStatement : ∀ s : Node, isStatement s = true → Labels.shown.Meets s → Legible s
  | assign x value, h, hl => legible_of_isExpr (assign x value) h hl
  | assignIndex target i value, h, hl => legible_of_isExpr (assignIndex target i value) h hl
  | exprStmt e, h, hl => by
      simp only [isStatement, Bool.and_eq_true] at h
      exact .exprStmt (legible_of_isExpr e h.1 hl)
  | ifElse cond (some yes) none, h, hl => by
      simp only [isStatement, isBody, Bool.and_eq_true] at h
      refine .ifElse (legible_of_isExpr cond h.1.1 hl.1) (legible_of_areStatements yes h.1.2 hl.2.1) ?_
      rintro ss ⟨⟩
  | ifElse cond (some yes) (some no), h, hl => by
      simp only [isStatement, isBody, isElse, Bool.and_eq_true] at h
      refine .ifElse (legible_of_isExpr cond h.1.1 hl.1) (legible_of_areStatements yes h.1.2 hl.2.1) ?_
      rintro ss ⟨⟩
      exact legible_of_areStatements no h.2 hl.2.2
  | whileLoop cond (some body), h, hl => by
      simp only [isStatement, isBody, Bool.and_eq_true] at h
      exact .whileLoop (legible_of_isExpr cond h.1 hl.1) (legible_of_areStatements body h.2 hl.2)
  | forLoop x start stop (some body), h, hl => by
      simp only [isStatement, isBody, Bool.and_eq_true, Bool.or_eq_true] at h
      refine .forLoop (isWord_of_isPlainName hl.1) (fun hgap => ?_)
        (legible_of_isExpr stop h.1.2 hl.2.2.1) (legible_of_areStatements body h.2 hl.2.2.2)
      rcases h.1.1 with hstart | hstart
      · exact legible_of_isExpr start hstart hl.2.1
      · rw [hgap] at hstart
        cases hstart.1
  | function x params (some body), h, hl => by
      simp only [isStatement, isBody, Bool.and_eq_true] at h
      exact .function (isWord_of_isPlainName hl.1) (fun p hp => isWord_of_isPlainName (hl.2.1 p hp))
        (legible_of_areStatements body h.2 hl.2.2)
  | operator op cls params body, h, hl => by
      -- the name of an operator stands in backticks
      cases hl.1
  | ifElse _ none _, h, _ | whileLoop _ none, h, _ | forLoop _ _ _ none, h, _
  | function _ _ none, h, _ => by simp [isStatement, isBody] at h
  | ret value, h, hl => by
      simp only [isStatement, Bool.or_eq_true] at h
      refine .ret fun hgap => ?_
      rcases h with hvalue | hvalue
      · exact legible_of_isExpr value hvalue hl
      · rw [hgap] at hvalue
        cases hvalue

theorem legible_of_areStatements : ∀ ss : List Node, areStatements ss = true →
    Labels.shown.MeetsAll ss → ∀ s ∈ ss, Legible s
  | [], _, _ => by simp
  | s :: ss, h, hl => by
      simp only [areStatements, Bool.and_eq_true] at h
      exact List.forall_mem_cons.mpr
        ⟨legible_of_isStatement s h.1 hl.1, legible_of_areStatements ss h.2 hl.2⟩

end

end Node

theorem legible_of_parseSource {source : Bytes} {ss : List Node}
    (hfree : hasQuotedName source = false) (h : parseSource source = .ok ss) :
    (Node.program ss).Legible := by
  obtain ⟨hstatements, hmeets⟩ := parse_sound (tokens_shown hfree) h
  exact .program (Node.legible_of_areStatements ss hstatements hmeets)

/-! ## Texts of programs -/

/-- Programs of sources without names in backticks have S-expressions, and these are the same text
only for the same program. -/
theorem text_determines_program {source source' : Bytes} {ss ss' : List Node}
    (hfree : hasQuotedName source = false) (hfree' : hasQuotedName source' = false)
    (h : parseSource source = .ok ss) (h' : parseSource source' = .ok ss') :
    ∃ text text', (Node.program ss).render = .ok text ∧ (Node.program ss').render = .ok text' ∧
      (text = text' ↔ ss = ss') := by
  have hlegible := legible_of_parseSource hfree h
  have hlegible' := legible_of_parseSource hfree' h'
  refine ⟨_, _, hlegible.render_eq, hlegible'.render_eq, fun htext => ?_, fun hsame => ?_⟩
  · exact Node.program.inj (hlegible.eq_of_text hlegible' htext)
  · rw [hsame]

/-- Two loops, one over a range and one over its stop, with a bare and a full `return`. -/
theorem text_determines_program_loops :
    let source : Bytes := "for (i in 1:n) return"
    let source' : Bytes := "for (i in n) return(-0.10)"
    let ss : List Node := [.forLoop "i" (.int "1") (.var "n") (some [.ret .gap])]
    let ss' : List Node := [.forLoop "i" .gap (.var "n")
      (some [.ret (.unary "-" (.float (.finite false 7205759403792794 (-56))))])]
    hasQuotedName source = false ∧ hasQuotedName source' = false ∧
      parseSource source = .ok ss ∧ parseSource source' = .ok ss' ∧
      ∃ text text', (Node.program ss).render = .ok text ∧ (Node.program ss').render = .ok text' ∧
        (text = text' ↔ ss = ss') := by
  intro source source' ss ss'
  have hfree : hasQuotedName source = false := rfl
  have hfree' : hasQuotedName source' = false := rfl
  have hparse : parseSource source = .ok ss := rfl
  have hparse' : parseSource source' = .ok ss' := rfl
  exact ⟨hfree, hfree', hparse, hparse', text_determines_program hfree hfree' hparse hparse'⟩

end RToJulia
