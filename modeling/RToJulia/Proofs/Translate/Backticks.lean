import RToJulia.Proofs.Grammar.Agreement
import RToJulia.Proofs.Julia.Backticks
import RToJulia.Proofs.Token.Seams
import RToJulia.Proofs.Translate.Operands

/-! # A name put into backticks

A plain name of a source may be put into backticks: the tokens vary in this name only, so
the program is the same up to backticks. The text is the same as well where the name is a
variable, an assigned name, the variable of an iteration or the name of a function. A
parameter, a called function, the name of an argument and a field are written with the
backticks, so for them it is another text. And a backtick that stood alone before the name
can be closed by the first of the new ones.
-/

namespace RToJulia

open Text Julia Node Grammar

/-! ## Trees -/

/-- The same name, or a plain one that is no type test and the same in backticks. -/
inductive Requoted : Bytes → Bytes → Prop
  | same (x : Bytes) : Requoted x x
  | quoted {x : Bytes} (plain : isPlainName x = true) (test : Predicate.ofName? x = none) :
      Requoted x (0x60 :: x ++ [0x60])

theorem Requoted.inBackticks_eq {x y : Bytes} (h : Requoted x y) : inBackticks x = inBackticks y := by
  cases h with
  | same => rfl
  | quoted plain test => rw [inBackticks, inBackticks, unquote_quoted, unquote_plain plain]

theorem map_inBackticks_eq {ps qs : List Bytes} (h : List.Forall₂ Requoted ps qs) :
    ps.map inBackticks = qs.map inBackticks := by
  induction h with
  | nil => rfl
  | cons hx _ ih => rw [List.map_cons, List.map_cons, hx.inBackticks_eq, ih]

def Node.AlikeQuoted (n m : Node) : Prop :=
  quote inBackticks n = quote inBackticks m

theorem Node.AlikeQuoted.quote_eq {n m : Node} (h : AlikeQuoted n m) :
    quote inBackticks n = quote inBackticks m :=
  h

theorem quoteAll_eq_of_forall₂ {ns ms : List Node} (h : List.Forall₂ AlikeQuoted ns ms) :
    quoteAll inBackticks ns = quoteAll inBackticks ms := by
  induction h with
  | nil => rfl
  | cons hn _ ih => rw [quoteAll, quoteAll, hn, ih]

section Forms

variable (g : Bytes → Bytes)

theorem splitRange_quote (e : Node) :
    splitRange (quote g e) = (quote g (splitRange e).1, quote g (splitRange e).2) := by
  cases e with
  | function name params body =>
      simp only [quote, splitRange, declared]
      cases splitOperator? (inBackticks name) <;> rfl
  | binary op left right =>
      simp only [quote, splitRange]
      split <;> rfl
  | _ => rfl

theorem assignTo?_quote (target value : Node) :
    (assignTo? target value).map (quote g) = assignTo? (quote g target) (quote g value) := by
  cases target with
  | function =>
      exact (apply_declared (assignTo? · (quote g value)) (fun _ _ _ => rfl) (fun _ _ _ _ => rfl)
        _ _ _).symm
  | _ => rfl

theorem asStatement_quote (e : Node) : quote g (asStatement e) = asStatement (quote g e) := by
  cases e with
  | function name params body =>
      simp only [asStatement, quote, declared]
      cases splitOperator? (inBackticks name) <;> rfl
  | _ => rfl

theorem quote_declared {name : Bytes} (h : inBackticks name = name) (params : List Bytes)
    (body : Body) :
    quote g (declared name params body) = declared name (params.map g) (quoteBody g body) := by
  unfold declared
  cases hsplit : splitOperator? name with
  | none => simp only [quote, declared, h, hsplit]
  | some parts => rfl

end Forms

theorem ofName?_quoted (body : Bytes) : Predicate.ofName? (0x60 :: body ++ [0x60]) = none := rfl

theorem splitOperator?_plain {x : Bytes} (h : isPlainName x = true) : splitOperator? x = none := by
  have hhead : (x.head? == some 0x60) = false := by simpa using (isPlainName_spec h).2
  simp [splitOperator?, hhead]

theorem callTree_of_none {x : Bytes} (h : Predicate.ofName? x = none) (args : List Node) :
    callTree x args = .call x args := by
  unfold callTree
  rw [h]

theorem callTree_quoted {x y : Bytes} {as bs : List Node} (hxy : Requoted x y)
    (h : List.Forall₂ AlikeQuoted as bs) : AlikeQuoted (callTree x as) (callTree y bs) := by
  have hargs := quoteAll_eq_of_forall₂ h
  have hcall : AlikeQuoted (.call x as) (.call y bs) := by
    simp only [AlikeQuoted, quote, hargs, hxy.inBackticks_eq]
  cases hxy with
  | quoted plain test =>
      rwa [callTree_of_none test, callTree_of_none (ofName?_quoted _)]
  | same =>
      cases htest : Predicate.ofName? x with
      | none => rwa [callTree_of_none htest, callTree_of_none htest]
      | some test =>
          unfold callTree
          rw [htest]
          cases h with
          | nil => exact hcall
          | @cons a b as bs hab hrest =>
              cases hrest with
              | cons _ _ => exact hcall
              | nil =>
                  have hnamed : a.isNamed = b.isNamed := by
                    rw [← isNamed_quote inBackticks a, hab, isNamed_quote]
                  dsimp only
                  rw [hnamed]
                  split
                  · exact hcall
                  · exact congrArg (Node.predicate test) hab

theorem declarationTree_eq (x : Bytes) (ps : List Bytes) (ss : List Node) :
    declarationTree x ps ss = declared x ps (some ss) := by
  unfold declarationTree declared
  cases splitOperator? x <;> rfl

theorem declarationTree_quoted {x y : Bytes} {ps qs : List Bytes} {ss ss' : List Node}
    (hxy : Requoted x y) (hps : List.Forall₂ Requoted ps qs)
    (hss : List.Forall₂ AlikeQuoted ss ss') :
    AlikeQuoted (declarationTree x ps ss) (declarationTree y qs ss') := by
  have hparams := map_inBackticks_eq hps
  have hbody := quoteAll_eq_of_forall₂ hss
  rw [declarationTree_eq, declarationTree_eq, AlikeQuoted]
  cases hxy with
  | same =>
      unfold declared
      cases splitOperator? x <;> simp only [quote, quoteBody, hparams, hbody]
  | quoted plain test =>
      have hname : inBackticks (0x60 :: x ++ [0x60]) = 0x60 :: x ++ [0x60] := by
        rw [inBackticks, unquote_quoted]
      have hplain : declared x ps (some ss) = .function x ps (some ss) := by
        unfold declared
        rw [splitOperator?_plain plain]
      rw [quote_declared _ hname, hplain, quote, inBackticks, unquote_plain plain, hparams, quoteBody,
        quoteBody, hbody]

/-- Names may vary in their backticks, and the trees vary in them alone. -/
theorem builds_quoted : Builds Requoted AlikeQuoted := by
  constructor
  case literal => exact fun _ => rfl
  case bareRet => rfl
  case call => exact callTree_quoted
  case declaration => exact declarationTree_quoted
  case statement =>
    intro a b hab
    unfold AlikeQuoted at hab ⊢
    rw [asStatement_quote, hab, ← asStatement_quote]
  case assign =>
    intro a b c d hab hcd
    have heq := assignTo?_quote inBackticks a c
    rw [hab, hcd, ← assignTo?_quote] at heq
    cases ha : assignTo? a c <;> cases hb : assignTo? b d <;> rw [ha, hb] at heq
    · exact .none
    · cases heq
    · cases heq
    · exact .some (Option.some.inj heq)
  case forLoop =>
    intro x y a b ss ss' hx hab hss
    have hrange := splitRange_quote inBackticks a
    rw [hab, splitRange_quote, Prod.mk.injEq] at hrange
    simp only [AlikeQuoted, quote, quoteBody, hx.inBackticks_eq, hrange, quoteAll_eq_of_forall₂ hss]
  case var => exact fun hx => congrArg Node.var hx.inBackticks_eq
  case named => exact fun hx hab => congrArg₂ Node.named hx.inBackticks_eq hab
  case index => exact fun hab hij => congrArg₂ Node.index hab hij
  case field => exact fun hab hx => congrArg₂ Node.field hab hx.inBackticks_eq
  case unary => exact fun hab => congrArg (Node.unary _) hab
  case binary => exact fun hab hcd => congrArg₂ (Node.binary _) hab hcd
  case ret => exact fun hab => congrArg Node.ret hab
  case whileLoop =>
    exact fun hab hss => congrArg₂ Node.whileLoop hab (congrArg some (quoteAll_eq_of_forall₂ hss))
  case ifElse =>
    intro a b ss ss' hab hss
    simp only [AlikeQuoted, quote, quoteBody, quoteAll_eq_of_forall₂ hss, hab.quote_eq]
  case ifElseBoth =>
    intro a b ss ss' no no' hab hss hno
    simp only [AlikeQuoted, quote, quoteBody, quoteAll_eq_of_forall₂ hss,
      quoteAll_eq_of_forall₂ hno, hab.quote_eq]

/-! ## Tokens -/

theorem Lexed.literal_ident {t : Token} (h : Lexed t) (hk : t.kind = .ident) : t.literal = none := by
  cases h <;> first | rfl | cases hk

theorem isPlainName_head {x : Bytes} (h : isPlainName x = true) :
    ∃ b rest, x = b :: rest ∧ b < 0x80 ∧ b ≠ 0x0a := by
  cases x with
  | nil => contradiction
  | cons b rest =>
      simp only [isPlainName, Lexer.isNameStart, Bool.and_eq_true, Bool.or_eq_true,
        decide_eq_true_eq, beq_iff_eq, UInt8.le_iff_toNat_le, ← UInt8.toNat_inj,
        UInt8.reduceToNat] at h
      refine ⟨b, rest, rfl, ?_, ?_⟩
      · simp only [UInt8.lt_iff_toNat_lt, UInt8.reduceToNat]
        omega
      · simp only [ne_eq, ← UInt8.toNat_inj, UInt8.reduceToNat]
        omega

theorem isPlainName_quotable {x : Bytes} (h : isPlainName x = true) : IsQuotable x := by
  have hbytes : ∀ b ∈ x, Lexer.isNameByte b = true := by
    cases x with
    | nil => contradiction
    | cons b x =>
        simp only [isPlainName, Bool.and_eq_true, List.all_eq_true] at h
        intro c hc
        rcases List.mem_cons.mp hc with rfl | hc
        · simp [Lexer.isNameByte, h.1]
        · exact h.2 c hc
  refine ⟨?_, fun hb => ?_, fun hb => ?_⟩
  · rintro rfl
    contradiction
  · exact absurd (hbytes _ hb) (by decide)
  · exact absurd (hbytes _ hb) (by decide)

/-- A plain name in backticks changes the tokens of a source in this name alone. -/
theorem tokens_backticks {source : Bytes} {before after : List Piece} {t : Token}
    (hpieces : (pieces source).1 = before ++ .token t :: after) (hkind : t.kind = .ident)
    (hplain : isPlainName t.lexeme = true) (htest : Predicate.ofName? t.lexeme = none)
    (hlone : StayLone before) :
    Variant Requoted (tokens source) (tokens (before.flatMap Piece.text ++
      (0x60 :: t.lexeme ++ 0x60 :: after.flatMap Piece.text))) := by
  obtain ⟨ps, last, hcuts⟩ := exists_cuts 1 source
  obtain rfl : ps = before ++ .token t :: after := by
    rw [← hpieces, pieces, hcuts.pieces_eq]
  have hliteral : t.literal = none :=
    (tokens_lexed source t (by rw [hcuts.tokens_eq]; simp [Piece.token?])).literal_ident hkind
  obtain ⟨x, rest, hlexeme, hascii, hbreak⟩ := isPlainName_head hplain
  have hwhole := hcuts
  rw [← hcuts.spans.flatMap_text, List.flatMap_append, List.flatMap_cons, Piece.text, hlexeme,
    List.cons_append] at hwhole
  obtain ⟨l, hrest, hswap⟩ := hwhole.reseam hascii (c := 0x60) rfl (by simp [hbreak])
    (.inr ⟨rfl, hlone⟩)
  cases hrest with
  | @cons _ _ _ left _ _ first later =>
  obtain rfl : after.flatMap Piece.text = left := by
    have hsource := first.source_eq
    rw [Piece.text, hlexeme] at hsource
    simpa using hsource
  have hbreaks : Lexer.lineBreaks (.token t) = 0 := by simp [Lexer.lineBreaks, hkind]
  rw [hbreaks] at later
  have hquoted := hswap (t.lexeme ++ 0x60 :: after.flatMap Piece.text) _ last
    (.cons (.quoted _ (isPlainName_quotable hplain)) later)
  rw [hcuts.tokens_eq, List.cons_append, hquoted.tokens_eq]
  simp only [List.filterMap_append, List.append_assoc]
  have hsame (ts : List Token) : List.Forall₂ (Token.Varies Requoted) ts ts :=
    List.forall₂_same.mpr fun t _ => .refl .same t
  refine .append (hsame _) ?_
  refine .push ⟨hkind, fun hne => absurd hkind hne, fun _ => .quoted hplain htest, hliteral⟩ ?_
  exact .append (hsame _) (.eof rfl rfl [] [])

/-- The program of a source is the same up to backticks when a plain name is put into them. The text
is the same too, if the names that are written as they stand are. -/
theorem translate_backticks (o : Options) {source : Bytes} {before after : List Piece} {t : Token}
    {ss : List Node} (hpieces : (pieces source).1 = before ++ .token t :: after)
    (hkind : t.kind = .ident) (hplain : isPlainName t.lexeme = true)
    (htest : Predicate.ofName? t.lexeme = none) (hlone : StayLone before)
    (hparse : parseSource source = .ok ss) :
    ∃ ss', parseSource (before.flatMap Piece.text ++
        (0x60 :: t.lexeme ++ 0x60 :: after.flatMap Piece.text)) = .ok ss' ∧
      quoteAll inBackticks ss' = quoteAll inBackticks ss ∧
      (keptNamesAll ss' = keptNamesAll ss →
        translate o (before.flatMap Piece.text ++
          (0x60 :: t.lexeme ++ 0x60 :: after.flatMap Piece.text)) = translate o source) := by
  have hvariant := tokens_backticks hpieces hkind hplain htest hlone
  generalize before.flatMap Piece.text ++
    (0x60 :: t.lexeme ++ 0x60 :: after.flatMap Piece.text) = source' at hvariant ⊢
  rcases parse_variant builds_quoted hvariant (tokens_readable _) (tokens_readable _) with
    ⟨_, ss', hfirst, hsecond, halike⟩ | ⟨f, _, hfirst, -⟩
  · cases hfirst.symm.trans hparse
    have hquote := (quoteAll_eq_of_forall₂ halike).symm
    refine ⟨ss', hsecond, hquote, fun hkept => ?_⟩
    have hwritten := quoteAll_eq_of_keptNames hquote hkept
    have hgenerate : Session.generate o {} ss' = Session.generate o {} ss := by
      rw [← generate_quoteAll o {} (parse_wellFormed hsecond), hwritten,
        generate_quoteAll o {} (parse_wellFormed hfirst)]
    have hsecond : parseSource source' = .ok ss' := hsecond
    unfold translate
    simp only [hparse, hsecond, hgenerate]
  · cases hfirst.symm.trans hparse

theorem translate_backticks_body :
    parseSource "f <- function(x) x" = .ok [.function "f" ["x"] (some [.exprStmt (.var "x")])] ∧
      translate {} "f <- function(x) `x`" = .ok (.ok "function f(x)\n    x\nend") := by
  have hparse : parseSource "f <- function(x) x" =
      .ok [.function "f" ["x"] (some [.exprStmt (.var "x")])] := rfl
  have hpieces : (pieces "f <- function(x) x").1 =
      (pieces "f <- function(x) ").1 ++ .token ⟨.ident, "x", 1, none⟩ :: [] := rfl
  have hlone : StayLone (pieces "f <- function(x) ").1 := by
    intro before p after heq htext
    have hall : (pieces "f <- function(x) ").1.all (fun p => p.text != [0x60]) = true := rfl
    have hp := List.all_eq_true.mp hall p (by rw [heq]; simp)
    simp [htext] at hp
  obtain ⟨ss, hss, -, hsame⟩ := translate_backticks {} hpieces rfl rfl rfl hlone hparse
  refine ⟨hparse, ?_⟩
  have hquoted : parseSource "f <- function(x) `x`" =
      .ok [.function "f" ["x"] (some [.exprStmt (.var "`x`")])] := rfl
  cases hss.symm.trans hquoted
  exact hsame rfl

/-- Parameters, called functions, names of arguments and fields are written with their backticks, and
a backtick that stood alone is closed by another one. -/
theorem backticks_are_written :
    translate {} "f <- function(`x`) x" = .ok (.ok "function f(`x`)\n    x\nend") ∧
      translate {} "f <- function(x) x" = .ok (.ok "function f(x)\n    x\nend") ∧
      translate {} "`f`(1)" = .ok (.ok "`f`(1)") ∧ translate {} "f(1)" = .ok (.ok "f(1)") ∧
      translate {} "f(`k` = 1)" = .ok (.ok "f(; `k`=1)") ∧
      translate {} "f(k = 1)" = .ok (.ok "f(; k=1)") ∧
      translate {} "t$`a`" = .ok (.ok "t[\"`a`\"]") ∧ translate {} "t$a" = .ok (.ok "t[\"a\"]") ∧
      translate {} "`a `x`" = .ok (.ok "a \nx") ∧ translate {} "`a x" = .ok (.ok "a\nx") :=
  ⟨rfl, rfl, rfl, rfl, rfl, rfl, rfl, rfl, rfl, rfl⟩

end RToJulia
