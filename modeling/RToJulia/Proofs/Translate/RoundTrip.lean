import RToJulia.Proofs.Grammar.Forms
import RToJulia.Proofs.Julia.Common
import RToJulia.Proofs.Token.Cutting

/-! # Reading a translation

The text of a program in the common fragment is a source again, and its tokens are
known from the trees. Parentheses keep each operator apart from those around it, and
blanks keep it from growing. Reading the tokens gives the trees back with `&` and `|`
spelled twice, so a translation is its own translation.
-/

namespace RToJulia

open Grammar Julia Lexer Text

namespace Node

/-! ## The tokens of a text -/

def symbol (line : Nat) (kind : Kind) (lexeme : Bytes) : Token := ⟨kind, lexeme, line, none⟩

mutual

def juliaTokens (line : Nat) : Node → List Token
  | var x => [nameToken line x]
  | int digits => [⟨.integer, digits, line, some (.text digits)⟩]
  | bool value => [nameToken line (if value then "true" else "false")]
  | unary op operand =>
      symbol line .leftParen "(" :: symbol line (Canonical.sign op).kind op ::
        juliaTokens line operand ++ [symbol line .rightParen ")"]
  | binary op left right =>
      symbol line .leftParen "(" :: (juliaTokens line left ++
        symbol line (Canonical.operator (writtenOperator op)).kind (writtenOperator op) ::
          juliaTokens line right) ++ [symbol line .rightParen ")"]
  | index target i =>
      juliaTokens line target ++ symbol line .leftBracket "[" :: juliaTokens line i ++
        [symbol line .rightBracket "]"]
  | call f args =>
      nameToken line f :: symbol line .leftParen "(" ::
        [symbol line .comma ","].intercalate (juliaTokensAll line args) ++
          [symbol line .rightParen ")"]
  | assign x value => nameToken line x :: symbol line .equal "=" :: juliaTokens line value
  | assignIndex target i value =>
      juliaTokens line target ++ symbol line .leftBracket "[" :: juliaTokens line i ++
        [symbol line .rightBracket "]"] ++ symbol line .equal "=" :: juliaTokens line value
  | _ => []

def juliaTokensAll (line : Nat) : List Node → List (List Token)
  | [] => []
  | n :: ns => juliaTokens line n :: juliaTokensAll line ns

end

theorem juliaTokensAll_eq_map (line : Nat) (ns : List Node) :
    juliaTokensAll line ns = ns.map (juliaTokens line) := by
  induction ns with
  | nil => rw [juliaTokensAll, List.map_nil]
  | cons n ns ih => rw [juliaTokensAll, ih, List.map_cons]

namespace Common

variable {assigns : Bool} {e : Node}

/-! ## Cutting the text -/

theorem cutsInto (h : Common assigns e) (line : Nat) :
    CutsInto line (juliaText e) (juliaTokens line e) := by
  induction h with
  | var name =>
      rw [juliaText, juliaTokens]
      exact cutsInto_name (isFreeName_spec name).1
  | int nonempty all =>
      rw [juliaText, juliaTokens]
      exact cutsInto_digits nonempty all
  | bool value =>
      rw [juliaText, juliaTokens]
      exact cutsInto_name (by cases value <;> decide)
  | @unary assigns op operand sign inner ih =>
      obtain ⟨b, s, hs, hb⟩ := inner.lead
      have hequal : b ≠ 0x3d := by
        rintro rfl
        contradiction
      rw [hs] at ih
      have hcut := cutsInto_enclosed (o := 0x28) rfl (c := 0x29) rfl rfl
        (cutsInto_sign sign hequal ih)
      have htext : juliaText (Node.unary op operand) = 0x28 :: (op ++ b :: s ++ [0x29]) := by
        simp only [juliaText, hs, List.append_assoc]
        rfl
      rw [htext, juliaTokens]
      exact hcut
  | @binary assigns op left right p level range first second ihfirst ihsecond =>
      have hop := cutsInto_operator ((operatorLevel?_written op).trans level) ihsecond
      have hcut := cutsInto_enclosed (o := 0x28) rfl (c := 0x29) rfl rfl (ihfirst.append rfl hop)
      have htext : juliaText (Node.binary op left right) = 0x28 :: (juliaText left ++ 0x20 ::
          (writtenOperator op ++ 0x20 :: juliaText right) ++ [0x29]) := by
        simp only [juliaText, List.append_assoc, List.cons_append]
        rfl
      rw [htext, juliaTokens]
      exact hcut
  | @index assigns target i base key ihbase ihkey =>
      have hcut := ihbase.append rfl (cutsInto_enclosed (o := 0x5b) rfl (c := 0x5d) rfl rfl ihkey)
      have htext : juliaText (Node.index target i) =
          juliaText target ++ 0x5b :: (juliaText i ++ [0x5d]) := by
        simp only [juliaText, List.append_assoc]
        rfl
      rw [htext, juliaTokens, List.append_assoc]
      exact hcut
  | @call assigns f args name ordinary test all ih =>
      have hcut := (cutsInto_name (isFreeName_spec name).1).append rfl
        (cutsInto_enclosed (o := 0x28) rfl (c := 0x29) rfl rfl (cutsInto_separated ih))
      have htext : juliaText (Node.call f args) =
          f ++ 0x28 :: ((utf8 ", ").intercalate (args.map juliaText) ++ [0x29]) := by
        simp only [juliaText, juliaTexts_eq_map, List.append_assoc]
        rfl
      rw [htext, juliaTokens, juliaTokensAll_eq_map]
      exact hcut
  | @assign x value name result ih =>
      have hcut := (cutsInto_name (isFreeName_spec name).1).append rfl (cutsInto_equal ih)
      have htext : juliaText (Node.assign x value) =
          x ++ 0x20 :: 0x3d :: 0x20 :: juliaText value := by
        simp only [juliaText, List.append_assoc]
        rfl
      rw [htext, juliaTokens]
      exact hcut
  | @assignIndex target i value base key result ihbase ihkey ihresult =>
      have hcut := (ihbase.append rfl
        (cutsInto_enclosed (o := 0x5b) rfl (c := 0x5d) rfl rfl ihkey)).append rfl
          (cutsInto_equal ihresult)
      have htext : juliaText (Node.assignIndex target i value) =
          juliaText target ++ 0x5b :: (juliaText i ++ [0x5d]) ++ 0x20 :: 0x3d :: 0x20 ::
            juliaText value := by
        simp only [juliaText, List.append_assoc, List.cons_append]
        rfl
      rw [htext, juliaTokens, List.append_assoc (juliaTokens line target)]
      exact hcut

/-! ## The tokens one by one -/

theorem nameToken_truth (line : Nat) (value : Bool) :
    nameToken line (if value then "true" else "false") =
      ⟨.bool, if value then "true" else "false", line, some (.truth value)⟩ := by
  cases value <;> rfl

theorem operator_symbol_level (line : Nat) {op : Bytes} {p : Nat} (h : operatorLevel? op = some p) :
    Grammar.level? (symbol line (Canonical.operator (writtenOperator op)).kind
      (writtenOperator op)).kind = some p := by
  obtain ⟨entry, -, -, hkind, hlevel⟩ := operator_of_level ((operatorLevel?_written op).trans h)
  exact (congrArg Grammar.level? hkind).trans hlevel

theorem separated_bare {comma : Token} {items : List (List Token)}
    (hcomma : isBareToken comma = true) (h : ∀ item ∈ items, item.all isBareToken = true) :
    ([comma].intercalate items).all isBareToken = true := by
  induction items with
  | nil => rfl
  | cons item items ih =>
      have hitem := h item (by simp)
      have hrest := ih fun i hi => h i (by simp [hi])
      cases items with
      | nil => simpa using hitem
      | cons second items =>
          simp [List.intercalate_cons_cons, List.all_append, hitem, hcomma, hrest]

theorem juliaTokens_bare (h : Common assigns e) (line : Nat) :
    (juliaTokens line e).all isBareToken = true := by
  have hsymbols : ∀ kind lexeme, kind ∈ [Kind.leftParen, .rightParen, .leftBracket, .rightBracket,
      .comma, .equal, .bang, .minus] → isBareToken (symbol line kind lexeme) = true := by
    intro kind lexeme hk
    simp only [List.mem_cons, List.not_mem_nil, or_false] at hk
    rcases hk with rfl | rfl | rfl | rfl | rfl | rfl | rfl | rfl <;> rfl
  have hname : ∀ x, isFreeName x = true → isBareToken (nameToken line x) = true := by
    intro x hx
    simp [isBareToken, isTyped, (isFreeName_spec hx).2]
  induction h with
  | var name => simp [juliaTokens, hname _ name]
  | int => rfl
  | bool value =>
      rw [juliaTokens, nameToken_truth]
      rfl
  | @unary assigns op operand sign inner ih =>
      have hsign : isBareToken (symbol line (Canonical.sign op).kind op) = true := by
        rcases Canonical.sign_kind op with hk | hk <;> rw [hk] <;> exact hsymbols _ _ (by simp)
      simp [juliaTokens, ih, hsign, hsymbols]
  | @binary assigns op left right p level range first second ihfirst ihsecond =>
      have hop := isBareToken_of_level (operator_symbol_level line level)
      simp [juliaTokens, ihfirst, ihsecond, hop, hsymbols]
  | index base key ihbase ihkey => simp [juliaTokens, ihbase, ihkey, hsymbols]
  | @call assigns f args name ordinary test all ih =>
      have hargs : ([symbol line .comma ","].intercalate (args.map (juliaTokens line))).all
          isBareToken = true := by
        apply separated_bare rfl
        intro item hitem
        obtain ⟨a, ha, rfl⟩ := List.mem_map.mp hitem
        exact ih a ha
      simp [juliaTokens, juliaTokensAll_eq_map, hargs, hname _ name, hsymbols]
  | assign name result ih => simp [juliaTokens, ih, hname _ name, hsymbols]
  | assignIndex base key result ihbase ihkey ihresult =>
      simp [juliaTokens, ihbase, ihkey, ihresult, hsymbols]

/-- The text begins with a token that closes no arguments. -/
theorem juliaTokens_front (h : Common assigns e) (line : Nat) :
    ∃ s mid, juliaTokens line e = s :: mid ∧ BeginsExpr s ∧ s.kind ≠ .rightParen := by
  have hfront : ∃ s mid, juliaTokens line e = s :: mid ∧ s.kind ≠ .rightParen := by
    induction h with
    | var name | call name | assign name =>
        rw [juliaTokens]
        exact ⟨_, _, rfl, by simp [(isFreeName_spec name).2]⟩
    | bool value =>
        rw [juliaTokens, nameToken_truth]
        exact ⟨_, _, rfl, nofun⟩
    | int | unary | binary =>
        rw [juliaTokens]
        exact ⟨_, _, rfl, nofun⟩
    | index base key ihbase | assignIndex base key result ihbase =>
        obtain ⟨s, mid, hs, hk⟩ := ihbase
        rw [juliaTokens, hs]
        exact ⟨s, _, rfl, hk⟩
  obtain ⟨s, mid, hs, hk⟩ := hfront
  have hbare := List.all_eq_true.mp (h.juliaTokens_bare line) s (by simp [hs])
  exact ⟨s, mid, hs, isBareToken.begins hbare, hk⟩

/-- Only an assignment begins as a named argument does. -/
theorem juliaTokens_unnamed (h : Common assigns e) (hassigns : assigns = false) (line : Nat)
    {t : Token} (ht : t.kind ≠ .equal) (rest : List Token) :
    startsNamed (juliaTokens line e ++ t :: rest) = false := by
  induction h generalizing t rest with
  | var name =>
      rw [juliaTokens]
      simp [startsNamed, ht]
  | bool value =>
      rw [juliaTokens, nameToken_truth]
      apply startsNamed_of_ne
      simp
  | int | unary | binary =>
      rw [juliaTokens]
      apply startsNamed_of_ne
      simp [symbol]
  | index base key ihbase =>
      rw [juliaTokens]
      simpa using ihbase rfl (t := symbol line .leftBracket "[") (by simp [symbol]) _
  | call =>
      rw [juliaTokens]
      simp [startsNamed, symbol]
  | assign | assignIndex => contradiction

/-! ## Reading the tokens -/

/-- The tokens are read as the tree, and as a target where no assignment may stand. -/
def RecoversIn (assigns : Bool) (e : Node) (ts : List Token) : Prop :=
  if assigns then RecoversWhole e ts else RecoversTarget e ts

theorem recoversIn_of_target {ts : List Token} (h : RecoversTarget e ts) :
    RecoversIn assigns e ts := by
  cases assigns with
  | false => exact h
  | true => exact h.whole

/-- The tokens of the text are read as the tree with `&` and `|` spelled twice. -/
theorem recoversIn (h : Common assigns e) (line : Nat) :
    RecoversIn assigns e.doubled (juliaTokens line e) := by
  induction h with
  | @var assigns x name =>
      apply recoversIn_of_target
      have hvar := recoversTarget_var ((isFreeName_spec name).2 line)
      rw [nameToken_lexeme] at hvar
      rw [juliaTokens]
      exact hvar
  | int nonempty all =>
      apply recoversIn_of_target
      rw [juliaTokens]
      exact recoversTarget_literal rfl
  | bool value =>
      apply recoversIn_of_target
      rw [juliaTokens, nameToken_truth]
      exact recoversTarget_literal rfl
  | @unary assigns op operand sign inner ih =>
      apply recoversIn_of_target
      have hsign : (symbol line (Canonical.sign op).kind op).kind = .bang ∨
          (symbol line (Canonical.sign op).kind op).kind = .minus := Canonical.sign_kind op
      have hnewline : (symbol line (Canonical.sign op).kind op).kind ≠ .newline := by
        rcases hsign with h | h <;> simp [h]
      have hwhole := (recoversOperand_unary hsign (RecoversTarget.operand ih)).whole (by simp)
      rw [juliaTokens, Node.doubled]
      exact recoversTarget_group rfl hnewline rfl hwhole
  | @binary assigns op left right p level range first second ihfirst ihsecond =>
      apply recoversIn_of_target
      have hp := (operatorLevel?_ne level).1
      have hright : 0 < leastRight p := by
        unfold leastRight
        split <;> omega
      have hwhole := (recoversOperand_binary (operator_symbol_level line level)
        (RecoversTarget.operand ihfirst) (RecoversTarget.operand ihsecond)).whole
          ⟨hp, trivial, trivial, hright, by simp⟩
      obtain ⟨s, mid, hs, hbegins, -⟩ := first.juliaTokens_front line
      rw [juliaTokens, Node.doubled]
      rw [hs] at hwhole ⊢
      exact recoversTarget_group rfl hbegins.newline rfl hwhole
  | index base key ihbase ihkey =>
      apply recoversIn_of_target
      rw [juliaTokens, Node.doubled]
      exact recoversTarget_index rfl rfl ihbase ihkey
  | @call assigns f args name ordinary test all ih =>
      apply recoversIn_of_target
      have htest : isTypeTest f (args.map Node.doubled) = false := by
        have hdoubled := (Common.call name ordinary test all : Common false _).doubled
        rw [Node.doubled, doubledAll_eq_map] at hdoubled
        cases hdoubled with
        | call _ _ test _ => exact test
      have hitems : ∀ a ∈ args, RecoversItem (fun n => (rules n).arg) a.doubled
          (juliaTokens line a) := by
        intro a ha
        obtain ⟨s, mid, hs, hbegins, hparen⟩ := (all a ha).juliaTokens_front line
        exact RecoversTarget.item ⟨s, mid, hs, hbegins.newline, hparen⟩
          (fun t rest ht => (all a ha).juliaTokens_unnamed rfl line ht rest) (ih a ha)
      have hlexeme := nameToken_lexeme line f
      rw [juliaTokens, Node.doubled, doubledAll_eq_map, juliaTokensAll_eq_map]
      rw [← hlexeme] at htest
      have hcall := recoversTarget_call (o := symbol line .leftParen "(")
        ((isFreeName_spec name).2 line) rfl (rfl : (symbol line .comma ",").kind = .comma)
        (rfl : (symbol line .rightParen ")").kind = .rightParen) htest hitems
      rw [hlexeme] at hcall
      exact hcall
  | @assign x value name result ih =>
      have htarget := recoversTarget_var ((isFreeName_spec name).2 line)
      rw [nameToken_lexeme] at htarget
      rw [juliaTokens, Node.doubled]
      exact recoversWhole_assignment (.inr rfl) rfl htarget ih
  | assignIndex base key result ihbase ihkey ihresult =>
      rw [juliaTokens, Node.doubled]
      exact recoversWhole_assignment (.inr rfl) rfl (recoversTarget_index rfl rfl ihbase ihkey)
        ihresult

end Common

/-! ## Programs -/

def programText (es : List Node) : Bytes :=
  (utf8 "\n").intercalate (es.map juliaText)

def programTokens (line : Nat) : List Node → List Token
  | [] => [Token.eof line]
  | [e] => juliaTokens line e ++ [Token.eof line]
  | e :: d :: es =>
      juliaTokens line e ++ symbol line .newline "\n" :: programTokens (line + 1) (d :: es)

section Programs

variable {es : List Node}

theorem eventsFrom_programText (h : ∀ e ∈ es, Common true e) (line : Nat) :
    eventsFrom line (programText es) = (programTokens line es).map .token := by
  induction es generalizing line with
  | nil => rfl
  | cons e es ih =>
      have hcut := (h e (by simp)).cutsInto line
      have hmore := ih fun d hd => h d (by simp [hd])
      cases es with
      | nil =>
          have htext : programText [e] = juliaText e ++ [] := by simp [programText]
          rw [htext, hcut [] (by simp [EndsWord]), programTokens, List.map_append]
          rfl
      | cons d es =>
          have htext : programText (e :: d :: es) =
              juliaText e ++ 0x0a :: programText (d :: es) := by
            simp only [programText, List.map_cons, List.intercalate_cons_cons, List.append_assoc]
            rfl
          have hhead : (programText (d :: es)).head? ≠ some 0x0a := by
            obtain ⟨b, s, hs, hb⟩ := (h d (by simp)).lead
            have hfirst : ∃ left, programText (d :: es) = b :: left := by
              cases es <;> simp [programText, hs, List.intercalate_cons_cons]
            obtain ⟨left, hleft⟩ := hfirst
            rw [hleft]
            rintro ⟨⟩
            contradiction
          rw [htext, hcut _ (endsWord_cons rfl _), eventsFrom_newline hhead, hmore]
          rw [programTokens, List.map_append]
          rfl

theorem programTokens_kind (h : ∀ e ∈ es, Common true e) (line : Nat) :
    ∀ t ∈ programTokens line es, t.kind ≠ .kwFunction := by
  induction es generalizing line with
  | nil => simp [programTokens, Token.eof]
  | cons e es ih =>
      have hfirst : ∀ t ∈ juliaTokens line e, t.kind ≠ .kwFunction := by
        intro t ht hk
        have hbare := List.all_eq_true.mp ((h e (by simp)).juliaTokens_bare line) t ht
        simp [isBareToken, hk] at hbare
      have hmore := ih (fun d hd => h d (by simp [hd])) (line + 1)
      intro t ht
      cases es with
      | nil =>
          rcases List.mem_append.mp ht with ht | ht
          · exact hfirst t ht
          · simp [List.mem_singleton.mp ht, Token.eof]
      | cons d es =>
          rcases List.mem_append.mp ht with ht | ht
          · exact hfirst t ht
          · rcases List.mem_cons.mp ht with rfl | ht
            · simp [symbol]
            · exact hmore t ht

theorem startsDeclaration_programTokens (h : ∀ e ∈ es, Common true e) (line : Nat) :
    startsDeclaration (programTokens line es) = false := by
  rw [← Bool.not_eq_true]
  intro hstart
  obtain ⟨t, ht, hk⟩ := startsDeclaration_mem hstart
  exact programTokens_kind h line t ht hk

/-- Statements are read one by one, each up to the end of its line. -/
theorem statements_programTokens (h : ∀ e ∈ es, Common true e) (line : Nat) :
    ∃ left, ∀ n, ((rules n).statements .eof (programTokens line es)).Answers
      (es.map fun e => asStatement e.doubled) left := by
  induction es generalizing line with
  | nil => exact ⟨_, statements_eof rfl⟩
  | cons e es ih =>
      have hdeclaration := startsDeclaration_programTokens h line
      have hwhole : RecoversWhole e.doubled (juliaTokens line e) := (h e (by simp)).recoversIn line
      obtain ⟨s, mid, hs, hbegins, -⟩ := (h e (by simp)).juliaTokens_front line
      rw [hs] at hwhole
      cases es with
      | nil =>
          have hends : EndsWhole (Token.eof line) := endsWhole_of_mem (by simp [Token.eof])
          rw [programTokens, hs] at hdeclaration ⊢
          exact ⟨_, statements_expr hbegins hwhole hends hdeclaration (statements_eof rfl)⟩
      | cons d es =>
          have hends : EndsWhole (symbol line .newline "\n") := endsWhole_of_mem (by simp [symbol])
          obtain ⟨left, hmore⟩ := ih (fun c hc => h c (by simp [hc])) (line + 1)
          rw [programTokens, hs] at hdeclaration ⊢
          exact ⟨left, statements_expr hbegins hwhole hends hdeclaration
            (statements_newline rfl hmore)⟩

/-- The text of a program is cut without faults and read as the program with `&` and `|` spelled
twice. -/
theorem parseSource_programText (h : ∀ e ∈ es, Common true e) :
    lexFaults (programText es) = [] ∧
      parseSource (programText es) = .ok (es.map fun e => asStatement e.doubled) := by
  have hscan : scan (programText es) = (programTokens 1 es).map .token := by
    rw [scan_eq_eventsFrom, eventsFrom_programText h]
  have htokens : tokens (programText es) = programTokens 1 es := by
    rw [tokens, hscan, List.filterMap_map]
    exact List.filterMap_some
  refine ⟨?_, ?_⟩
  · rw [lexFaults, hscan, List.filterMap_map]
    exact List.filterMap_eq_nil_iff.mpr fun _ _ => rfl
  · obtain ⟨left, hread⟩ := statements_programTokens h 1
    have hreadable := tokens_readable (programText es)
    rw [parseSource]
    rw [htokens] at hreadable ⊢
    exact parse_of_answers hreadable hread

end Programs

/-! ## Statements of the fragment -/

theorem Common.mono {assigns : Bool} {e : Node} (h : Common assigns e) : Common true e := by
  cases h with
  | var name => exact .var name
  | int nonempty all => exact .int nonempty all
  | bool value => exact .bool value
  | unary sign inner => exact .unary sign inner
  | binary level range first second => exact .binary level range first second
  | index base key => exact .index base key
  | call name ordinary test all => exact .call name ordinary test all
  | assign name result => exact .assign name result
  | assignIndex base key result => exact .assignIndex base key result

theorem common_of_statement {s : Node} (h : isCommonStatement s = true)
    (hshape : isStatement s = true) (hlabels : Labels.written.Meets s) :
    ∃ e, Common true e ∧ asStatement e = s := by
  cases s with
  | exprStmt e =>
      simp only [isStatement, Bool.and_eq_true] at hshape
      have hcommon := common_of_isCommon false e h hshape.1 hlabels
      refine ⟨e, hcommon.mono, ?_⟩
      cases hcommon <;> rfl
  | assign x value => exact ⟨_, common_of_isCommon true (assign x value) h hshape hlabels, rfl⟩
  | assignIndex target i value =>
      exact ⟨_, common_of_isCommon true (assignIndex target i value) h hshape hlabels, rfl⟩
  | _ => contradiction

theorem common_of_statements {ss : List Node} (h : ∀ s ∈ ss, isCommonStatement s = true)
    (hss : Labels.written.Statements ss) :
    ∃ es : List Node, ss = es.map asStatement ∧ ∀ e ∈ es, Common true e := by
  have hshape := (areStatements_iff ss).mp hss.1
  have hlabels := (Labels.written.meetsAll_iff ss).mp hss.2
  clear hss
  induction ss with
  | nil => exact ⟨[], rfl, by simp⟩
  | cons s ss ih =>
      obtain ⟨e, he, rfl⟩ := common_of_statement (h s (by simp)) (hshape s (by simp))
        (hlabels s (by simp))
      obtain ⟨es, rfl, hes⟩ := ih (fun t ht => h t (by simp [ht])) (fun t ht => hshape t (by simp [ht]))
        (fun t ht => hlabels t (by simp [ht]))
      exact ⟨e :: es, rfl, by simpa using ⟨he, hes⟩⟩

theorem asStatement_doubled (e : Node) : (asStatement e).doubled = asStatement e.doubled := by
  cases e <;> rfl

/-- A program of the fragment is written as its text, whatever the options, and its session
stays as it was. -/
theorem generate_programText (o : Options) {session : Session} (hsession : session.packages = [])
    {es : List Node} (h : ∀ e ∈ es, Common true e) :
    session.generate o (es.map asStatement) = .ok (.ok (programText es), session) := by
  have hstatement : ∀ e ∈ es, Gives (write o (asStatement e) 0) (juliaText e) := by
    intro e he
    have hwrite := write_common (h e he) o 0
    unfold asStatement
    split
    · exact hwrite
    · exact hwrite
    · rw [write]
      exact hwrite.unlessRefused
  have hnonempty : (es.map juliaText).filter (· ≠ []) = es.map juliaText := by
    rw [List.filter_eq_self]
    intro text htext
    obtain ⟨e, he, rfl⟩ := List.mem_map.mp htext
    obtain ⟨b, s, hs, -⟩ := (h e he).lead
    simp [hs]
  have hprogram : Gives (writeProgram o (es.map asStatement)) (es.map juliaText) := by
    have hall := Gives.mapM hstatement
    unfold writeProgram
    rw [List.mapM_map]
    refine hall.bind ?_
    rw [hnonempty]
    exact Gives.pure _
  have hdefinitions : session.start.fresh.mapM (recordDefinition o) session.start =
      .ok ([], session.start) := rfl
  have hjoined : joinLines (Package.header session.start.packages :: [] ++ es.map juliaText) =
      programText es := by
    have hheader : Package.header session.start.packages = [] := by
      change Package.header session.packages = []
      rw [hsession]
      rfl
    rw [hheader]
    unfold joinLines joinNonempty programText
    simp only [List.cons_append, List.nil_append]
    rw [List.filter_cons_of_neg (by simp), hnonempty]
  rw [Session.generate_written (hprogram session.start rfl) rfl hdefinitions, hjoined]
  rfl

end Node

open Node

/-- A program of the common fragment is written as a text that is cut without faults and read as
the same program with `&` and `|` spelled twice. The text is its own translation. -/
theorem translate_reads_back (o : Options) (source : Bytes) (ss : List Node)
    (h : parseSource source = .ok ss) (hss : ∀ s ∈ ss, s.isCommonStatement = true) :
    ∃ text,
      (∀ session : Session, session.packages = [] →
        session.generate o ss = .ok (.ok text, session)) ∧
      lexFaults text = [] ∧ parseSource text = .ok (ss.map doubled) ∧
      translate o source = .ok (.ok text) ∧ translate o text = .ok (.ok text) := by
  obtain ⟨es, rfl, hes⟩ := common_of_statements hss (parse_sound (tokens_written source) h)
  have hdoubled : ∀ e ∈ es.map doubled, Common true e := by
    intro d hd
    obtain ⟨e, he, rfl⟩ := List.mem_map.mp hd
    exact (hes e he).doubled
  have htext : programText (es.map doubled) = programText es := by
    unfold programText
    rw [List.map_map]
    exact congrArg _ (List.map_congr_left fun e he => (hes e he).juliaText_doubled)
  have htrees : (es.map asStatement).map doubled = (es.map doubled).map asStatement := by
    simp only [List.map_map]
    exact List.map_congr_left fun e _ => asStatement_doubled e
  obtain ⟨hfaults, hparse⟩ := parseSource_programText hes
  have hreads : parseSource (programText es) = .ok ((es.map asStatement).map doubled) := by
    rw [hparse, htrees, List.map_map]
    rfl
  refine ⟨programText es, fun session hs => generate_programText o hs hes, hfaults, hreads, ?_, ?_⟩
  · unfold translate
    rw [h]
    simp only [generate_programText o (rfl : ({} : Session).packages = []) hes]
  · unfold translate
    rw [hreads, htrees]
    simp only [generate_programText o (rfl : ({} : Session).packages = []) hdoubled, htext]

/-- Assignments in a chain and in an index, with operators that would grow without blanks. -/
theorem translate_reads_back_chain :
    let source : Bytes := "x <- y[k <- 1] <- f(a & !b, a < -c)\nz | TRUE"
    let ss : List Node := [
      .assign "x" (.assignIndex (.var "y") (.assign "k" (.int "1")) (.call "f" [
        .binary "&" (.var "a") (.unary "!" (.var "b")),
        .binary "<" (.var "a") (.unary "-" (.var "c"))])),
      .exprStmt (.binary "|" (.var "z") (.bool true))]
    let text : Bytes := "x = y[k = 1] = f((a && (!b)), (a < (-c)))\n(z || true)"
    parseSource source = .ok ss ∧ (∀ s ∈ ss, s.isCommonStatement = true) ∧
      translate {} source = .ok (.ok text) ∧ lexFaults text = [] ∧
      parseSource text = .ok (ss.map doubled) ∧ translate {} text = .ok (.ok text) := by
  intro source ss text
  have hparse : parseSource source = .ok ss := by rfl
  have hcommon : ∀ s ∈ ss, s.isCommonStatement = true := by decide
  obtain ⟨written, -, hfaults, hreads, hsource, hagain⟩ :=
    translate_reads_back {} source ss hparse hcommon
  have htext : written = text := by
    have hrun : translate {} source = .ok (.ok text) := by
      unfold translate
      rw [hparse]
      rfl
    simpa using hsource.symm.trans hrun
  subst htext
  exact ⟨hparse, hcommon, hsource, hfaults, hreads, hagain⟩

end RToJulia
