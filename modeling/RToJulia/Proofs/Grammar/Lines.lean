import RToJulia.Proofs.Grammar.Follows

/-! # Reading lines in front of other lines

Tokens that are a program by themselves are read as the same statements when more lines
come instead of their end: each rule that takes a value from the first list takes the same
value from the second, and the statements of the later lines come behind.
-/

namespace RToJulia

namespace Grammar

open RToJulia.Grammar.Parser

variable {α β : Type}

/-! ## Two sets of rules -/

/-- The second rules take the values that the first take. Lists end before a closing token, so
nothing is asked of them where the first list is at its end. -/
structure Rules.Track (more : List Token) (r r' : Rules) : Prop where
  stops : r.Stops
  statements : ∀ {ts us}, Follows more ts us →
    (r.statements .rightBrace ts).Tracks more AtEnd Eq (r'.statements .rightBrace us)
  statement : ∀ {ts us}, Follows more ts us →
    (r.statement ts).Tracks more Nowhere Eq (r'.statement us)
  assignment : ∀ {ts us}, Follows more ts us →
    (r.assignment ts).Tracks more Nowhere Eq (r'.assignment us)
  binary : ∀ least {ts us}, Follows more ts us →
    (r.binary least ts).Tracks more Nowhere Eq (r'.binary least us)
  climb : ∀ least left {ts us}, Follows more ts us →
    (r.climb least left ts).Tracks more Nowhere Eq (r'.climb least left us)
  suffixes : ∀ e {ts us}, Follows more ts us →
    (r.suffixes e ts).Tracks more Nowhere Eq (r'.suffixes e us)
  args : ∀ {ts us}, Follows more ts us → (r.args ts).Tracks more AtEnd Eq (r'.args us)
  names : ∀ {ts us}, Follows more ts us → (r.names ts).Tracks more AtEnd Eq (r'.names us)

namespace Rules.Track

variable {more ts us : List Token} {r r' : Rules}

section Statements

variable (hmore : OnNewLine more) (h : Track more r r')

include hmore h

theorem block (hf : Follows more ts us) :
    (r.block ts).Tracks more Nowhere Eq (r'.block us) := by
  refine (skipNewlines_tracks hf).bind (fun _ rest hend => ?_) fun _ _ ts us _ hf => ?_
  · rw [hend.next rfl]
    exact (hend.refuses h.stops.statement).bind _
  · refine next_tracks hmore rfl hf ?_ ?_
    · rintro t u ts us rfl rfl hf
      refine (h.statements hf).orSkim.bind
        (fun _ rest hend => (expect_refuses_atEnd rfl hend).bind _) ?_
      rintro ss _ ts us rfl hf
      exact close_tracks hmore rfl _ hf
    · exact (h.statement hf).map _

theorem condition (hf : Follows more ts us) :
    (r.condition ts).Tracks more Nowhere Eq (r'.condition us) := by
  refine (expect_tracks hmore rfl hf).orSkim.andThen fun _ _ ts us _ hf => ?_
  refine (h.assignment hf).orSkim.andThen ?_
  rintro c _ ts us rfl hf
  exact close_tracks hmore rfl _ hf

theorem ifRule {t u : Token} (hf : Follows more ts us) :
    (r.ifRule (t :: ts)).Tracks more Nowhere Eq (r'.ifRule (u :: us)) := by
  unfold Rules.ifRule
  rw [bind_take, bind_take]
  refine (h.condition hmore hf).andThen ?_
  rintro c _ ts us rfl hf
  refine (h.block hmore hf).andThen ?_
  rintro yes _ ts us rfl hf
  rw [bind_ahead, bind_ahead, hf.elseFollows_eq hmore]
  cases elseFollows us with
  | false => exact Outcome.tracks_done rfl hf
  | true =>
      refine (skipNewlines_tracks hf).bind
        (fun _ rest hend => (expect_refuses_atEnd rfl hend).bind _) fun _ _ ts us _ hf => ?_
      refine (expect_tracks hmore rfl hf).andThen fun _ _ ts us _ hf => ?_
      exact (h.block hmore hf).map _

theorem whileRule {t u : Token} (hf : Follows more ts us) :
    (r.whileRule (t :: ts)).Tracks more Nowhere Eq (r'.whileRule (u :: us)) := by
  unfold Rules.whileRule
  rw [bind_take, bind_take]
  refine (h.condition hmore hf).andThen ?_
  rintro c _ ts us rfl hf
  exact (h.block hmore hf).map _

theorem forRule {t u : Token} (hf : Follows more ts us) :
    (r.forRule (t :: ts)).Tracks more Nowhere Eq (r'.forRule (u :: us)) := by
  unfold Rules.forRule
  dsimp only
  rw [bind_take, bind_take]
  refine (expect_tracks hmore rfl hf).orSkim.andThen fun _ _ ts us _ hf => ?_
  refine (expect_tracks hmore rfl hf).orSkim.andThen fun name name' ts us hname hf => ?_
  refine (expect_tracks hmore rfl hf).orSkim.andThen fun _ _ ts us _ hf => ?_
  refine (h.assignment hf).orSkim.andThen ?_
  rintro range _ ts us rfl hf
  refine (expect_tracks hmore rfl hf).andThen fun _ _ ts us _ hf => ?_
  refine (h.block hmore hf).andThen ?_
  rintro body _ ts us rfl hf
  rw [hname.lexeme]
  exact Outcome.tracks_done rfl hf

theorem returnRule {t u : Token} (hf : Follows more ts us) :
    (r.returnRule (t :: ts)).Tracks more Nowhere Eq (r'.returnRule (u :: us)) := by
  unfold Rules.returnRule
  rw [bind_take, bind_take]
  cases hf.fronts hmore with
  | @ends t u ts us _ first second =>
      have hbare : ∀ {k : Kind}, endsLine k = true →
          (decide (k = .eof) || k.isSeparator || decide (k = .rightBrace)) = true := by
        intro k hk
        cases k <;> first | rfl | contradiction
      rw [bind_peek, bind_peek, if_pos (hbare first), if_pos (hbare second)]
      exact Outcome.tracks_done rfl hf
  | @cons t u ts us alike ne later =>
      rw [bind_peek, bind_peek, ← alike.kind]
      split
      · exact Outcome.tracks_done rfl hf
      · exact (h.assignment hf).map _

theorem params (hf : Follows more ts us) :
    (r.params ts).Tracks more AtEnd Eq (r'.params us) := by
  refine (skipNewlines_tracks hf).bind (fun _ rest hend => ?_) fun _ _ ts us _ hf => ?_
  · rw [hend.next rfl]
    exact (hend.refuses h.stops.names).sat
  · exact next_tracks hmore rfl hf (fun _ _ _ _ _ _ _ => Outcome.tracks_done rfl hf) (h.names hf)

theorem declarationRule {t arrow word u arrow' word' : Token} (alike : t.Alike u)
    (hf : Follows more ts us) :
    (r.declarationRule (t :: arrow :: word :: ts)).Tracks more Nowhere Eq
      (r'.declarationRule (u :: arrow' :: word' :: us)) := by
  unfold Rules.declarationRule
  rw [bind_take, bind_take, bind_take, bind_take, bind_take, bind_take, alike.lexeme]
  refine (expect_tracks hmore rfl hf).orSkim.andThen fun _ _ ts us _ hf => ?_
  refine (h.params hmore hf).orSkim.bind
    (fun _ rest hend => (expect_refuses_atEnd rfl hend).bind _) ?_
  rintro params _ ts us rfl hf
  refine (expect_tracks hmore rfl hf).andThen fun _ _ ts us _ hf => ?_
  refine (h.block hmore hf).andThen ?_
  rintro body _ ts us rfl hf
  cases splitOperator? u.lexeme <;> exact Outcome.tracks_done rfl hf

theorem statementRule (hf : Follows more ts us) :
    (r.statementRule ts).Tracks more Nowhere Eq (r'.statementRule us) := by
  cases hf.fronts hmore with
  | @ends t u ts us _ first _ => exact (h.stops.up.statement ts (endsLine_spec first).1).tracks
  | @cons t u ts us alike _ later =>
      rw [Rules.statementRule_cons, Rules.statementRule_cons, ← alike.kind]
      split
      · exact h.ifRule hmore later
      split
      · exact h.whileRule hmore later
      split
      · exact h.forRule hmore later
      split
      · exact h.returnRule hmore later
      rcases hf.declaration hmore with ⟨hfirst, hsecond⟩ |
        ⟨a, b, c, a', b', c', ts', us', hts, hus, halike, hrest, hfirst, hsecond⟩
      · rw [hfirst, hsecond, if_neg Bool.false_ne_true, if_neg Bool.false_ne_true,
          Rules.exprRule_eq, Rules.exprRule_eq]
        exact (h.assignment hf).map _
      · rw [hfirst, hsecond, if_pos rfl, if_pos rfl, hts, hus]
        exact h.declarationRule hmore halike hrest

theorem statementsRule (hf : Follows more ts us) :
    (r.statementsRule .rightBrace ts).Tracks more AtEnd Eq (r'.statementsRule .rightBrace us) := by
  cases hf.fronts hmore with
  | ends hend _ _ =>
      exact (h.stops.up.statements .rightBrace hend).mono (fun _ _ h => .inl h.2) (fun _ h => h)
        (fun _ h => h)
  | @cons t u ts us alike _ later =>
      unfold Rules.statementsRule
      rw [bind_peek, bind_peek, ← alike.kind]
      split
      · exact Outcome.tracks_done rfl hf
      split
      · rw [bind_take, bind_take]
        exact h.statements later
      · refine (h.statement hf).andThen ?_
        rintro s _ ts us rfl hf
        refine (h.statements hf).bind (fun _ _ hend => hend) ?_
        rintro ss _ ts us rfl hf
        exact Outcome.tracks_done rfl hf

end Statements

section Expressions

variable (hmore : OnNewLine more) (h : Track more r r')

include hmore h

theorem assignmentRule (hf : Follows more ts us) :
    (r.assignmentRule ts).Tracks more Nowhere Eq (r'.assignmentRule us) := by
  refine (h.binary 1 hf).andThen ?_
  rintro target _ ts us rfl hf
  cases hf.fronts hmore with
  | @ends t u ts us _ first second =>
      have hnone : ∀ {k : Kind}, endsLine k = true →
          ¬ (decide (k = .backArrow) || decide (k = .equal)) = true := by
        intro k hk
        simp [ne_of_endsLine hk (rfl : endsLine .backArrow = false),
          ne_of_endsLine hk (rfl : endsLine .equal = false)]
      rw [bind_peek, bind_peek, if_neg (hnone first), if_neg (hnone second)]
      exact Outcome.tracks_done rfl hf
  | @cons t u ts us alike _ later =>
      rw [bind_peek, bind_peek, ← alike.kind]
      split
      · rw [bind_take, bind_take]
        refine (h.assignment later).andThen ?_
        rintro value _ ts us rfl hf
        cases assignTo? target value with
        | none => trivial
        | some tree => exact Outcome.tracks_done rfl hf
      · exact Outcome.tracks_done rfl hf

theorem arg (hf : Follows more ts us) : (r.arg ts).Tracks more Nowhere Eq (r'.arg us) := by
  unfold Rules.arg
  rw [bind_ahead, bind_ahead]
  rcases hf.named hmore with ⟨hfirst, hsecond⟩ |
    ⟨t, mark, u, mark', ts, us, rfl, rfl, alike, hrest, hfirst, hsecond⟩
  · rw [hfirst, hsecond]
    exact h.binary 1 hf
  · rw [hfirst, hsecond, if_pos rfl, if_pos rfl, bind_take, bind_take, bind_take, bind_take,
      alike.lexeme]
    refine (skipNewlines_tracks hrest).bind (fun _ rest hend => ?_) fun _ _ ts us _ hf => ?_
    · exact (hend.refuses (h.stops.binary 1)).bind _
    · exact (h.binary 1 hf).map _

omit h in
/-- Items with commas between them, where the items and what reads the later ones are alike. -/
theorem commaList {item item' : Parser α} {value : α → β} {rest rest' : Parser (List β)}
    (hitem : (item ts).Tracks more Nowhere (fun a b => value a = value b) (item' us))
    (hrest : ∀ {ts us}, Follows more ts us → (rest ts).Tracks more AtEnd Eq (rest' us))
    (hstop : ∀ {t} ts, begins t.kind = false → (rest (t :: ts)).Refuses) :
    (commaList item value rest ts).Tracks more AtEnd Eq (commaList item' value rest' us) := by
  refine hitem.andThen fun a b ts us hvalue hf => ?_
  refine (skipNewlines_tracks hf).bind (fun _ left hend => ?_) fun _ _ ts us _ hf => ?_
  · rw [hend.next rfl]
    exact hend
  · refine next_tracks hmore rfl hf ?_ ?_
    · rintro t u ts us rfl rfl hf
      refine (skipNewlines_tracks hf).bind (fun _ left hend => ?_) fun _ _ ts us _ hf => ?_
      · exact ((hend.refuses hstop).bind _).sat
      · refine (hrest hf).bind (fun _ _ hend => hend) ?_
        rintro later _ ts us rfl hf
        exact Outcome.tracks_done (by rw [hvalue]) hf
    · exact Outcome.tracks_done (by rw [hvalue]) hf

theorem argsRule (hf : Follows more ts us) :
    (r.argsRule ts).Tracks more AtEnd Eq (r'.argsRule us) := by
  rw [Rules.argsRule_eq, Rules.argsRule_eq]
  exact commaList hmore (h.arg hmore hf) h.args h.stops.args

theorem namesRule (hf : Follows more ts us) :
    (r.namesRule ts).Tracks more AtEnd Eq (r'.namesRule us) := by
  have hname : (expect .ident ts).Tracks more Nowhere (fun a b => a.lexeme = b.lexeme)
      (expect .ident us) := by
    refine (expect_tracks hmore rfl hf).mono ?_ (fun _ h => h) (fun _ h => h)
    rintro a rest (hfree | hdepth | ⟨b, rest', hdone, alike, hfollows⟩)
    · exact hfree.elim
    · exact .inr (.inl hdepth)
    · exact .inr (.inr ⟨b, rest', hdone, alike.lexeme, hfollows⟩)
  rw [Rules.namesRule_eq, Rules.namesRule_eq]
  exact commaList hmore hname h.names h.stops.names

theorem call (name : Bytes) {t u : Token} (hf : Follows more ts us) :
    (r.call name (t :: ts)).Tracks more Nowhere Eq (r'.call name (u :: us)) := by
  unfold Rules.call
  rw [bind_take, bind_take]
  refine (skipNewlines_tracks hf).bind (fun _ rest hend => ?_) fun _ _ ts us _ hf => ?_
  · rw [hend.next rfl]
    exact ((hend.refuses h.stops.args).orSkim _).bind _
  · refine next_tracks hmore rfl hf (fun _ _ _ _ _ _ _ => close_tracks hmore rfl _ hf) ?_
    refine (h.args hf).orSkim.bind (fun _ rest hend => (expect_refuses_atEnd rfl hend).bind _) ?_
    rintro args _ ts us rfl hf
    exact close_tracks hmore rfl _ hf

theorem group (hf : Follows more ts us) : (r.group ts).Tracks more Nowhere Eq (r'.group us) := by
  refine (skipNewlines_tracks hf).bind (fun _ rest hend => ?_) fun _ _ ts us _ hf => ?_
  · exact ((hend.refuses h.stops.assignment).orSkim _).bind _
  · refine (h.assignment hf).orSkim.andThen ?_
    rintro e _ ts us rfl hf
    refine (skipNewlines_tracks hf).bind
      (fun _ rest hend => (expect_refuses_atEnd rfl hend).bind _) fun _ _ ts us _ hf => ?_
    exact close_tracks hmore rfl _ hf

theorem atom {t u : Token} (alike : t.Alike u) (hf : Follows more ts us) :
    (r.atom (t :: ts)).Tracks more Nowhere Eq (r'.atom (u :: us)) := by
  rcases r.atom_cases ts t with ⟨e, he⟩ | hk | hk | ⟨e, he⟩ | ⟨-, e, he⟩ | ⟨-, he⟩
  · have hu : literalTree? u = some e := by
      rw [← he]
      simp only [literalTree?, alike.kind, alike.literal]
    rw [Rules.atom_literal _ _ he, Rules.atom_literal _ _ hu]
    exact Outcome.tracks_done rfl hf
  · rw [Rules.atom_ident _ _ hk, Rules.atom_ident _ _ (alike.kind ▸ hk), alike.lexeme]
    refine next_tracks hmore rfl hf ?_ (Outcome.tracks_done rfl hf)
    rintro t u ts us rfl rfl hf
    exact h.call hmore _ hf
  · rw [Rules.atom_group _ _ hk, Rules.atom_group _ _ (alike.kind ▸ hk)]
    exact h.group hmore hf
  all_goals
    rw [he]
    trivial

theorem suffixesRule (e : Node) (hf : Follows more ts us) :
    (r.suffixesRule e ts).Tracks more Nowhere Eq (r'.suffixesRule e us) := by
  cases hf.fronts hmore with
  | @ends t u ts us _ first second =>
      rw [Rules.suffixesRule_cons, Rules.suffixesRule_cons, if_neg (ne_of_endsLine first rfl),
        if_neg (ne_of_endsLine first rfl), if_neg (ne_of_endsLine second rfl),
        if_neg (ne_of_endsLine second rfl)]
      exact Outcome.tracks_done rfl hf
  | @cons t u ts us alike _ later =>
      rw [Rules.suffixesRule_cons, Rules.suffixesRule_cons, ← alike.kind]
      split
      · refine (h.assignment later).orSkim.andThen ?_
        rintro i _ ts us rfl hf
        refine (expect_tracks hmore rfl hf).andThen fun _ _ ts us _ hf => ?_
        exact h.suffixes _ hf
      split
      · refine (expect_tracks hmore rfl later).andThen fun name name' ts us hname hf => ?_
        rw [hname.lexeme]
        exact h.suffixes _ hf
      · exact Outcome.tracks_done rfl hf

theorem unary (hf : Follows more ts us) : (r.unary ts).Tracks more Nowhere Eq (r'.unary us) := by
  cases hf.fronts hmore with
  | @ends t u ts us _ first _ => exact (Rules.Stops.unary r (endsLine_spec first).1 ts).tracks
  | @cons t u ts us alike _ later =>
      unfold Rules.unary
      rw [bind_peek, bind_peek, ← alike.kind]
      split
      · rw [bind_take, bind_take, alike.lexeme]
        exact (h.binary 3 later).map _
      · refine (h.atom hmore alike later).andThen ?_
        rintro e _ ts us rfl hf
        exact h.suffixes e hf

theorem climbRule (least : Nat) (left : Node) (hf : Follows more ts us) :
    (r.climbRule least left ts).Tracks more Nowhere Eq (r'.climbRule least left us) := by
  cases hf.fronts hmore with
  | @ends t u ts us _ first second =>
      unfold Rules.climbRule
      rw [bind_peek, bind_peek, (endsLine_spec first).2.1, (endsLine_spec second).2.1]
      exact Outcome.tracks_done rfl hf
  | @cons t u ts us alike _ later =>
      unfold Rules.climbRule
      rw [bind_peek, bind_peek, ← alike.kind, ← alike.lexeme]
      cases level? t.kind with
      | none => exact Outcome.tracks_done rfl hf
      | some level =>
          dsimp only
          split
          · exact Outcome.tracks_done rfl hf
          · rw [bind_take, bind_take]
            refine (h.binary _ later).andThen ?_
            rintro right _ ts us rfl hf
            -- A comparison behind a comparison refuses the first list, and the second has the same.
            cases hf.fronts hmore with
            | ends _ first second =>
                rw [bind_peek, bind_peek, (endsLine_spec first).2.2, (endsLine_spec second).2.2,
                  Bool.and_false, if_neg Bool.false_ne_true, if_neg Bool.false_ne_true]
                exact h.climb least _ hf
            | cons alike _ _ =>
                rw [bind_peek, bind_peek, ← alike.kind]
                split
                · trivial
                · exact h.climb least _ hf

theorem up : Track more r.up r'.up where
  stops := h.stops.up
  statements hf := h.statementsRule hmore hf
  statement hf := h.statementRule hmore hf
  assignment hf := h.assignmentRule hmore hf
  binary least _ _ hf := by
    refine (h.unary hmore hf).andThen ?_
    rintro left _ ts us rfl hf
    exact h.climb least left hf
  climb least left _ _ hf := h.climbRule hmore least left hf
  suffixes e _ _ hf := h.suffixesRule hmore e hf
  args hf := h.argsRule hmore hf
  names hf := h.namesRule hmore hf

end Expressions

/-- Rules of any two depths take the same values. -/
theorem rules (hmore : OnNewLine more) (n m : Nat) :
    Track more (Grammar.rules n) (Grammar.rules m) := by
  induction n generalizing m with
  | zero => constructor <;> intros <;> first | exact Stops.spent | trivial
  | succ n ih =>
      cases m with
      | zero =>
          constructor <;> intros <;> first | exact Stops.rules _ | exact Outcome.tracks_depth _
      | succ m => exact (ih m).up hmore

end Rules.Track

/-! ## Programs -/

/-- A program does not begin with `else`. -/
theorem elseFollows_of_statements {n : Nat} {ts rest : List Token} {ss : List Node}
    (h : (rules n).statements .eof ts = .done ss rest) : elseFollows ts = false := by
  induction n generalizing ts with
  | zero => contradiction
  | succ n ih =>
      cases ts with
      | nil => contradiction
      | cons t ts =>
          change (rules n).statementsRule .eof (t :: ts) = _ at h
          by_cases hn : t.kind = .newline
          · rw [statementsRule_newline (rules n) (by simp) hn] at h
            rw [elseFollows_newline hn]
            exact ih h
          · by_cases he : t.kind = .kwElse
            · unfold Rules.statementsRule at h
              rw [bind_peek, if_neg (by simp [he]), if_neg (by rw [he]; exact Bool.false_ne_true)] at h
              have hrefuses := ((Rules.Stops.rules n).statement ts (by rw [he]; rfl)).bind
                fun s => (rules n).statements .eof >>= fun ss => pure (s :: ss)
              rw [h] at hrefuses
              exact hrefuses.elim
            · simp [elseFollows, hn, he]

/-- Statements that are a program by themselves are read in front of more lines, and the
statements of these lines come behind them. -/
theorem statements_lines {more left : List Token} {bs : List Node} (hmore : OnNewLine more)
    (hbs : ∀ m, ((rules m).statements .eof more).Answers bs left) {n : Nat} {ts us : List Token}
    (hf : Follows more ts us) {ss : List Node} {rest : List Token}
    (hss : (rules n).statements .eof ts = .done ss rest) (m : Nat) :
    ((rules m).statements .eof us).Answers (ss ++ bs) left := by
  induction n generalizing ts us ss rest m with
  | zero => contradiction
  | succ n ih =>
      cases hf with
      | tail hend =>
          have hstop := (Rules.Stops.rules (n + 1)).statements .eof hend
          rw [hss] at hstop
          rw [hstop.1]
          exact hbs m
      | @cons t u ts us alike ne later =>
          cases m with
          | zero => exact .inl rfl
          | succ m =>
              change (rules n).statementsRule .eof (t :: ts) = _ at hss
              change ((rules m).statementsRule .eof (u :: us)).Answers _ _
              unfold Rules.statementsRule at hss ⊢
              rw [bind_peek, if_neg (by simp [ne])] at hss
              rw [bind_peek, ← alike.kind, if_neg (by simp [ne])]
              by_cases hsep : t.kind.isSeparator = true
              · rw [if_pos hsep, bind_take] at hss
                rw [if_pos hsep, bind_take]
                exact ih later hss m
              · rw [if_neg hsep] at hss
                rw [if_neg hsep]
                obtain ⟨s, mid, hs, hrest⟩ := bind_eq_done hss
                obtain ⟨ss, mid', hss, hlast⟩ := bind_eq_done hrest
                cases hlast
                have htrack := (Rules.Track.rules hmore n m).statement (.cons alike ne later)
                rw [hs] at htrack
                rcases htrack with hfree | hdepth | ⟨_, mid', hdone, rfl, hfollows⟩
                · exact hfree.elim
                · rw [bind_halt _ hdepth]
                  exact .inl rfl
                · rw [bind_done _ hdone]
                  exact (ih hfollows hss m).bind (.done _ _)

/-! ## Two programs -/

/-- The tokens of two programs one behind the other. The line breaks at the seam may be other
tokens, and those of the second program are on other lines. -/
inductive Joined : List Token → List Token → List Token → Prop
  | mk {front gap gap' seam us vs : List Token} {e₁ e₂ e : Token}
      (inside : ∀ t ∈ front, t.kind ≠ .eof) (breaks : ∀ t ∈ gap, t.kind = .newline)
      (breaks' : ∀ t ∈ gap', t.kind = .newline) (lineEnds : ∀ t ∈ seam, t.kind = .newline)
      (nonempty : seam ≠ []) (eof₁ : e₁.kind = .eof) (eof : e.kind = .eof)
      (alike : Follows [e] (us ++ [e₂]) (vs ++ [e])) :
      Joined (front ++ (gap ++ [e₁])) (gap' ++ (us ++ [e₂])) (front ++ (seam ++ (vs ++ [e])))

section Breaks

variable {gap ts rest left : List Token} {ss : List Node}

theorem atEnd_breaks {e : Token} (hgap : ∀ t ∈ gap, t.kind = .newline) (he : e.kind = .eof) :
    AtEnd (gap ++ [e]) := by
  induction gap with
  | nil => exact .eof he []
  | cons t gap ih => exact .newline (hgap t (by simp)) (ih fun u hu => hgap u (by simp [hu]))

theorem elseFollows_breaks (hgap : ∀ t ∈ gap, t.kind = .newline) :
    elseFollows (gap ++ ts) = elseFollows ts := by
  induction gap with
  | nil => rfl
  | cons t gap ih =>
      rw [List.cons_append, elseFollows_newline (hgap t (by simp))]
      exact ih fun u hu => hgap u (by simp [hu])

theorem statements_breaks (hgap : ∀ t ∈ gap, t.kind = .newline)
    (h : ∀ n, ((rules n).statements .eof ts).Answers ss left) (n : Nat) :
    ((rules n).statements .eof (gap ++ ts)).Answers ss left := by
  induction gap generalizing n with
  | nil => exact h n
  | cons t gap ih =>
      exact statements_newline (hgap t (by simp)) (ih fun u hu => hgap u (by simp [hu])) n

theorem statements_after_breaks (hgap : ∀ t ∈ gap, t.kind = .newline) {n : Nat}
    (h : (rules n).statements .eof (gap ++ ts) = .done ss rest) :
    ∃ n, (rules n).statements .eof ts = .done ss rest := by
  induction gap generalizing n with
  | nil => exact ⟨n, h⟩
  | cons t gap ih =>
      have ht : t.kind = .newline := hgap t (by simp)
      cases n with
      | zero => contradiction
      | succ n =>
          change (rules n).statementsRule .eof (t :: (gap ++ ts)) = _ at h
          rw [statementsRule_newline (rules n) (by simp) ht] at h
          exact ih (fun u hu => hgap u (by simp [hu])) h

theorem follows_append {front : List Token} (hfront : ∀ t ∈ front, t.kind ≠ .eof) (h : AtEnd ts)
    (more : List Token) : Follows more (front ++ ts) (front ++ more) := by
  induction front with
  | nil => exact .tail h
  | cons t front ih =>
      exact .cons ⟨rfl, rfl, rfl⟩ (hfront t (by simp)) (ih fun u hu => hfront u (by simp [hu]))

end Breaks

end Grammar

open Grammar

theorem parse_eq_ok {ts : List Token} {ss : List Node} (h : parse ts = .ok ss) :
    ∃ n rest, (rules n).statements .eof ts = .done ss rest := by
  refine ⟨depthFor ts.length, ?_⟩
  unfold parse at h
  cases hs : (rules (depthFor ts.length)).statements .eof ts with
  | done ss rest =>
      rw [hs] at h
      cases h
      exact ⟨rest, rfl⟩
  | fail f rest =>
      rw [hs] at h
      contradiction
  | halt reason =>
      rw [hs] at h
      contradiction

/-- Two programs one behind the other are read as the statements of the first and then those of
the second. -/
theorem parse_joined {ts us vs : List Token} {as bs : List Node} (h : Joined ts us vs)
    (hts : parse ts = .ok as) (hus : parse us = .ok bs) (hvs : Readable vs) :
    parse vs = .ok (as ++ bs) := by
  obtain ⟨n, rest, hfirst⟩ := parse_eq_ok hts
  obtain ⟨m, rest', hsecond⟩ := parse_eq_ok hus
  cases h with
  | @mk front gap gap' seam us vs e₁ e₂ e inside breaks breaks' lineEnds nonempty eof₁ eof alike =>
      obtain ⟨m, hsecond⟩ := statements_after_breaks breaks' hsecond
      have hend : OnNewLine [e] :=
        ⟨⟨e, [], rfl, by rw [eof]; rfl⟩, by simp [elseFollows, eof]⟩
      have hlater : ∀ n, ((rules n).statements .eof (seam ++ (vs ++ [e]))).Answers (bs ++ []) [e] :=
        statements_breaks lineEnds (statements_lines hend (statements_eof eof) alike hsecond)
      have hmore : OnNewLine (seam ++ (vs ++ [e])) := by
        constructor
        · obtain ⟨t, seam, rfl⟩ := List.exists_cons_of_ne_nil nonempty
          exact ⟨t, seam ++ (vs ++ [e]), rfl, by rw [lineEnds t (by simp)]; rfl⟩
        · rw [elseFollows_breaks lineEnds, ← alike.elseFollows_eq hend]
          exact elseFollows_of_statements hsecond
      have hfollows := follows_append inside (atEnd_breaks breaks eof₁) (seam ++ (vs ++ [e]))
      rw [List.append_nil] at hlater
      exact parse_of_answers hvs (statements_lines hmore hlater hfollows hfirst)

end RToJulia
