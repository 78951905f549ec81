import RToJulia.Proofs.Grammar.Listing
import RToJulia.Proofs.Grammar.Spacing

/-! # Freedom of separators and line breaks

Line breaks in slots that allow them, and line breaks for semicolons, do not change what a list of
tokens is read as. Each rule that takes a value from the first of two spaced lists takes the same
value from the second. A rule leaves the parentheses that are open as they were, so the slots
behind it are known. Statements take a level of rules for each line break between them: the second
rules have as many levels more as the second list may have line breaks more.
-/

namespace RToJulia

namespace Grammar

open RToJulia.Grammar.Parser

variable {α β : Type}

/-! ## Two sets of rules -/

def ClosesStatements (closer : Kind) : Prop :=
  closer = .eof ∨ closer = .rightBrace

theorem statementsRule_separator (r : Rules) {closer : Kind} (hcloser : ClosesStatements closer)
    {t : Token} (ht : t.kind.isSeparator = true) (ts : List Token) :
    r.statementsRule closer (t :: ts) = r.statements closer ts := by
  have hgo : ¬ (decide (t.kind = .eof) || decide (t.kind = closer)) = true := by
    rw [Bool.or_eq_true, decide_eq_true_eq, decide_eq_true_eq]
    rintro (hk | hk)
    · simp [hk, Kind.isSeparator] at ht
    · rcases hcloser with rfl | rfl <;> simp [hk, Kind.isSeparator] at ht
  unfold Rules.statementsRule
  rw [bind_peek, if_neg hgo, if_pos ht, bind_take]

/-- The second rules take from lists with up to `breaks` more line breaks the values that the
first take. A statement may end before an `else` that it is parted from, where no program goes
on, and items with commas between them before a semicolon. -/
structure Rules.Keep (breaks : Nat) (r r' : Rules) : Prop where
  stops : r.Stops
  elses : ∀ {closer ts}, ClosesStatements closer → ElseAhead ts →
    (r.statements closer ts).Refuses
  statements : ∀ {closer st ts us}, ClosesStatements closer → Spaced breaks ⟨.plain, st⟩ ts us →
    (r.statements closer ts).Leads Nowhere (Spaced breaks ⟨.plain, st⟩) (r'.statements closer us)
  statement : ∀ {st ts us}, Spaced breaks ⟨.plain, st⟩ ts us →
    (r.statement ts).Leads Doomed (Spaced breaks ⟨.plain, st⟩) (r'.statement us)
  assignment : ∀ {st ts us}, Spaced breaks ⟨.plain, st⟩ ts us →
    (r.assignment ts).Leads Nowhere (Spaced breaks ⟨.plain, st⟩) (r'.assignment us)
  binary : ∀ least {st ts us}, Spaced breaks ⟨.plain, st⟩ ts us →
    (r.binary least ts).Leads Nowhere (Spaced breaks ⟨.plain, st⟩) (r'.binary least us)
  climb : ∀ least left {st ts us}, Spaced breaks ⟨.plain, st⟩ ts us →
    (r.climb least left ts).Leads Nowhere (Spaced breaks ⟨.plain, st⟩) (r'.climb least left us)
  suffixes : ∀ e {st ts us}, Spaced breaks ⟨.plain, st⟩ ts us →
    (r.suffixes e ts).Leads Nowhere (Spaced breaks ⟨.plain, st⟩) (r'.suffixes e us)
  args : ∀ {st ts us}, Spaced breaks ⟨.plain, st⟩ ts us →
    (r.args ts).Leads AtSemicolon (Aligned breaks ⟨.plain, st⟩) (r'.args us)
  names : ∀ {st ts us}, Spaced breaks ⟨.plain, st⟩ ts us →
    (r.names ts).Leads AtSemicolon (Aligned breaks ⟨.plain, st⟩) (r'.names us)

namespace Rules.Keep

variable {breaks : Nat} {st : List Paren} {ts us : List Token} {r r' : Rules}

section Statements

variable (h : Keep breaks r r')

include h

theorem block (hs : Spaced breaks ⟨.loose, st⟩ ts us) :
    (r.block ts).Leads Doomed (Spaced breaks ⟨.plain, st⟩) (r'.block us) := by
  refine (skipNewlines_leads hs (by simp)).bind (fun _ rest hstop => ?_) fun _ ts us hal => ?_
  · rw [hstop.next (by simp)]
    exact ((hstop.refuses h.stops.statement).bind _).sat
  · refine next_aligned (by simp) hal ?_ ?_
    · rintro t ts us rfl rfl hs
      refine (h.statements (.inr rfl) hs).orSkim.andThen fun ss ts us hs => ?_
      refine (expect_leads (by simp) rfl (by simp) hs).andThen fun _ ts us hs => ?_
      exact Outcome.leads_done hs
    · exact (h.statement hal.spaced).map _

theorem condition (hs : Spaced breaks ⟨.word .head, st⟩ ts us) :
    (r.condition ts).Leads Nowhere (Spaced breaks ⟨.loose, st⟩) (r'.condition us) := by
  refine (expect_leads (by simp) rfl (by simp) hs).orSkim.andThen fun _ ts us hs => ?_
  refine (h.assignment hs).orSkim.andThen fun c ts us hs => ?_
  refine (expect_leads (by simp) rfl (by simp) hs).andThen fun _ ts us hs => ?_
  exact Outcome.leads_done hs

theorem ifRule {t : Token} (hs : Spaced breaks ⟨.word .head, st⟩ ts us) :
    (r.ifRule (t :: ts)).Leads Doomed (Spaced breaks ⟨.plain, st⟩) (r'.ifRule (t :: us)) := by
  unfold Rules.ifRule
  rw [bind_take, bind_take]
  refine (h.condition hs).andThen fun c ts us hs => ?_
  refine (h.block hs).bind (fun yes rest hdoom => ?_) fun yes ts us hs => ?_
  · rw [bind_ahead, hdoom.apart]
    exact hdoom
  · rw [bind_ahead, bind_ahead]
    cases hfirst : elseFollows ts with
    | true =>
        rw [hs.elseFollows hfirst]
        refine (skipNewlines_leads hs (by simp)).bind
          (fun _ rest hstop => ((hstop.expect (by simp)).bind _).sat) fun _ ts us hal => ?_
        refine (expect_aligned (by simp) hal).andThen fun _ ts us hs => ?_
        exact (h.block hs).map _
    | false =>
        -- Only for a semicolon does an `else` come within reach that was not.
        cases hsecond : elseFollows us with
        | false => exact Outcome.leads_done hs
        | true => exact .inl ⟨hs.elseAhead hsecond, hfirst⟩

theorem whileRule {t : Token} (hs : Spaced breaks ⟨.word .head, st⟩ ts us) :
    (r.whileRule (t :: ts)).Leads Doomed (Spaced breaks ⟨.plain, st⟩) (r'.whileRule (t :: us)) := by
  unfold Rules.whileRule
  rw [bind_take, bind_take]
  refine (h.condition hs).andThen fun c ts us hs => ?_
  exact (h.block hs).map _

theorem forRule {t : Token} (hs : Spaced breaks ⟨.word .head, st⟩ ts us) :
    (r.forRule (t :: ts)).Leads Doomed (Spaced breaks ⟨.plain, st⟩) (r'.forRule (t :: us)) := by
  unfold Rules.forRule
  dsimp only
  rw [bind_take, bind_take]
  refine (expect_leads (by simp) rfl (by simp) hs).orSkim.andThen
    fun _ ts us (hs : Spaced breaks ⟨.plain, .head :: st⟩ ts us) => ?_
  refine (expect_leads (by simp) rfl (by simp) hs).orSkim.andThen
    fun name ts us (hs : Spaced breaks ⟨.plain, .head :: st⟩ ts us) => ?_
  refine (expect_leads (by simp) rfl (by simp) hs).orSkim.andThen fun _ ts us hs => ?_
  refine (h.assignment hs).orSkim.andThen fun range ts us hs => ?_
  refine (expect_leads (by simp) rfl (by simp) hs).andThen fun _ ts us hs => ?_
  exact (h.block hs).map _

theorem returnRule {t : Token} (hs : Spaced breaks ⟨.plain, st⟩ ts us) :
    (r.returnRule (t :: ts)).Leads Doomed (Spaced breaks ⟨.plain, st⟩)
      (r'.returnRule (t :: us)) := by
  unfold Rules.returnRule
  rw [bind_take, bind_take]
  cases hs.fronts (by simp) with
  | @pause t u ts us ht _ hbreak =>
      -- A line break ends a bare `return`, and so does each token it may stand in front of, or
      -- no value begins with it.
      rw [bind_peek, bind_peek, hbreak]
      split
      · exact Outcome.leads_done hs
      · exact ((h.stops.assignment ts (Slot.pauses_spec ht).1).bind _).leads
  | same later =>
      rw [bind_peek, bind_peek]
      split
      · exact Outcome.leads_done hs
      · refine (h.assignment hs).andThen fun value ts us hs => ?_
        exact Outcome.leads_done hs

theorem params (hs : Spaced breaks ⟨.loose, st⟩ ts us) :
    (r.params ts).Leads AtSemicolon (Aligned breaks ⟨.plain, st⟩) (r'.params us) := by
  refine (skipNewlines_leads hs (by simp)).bind (fun _ rest hstop => ?_) fun _ ts us hal => ?_
  · rw [hstop.next (by simp)]
    exact (hstop.refuses h.stops.names).sat
  · exact next_aligned (by simp) hal (fun _ _ _ _ _ _ => Outcome.leads_done hal)
      (h.names hal.spaced)

theorem declarationRule {name arrow word : Token} (hs : Spaced breaks ⟨.word .params, st⟩ ts us) :
    (r.declarationRule (name :: arrow :: word :: ts)).Leads Doomed (Spaced breaks ⟨.plain, st⟩)
      (r'.declarationRule (name :: arrow :: word :: us)) := by
  unfold Rules.declarationRule
  rw [bind_take, bind_take, bind_take, bind_take, bind_take, bind_take]
  refine (expect_leads (by simp) rfl (by simp) hs).orSkim.andThen fun _ ts us hs => ?_
  refine (h.params hs).orSkim.bind
    (fun _ rest hstop => ((hstop.expect (by simp)).bind _).sat) fun params ts us hal => ?_
  refine (expect_aligned (by simp) hal).andThen fun _ ts us hs => ?_
  cases splitOperator? name.lexeme <;> exact (h.block hs).map _

theorem statementRule (hs : Spaced breaks ⟨.plain, st⟩ ts us) :
    (r.statementRule ts).Leads Doomed (Spaced breaks ⟨.plain, st⟩) (r'.statementRule us) := by
  have hdecl := hs.declaration
  cases hs.fronts (by simp) with
  | @pause t u ts us ht _ _ => exact (h.stops.up.statement ts (Slot.pauses_spec ht).1).leads
  | @same t ts us later =>
      rw [Rules.statementRule_cons, Rules.statementRule_cons]
      split
      case isTrue hk => exact h.ifRule (Spaced.of_kind later hk (by simp))
      split
      case isTrue hk => exact h.whileRule (Spaced.of_kind later hk (by simp))
      split
      case isTrue hk => exact h.forRule (Spaced.of_kind later hk (by simp))
      split
      case isTrue hk => exact h.returnRule (Spaced.steady later (by rw [hk]; rfl))
      rcases hdecl with ⟨hfirst, hsecond⟩ | ⟨_, _, _, ts', us', hts, hus, hfirst, hsecond, hword⟩
      · rw [hfirst, hsecond, if_neg Bool.false_ne_true, if_neg Bool.false_ne_true,
          Rules.exprRule_eq, Rules.exprRule_eq]
        refine (h.assignment hs).andThen fun e ts us hs => ?_
        exact Outcome.leads_done hs
      · rw [hfirst, hsecond, if_pos rfl, if_pos rfl, hts, hus]
        exact h.declarationRule hword

/-- Statements are not read on to an `else`. -/
theorem elses_up {closer : Kind} (hcloser : ClosesStatements closer) (helse : ElseAhead ts) :
    (r.statementsRule closer ts).Refuses := by
  cases helse with
  | @here t ht ts =>
      have hgo : ¬ (decide (t.kind = .eof) || decide (t.kind = closer)) = true := by
        rcases hcloser with rfl | rfl <;> simp [ht]
      unfold Rules.statementsRule
      rw [bind_peek, if_neg hgo, if_neg (by rw [ht]; exact Bool.false_ne_true)]
      exact (h.stops.statement ts (by rw [ht]; rfl)).bind _
  | later ht helse =>
      rw [statementsRule_separator r hcloser ht]
      exact h.elses hcloser helse

/-- A line break more is passed over in the second list by `hgap`, where the first rules stay on
their level. -/
theorem statementsRule {closer : Kind} (hcloser : ClosesStatements closer)
    (hgap : ∀ {fewer ts us}, breaks = fewer + 1 → Spaced fewer ⟨.plain, st⟩ ts us →
      (r.statementsRule closer ts).Leads Nowhere (Spaced fewer ⟨.plain, st⟩)
        (r'.statements closer us))
    (hs : Spaced breaks ⟨.plain, st⟩ ts us) :
    (r.statementsRule closer ts).Leads Nowhere (Spaced breaks ⟨.plain, st⟩)
      (r'.statementsRule closer us) := by
  cases hs with
  | @last _ _ e he ts us =>
      unfold Rules.statementsRule
      rw [bind_peek, bind_peek, if_pos (by simp [he]), if_pos (by simp [he])]
      exact Outcome.leads_done (.last he ts us)
  | semicolon ht hu later =>
      rw [statementsRule_separator r hcloser (by rw [ht]; rfl),
        statementsRule_separator r' hcloser (by rw [hu]; rfl)]
      exact h.statements hcloser later
  | gap hu allowed later =>
      rw [statementsRule_separator r' hcloser (by rw [hu]; rfl)]
      exact (hgap rfl later).mono Spaced.mono
  | @cons _ _ t ts us ht later =>
      unfold Rules.statementsRule
      rw [bind_peek, bind_peek]
      split
      · exact Outcome.leads_done (.cons ht later)
      split
      case isTrue hsep =>
        rw [bind_take, bind_take]
        exact h.statements hcloser (Spaced.steady (fun _ => later) (steady_of_separator hsep))
      · refine (h.statement (.cons ht later)).bind
          (fun _ rest hdoom => ((h.elses hcloser hdoom.ahead).bind _).sat) fun s ts us hs => ?_
        refine (h.statements hcloser hs).andThen fun ss ts us hs => ?_
        exact Outcome.leads_done hs

end Statements

section Expressions

variable (h : Keep breaks r r')

include h

theorem assignmentRule (hs : Spaced breaks ⟨.plain, st⟩ ts us) :
    (r.assignmentRule ts).Leads Nowhere (Spaced breaks ⟨.plain, st⟩) (r'.assignmentRule us) := by
  refine (h.binary 1 hs).andThen fun target ts us hs => ?_
  cases hs.fronts (by simp) with
  | @pause t u ts us ht hu _ =>
      have hnone : ∀ {kind : Kind}, Slot.pauses ⟨.plain, st⟩ kind = true →
          ¬ (decide (kind = .backArrow) || decide (kind = .equal)) = true := by
        intro kind hk
        have harrow : kind ≠ .backArrow := Slot.ne_of_pauses hk rfl
        have hequal : kind ≠ .equal := Slot.ne_of_pauses hk rfl
        simp [harrow, hequal]
      rw [bind_peek, bind_peek, if_neg (hnone ht), if_neg (hnone hu)]
      exact Outcome.leads_done hs
  | @same t ts us later =>
      rw [bind_peek, bind_peek]
      split
      case isTrue harrow =>
        have hsteady : isSteady t.kind = true := by
          rw [Bool.or_eq_true, decide_eq_true_eq, decide_eq_true_eq] at harrow
          rcases harrow with hk | hk <;> rw [hk] <;> rfl
        rw [bind_take, bind_take]
        refine (h.assignment (Spaced.steady later hsteady)).andThen fun value ts us hs => ?_
        cases assignTo? target value with
        | none => trivial
        | some tree => exact Outcome.leads_done hs
      · exact Outcome.leads_done hs

theorem arg (hs : Spaced breaks ⟨.plain, st⟩ ts us) :
    (r.arg ts).Leads Nowhere (Spaced breaks ⟨.plain, st⟩) (r'.arg us) := by
  unfold Rules.arg
  rw [bind_ahead, bind_ahead]
  rcases hs.named with ⟨hfirst, hsecond⟩ | ⟨name, mark, ts, us, rfl, rfl, hfirst, hsecond, hs⟩
  · rw [hfirst, hsecond]
    exact h.binary 1 hs
  · rw [hfirst, hsecond, if_pos rfl, if_pos rfl, bind_take, bind_take, bind_take, bind_take]
    refine (skipNewlines_leads hs (by simp)).bind
      (fun _ rest hstop => ((hstop.refuses (h.stops.binary 1)).bind _).sat) fun _ ts us hal => ?_
    exact (h.binary 1 hal.spaced).map _

omit h in
/-- Items with commas between them, where one item and what reads the later ones lead on. -/
theorem commaList {item item' : Parser α} {value : α → β} {more more' : Parser (List β)}
    (hitem : (item ts).Leads Nowhere (Spaced breaks ⟨.plain, st⟩) (item' us))
    (hmore : ∀ {ts us}, Spaced breaks ⟨.plain, st⟩ ts us →
      (more ts).Leads AtSemicolon (Aligned breaks ⟨.plain, st⟩) (more' us))
    (hstop : ∀ {t} ts, begins t.kind = false → (more (t :: ts)).Refuses) :
    (commaList item value more ts).Leads AtSemicolon (Aligned breaks ⟨.plain, st⟩)
      (commaList item' value more' us) := by
  refine hitem.andThen fun a ts us hs => ?_
  refine (skipNewlines_leads hs (by simp)).bind (fun _ rest hend => ?_) fun _ ts us hal => ?_
  · rw [hend.next (by simp)]
    exact hend
  · refine next_aligned (by simp) hal ?_ (Outcome.leads_done hal)
    rintro t ts us rfl rfl (hs : Spaced breaks ⟨.loose, st⟩ ts us)
    refine (skipNewlines_leads hs (by simp)).bind
      (fun _ rest hend => ((hend.refuses hstop).bind _).sat) fun _ ts us hal => ?_
    exact (hmore hal.spaced).map _

theorem call (name : Bytes) {t : Token} (hs : Spaced breaks ⟨.loose, .values :: st⟩ ts us) :
    (r.call name (t :: ts)).Leads Nowhere (Spaced breaks ⟨.plain, st⟩)
      (r'.call name (t :: us)) := by
  unfold Rules.call
  rw [bind_take, bind_take]
  refine (skipNewlines_leads hs (by simp)).bind (fun _ rest hstop => ?_) fun _ ts us hal => ?_
  · rw [hstop.next (by simp)]
    exact (((hstop.refuses h.stops.args).orSkim _).bind _).sat
  · refine next_aligned (by simp) hal (fun _ _ _ _ _ _ => (expect_aligned (by simp) hal).map _) ?_
    refine (h.args hal.spaced).orSkim.bind
      (fun _ rest hstop => ((hstop.expect (by simp)).bind _).sat) fun args ts us hal => ?_
    exact (expect_aligned (by simp) hal).map _

theorem group (hs : Spaced breaks ⟨.loose, .values :: st⟩ ts us) :
    (r.group ts).Leads Nowhere (Spaced breaks ⟨.plain, st⟩) (r'.group us) := by
  refine (skipNewlines_leads hs (by simp)).bind (fun _ rest hstop =>
    (((hstop.refuses h.stops.assignment).orSkim _).bind _).sat) fun _ ts us hal => ?_
  refine (h.assignment hal.spaced).orSkim.andThen fun e ts us hs => ?_
  refine (skipNewlines_leads hs (by simp)).bind
    (fun _ rest hstop => ((hstop.expect (by simp)).bind _).sat) fun _ ts us hal => ?_
  exact (expect_aligned (by simp) hal).map _

theorem atom {t : Token}
    (later : t.kind ≠ .eof → Spaced breaks (Slot.after ⟨.plain, st⟩ t.kind) ts us) :
    (r.atom (t :: ts)).Leads Nowhere (Spaced breaks ⟨.plain, st⟩) (r'.atom (t :: us)) := by
  rcases r.atom_cases ts t with ⟨e, he⟩ | hk | hk | ⟨e, he⟩ | ⟨-, e, he⟩ | ⟨-, he⟩
  · rw [Rules.atom_literal _ _ he, Rules.atom_literal _ _ he]
    exact Outcome.leads_done (Spaced.steady later (steady_of_literal he))
  · have hs := Spaced.steady later (by rw [hk]; rfl)
    rw [Rules.atom_ident _ _ hk, Rules.atom_ident _ _ hk]
    refine next_leads (by simp) rfl (by simp) hs ?_ (Outcome.leads_done hs)
    rintro t' ts us rfl rfl hs
    exact h.call _ hs
  · rw [Rules.atom_group _ _ hk, Rules.atom_group _ _ hk]
    exact h.group (Spaced.of_kind later hk (by simp))
  all_goals
    rw [he]
    trivial

theorem suffixesRule (e : Node) (hs : Spaced breaks ⟨.plain, st⟩ ts us) :
    (r.suffixesRule e ts).Leads Nowhere (Spaced breaks ⟨.plain, st⟩) (r'.suffixesRule e us) := by
  cases hs.fronts (by simp) with
  | @pause t u ts us ht hu _ =>
      rw [Rules.suffixesRule_cons, Rules.suffixesRule_cons, if_neg (Slot.ne_of_pauses ht rfl),
        if_neg (Slot.ne_of_pauses ht rfl), if_neg (Slot.ne_of_pauses hu rfl),
        if_neg (Slot.ne_of_pauses hu rfl)]
      exact Outcome.leads_done hs
  | @same t ts us later =>
      rw [Rules.suffixesRule_cons, Rules.suffixesRule_cons]
      split
      case isTrue hk =>
        have hs := Spaced.steady later (by rw [hk]; rfl)
        refine (h.assignment hs).orSkim.andThen fun i ts us hs => ?_
        refine (expect_leads (by simp) rfl (by simp) hs).andThen fun _ ts us hs => ?_
        exact h.suffixes _ hs
      split
      case isTrue hk =>
        have hs := Spaced.steady later (by rw [hk]; rfl)
        refine (expect_leads (by simp) rfl (by simp) hs).andThen fun name ts us hs => ?_
        exact h.suffixes _ hs
      · exact Outcome.leads_done hs

theorem unary (hs : Spaced breaks ⟨.plain, st⟩ ts us) :
    (r.unary ts).Leads Nowhere (Spaced breaks ⟨.plain, st⟩) (r'.unary us) := by
  cases hs.fronts (by simp) with
  | @pause t u ts us ht _ _ => exact (Rules.Stops.unary r (Slot.pauses_spec ht).1 ts).leads
  | @same t ts us later =>
      unfold Rules.unary
      rw [bind_peek, bind_peek]
      split
      case isTrue hsign =>
        have hsteady : isSteady t.kind = true := by
          rw [Bool.or_eq_true, decide_eq_true_eq, decide_eq_true_eq] at hsign
          rcases hsign with hk | hk <;> rw [hk] <;> rfl
        rw [bind_take, bind_take]
        exact (h.binary 3 (Spaced.steady later hsteady)).map _
      · exact (h.atom later).andThen fun e ts us hs => h.suffixes e hs

theorem climbRule (least : Nat) (left : Node) (hs : Spaced breaks ⟨.plain, st⟩ ts us) :
    (r.climbRule least left ts).Leads Nowhere (Spaced breaks ⟨.plain, st⟩)
      (r'.climbRule least left us) := by
  unfold Rules.climbRule
  cases hs.fronts (by simp) with
  | pause ht hu _ =>
      rw [bind_peek, bind_peek, (Slot.pauses_spec ht).2.1, (Slot.pauses_spec hu).2.1]
      exact Outcome.leads_done hs
  | @same op ts us later =>
      rw [bind_peek, bind_peek]
      cases hlevel : level? op.kind with
      | none => exact Outcome.leads_done hs
      | some level =>
          dsimp only
          split
          · exact Outcome.leads_done hs
          · rw [bind_take, bind_take]
            refine (h.binary _ (Spaced.steady later (steady_of_level hlevel))).andThen
              fun right ts us hs => ?_
            cases hs.fronts (by simp) with
            | pause ht hu _ =>
                rw [bind_peek, bind_peek, (Slot.pauses_spec ht).2.2, (Slot.pauses_spec hu).2.2,
                  Bool.and_false, if_neg Bool.false_ne_true, if_neg Bool.false_ne_true]
                exact h.climb least _ hs
            | same _ =>
                rw [bind_peek, bind_peek]
                split
                · trivial
                · exact h.climb least _ hs

/-- The rules one level up, if statements go on where the second list has a line break more. -/
theorem up
    (hgap : ∀ {closer fewer st ts us}, ClosesStatements closer → breaks = fewer + 1 →
      Spaced fewer ⟨.plain, st⟩ ts us → (r.statementsRule closer ts).Leads Nowhere
        (Spaced fewer ⟨.plain, st⟩) (r'.statements closer us)) :
    Keep breaks r.up r'.up where
  stops := h.stops.up
  elses hcloser helse := h.elses_up hcloser helse
  statements hcloser hs := h.statementsRule hcloser (hgap hcloser) hs
  statement hs := h.statementRule hs
  assignment hs := h.assignmentRule hs
  binary least _ _ _ hs := (h.unary hs).andThen fun left _ _ hs => h.climb least left hs
  climb least left _ _ _ hs := h.climbRule least left hs
  suffixes e _ _ _ hs := h.suffixesRule e hs
  args hs := commaList (h.arg hs) h.args h.stops.args
  names hs := commaList (expect_leads (by simp) rfl (by simp) hs) h.names h.stops.names

end Expressions

/-- Rules keep what others take that are as many levels less deep as there are line breaks
more. -/
theorem rules {n m : Nat} (hnm : n + breaks ≤ m) :
    Keep breaks (Grammar.rules n) (Grammar.rules m) := by
  -- The second depth goes down in both uses: with the first one for the rules below, and with
  -- one line break less, at the same first depth, for statements.
  induction m generalizing n breaks with
  | zero =>
      obtain rfl : n = 0 := by omega
      constructor <;> intros <;> first | exact Stops.spent | trivial
  | succ m ih =>
      cases n with
      | zero => constructor <;> intros <;> first | exact Stops.spent | trivial
      | succ n =>
          refine (ih (n := n) (by omega)).up fun hcloser hbreaks hs => ?_
          exact (ih (n := n + 1) (by omega)).statements hcloser hs

end Rules.Keep

/-! ## Edits -/

/-- Line breaks may stand between `front` and `back`: around the items of arguments and parameters
and around an expression in parentheses, in front of a body and in front of `else`. -/
inductive BreaksAllowed : List Token → List Token → Prop
  | opening {front back : List Token} {t : Token} (ht : t.kind = .leftParen)
      (hopens : (Slot.behind front).opens ≠ .head) : BreaksAllowed (front ++ [t]) back
  | closing {front back : List Token} {t : Token} {opens : Paren} {outer : List Paren}
      (ht : t.kind = .rightParen) (hopened : (Slot.behind front).opened = opens :: outer)
      (hopens : opens ≠ .head) : BreaksAllowed front (t :: back)
  | behindComma {front back : List Token} {t : Token} (ht : t.kind = .comma) :
      BreaksAllowed (front ++ [t]) back
  | beforeComma {front back : List Token} {t : Token} (ht : t.kind = .comma) :
      BreaksAllowed front (t :: back)
  | body {front back : List Token} {t : Token} {opens : Paren} {outer : List Paren}
      (ht : t.kind = .rightParen) (hopened : (Slot.behind front).opened = opens :: outer)
      (hopens : opens ≠ .values) : BreaksAllowed (front ++ [t]) back
  | elseBody {front back : List Token} {t : Token} (ht : t.kind = .kwElse) :
      BreaksAllowed (front ++ [t]) back
  | beforeElse {front back : List Token} {t : Token} (ht : t.kind = .kwElse) :
      BreaksAllowed front (t :: back)

/-- One edit of separators or line breaks: a line break for a semicolon, a line break twice, or
line breaks where they are allowed. -/
inductive Relined : List Token → List Token → Prop
  | semicolon {front back : List Token} {t u : Token} (ht : t.kind = .semicolon)
      (hu : u.kind = .newline) : Relined (front ++ t :: back) (front ++ u :: back)
  | twice {front back : List Token} {t : Token} (ht : t.kind = .newline) :
      Relined (front ++ t :: back) (front ++ t :: t :: back)
  | breaks {front gap back : List Token} (hgap : ∀ u ∈ gap, u.kind = .newline)
      (allowed : BreaksAllowed front back) : Relined (front ++ back) (front ++ (gap ++ back))

section Edits

variable {front back ts us : List Token}

theorem Slot.behind_concat (front : List Token) (t : Token) :
    Slot.behind (front ++ [t]) = (Slot.behind front).after t.kind := by
  simp [Slot.behind]

theorem BreaksAllowed.allows (h : BreaksAllowed front back) : (Slot.behind front).Allows back := by
  cases h with
  | @opening front back t ht hopens =>
      left
      rw [Slot.behind_concat, ht, Slot.after]
      cases hp : (Slot.behind front).opens with
      | head => exact absurd hp hopens
      | params => rfl
      | values => rfl
  | @closing _ back t opens outer ht hopened hopens =>
      refine .inr ⟨t, back, rfl, ?_⟩
      rw [ht, Slot.pauses, hopened]
      cases opens with
      | head => exact absurd rfl hopens
      | params => rfl
      | values => rfl
  | @body front back t opens outer ht hopened hopens =>
      left
      rw [Slot.behind_concat, ht, Slot.after, hopened]
      cases opens with
      | head => rfl
      | params => rfl
      | values => exact absurd rfl hopens
  | behindComma ht | elseBody ht =>
      left
      rw [Slot.behind_concat, ht]
      rfl
  | @beforeComma _ back t ht | @beforeElse _ back t ht => exact .inr ⟨t, back, rfl, by rw [ht]; rfl⟩

/-- Line breaks between two parts of a list. -/
theorem Spaced.insert {gap : List Token} (hgap : ∀ u ∈ gap, u.kind = .newline)
    (allowed : (Slot.behind front).Allows back) (heof : ∃ t ∈ front ++ back, t.kind = .eof) :
    Spaced gap.length Slot.start (front ++ back) (front ++ (gap ++ back)) := by
  refine append fun hfront => ?_
  have hreaches : Reaches (front ++ back) back := ⟨front, rfl, hfront⟩
  rw [← Nat.zero_add gap.length]
  exact gaps hgap allowed (refl 0 _ (hreaches.ends heof))

theorem Relined.spaced (h : Relined ts us) (heof : ∃ t ∈ ts, t.kind = .eof) :
    ∃ breaks, Spaced breaks Slot.start ts us ∧ ts.length + breaks ≤ us.length := by
  cases h with
  | @semicolon front back t u ht hu =>
      refine ⟨0, .append fun hfront => ?_, by simp⟩
      have hall : ∀ v ∈ front ++ [t], v.kind ≠ .eof := by
        intro v hv
        rcases List.mem_append.mp hv with hv | hv
        · exact hfront v hv
        · simp [List.mem_singleton.mp hv, ht]
      have hreaches : Reaches (front ++ t :: back) back := ⟨front ++ [t], by simp, hall⟩
      exact .semicolon ht hu (.refl 0 _ (hreaches.ends heof))
  | @twice front back t ht =>
      have hgap : ∀ u ∈ [t], u.kind = .newline := by simpa using ht
      have allowed : (Slot.behind front).Allows (t :: back) :=
        .inr ⟨t, back, rfl, by rw [ht]; rfl⟩
      exact ⟨1, .insert hgap allowed heof, by simp [Nat.add_assoc]⟩
  | @breaks front gap back hgap allowed =>
      refine ⟨gap.length, .insert hgap allowed.allows heof, ?_⟩
      simp only [List.length_append]
      omega

end Edits

end Grammar

open Grammar

/-- A program ends with `eof`. -/
theorem exists_eof_of_parse {ts : List Token} {ss : List Node} (h : parse ts = .ok ss) :
    ∃ t ∈ ts, t.kind = .eof := by
  obtain ⟨n, rest, hrun⟩ := parse_eq_ok h
  have hlists := (rules_lists n).statements .eof [] ts
  have hstop := statements_stop n .eof ts
  rw [hrun] at hlists hstop
  obtain ⟨taken, rfl, -, -⟩ := hlists
  obtain ⟨t, left, rfl, ht⟩ := hstop
  exact ⟨t, by simp, by simpa using ht⟩

/-- Separators and line breaks are free: a program stays the same one when a line break is put for a
semicolon, when a line break is doubled, and when line breaks are put behind the opening
parenthesis or a comma or in front of a comma or the closing parenthesis of arguments or parameters,
inside the parentheses around an expression, in front of a body or in front of `else`. -/
theorem line_breaks_are_free {ts us : List Token} {ss : List Node} (h : Relined ts us)
    (hts : parse ts = .ok ss) : parse us = .ok ss := by
  obtain ⟨breaks, hspaced, hlength⟩ := h.spaced (exists_eof_of_parse hts)
  have hdepth : depthFor ts.length + breaks ≤ depthFor us.length := by
    unfold depthFor
    omega
  have hleads := (Rules.Keep.rules hdepth).statements (.inl rfl) hspaced
  unfold parse at hts ⊢
  cases hrun : (rules (depthFor ts.length)).statements .eof ts with
  | fail f rest =>
      rw [hrun] at hts
      contradiction
  | halt reason =>
      rw [hrun] at hts
      contradiction
  | done value rest =>
      rw [hrun] at hts hleads
      rcases hleads with hfree | ⟨rest', hdone, -⟩
      · exact hfree.elim
      · rw [hdone]
        exact hts

/-- `f(x)` with a line break in front of the closing parenthesis. -/
theorem line_breaks_are_free_call :
    parse ([⟨.ident, "f", 1, none⟩, ⟨.leftParen, "(", 1, none⟩, ⟨.ident, "x", 1, none⟩] ++
      ([⟨.newline, "\n", 1, none⟩] ++ [⟨.rightParen, ")", 2, none⟩, ⟨.eof, "", 2, none⟩])) =
        .ok [.exprStmt (.call "f" [.var "x"])] :=
  line_breaks_are_free (.breaks (by simp) (.closing rfl rfl (by decide))) rfl

end RToJulia
