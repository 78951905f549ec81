import RToJulia.Proofs.Grammar.Forms

/-! # Two lists of tokens read side by side

`Follows` relates a list of tokens to one that goes on where the first ends. Outcomes on
two such lists track each other when a value of the first is one of the second, with lists
left that follow again. Only at the end of the first list may the second go on, and no
rule takes a value there.
-/

namespace RToJulia

/-- The tokens agree in all but their lines. -/
structure Token.Alike (t u : Token) : Prop where
  kind : t.kind = u.kind
  lexeme : t.lexeme = u.lexeme
  literal : t.literal = u.literal

namespace Grammar

open RToJulia.Grammar.Parser

variable {α β : Type}

/-! ## Two lists of tokens -/

def endsLine : Kind → Bool
  | .newline | .eof => true
  | _ => false

theorem ne_of_endsLine {k k' : Kind} (h : endsLine k = true) (hk : endsLine k' = false) :
    k ≠ k' := by
  rintro rfl
  simp [h] at hk

def begins : Kind → Bool
  | .integer | .float | .string | .bool | .ident | .leftParen | .bang | .minus | .kwIf | .kwWhile
  | .kwFor | .kwReturn => true
  | _ => false

theorem ne_of_begins {k k' : Kind} (h : begins k = false) (hk : begins k' = true) : k ≠ k' := by
  rintro rfl
  simp [h] at hk

theorem endsLine_spec {k : Kind} (h : endsLine k = true) :
    begins k = false ∧ level? k = none ∧ k.isComparison = false := by
  cases k <;> first | exact ⟨rfl, rfl, rfl⟩ | contradiction

inductive AtEnd : List Token → Prop
  | eof {t : Token} (h : t.kind = .eof) (ts : List Token) : AtEnd (t :: ts)
  | newline {t : Token} {ts : List Token} (h : t.kind = .newline) (later : AtEnd ts) :
      AtEnd (t :: ts)

/-- The lists are alike up to the end of the first one, where `more` comes in the second. -/
inductive Follows (more : List Token) : List Token → List Token → Prop
  | tail {ts : List Token} (h : AtEnd ts) : Follows more ts more
  | cons {t u : Token} {ts us : List Token} (alike : t.Alike u) (ne : t.kind ≠ .eof)
      (later : Follows more ts us) : Follows more (t :: ts) (u :: us)

/-- The tokens begin with the end of a line, and the next line does not begin with `else`. -/
structure OnNewLine (more : List Token) : Prop where
  front : ∃ t ts, more = t :: ts ∧ endsLine t.kind = true
  noElse : elseFollows more = false

theorem AtEnd.front {ts : List Token} (h : AtEnd ts) :
    ∃ t rest, ts = t :: rest ∧ endsLine t.kind = true := by
  cases h with
  | @eof t h ts => exact ⟨t, ts, rfl, by rw [h]; rfl⟩
  | @newline t ts h later => exact ⟨t, ts, rfl, by rw [h]; rfl⟩

inductive Fronts (more : List Token) : List Token → List Token → Prop
  | ends {t u : Token} {ts us : List Token} (atEnd : AtEnd (t :: ts))
      (first : endsLine t.kind = true) (second : endsLine u.kind = true) :
      Fronts more (t :: ts) (u :: us)
  | cons {t u : Token} {ts us : List Token} (alike : t.Alike u) (ne : t.kind ≠ .eof)
      (later : Follows more ts us) : Fronts more (t :: ts) (u :: us)

section Follows

variable {more ts us : List Token}

theorem Follows.fronts (hmore : OnNewLine more) (h : Follows more ts us) : Fronts more ts us := by
  cases h with
  | tail hend =>
      obtain ⟨t, ts', rfl, ht⟩ := hend.front
      obtain ⟨u, us', rfl, hu⟩ := hmore.front
      exact .ends hend ht hu
  | cons alike ne later => exact .cons alike ne later

theorem elseFollows_newline {t : Token} (h : t.kind = .newline) (ts : List Token) :
    elseFollows (t :: ts) = elseFollows ts := by
  simp [elseFollows, h]

theorem AtEnd.noElse (h : AtEnd ts) : elseFollows ts = false := by
  induction h with
  | eof h ts => simp [elseFollows, h]
  | newline h later ih => rw [elseFollows_newline h, ih]

theorem Follows.elseFollows_eq (hmore : OnNewLine more) (h : Follows more ts us) :
    elseFollows ts = elseFollows us := by
  induction h with
  | tail hend => rw [hend.noElse, hmore.noElse]
  | @cons t u ts us alike ne later ih =>
      by_cases hn : t.kind = .newline
      · rw [elseFollows_newline hn, elseFollows_newline (alike.kind ▸ hn), ih]
      · have hu : u.kind ≠ .newline := alike.kind ▸ hn
        simp [elseFollows, hu, alike.kind]

/-- Two alike tokens begin a named argument in both lists, or in none. -/
theorem Follows.named (hmore : OnNewLine more) (h : Follows more ts us) :
    startsNamed ts = false ∧ startsNamed us = false ∨
      ∃ t mark u mark' ts' us', ts = t :: mark :: ts' ∧ us = u :: mark' :: us' ∧ t.Alike u ∧
        Follows more ts' us' ∧ startsNamed ts = true ∧ startsNamed us = true := by
  cases h.fronts hmore with
  | ends _ first second =>
      exact .inl ⟨startsNamed_of_ne (ne_of_endsLine first rfl) _,
        startsNamed_of_ne (ne_of_endsLine second rfl) _⟩
  | @cons t u ts us hone _ behind =>
      cases behind.fronts hmore with
      | @ends t' u' ts us _ first second =>
          have ht : t'.kind ≠ .equal := ne_of_endsLine first rfl
          have hu : u'.kind ≠ .equal := ne_of_endsLine second rfl
          exact .inl ⟨by simp [startsNamed, ht], by simp [startsNamed, hu]⟩
      | @cons t' u' ts us htwo _ later =>
          have heq : startsNamed (t :: t' :: ts) = startsNamed (u :: u' :: us) := by
            simp [startsNamed, hone.kind, htwo.kind]
          cases hs : startsNamed (t :: t' :: ts) with
          | false => exact .inl ⟨rfl, heq ▸ hs⟩
          | true => exact .inr ⟨t, t', u, u', ts, us, rfl, rfl, hone, later, rfl, heq ▸ hs⟩

theorem startsDeclaration_of_ne_arrow {name arrow : Token} (h : arrow.kind ≠ .backArrow)
    (ts : List Token) : startsDeclaration (name :: arrow :: ts) = false := by
  unfold startsDeclaration
  split <;> simp_all

/-- Three alike tokens begin a declaration in both lists, or in none. -/
theorem Follows.declaration (hmore : OnNewLine more) (h : Follows more ts us) :
    startsDeclaration ts = false ∧ startsDeclaration us = false ∨
      ∃ t arrow word u arrow' word' ts' us', ts = t :: arrow :: word :: ts' ∧
        us = u :: arrow' :: word' :: us' ∧ t.Alike u ∧ Follows more ts' us' ∧
        startsDeclaration ts = true ∧ startsDeclaration us = true := by
  cases h.fronts hmore with
  | ends _ first second =>
      exact .inl ⟨startsDeclaration_of_ne (ne_of_endsLine first rfl) _,
        startsDeclaration_of_ne (ne_of_endsLine second rfl) _⟩
  | @cons t u ts us alike _ behind =>
      cases behind.fronts hmore with
      | ends _ first second =>
          exact .inl ⟨startsDeclaration_of_ne_arrow (ne_of_endsLine first rfl) _,
            startsDeclaration_of_ne_arrow (ne_of_endsLine second rfl) _⟩
      | @cons t' u' ts us alike' _ beyond =>
          cases beyond.fronts hmore with
          | @ends t'' u'' ts us _ first second =>
              have ht : t''.kind ≠ .kwFunction := ne_of_endsLine first rfl
              have hu : u''.kind ≠ .kwFunction := ne_of_endsLine second rfl
              exact .inl ⟨by simp [startsDeclaration, ht],
                by simp [startsDeclaration, hu]⟩
          | @cons t'' u'' ts us alike'' _ later =>
              have heq : startsDeclaration (t :: t' :: t'' :: ts) =
                  startsDeclaration (u :: u' :: u'' :: us) := by
                simp [startsDeclaration, alike.kind, alike'.kind, alike''.kind]
              cases hs : startsDeclaration (t :: t' :: t'' :: ts) with
              | false => exact .inl ⟨rfl, heq ▸ hs⟩
              | true =>
                  exact .inr ⟨t, t', t'', u, u', u'', ts, us, rfl, rfl, alike, later, rfl, heq ▸ hs⟩

end Follows

/-! ## Two outcomes -/

/-- Where the first outcome is a value, the second is a related one with tokens left that follow,
or its depth ran out. Nothing is asked when the first leaves tokens in `free`. -/
def Outcome.Tracks (more : List Token) (free : List Token → Prop) (R : α → α → Prop)
    (o o' : Outcome α) : Prop :=
  o.Sat (fun a rest => free rest ∨ o' = .halt .depth ∨
    ∃ b rest', o' = .done b rest' ∧ R a b ∧ Follows more rest rest') (fun _ => True) (fun _ => True)

def Outcome.Refuses (o : Outcome α) : Prop :=
  o.Sat (fun _ _ => False) (fun _ => True) (fun _ => True)

def Nowhere (_ : List Token) : Prop :=
  False

theorem Outcome.Refuses.bind {p : Parser α} {ts : List Token} (h : (p ts).Refuses)
    (f : α → Parser β) : ((p >>= f) ts).Refuses :=
  Outcome.Sat.bind h fun _ _ hfalse => hfalse.elim

theorem Outcome.Refuses.orSkim {p : Parser α} {ts : List Token} (h : (p ts).Refuses) (skim : Skim) :
    ((p.orSkim skim) ts).Refuses :=
  Outcome.Sat.orSkim h

/-- An outcome that is no value meets any condition on values. -/
theorem Outcome.Refuses.sat {o : Outcome α} {done : α → List Token → Prop} (h : o.Refuses) :
    o.Sat done (fun _ => True) (fun _ => True) :=
  Sat.mono h (fun _ _ hfalse => hfalse.elim) (fun _ h => h) (fun _ h => h)

theorem AtEnd.refuses {p : Parser α} {ts : List Token} (h : AtEnd ts)
    (hp : ∀ {t} ts, begins t.kind = false → (p (t :: ts)).Refuses) : (p ts).Refuses := by
  obtain ⟨t, rest, rfl, ht⟩ := h.front
  exact hp rest (endsLine_spec ht).1

theorem expect_refuses {kind : Kind} {t : Token} (h : t.kind ≠ kind) (ts : List Token) :
    (expect kind (t :: ts)).Refuses := by
  obtain ⟨e, he⟩ := expect_neg h ts
  rw [he]
  trivial

theorem expect_refuses_atEnd {kind : Kind} {ts : List Token} (hk : endsLine kind = false)
    (h : AtEnd ts) : (expect kind ts).Refuses := by
  obtain ⟨t, ts, rfl, ht⟩ := h.front
  exact expect_refuses (ne_of_endsLine ht hk) ts

namespace Outcome

variable {more ts us : List Token} {free free' : List Token → Prop}

theorem Refuses.tracks {R : α → α → Prop} {o o' : Outcome α} (h : o.Refuses) :
    o.Tracks more free R o' :=
  h.sat

theorem tracks_done {R : α → α → Prop} {a b : α} (hR : R a b) (h : Follows more ts us) :
    (Outcome.done a ts).Tracks more free R (.done b us) :=
  .inr (.inr ⟨b, us, rfl, hR, h⟩)

theorem tracks_depth {R : α → α → Prop} (o : Outcome α) :
    o.Tracks more free R (.halt .depth) := by
  cases o with
  | done a rest => exact .inr (.inl rfl)
  | fail e rest => trivial
  | halt reason => trivial

/-- Two runs that go on alike from where they are alike. From what the first leaves in `free` it
goes on to what is free again. -/
theorem Tracks.bind {R : α → α → Prop} {S : β → β → Prop} {p p' : Parser α} {f f' : α → Parser β}
    (hp : (p ts).Tracks more free R (p' us))
    (hfree : ∀ a rest, free rest →
      (f a rest).Sat (fun _ left => free' left) (fun _ => True) (fun _ => True))
    (hf : ∀ a b rest rest', R a b → Follows more rest rest' →
      (f a rest).Tracks more free' S (f' b rest')) :
    ((p >>= f) ts).Tracks more free' S ((p' >>= f') us) := by
  refine Sat.bind hp fun a rest hrest => ?_
  rcases hrest with hrest | hdepth | ⟨b, rest', hdone, hR, hfollows⟩
  · exact (hfree a rest hrest).mono (fun _ _ h => .inl h) (fun _ h => h) (fun _ h => h)
  · rw [bind_halt f' hdepth]
    exact tracks_depth (f a rest)
  · rw [bind_done f' hdone]
    exact hf a b rest rest' hR hfollows

/-- The same with a first run that leaves nothing free. -/
theorem Tracks.andThen {R : α → α → Prop} {S : β → β → Prop} {p p' : Parser α}
    {f f' : α → Parser β} (hp : (p ts).Tracks more Nowhere R (p' us))
    (hf : ∀ a b rest rest', R a b → Follows more rest rest' →
      (f a rest).Tracks more free' S (f' b rest')) :
    ((p >>= f) ts).Tracks more free' S ((p' >>= f') us) :=
  hp.bind (fun _ _ h => h.elim) hf

theorem Tracks.map {p p' : Parser α} (hp : (p ts).Tracks more free Eq (p' us)) (g : α → β) :
    ((p >>= fun a => pure (g a)) ts).Tracks more free Eq ((p' >>= fun a => pure (g a)) us) := by
  refine hp.bind (fun _ _ h => h) ?_
  rintro a _ ts us rfl hf
  exact tracks_done rfl hf

theorem Tracks.orSkim {R : α → α → Prop} {p p' : Parser α} {skim : Skim}
    (hp : (p ts).Tracks more free R (p' us)) :
    ((p.orSkim skim) ts).Tracks more free R ((p'.orSkim skim) us) := by
  refine Sat.mono (Sat.orSkim hp) ?_ (fun _ h => h) (fun _ h => h)
  intro a rest hrest
  unfold Parser.orSkim
  rcases hrest with hrest | hdepth | ⟨b, rest', hdone, hrest⟩
  · exact .inl hrest
  · rw [hdepth]
    exact .inr (.inl rfl)
  · rw [hdone]
    exact .inr (.inr ⟨b, rest', rfl, hrest⟩)

end Outcome

section Steps

variable {more ts us : List Token} {free : List Token → Prop}

theorem expect_tracks (hmore : OnNewLine more) {kind : Kind} (hk : endsLine kind = false)
    (h : Follows more ts us) :
    (expect kind ts).Tracks more Nowhere Token.Alike (expect kind us) := by
  cases h.fronts hmore with
  | ends hend first second => exact (expect_refuses_atEnd hk hend).tracks
  | @cons t u ts us alike ne later =>
      by_cases ht : t.kind = kind
      · rw [expect_pos ht, expect_pos (alike.kind ▸ ht)]
        exact Outcome.tracks_done alike later
      · exact (expect_refuses ht ts).tracks

/-- The last token of a construct. -/
theorem close_tracks (hmore : OnNewLine more) {kind : Kind} (hk : endsLine kind = false) (a : β)
    (h : Follows more ts us) : ((expect kind >>= fun _ => pure a) ts).Tracks more Nowhere Eq
      ((expect kind >>= fun _ => pure a) us) :=
  (expect_tracks hmore hk h).andThen fun _ _ _ _ _ hf => Outcome.tracks_done rfl hf

theorem skipNewlines_newline {t : Token} (h : t.kind = .newline) (ts : List Token) :
    skipNewlines (t :: ts) = skipNewlines ts := by
  simp [skipNewlines, h]

theorem AtEnd.skipNewlines (h : AtEnd ts) :
    ∃ rest, Parser.skipNewlines ts = .done () rest ∧ AtEnd rest := by
  induction h with
  | @eof t h ts => exact ⟨t :: ts, skipNewlines_cons (by simp [h]) ts, .eof h ts⟩
  | newline h later ih =>
      rw [skipNewlines_newline h]
      exact ih

/-- Line breaks are skipped up to tokens that are alike, or up to the end of the first list. -/
theorem skipNewlines_tracks (h : Follows more ts us) :
    (skipNewlines ts).Tracks more AtEnd Eq (skipNewlines us) := by
  induction h with
  | tail hend =>
      obtain ⟨rest, hskip, hrest⟩ := hend.skipNewlines
      rw [hskip]
      exact .inl hrest
  | @cons t u ts us alike ne later ih =>
      by_cases ht : t.kind = .newline
      · rw [skipNewlines_newline ht, skipNewlines_newline (alike.kind ▸ ht)]
        exact ih
      · rw [skipNewlines_cons ht, skipNewlines_cons (alike.kind ▸ ht)]
        exact Outcome.tracks_done rfl (.cons alike ne later)

theorem AtEnd.next {kind : Kind} (hk : endsLine kind = false) (f : Bool → Parser β) (h : AtEnd ts) :
    (Parser.next kind >>= f) ts = f false ts := by
  obtain ⟨t, rest, rfl, ht⟩ := h.front
  rw [bind_next, decide_eq_false (ne_of_endsLine ht hk)]

theorem next_tracks (hmore : OnNewLine more) {kind : Kind} (hk : endsLine kind = false)
    {R : β → β → Prop} {f f' : Bool → Parser β} (h : Follows more ts us)
    (hyes : ∀ t u ts' us', ts = t :: ts' → us = u :: us' → Follows more ts' us' →
      (f true ts).Tracks more free R (f' true us))
    (hno : (f false ts).Tracks more free R (f' false us)) :
    ((next kind >>= f) ts).Tracks more free R ((next kind >>= f') us) := by
  cases h.fronts hmore with
  | ends hend first second =>
      rw [bind_next, bind_next, decide_eq_false (ne_of_endsLine first hk),
        decide_eq_false (ne_of_endsLine second hk)]
      exact hno
  | @cons t u ts us alike ne later =>
      rw [bind_next, bind_next, ← alike.kind]
      by_cases ht : t.kind = kind
      · rw [decide_eq_true ht]
        exact hyes t u ts us rfl rfl later
      · rw [decide_eq_false ht]
        exact hno

end Steps

/-! ## Where nothing begins -/

/-- No rule takes a value that would begin with a token that begins none, and statements end at
the end. -/
structure Rules.Stops (r : Rules) : Prop where
  statements : ∀ closer {ts}, AtEnd ts → (r.statements closer ts).Sat
    (fun ss rest => ss = [] ∧ AtEnd rest) (fun _ => True) (fun _ => True)
  statement : ∀ {t} ts, begins t.kind = false → (r.statement (t :: ts)).Refuses
  assignment : ∀ {t} ts, begins t.kind = false → (r.assignment (t :: ts)).Refuses
  binary : ∀ least {t} ts, begins t.kind = false → (r.binary least (t :: ts)).Refuses
  args : ∀ {t} ts, begins t.kind = false → (r.args (t :: ts)).Refuses
  names : ∀ {t} ts, begins t.kind = false → (r.names (t :: ts)).Refuses

namespace Rules.Stops

variable {r : Rules} {t : Token}

theorem unary (r : Rules) (ht : begins t.kind = false) (ts : List Token) :
    (r.unary (t :: ts)).Refuses := by
  have hbang : t.kind ≠ .bang := ne_of_begins ht rfl
  have hminus : t.kind ≠ .minus := ne_of_begins ht rfl
  have hatom : (r.atom (t :: ts)).Refuses := by
    rcases r.atom_cases ts t with ⟨e, he⟩ | hk | hk | ⟨e, he⟩ | ⟨-, e, he⟩ | ⟨-, he⟩
    · unfold literalTree? at he
      split at he <;> simp_all [begins]
    · exact absurd hk (ne_of_begins ht rfl)
    · exact absurd hk (ne_of_begins ht rfl)
    all_goals
      rw [he]
      trivial
  unfold Rules.unary
  rw [bind_peek, if_neg (by simp [hbang, hminus])]
  exact hatom.bind _

theorem arg (h : r.Stops) (ht : begins t.kind = false) (ts : List Token) :
    (r.arg (t :: ts)).Refuses := by
  unfold Rules.arg
  rw [bind_ahead, startsNamed_of_ne (ne_of_begins ht rfl), if_neg Bool.false_ne_true]
  exact h.binary 1 ts ht

theorem spent : Rules.spent.Stops := by
  constructor <;> intros <;> trivial

theorem up (h : r.Stops) : r.up.Stops where
  statements closer := by
    intro ts hend
    change (r.statementsRule closer ts).Sat _ _ _
    unfold statementsRule
    cases hend with
    | @eof t ht ts =>
        rw [bind_peek, if_pos (by simp [ht])]
        exact ⟨rfl, .eof ht ts⟩
    | @newline t ts ht later =>
        rw [bind_peek]
        by_cases hc : Kind.newline = closer
        · rw [if_pos (by simp [ht, hc])]
          exact ⟨rfl, .newline ht later⟩
        · rw [if_neg (by simp [ht, hc]), if_pos (by simp [ht, Kind.isSeparator]), bind_take]
          exact h.statements closer later
  statement {t} ts ht := by
    change (r.statementRule (t :: ts)).Refuses
    rw [Rules.statementRule_cons, if_neg (ne_of_begins ht rfl), if_neg (ne_of_begins ht rfl),
      if_neg (ne_of_begins ht rfl), if_neg (ne_of_begins ht rfl),
      startsDeclaration_of_ne (ne_of_begins ht rfl), if_neg Bool.false_ne_true]
    exact (h.assignment ts ht).bind _
  assignment ts ht := (h.binary 1 ts ht).bind _
  binary least _ ts ht := (unary r ht ts).bind _
  args ts ht := (h.arg ht ts).bind _
  names ts ht := (expect_refuses (ne_of_begins ht rfl) ts).bind _

theorem rules (n : Nat) : (Grammar.rules n).Stops := by
  induction n with
  | zero => exact spent
  | succ n ih => exact ih.up

end Rules.Stops

end Grammar

end RToJulia
