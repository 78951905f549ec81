import RToJulia.Proofs.Grammar.Lines

/-! # Slots for line breaks

A slot between two tokens is known by what the last token lets follow and by the parentheses
that are open there. `Spaced` relates a list of tokens to one that has more line breaks in slots
that allow them, and line breaks for semicolons. Outcomes on two such lists lead
from one to the other when every value of the first is a value of the second, with
lists left that are related again.
-/

namespace RToJulia

namespace Grammar

open RToJulia.Grammar.Parser

variable {α β : Type}

/-! ## Slots -/

/-- What a parenthesis opens: the head of `if`, `while` or `for`, the parameters of a
declaration, or values, which are the arguments of a call or an expression. -/
inductive Paren where
  | head
  | params
  | values
  deriving DecidableEq, Repr

inductive Spot where
  | plain
  /-- Any number of line breaks. -/
  | loose
  /-- The parenthesis that belongs to a keyword. -/
  | word (opens : Paren)
  deriving DecidableEq, Repr

/-- A slot between two tokens, with the parentheses that are open there, innermost first. -/
structure Slot where
  spot : Spot
  opened : List Paren
  deriving DecidableEq, Repr

namespace Slot

def start : Slot := ⟨.plain, []⟩

def opens (p : Slot) : Paren :=
  match p.spot with
  | .word opens => opens
  | _ => .values

def after (p : Slot) : Kind → Slot
  | .kwIf | .kwWhile | .kwFor => ⟨.word .head, p.opened⟩
  | .kwFunction => ⟨.word .params, p.opened⟩
  | .comma | .kwElse => ⟨.loose, p.opened⟩
  | .leftParen =>
      match p.opens with
      | .head => ⟨.plain, .head :: p.opened⟩
      | opens => ⟨.loose, opens :: p.opened⟩
  | .rightParen =>
      -- A body follows behind a head or parameters.
      match p.opened with
      | .values :: outer => ⟨.plain, outer⟩
      | _ :: outer => ⟨.loose, outer⟩
      | [] => ⟨.plain, []⟩
  | _ => ⟨.plain, p.opened⟩

def behind (ts : List Token) : Slot :=
  ts.foldl (fun p t => p.after t.kind) start

/-- A kind that line breaks may stand in front of: a separator, a comma, `else`, or a parenthesis
that closes no head. -/
def pauses (p : Slot) : Kind → Bool
  | .newline | .semicolon | .comma | .kwElse => true
  | .rightParen =>
      match p.opened with
      | .params :: _ | .values :: _ => true
      | _ => false
  | _ => false

def Allows (p : Slot) (ts : List Token) : Prop :=
  p.spot = .loose ∨ ∃ t rest, ts = t :: rest ∧ p.pauses t.kind = true

end Slot

def isSteady : Kind → Bool
  | .kwIf | .kwWhile | .kwFor | .kwFunction | .comma | .kwElse | .leftParen | .rightParen | .eof =>
      false
  | _ => true

theorem Slot.after_steady (p : Slot) {kind : Kind} (h : isSteady kind = true) :
    p.after kind = ⟨.plain, p.opened⟩ := by
  cases kind <;> first | rfl | contradiction

/-- Only behind a keyword does the last token matter for the next one. -/
theorem Slot.after_eq_plain {p : Slot} (h : ∀ opens, p.spot ≠ .word opens) (kind : Kind) :
    (⟨.plain, p.opened⟩ : Slot).after kind = p.after kind := by
  have hopens : p.opens = .values := by
    unfold Slot.opens
    split
    · rename_i opens hspot
      exact absurd hspot (h opens)
    · rfl
  have hplain : (⟨.plain, p.opened⟩ : Slot).opens = .values := rfl
  cases kind <;> simp only [Slot.after, hopens, hplain]

theorem steady_of_level {kind : Kind} {level : Nat} (h : level? kind = some level) :
    isSteady kind = true := by
  cases kind <;> first | rfl | contradiction

theorem steady_of_separator {kind : Kind} (h : kind.isSeparator = true) : isSteady kind = true := by
  cases kind <;> first | rfl | contradiction

theorem steady_of_literal {t : Token} {e : Node} (h : literalTree? t = some e) :
    isSteady t.kind = true := by
  unfold literalTree? at h
  split at h <;> first | contradiction | simp [isSteady, *]

theorem Slot.pauses_spec {p : Slot} {kind : Kind} (h : p.pauses kind = true) :
    begins kind = false ∧ level? kind = none ∧ kind.isComparison = false := by
  cases kind <;> first | exact ⟨rfl, rfl, rfl⟩ | contradiction

theorem Slot.ne_of_pauses {p : Slot} {kind kind' : Kind} (h : p.pauses kind = true)
    (h' : p.pauses kind' = false) : kind ≠ kind' := by
  rintro rfl
  simp [h] at h'

/-! ## Two lists of tokens -/

/-- The second list has up to `breaks` more line breaks, where the slot behind the last token
allows them, and may have line breaks for semicolons. -/
inductive Spaced : Nat → Slot → List Token → List Token → Prop
  | last {breaks : Nat} {p : Slot} {e : Token} (he : e.kind = .eof) (ts us : List Token) :
      Spaced breaks p (e :: ts) (e :: us)
  | cons {breaks : Nat} {p : Slot} {t : Token} {ts us : List Token} (ht : t.kind ≠ .eof)
      (later : Spaced breaks (p.after t.kind) ts us) : Spaced breaks p (t :: ts) (t :: us)
  | semicolon {breaks : Nat} {p : Slot} {t u : Token} {ts us : List Token}
      (ht : t.kind = .semicolon) (hu : u.kind = .newline)
      (later : Spaced breaks ⟨.plain, p.opened⟩ ts us) : Spaced breaks p (t :: ts) (u :: us)
  | gap {breaks : Nat} {p : Slot} {u : Token} {ts us : List Token} (hu : u.kind = .newline)
      (allowed : p.Allows ts) (later : Spaced breaks p ts us) :
      Spaced (breaks + 1) p ts (u :: us)

inductive Aligned (breaks : Nat) (p : Slot) : List Token → List Token → Prop
  | mk {t : Token} {ts us : List Token}
      (later : t.kind ≠ .eof → Spaced breaks (p.after t.kind) ts us) :
      Aligned breaks p (t :: ts) (t :: us)

inductive Spaced.Fronts (breaks : Nat) (p : Slot) : List Token → List Token → Prop
  | same {t : Token} {ts us : List Token}
      (later : t.kind ≠ .eof → Spaced breaks (p.after t.kind) ts us) :
      Fronts breaks p (t :: ts) (t :: us)
  | pause {t u : Token} {ts us : List Token} (ht : p.pauses t.kind = true)
      (hu : p.pauses u.kind = true) (hbreak : u.kind = .newline) :
      Fronts breaks p (t :: ts) (u :: us)

inductive ElseAhead : List Token → Prop
  | here {t : Token} (ht : t.kind = .kwElse) (ts : List Token) : ElseAhead (t :: ts)
  | later {t : Token} {ts : List Token} (ht : t.kind.isSeparator = true) (h : ElseAhead ts) :
      ElseAhead (t :: ts)

/-- An `else` behind a semicolon: no program goes on like this. -/
structure Doomed (ts : List Token) : Prop where
  ahead : ElseAhead ts
  apart : elseFollows ts = false

def AtSemicolon (ts : List Token) : Prop :=
  ∃ t rest, ts = t :: rest ∧ t.kind = .semicolon

theorem AtSemicolon.refuses {p : Parser α} {ts : List Token} (h : AtSemicolon ts)
    (hp : ∀ {t} ts, begins t.kind = false → (p (t :: ts)).Refuses) : (p ts).Refuses := by
  obtain ⟨t, rest, rfl, ht⟩ := h
  exact hp rest (by rw [ht]; rfl)

theorem AtSemicolon.expect {kind : Kind} {ts : List Token} (hk : kind ≠ .semicolon)
    (h : AtSemicolon ts) : (Parser.expect kind ts).Refuses := by
  obtain ⟨t, rest, rfl, ht⟩ := h
  exact expect_refuses (ht ▸ hk.symm) rest

theorem AtSemicolon.next {kind : Kind} {ts : List Token} (hk : kind ≠ .semicolon)
    (f : Bool → Parser β) (h : AtSemicolon ts) : (Parser.next kind >>= f) ts = f false ts := by
  obtain ⟨t, rest, rfl, ht⟩ := h
  rw [bind_next, decide_eq_false (ht ▸ hk.symm)]

theorem Aligned.spaced {breaks : Nat} {p : Slot} {ts us : List Token}
    (h : Aligned breaks p ts us) : Spaced breaks p ts us := by
  obtain ⟨later⟩ := h
  rename_i t ts us
  by_cases ht : t.kind = .eof
  · exact .last ht ts us
  · exact .cons ht (later ht)

namespace Spaced

variable {breaks : Nat} {p : Slot} {ts us : List Token}

theorem mono (h : Spaced breaks p ts us) : Spaced (breaks + 1) p ts us := by
  induction h with
  | last he ts us => exact .last he ts us
  | cons ht _ ih => exact .cons ht ih
  | semicolon ht hu _ ih => exact .semicolon ht hu ih
  | gap hu allowed _ ih => exact .gap hu allowed ih

theorem refl (breaks : Nat) (p : Slot) (h : ∃ t ∈ ts, t.kind = .eof) : Spaced breaks p ts ts := by
  induction ts generalizing p with
  | nil => simp at h
  | cons t ts ih =>
      by_cases ht : t.kind = .eof
      · exact .last ht ts ts
      · obtain ⟨e, he, heof⟩ := h
        have hmem : e ∈ ts := (List.mem_cons.mp he).resolve_left fun heq => ht (heq ▸ heof)
        exact .cons ht (ih (p.after t.kind) ⟨e, hmem, heof⟩)

/-- Tokens in front of both lists. Behind an `eof` among them anything may come. -/
theorem append {front : List Token}
    (h : (∀ t ∈ front, t.kind ≠ .eof) →
      Spaced breaks (front.foldl (fun p t => p.after t.kind) p) ts us) :
    Spaced breaks p (front ++ ts) (front ++ us) := by
  induction front generalizing p with
  | nil => exact h (by simp)
  | cons t front ih =>
      by_cases ht : t.kind = .eof
      · exact .last ht _ _
      · refine .cons ht (ih fun hfront => h fun u hu => ?_)
        rcases List.mem_cons.mp hu with rfl | hu
        · exact ht
        · exact hfront u hu

theorem gaps {gap : List Token} (hgap : ∀ u ∈ gap, u.kind = .newline) (allowed : p.Allows ts)
    (h : Spaced breaks p ts us) : Spaced (breaks + gap.length) p ts (gap ++ us) := by
  induction gap with
  | nil => exact h
  | cons u gap ih =>
      exact .gap (hgap u (by simp)) allowed (ih fun v hv => hgap v (by simp [hv]))

theorem fronts (h : Spaced breaks p ts us) (hp : p.spot ≠ .loose) : Fronts breaks p ts us := by
  cases h with
  | last he ts us => exact .same fun hne => absurd he hne
  | cons ht later => exact .same fun _ => later
  | semicolon ht hu _ => exact .pause (by rw [ht]; rfl) (by rw [hu]; rfl) hu
  | gap hu allowed _ =>
      obtain ⟨t, rest, rfl, ht⟩ := allowed.resolve_left hp
      exact .pause ht (by rw [hu]; rfl) hu

/-- An `else` that the second list goes on with comes in the first one too, behind separators. -/
theorem elseAhead (h : Spaced breaks p ts us) (helse : elseFollows us = true) : ElseAhead ts := by
  induction h with
  | last he ts us => simp [elseFollows, he] at helse
  | @cons _ _ t ts us ht _ ih =>
      by_cases hn : t.kind = .newline
      · rw [elseFollows_newline hn] at helse
        exact .later (by rw [hn]; rfl) (ih helse)
      · have hword : t.kind = .kwElse := by simpa [elseFollows, hn] using helse
        exact .here hword ts
  | semicolon ht hu _ ih =>
      rw [elseFollows_newline hu] at helse
      exact .later (by rw [ht]; rfl) (ih helse)
  | gap hu _ _ ih =>
      rw [elseFollows_newline hu] at helse
      exact ih helse

theorem elseFollows (h : Spaced breaks p ts us) (helse : Grammar.elseFollows ts = true) :
    Grammar.elseFollows us = true := by
  induction h with
  | last he ts us => simp [Grammar.elseFollows, he] at helse
  | @cons _ _ t ts us ht _ ih =>
      by_cases hn : t.kind = .newline
      · rw [elseFollows_newline hn] at helse ⊢
        exact ih helse
      · have hword : t.kind = .kwElse := by simpa [Grammar.elseFollows, hn] using helse
        simp [Grammar.elseFollows, hword]
  | semicolon ht hu _ ih => simp [Grammar.elseFollows, ht] at helse
  | gap hu _ _ ih =>
      rw [elseFollows_newline hu]
      exact ih helse

/-- Behind a token of a known kind. -/
theorem of_kind {t : Token} {kind : Kind}
    (later : t.kind ≠ .eof → Spaced breaks (p.after t.kind) ts us) (ht : t.kind = kind)
    (hk : kind ≠ .eof) : Spaced breaks (p.after kind) ts us :=
  ht ▸ later (ht ▸ hk)

/-- Behind a token that leaves the slot as it is. -/
theorem steady {t : Token} (later : t.kind ≠ .eof → Spaced breaks (p.after t.kind) ts us)
    (h : isSteady t.kind = true) : Spaced breaks ⟨.plain, p.opened⟩ ts us := by
  have hs := later fun heof => by simp [heof, isSteady] at h
  rwa [p.after_steady h] at hs

/-- Two tokens begin a named argument in both lists, or in none. -/
theorem named {st : List Paren} (h : Spaced breaks ⟨.plain, st⟩ ts us) :
    startsNamed ts = false ∧ startsNamed us = false ∨
      ∃ name mark ts' us', ts = name :: mark :: ts' ∧ us = name :: mark :: us' ∧
        startsNamed ts = true ∧ startsNamed us = true ∧ Spaced breaks ⟨.plain, st⟩ ts' us' := by
  cases h.fronts (by simp) with
  | pause ht hu _ =>
      exact .inl ⟨startsNamed_of_ne (Slot.ne_of_pauses ht rfl) _,
        startsNamed_of_ne (Slot.ne_of_pauses hu rfl) _⟩
  | @same name _ _ later =>
      by_cases hname : name.kind = .ident
      · have hs := steady later (by rw [hname]; rfl)
        cases hs.fronts (by simp) with
        | @pause t u _ _ ht hu _ =>
            have ht : t.kind ≠ .equal := Slot.ne_of_pauses ht rfl
            have hu : u.kind ≠ .equal := Slot.ne_of_pauses hu rfl
            exact .inl ⟨by simp [startsNamed, ht], by simp [startsNamed, hu]⟩
        | @same mark ts us beyond =>
            by_cases hmark : mark.kind = .equal
            · have hs := steady beyond (by rw [hmark]; rfl)
              refine .inr ⟨name, mark, ts, us, rfl, rfl, ?_, ?_, hs⟩ <;>
                simp [startsNamed, hname, hmark]
            · exact .inl ⟨by simp [startsNamed, hmark], by simp [startsNamed, hmark]⟩
      · exact .inl ⟨startsNamed_of_ne hname _, startsNamed_of_ne hname _⟩

/-- Three tokens begin a declaration in both lists, or in none. -/
theorem declaration {st : List Paren} (h : Spaced breaks ⟨.plain, st⟩ ts us) :
    startsDeclaration ts = false ∧ startsDeclaration us = false ∨
      ∃ name arrow word ts' us', ts = name :: arrow :: word :: ts' ∧
        us = name :: arrow :: word :: us' ∧ startsDeclaration ts = true ∧
        startsDeclaration us = true ∧ Spaced breaks ⟨.word .params, st⟩ ts' us' := by
  cases h.fronts (by simp) with
  | pause ht hu _ =>
      exact .inl ⟨startsDeclaration_of_ne (Slot.ne_of_pauses ht rfl) _,
        startsDeclaration_of_ne (Slot.ne_of_pauses hu rfl) _⟩
  | @same name _ _ later =>
  by_cases hname : name.kind ≠ .ident
  · exact .inl ⟨startsDeclaration_of_ne hname _, startsDeclaration_of_ne hname _⟩
  have hname : name.kind = .ident := Decidable.not_not.mp hname
  have hs := steady later (by rw [hname]; rfl)
  cases hs.fronts (by simp) with
  | pause ht hu _ =>
      exact .inl ⟨startsDeclaration_of_ne_arrow (Slot.ne_of_pauses ht rfl) _,
        startsDeclaration_of_ne_arrow (Slot.ne_of_pauses hu rfl) _⟩
  | @same arrow _ _ behind =>
  by_cases harrow : arrow.kind ≠ .backArrow
  · exact .inl ⟨startsDeclaration_of_ne_arrow harrow _, startsDeclaration_of_ne_arrow harrow _⟩
  have harrow : arrow.kind = .backArrow := Decidable.not_not.mp harrow
  have hs := steady behind (by rw [harrow]; rfl)
  cases hs.fronts (by simp) with
  | @pause t u _ _ ht hu _ =>
      have ht : t.kind ≠ .kwFunction := Slot.ne_of_pauses ht rfl
      have hu : u.kind ≠ .kwFunction := Slot.ne_of_pauses hu rfl
      exact .inl ⟨by simp [startsDeclaration, ht], by simp [startsDeclaration, hu]⟩
  | @same word ts us beyond =>
      by_cases hword : word.kind = .kwFunction
      · have hs := of_kind beyond hword (by simp)
        refine .inr ⟨name, arrow, word, ts, us, rfl, rfl, ?_, ?_, hs⟩ <;>
          simp [startsDeclaration, hname, harrow, hword]
      · exact .inl ⟨by simp [startsDeclaration, hword], by simp [startsDeclaration, hword]⟩

end Spaced

theorem Aligned.mono {breaks : Nat} {p : Slot} {ts us : List Token} (h : Aligned breaks p ts us) :
    Aligned (breaks + 1) p ts us := by
  obtain ⟨later⟩ := h
  exact .mk fun hne => (later hne).mono

/-! ## Two outcomes -/

/-- Where the first outcome is a value, the second is the same one, and the lists left are
related by `left`. Nothing is asked when the first leaves tokens in `free`. -/
def Outcome.Leads (free : List Token → Prop) (left : List Token → List Token → Prop)
    (o o' : Outcome α) : Prop :=
  o.Sat (fun a rest => free rest ∨ ∃ rest', o' = .done a rest' ∧ left rest rest') (fun _ => True)
    (fun _ => True)

namespace Outcome

variable {ts us : List Token} {free free' : List Token → Prop}
  {left left' : List Token → List Token → Prop}

theorem Refuses.leads {o o' : Outcome α} (h : o.Refuses) : o.Leads free left o' :=
  h.sat

theorem leads_done {a : α} (h : left ts us) : (Outcome.done a ts).Leads free left (.done a us) :=
  .inr ⟨us, rfl, h⟩

theorem Leads.mono {o o' : Outcome α} (h : o.Leads free left o')
    (hleft : ∀ {rest rest'}, left rest rest' → left' rest rest') : o.Leads free left' o' := by
  refine Sat.mono h ?_ (fun _ h => h) (fun _ h => h)
  rintro a rest (hrest | ⟨rest', hdone, hrest⟩)
  · exact .inl hrest
  · exact .inr ⟨rest', hdone, hleft hrest⟩

/-- Two runs one of which leads to the other. From what the first leaves in `free` it goes on to
what is free again. -/
theorem Leads.bind {p p' : Parser α} {f f' : α → Parser β}
    (hp : (p ts).Leads free left (p' us))
    (hfree : ∀ a rest, free rest →
      (f a rest).Sat (fun _ left => free' left) (fun _ => True) (fun _ => True))
    (hf : ∀ a rest rest', left rest rest' → (f a rest).Leads free' left' (f' a rest')) :
    ((p >>= f) ts).Leads free' left' ((p' >>= f') us) := by
  refine Sat.bind hp fun a rest hrest => ?_
  rcases hrest with hrest | ⟨rest', hdone, hleft⟩
  · exact (hfree a rest hrest).mono (fun _ _ h => .inl h) (fun _ h => h) (fun _ h => h)
  · rw [bind_done f' hdone]
    exact hf a rest rest' hleft

/-- The same with a first run that leaves nothing free. -/
theorem Leads.andThen {p p' : Parser α} {f f' : α → Parser β}
    (hp : (p ts).Leads Nowhere left (p' us))
    (hf : ∀ a rest rest', left rest rest' → (f a rest).Leads free' left' (f' a rest')) :
    ((p >>= f) ts).Leads free' left' ((p' >>= f') us) :=
  hp.bind (fun _ _ h => h.elim) hf

theorem Leads.map {p p' : Parser α} (hp : (p ts).Leads free left (p' us)) (g : α → β) :
    ((p >>= fun a => pure (g a)) ts).Leads free left ((p' >>= fun a => pure (g a)) us) :=
  hp.bind (fun _ _ h => h) fun _ _ _ h => leads_done h

theorem Leads.orSkim {p p' : Parser α} {skim : Skim} (hp : (p ts).Leads free left (p' us)) :
    ((p.orSkim skim) ts).Leads free left ((p'.orSkim skim) us) := by
  refine Sat.mono (Sat.orSkim hp) ?_ (fun _ h => h) (fun _ h => h)
  intro a rest hrest
  unfold Parser.orSkim
  rcases hrest with hrest | ⟨rest', hdone, hleft⟩
  · exact .inl hrest
  · rw [hdone]
    exact .inr ⟨rest', rfl, hleft⟩

end Outcome

/-! ## Steps -/

section Steps

variable {breaks : Nat} {p : Slot} {ts us : List Token} {free : List Token → Prop}
  {left : List Token → List Token → Prop}

theorem expect_aligned {kind : Kind} (hk : kind ≠ .eof) (h : Aligned breaks p ts us) :
    (expect kind ts).Leads Nowhere (Spaced breaks (p.after kind)) (expect kind us) := by
  obtain ⟨later⟩ := h
  rename_i t ts us
  by_cases ht : t.kind = kind
  · rw [expect_pos ht, expect_pos ht]
    exact Outcome.leads_done (Spaced.of_kind later ht hk)
  · exact (expect_refuses ht ts).leads

theorem expect_leads {kind : Kind} (hk : kind ≠ .eof) (hpauses : p.pauses kind = false)
    (hp : p.spot ≠ .loose) (h : Spaced breaks p ts us) :
    (expect kind ts).Leads Nowhere (Spaced breaks (p.after kind)) (expect kind us) := by
  cases h.fronts hp with
  | pause ht _ _ => exact (expect_refuses (Slot.ne_of_pauses ht hpauses) _).leads
  | same later => exact expect_aligned hk (.mk later)

/-- Line breaks are skipped up to the same token, or up to a semicolon in the first list. -/
theorem skipNewlines_leads (h : Spaced breaks p ts us) (hp : ∀ opens, p.spot ≠ .word opens) :
    (skipNewlines ts).Leads AtSemicolon (Aligned breaks ⟨.plain, p.opened⟩) (skipNewlines us) := by
  induction h with
  | last he ts us =>
      rw [skipNewlines_cons (by simp [he]), skipNewlines_cons (by simp [he])]
      exact Outcome.leads_done (.mk fun hne => absurd he hne)
  | @cons _ p t ts us ht later ih =>
      by_cases hn : t.kind = .newline
      · rw [skipNewlines_newline hn, skipNewlines_newline hn]
        rw [hn] at ih
        exact ih fun _ => by simp [Slot.after]
      · rw [skipNewlines_cons hn, skipNewlines_cons hn]
        refine Outcome.leads_done (.mk fun _ => ?_)
        rwa [Slot.after_eq_plain hp]
  | semicolon ht hu later ih =>
      rw [skipNewlines_cons (by simp [ht])]
      exact .inl ⟨_, _, rfl, ht⟩
  | gap hu _ _ ih =>
      rw [skipNewlines_newline hu]
      exact (ih hp).mono Aligned.mono

theorem next_aligned {kind : Kind} (hk : kind ≠ .eof) {f f' : Bool → Parser β}
    (h : Aligned breaks p ts us)
    (hyes : ∀ t ts' us', ts = t :: ts' → us = t :: us' → Spaced breaks (p.after kind) ts' us' →
      (f true ts).Leads free left (f' true us))
    (hno : (f false ts).Leads free left (f' false us)) :
    ((next kind >>= f) ts).Leads free left ((next kind >>= f') us) := by
  obtain ⟨later⟩ := h
  rename_i t ts us
  rw [bind_next, bind_next]
  by_cases ht : t.kind = kind
  · rw [decide_eq_true ht]
    exact hyes t ts us rfl rfl (Spaced.of_kind later ht hk)
  · rw [decide_eq_false ht]
    exact hno

theorem next_leads {kind : Kind} (hk : kind ≠ .eof) (hpauses : p.pauses kind = false)
    (hp : p.spot ≠ .loose) {f f' : Bool → Parser β} (h : Spaced breaks p ts us)
    (hyes : ∀ t ts' us', ts = t :: ts' → us = t :: us' → Spaced breaks (p.after kind) ts' us' →
      (f true ts).Leads free left (f' true us))
    (hno : (f false ts).Leads free left (f' false us)) :
    ((next kind >>= f) ts).Leads free left ((next kind >>= f') us) := by
  cases h.fronts hp with
  | pause ht hu _ =>
      rw [bind_next, bind_next, decide_eq_false (Slot.ne_of_pauses ht hpauses),
        decide_eq_false (Slot.ne_of_pauses hu hpauses)]
      exact hno
  | same later => exact next_aligned hk (.mk later) hyes hno

end Steps

end Grammar

end RToJulia
