import Mathlib.Data.List.Forall2
import RToJulia.Proofs.Grammar.Follows

/-! # Token lists that are read alike

Two lists are variants of each other when their tokens agree up to the end, names only up
to a relation `Q`, and line breaks up to their number where there are any. Outcomes on two
such lists agree when both are faults, or both are values that are related, with variants
left. An outcome that halts agrees with any other.
-/

namespace RToJulia

/-- The tokens agree in all but their lines, and names only up to `Q`. -/
structure Token.Varies (Q : Bytes → Bytes → Prop) (t u : Token) : Prop where
  kind : t.kind = u.kind
  lexeme : t.kind ≠ .ident → t.lexeme = u.lexeme
  name : t.kind = .ident → Q t.lexeme u.lexeme
  literal : t.literal = u.literal

theorem Token.Varies.refl {Q : Bytes → Bytes → Prop} (hQ : ∀ x, Q x x) (t : Token) :
    t.Varies Q t :=
  ⟨rfl, fun _ => rfl, fun _ => hQ _, rfl⟩

theorem Token.Alike.varies {t u : Token} (h : t.Alike u) : t.Varies Eq u :=
  ⟨h.kind, fun _ => h.lexeme, fun _ => h.lexeme, h.literal⟩

namespace Grammar

open RToJulia.Grammar.Parser

variable {α β : Type} {Q : Bytes → Bytes → Prop}

def afterBreaks (ts : List Token) : List Token :=
  ts.dropWhile (·.kind = .newline)

theorem afterBreaks_newline {t : Token} (h : t.kind = .newline) (ts : List Token) :
    afterBreaks (t :: ts) = afterBreaks ts :=
  List.dropWhile_cons_of_pos (by simpa using h)

theorem afterBreaks_of_ne {t : Token} (h : t.kind ≠ .newline) (ts : List Token) :
    afterBreaks (t :: ts) = t :: ts :=
  List.dropWhile_cons_of_neg (by simpa using h)

theorem afterBreaks_append {gap : List Token} (h : ∀ t ∈ gap, t.kind = .newline)
    (ts : List Token) : afterBreaks (gap ++ ts) = afterBreaks ts :=
  List.dropWhile_append_of_pos (by simpa using h)

/-! ## Variants -/

/-- The lists vary up to their first `eof`: names up to `Q`, and line breaks up to their number. -/
inductive Variant (Q : Bytes → Bytes → Prop) : List Token → List Token → Prop
  | eof {t u : Token} (ht : t.kind = .eof) (hu : u.kind = .eof) (ts us : List Token) :
      Variant Q (t :: ts) (u :: us)
  | newline {t u : Token} {ts us : List Token} (ht : t.kind = .newline) (hu : u.kind = .newline)
      (later : Variant Q (afterBreaks ts) (afterBreaks us)) : Variant Q (t :: ts) (u :: us)
  | cons {t u : Token} {ts us : List Token} (ne : t.kind ≠ .newline) (varies : t.Varies Q u)
      (later : Variant Q ts us) : Variant Q (t :: ts) (u :: us)

namespace Variant

variable {ts us : List Token}

theorem skip (h : Variant Q ts us) : Variant Q (afterBreaks ts) (afterBreaks us) := by
  cases h with
  | eof ht hu ts us =>
      rw [afterBreaks_of_ne (by simp [ht]), afterBreaks_of_ne (by simp [hu])]
      exact .eof ht hu ts us
  | newline ht hu later =>
      rw [afterBreaks_newline ht, afterBreaks_newline hu]
      exact later
  | cons ne varies later =>
      rw [afterBreaks_of_ne ne, afterBreaks_of_ne (varies.kind ▸ ne)]
      exact .cons ne varies later

/-- Tokens that vary in front of variants. -/
theorem push {t u : Token} (h : t.Varies Q u) (later : Variant Q ts us) :
    Variant Q (t :: ts) (u :: us) := by
  by_cases hn : t.kind = .newline
  · exact .newline hn (h.kind ▸ hn) later.skip
  · exact .cons hn h later

theorem append {front front' : List Token} (h : List.Forall₂ (Token.Varies Q) front front')
    (later : Variant Q ts us) : Variant Q (front ++ ts) (front' ++ us) := by
  induction h with
  | nil => exact later
  | cons varies _ ih => exact push varies ih

/-- Any line breaks in front of variants, if there are some in both lists. -/
theorem breaks {gap gap' : List Token} (hgap : ∀ t ∈ gap, t.kind = .newline)
    (hgap' : ∀ t ∈ gap', t.kind = .newline) (hne : gap ≠ []) (hne' : gap' ≠ [])
    (later : Variant Q ts us) : Variant Q (gap ++ ts) (gap' ++ us) := by
  obtain ⟨t, gap, rfl⟩ := List.exists_cons_of_ne_nil hne
  obtain ⟨u, gap', rfl⟩ := List.exists_cons_of_ne_nil hne'
  rw [List.cons_append, List.cons_append]
  refine .newline (hgap t (by simp)) (hgap' u (by simp)) ?_
  rw [afterBreaks_append fun t ht => hgap t (by simp [ht]),
    afterBreaks_append fun t ht => hgap' t (by simp [ht])]
  exact later.skip

/-- The next tokens are of one kind, and behind all but a line break or the end the lists vary. -/
theorem fronts (h : Variant Q ts us) :
    ∃ t ts' u us', ts = t :: ts' ∧ us = u :: us' ∧ t.kind = u.kind ∧
      (t.kind ≠ .eof → t.kind ≠ .newline → t.Varies Q u ∧ Variant Q ts' us') := by
  cases h with
  | eof ht hu ts us => exact ⟨_, _, _, _, rfl, rfl, ht.trans hu.symm, fun hne => absurd ht hne⟩
  | newline ht hu later =>
      exact ⟨_, _, _, _, rfl, rfl, ht.trans hu.symm, fun _ hne => absurd ht hne⟩
  | cons ne varies later =>
      exact ⟨_, _, _, _, rfl, rfl, varies.kind, fun _ _ => ⟨varies, later⟩⟩

theorem literalTree?_eq {t u : Token} (h : Variant Q (t :: ts) (u :: us)) :
    literalTree? t = literalTree? u := by
  obtain ⟨_, _, _, _, ⟨⟩, ⟨⟩, hkind, later⟩ := h.fronts
  by_cases hend : t.kind = .eof
  · simp [literalTree?, ← hkind, hend]
  by_cases hbreak : t.kind = .newline
  · simp [literalTree?, ← hkind, hbreak]
  · simp only [literalTree?, hkind, (later hend hbreak).1.literal]

theorem elseFollows_eq (h : Variant Q ts us) : elseFollows ts = elseFollows us := by
  obtain ⟨t, ts', u, us', hts, hus, hkind, -⟩ := h.skip.fronts
  unfold afterBreaks at hts hus
  unfold elseFollows
  simp only [hts, hus, hkind]

theorem startsNamed_eq (h : Variant Q ts us) : startsNamed ts = startsNamed us := by
  obtain ⟨t, ts, u, us, rfl, rfl, hkind, later⟩ := h.fronts
  by_cases hident : t.kind = .ident
  · obtain ⟨t', ts, u', us, rfl, rfl, hkind', -⟩ :=
      (later (by simp [hident]) (by simp [hident])).2.fronts
    simp only [startsNamed, hkind, hkind']
  · rw [startsNamed_of_ne hident, startsNamed_of_ne (hkind ▸ hident)]

theorem startsDeclaration_eq (h : Variant Q ts us) :
    startsDeclaration ts = startsDeclaration us := by
  obtain ⟨t, ts, u, us, rfl, rfl, hkind, later⟩ := h.fronts
  by_cases hident : t.kind = .ident
  · obtain ⟨t', ts, u', us, rfl, rfl, hkind', later'⟩ :=
      (later (by simp [hident]) (by simp [hident])).2.fronts
    by_cases harrow : t'.kind = .backArrow
    · obtain ⟨t'', ts, u'', us, rfl, rfl, hkind'', -⟩ :=
        (later' (by simp [harrow]) (by simp [harrow])).2.fronts
      simp only [startsDeclaration, hkind, hkind', hkind'']
    · rw [startsDeclaration_of_ne_arrow harrow, startsDeclaration_of_ne_arrow (hkind' ▸ harrow)]
  · rw [startsDeclaration_of_ne hident, startsDeclaration_of_ne (hkind ▸ hident)]

/-- Where one list begins with a named argument, so does the other. -/
theorem named (h : Variant Q ts us) (hstarts : startsNamed ts = true) :
    ∃ t mark ts' u mark' us', ts = t :: mark :: ts' ∧ us = u :: mark' :: us' ∧
      Q t.lexeme u.lexeme ∧ Variant Q ts' us' := by
  obtain ⟨t, ts, u, us, rfl, rfl, -, later⟩ := h.fronts
  have hident : t.kind = .ident := by
    refine Decidable.byContradiction fun hne => ?_
    simp [startsNamed_of_ne hne] at hstarts
  obtain ⟨varies, hv⟩ := later (by simp [hident]) (by simp [hident])
  obtain ⟨mark, ts, mark', us, rfl, rfl, -, later⟩ := hv.fronts
  have hmark : mark.kind = .equal := by
    simp only [startsNamed, Bool.and_eq_true, decide_eq_true_eq] at hstarts
    exact hstarts.2
  exact ⟨t, mark, ts, u, mark', us, rfl, rfl, varies.name hident,
    (later (by simp [hmark]) (by simp [hmark])).2⟩

/-- Where one list begins with a declaration, so does the other. -/
theorem declaration (h : Variant Q ts us) (hstarts : startsDeclaration ts = true) :
    ∃ t arrow word ts' u arrow' word' us', ts = t :: arrow :: word :: ts' ∧
      us = u :: arrow' :: word' :: us' ∧ Q t.lexeme u.lexeme ∧ Variant Q ts' us' := by
  obtain ⟨t, ts, u, us, rfl, rfl, -, later⟩ := h.fronts
  have hident : t.kind = .ident := by
    refine Decidable.byContradiction fun hne => ?_
    simp [startsDeclaration_of_ne hne] at hstarts
  obtain ⟨varies, hv⟩ := later (by simp [hident]) (by simp [hident])
  obtain ⟨arrow, ts, arrow', us, rfl, rfl, -, later⟩ := hv.fronts
  have harrow : arrow.kind = .backArrow := by
    refine Decidable.byContradiction fun hne => ?_
    simp [startsDeclaration_of_ne_arrow hne] at hstarts
  obtain ⟨-, hv⟩ := later (by simp [harrow]) (by simp [harrow])
  obtain ⟨word, ts, word', us, rfl, rfl, -, later⟩ := hv.fronts
  have hword : word.kind = .kwFunction := by
    simp only [startsDeclaration, Bool.and_eq_true, decide_eq_true_eq] at hstarts
    exact hstarts.2
  exact ⟨t, arrow, word, ts, u, arrow', word', us, rfl, rfl, varies.name hident,
    (later (by simp [hword]) (by simp [hword])).2⟩

end Variant

/-! ## Outcomes -/

/-- Both outcomes are faults, or related values with variants left, or one of them halts. -/
inductive Outcome.Agrees (Q : Bytes → Bytes → Prop) (S : α → α → Prop) :
    Outcome α → Outcome α → Prop
  | done {a b : α} {ts us : List Token} (related : S a b) (left : Variant Q ts us) :
      Agrees Q S (.done a ts) (.done b us)
  | fail (e e' : SyntaxFault) (ts us : List Token) : Agrees Q S (.fail e ts) (.fail e' us)
  | haltFirst (reason : Halt) (o : Outcome α) : Agrees Q S (.halt reason) o
  | haltSecond (o : Outcome α) (reason : Halt) : Agrees Q S o (.halt reason)

section Agrees

variable {S : α → α → Prop} {S' : β → β → Prop} {ts us : List Token}

theorem Outcome.Agrees.bind {p p' : Parser α} {f f' : α → Parser β}
    (h : (p ts).Agrees Q S (p' us))
    (hf : ∀ a b ts us, S a b → Variant Q ts us → (f a ts).Agrees Q S' (f' b us)) :
    ((p >>= f) ts).Agrees Q S' ((p' >>= f') us) := by
  change (Parser.bind p f ts).Agrees Q S' (Parser.bind p' f' us)
  unfold Parser.bind
  generalize p ts = o at h
  generalize p' us = o' at h
  cases h with
  | done related left => exact hf _ _ _ _ related left
  | fail e e' ts us => exact .fail e e' ts us
  | haltFirst reason o => exact .haltFirst reason _
  | haltSecond o reason => exact .haltSecond _ reason

theorem Outcome.Agrees.mono {S' : α → α → Prop} {o o' : Outcome α} (h : o.Agrees Q S o')
    (hs : ∀ a b, S a b → S' a b) : o.Agrees Q S' o' := by
  cases h with
  | done related left => exact .done (hs _ _ related) left
  | fail e e' ts us => exact .fail e e' ts us
  | haltFirst reason o => exact .haltFirst reason _
  | haltSecond o reason => exact .haltSecond _ reason

theorem Outcome.Agrees.map {p p' : Parser α} {f f' : α → β} (h : (p ts).Agrees Q S (p' us))
    (hf : ∀ a b, S a b → S' (f a) (f' b)) :
    ((p >>= fun a => pure (f a)) ts).Agrees Q S' ((p' >>= fun a => pure (f' a)) us) :=
  h.bind fun a b _ _ hab hv => .done (hf a b hab) hv

theorem Outcome.Agrees.orSkim {p p' : Parser α} {skim : Skim} (h : (p ts).Agrees Q S (p' us)) :
    ((p.orSkim skim) ts).Agrees Q S ((p'.orSkim skim) us) := by
  unfold Parser.orSkim
  generalize p ts = o at h
  generalize p' us = o' at h
  cases h with
  | done related left => exact .done related left
  | fail e e' ts us =>
      -- Closing the construct ends in the fault again or past the end.
      dsimp only
      cases skim ts with
      | none => exact .haltFirst _ _
      | some ts =>
          cases skim us with
          | none => exact .haltSecond _ _
          | some us => exact .fail e e' ts us
  | haltFirst reason o => exact .haltFirst reason _
  | haltSecond o reason => exact .haltSecond _ reason

/-- Two outcomes that are no values. -/
theorem Outcome.Refuses.agrees {o o' : Outcome α} (h : o.Refuses) (h' : o'.Refuses) :
    o.Agrees Q S o' := by
  cases o with
  | done a ts => exact h.elim
  | halt reason => exact .haltFirst reason _
  | fail e ts =>
      cases o' with
      | done b us => exact h'.elim
      | halt reason => exact .haltSecond _ reason
      | fail e' us => exact .fail e e' ts us

theorem skipNewlines_agrees (h : Variant Q ts us) :
    (skipNewlines ts).Agrees Q (fun _ _ => True) (skipNewlines us) := by
  have hskip := h.skip
  obtain ⟨t, ts', u, us', hts, hus, -, -⟩ := hskip.fronts
  rw [hts, hus] at hskip
  unfold afterBreaks at hts hus
  unfold skipNewlines
  simp only [hts, hus]
  exact .done trivial hskip

/-- A kind other than a line break and the end is expected in both lists. -/
theorem expect_agrees {kind : Kind} (hend : kind ≠ .eof) (hbreak : kind ≠ .newline)
    (h : Variant Q ts us) :
    (expect kind ts).Agrees Q (fun t u => t.kind = kind ∧ t.Varies Q u) (expect kind us) := by
  obtain ⟨t, ts, u, us, rfl, rfl, hkind, later⟩ := h.fronts
  by_cases hk : t.kind = kind
  · obtain ⟨varies, later⟩ := later (hk ▸ hend) (hk ▸ hbreak)
    rw [expect_pos hk, expect_pos (hkind ▸ hk)]
    exact .done ⟨hk, varies⟩ later
  · obtain ⟨e, he⟩ := expect_neg hk ts
    obtain ⟨e', he'⟩ := expect_neg (hkind ▸ hk) us
    rw [he, he']
    exact .fail e e' _ _

/-- A closing token behind related values. -/
theorem close_agrees {kind : Kind} (hend : kind ≠ .eof) (hbreak : kind ≠ .newline) {a b : α}
    (hab : S a b) (h : Variant Q ts us) :
    ((expect kind >>= fun _ => pure a) ts).Agrees Q S ((expect kind >>= fun _ => pure b) us) :=
  (expect_agrees hend hbreak h).map fun _ _ _ => hab

/-- The next tokens have a kind in both lists, or in none. -/
theorem next_agrees {kind : Kind} {f f' : Bool → Parser α} (hend : kind ≠ .eof)
    (hbreak : kind ≠ .newline) (h : Variant Q ts us)
    (yes : ∀ t u ts' us', ts = t :: ts' → us = u :: us' → Variant Q ts' us' →
      (f true ts).Agrees Q S (f' true us))
    (no : (f false ts).Agrees Q S (f' false us)) :
    ((next kind >>= f) ts).Agrees Q S ((next kind >>= f') us) := by
  obtain ⟨t, ts, u, us, rfl, rfl, hkind, later⟩ := h.fronts
  rw [bind_next, bind_next, ← hkind]
  by_cases hk : t.kind = kind
  · rw [decide_eq_true hk]
    exact yes t u ts us rfl rfl (later (hk ▸ hend) (hk ▸ hbreak)).2
  · rw [decide_eq_false hk]
    exact no

end Agrees

end Grammar

end RToJulia
