import RToJulia.Proofs.Token.Spans

/-! # Tokens with other blanks between them

A token is cut from its lexeme again wherever a blank or the end stands behind it. So the
tokens of a source written one behind the other, with a blank between two of them, are
read as the same tokens on the same lines.
-/

namespace RToJulia

open Text Lexer

/-! ## One token -/

def EndsBlank (left : Bytes) : Prop :=
  left = [] ∨ ∃ more, left = 0x20 :: more

theorem EndsBlank.endsWord {left : Bytes} (h : EndsBlank left) : EndsWord left := by
  rcases h with rfl | ⟨more, rfl⟩
  · simp [EndsWord]
  · exact endsWord_cons rfl more

theorem EndsBlank.longest {P : Bytes → Prop} {t left : Bytes} (h : EndsBlank left) (ht : P t)
    (hblank : ∀ u, P u → 0x20 ∉ u) : Longest P t left := by
  rcases h with rfl | ⟨more, rfl⟩
  · exact .alone ht
  · exact (Longest.alone ht).append hblank more

/-- An operator that a byte did not complete is not completed by a blank or the end. -/
theorem EndsBlank.spelled {b : UInt8} {kind : Kind} {next : Option UInt8} {left : Bytes}
    (h : EndsBlank left) (hspelled : operator? b next = some (kind, false)) :
    operator? b left.head? = some (kind, false) := by
  have halone : operator? b none = some (kind, false) := by
    unfold operator? at hspelled
    split at hspelled <;> cases hspelled <;> rfl
  rcases h with rfl | ⟨more, rfl⟩
  · exact halone
  · unfold operator? at halone
    split at halone <;> cases halone <;> rfl

theorem isFloat_blank (u : Bytes) (h : IsFloat u) : 0x20 ∉ u :=
  h.not_mem rfl (by decide) (by decide)

/-- A token is cut from its lexeme in front of a blank or the end. -/
theorem Cut.respaced {line : Nat} {s left : Bytes} {t : Token} (h : Cut line s (.token t) left)
    {left' : Bytes} (hleft : EndsBlank left') : Cut line (t.lexeme ++ left') (.token t) left' := by
  generalize hp : Piece.token t = p at h
  cases h with
  | newline inside ends =>
      cases hp
      refine .newline inside ?_
      rcases hleft with rfl | ⟨more, rfl⟩ <;> simp
  | string left hquote closed =>
      cases hp
      simpa using Cut.string left' hquote closed
  | quoted left hbody =>
      cases hp
      simpa using Cut.quoted left' hbody
  | pair left spelled =>
      cases hp
      exact .pair left' spelled
  | operator spelled =>
      cases hp
      exact .operator (hleft.spelled spelled)
  | single left spelled =>
      cases hp
      exact .single left' spelled
  | float longest reads =>
      cases hp
      exact .float (hleft.longest longest.1 isFloat_blank) reads
  | @integer ds mark left digits suffix longest noFloat =>
      cases hp
      have halone : ∀ front rest, ds ++ mark = front ++ rest → ¬ IsFloat front := by
        intro front rest heq
        exact noFloat front (rest ++ left) (by rw [heq, List.append_assoc])
      refine .integer digits suffix (hleft.longest longest.1 fun u hu => hu.not_mem rfl) ?_
      rcases hleft with rfl | ⟨more, rfl⟩
      · rw [List.append_nil]
        exact halone
      · exact not_front_append halone isFloat_blank more
  | name plain ends =>
      cases hp
      rw [nameToken_lexeme]
      exact .name plain hleft.endsWord
  | _ => contradiction

/-! ## All tokens -/

def respaced (ts : List Token) : Bytes :=
  [0x20].intercalate (ts.map Token.lexeme)

theorem respaced_cons (t : Token) (ts : List Token) :
    ts = [] ∧ respaced (t :: ts) = t.lexeme ++ [] ∨
      respaced (t :: ts) = t.lexeme ++ 0x20 :: respaced ts := by
  cases ts with
  | nil => exact .inl ⟨rfl, by simp [respaced, List.intercalate]⟩
  | cons u us => exact .inr (by simp [respaced, List.intercalate_cons_cons])

/-- A piece that is no token adds no line break, except at the end of the text. -/
theorem Cut.lineBreaks_eq {line : Nat} {s left : Bytes} {p : Piece} (h : Cut line s p left)
    (hp : p.token? = none) : lineBreaks p = 0 ∨ left = [] := by
  cases h with
  | unterminated hquote unclosed => exact .inr rfl
  | _ => first | exact .inl rfl | contradiction

theorem Cuts.respaced {line last : Nat} {s : Bytes} {ps : List Piece} (h : Cuts line s ps last) :
    ∃ qs last', Cuts line (respaced (ps.filterMap Piece.token?)) qs last' ∧
      qs.filterMap Piece.token? = ps.filterMap Piece.token? ∧ ∀ text f, .fault text f ∉ qs := by
  induction h with
  | nil line => exact ⟨[], line, .nil line, rfl, by simp⟩
  | @cons line last s left p ps first later ih =>
      obtain ⟨qs, last', hcuts, htokens, hfaults⟩ := ih
      cases hp : p.token? with
      | none =>
          rw [List.filterMap_cons_none hp]
          rcases first.lineBreaks_eq hp with hbreaks | rfl
          · rw [hbreaks] at hcuts
            exact ⟨qs, last', hcuts, htokens, hfaults⟩
          · rw [later.eq_nil]
            exact ⟨[], line, .nil line, rfl, by simp⟩
      | some t =>
          obtain rfl : p = .token t := by
            cases p <;> cases hp
            rfl
          rw [List.filterMap_cons_some hp]
          rcases respaced_cons t (ps.filterMap Piece.token?) with ⟨hnil, htext⟩ | htext
          · rw [htext, hnil]
            exact ⟨[.token t], _, .cons (first.respaced (.inl rfl)) (.nil _), rfl, by simp⟩
          · rw [htext]
            refine ⟨.token t :: .blank 0x20 :: qs, last', ?_, ?_, ?_⟩
            · exact .cons (first.respaced (.inr ⟨_, rfl⟩)) (.cons (.blank _ (.inl rfl)) hcuts)
            · rw [List.filterMap_cons_some hp, List.filterMap_cons_none rfl, htokens]
            · simpa using hfaults

def wordTokens (source : Bytes) : List Token :=
  (tokens source).filter (·.kind ≠ .eof)

theorem Cuts.wordTokens_eq {s : Bytes} {ps : List Piece} {last : Nat} (h : Cuts 1 s ps last) :
    wordTokens s = ps.filterMap Piece.token? := by
  have hall : ∀ t ∈ ps.filterMap Piece.token?, decide (t.kind ≠ .eof) = true := by
    intro t ht
    obtain ⟨p, hp, hpt⟩ := List.mem_filterMap.mp ht
    cases p <;> cases hpt
    exact decide_eq_true (h.spans.ne_eof t hp)
  rw [wordTokens, h.tokens_eq, List.filter_append, List.filter_eq_self.mpr hall]
  exact List.append_nil _

/-- The tokens of a source are read back from their lexemes with single blanks between them. -/
theorem wordTokens_respaced (source : Bytes) :
    wordTokens (respaced (wordTokens source)) = wordTokens source ∧
      lexFaults (respaced (wordTokens source)) = [] := by
  obtain ⟨ps, last, hcuts⟩ := exists_cuts 1 source
  rw [hcuts.wordTokens_eq]
  obtain ⟨qs, last', hagain, htokens, hfaults⟩ := hcuts.respaced
  rw [hagain.wordTokens_eq]
  refine ⟨htokens, List.eq_nil_iff_forall_not_mem.mpr fun f hf => ?_⟩
  obtain ⟨text, htext⟩ := (hagain.mem_lexFaults f).mp hf
  exact hfaults text f htext

end RToJulia
