import RToJulia.Proofs.Token.Lexed
import RToJulia.Proofs.Tree.Precedence

/-! # The spelling of tokens

An operator token cut from a source is a spelling of its kind, and a name without
backticks is neither a truth value nor a keyword.
-/

namespace RToJulia

open Text Lexer

/-- A name that is cut as a name without backticks. -/
def isFreeName (x : Bytes) : Bool :=
  isPlainName x && (nameToken 1 x).kind = .ident

structure Token.Spelled (t : Token) : Prop where
  operator : t.isSpelled = true
  name : t.kind = .ident → t.lexeme.head? ≠ some 0x60 → isFreeName t.lexeme = true

/-! ## Pieces -/

section Pieces

variable {line : Nat} {b : UInt8} {rest : Bytes} {t : Token}

/-- A kind that neither operators nor names have asks nothing of the lexeme. -/
theorem spelled_of_kind (hlevel : Grammar.level? t.kind = none) (hbang : t.kind ≠ .bang)
    (hident : t.kind ≠ .ident) : t.Spelled where
  operator := by simp [Token.isSpelled, hlevel, hbang]
  name h := absurd h hident

theorem operator?_spelled {kind : Kind} {two : Bool}
    (h : operator? b rest.head? = some (kind, two)) :
    Token.Spelled ⟨kind, if two then b :: rest.take 1 else [b], line, none⟩ := by
  have hident : kind ≠ .ident := by
    unfold operator? at h
    split at h <;> cases h <;> simp
  refine ⟨?_, fun hk => absurd hk hident⟩
  generalize hnext : rest.head? = next at h
  unfold operator? at h
  split at h <;> cases h
  case h_1 | h_2 | h_4 | h_6 | h_8 | h_10 | h_12 =>
    obtain ⟨tail, rfl⟩ := List.head?_eq_some_iff.mp hnext
    rfl
  all_goals rfl

theorem single?_spelled {kind : Kind} (h : single? b = some kind) :
    Token.Spelled ⟨kind, [b], line, none⟩ := by
  unfold single? at h
  split at h <;> cases h <;> exact ⟨rfl, by simp⟩

theorem nameToken_lexeme (line : Nat) (x : Bytes) : (nameToken line x).lexeme = x := by
  unfold nameToken
  split
  · rfl
  split <;> rfl

theorem nameToken_kind (line : Nat) (x : Bytes) :
    (nameToken line x).kind = (nameToken 1 x).kind := by
  unfold nameToken
  split
  · rfl
  split <;> rfl

theorem isFreeName_spec {x : Bytes} (h : isFreeName x = true) :
    isPlainName x = true ∧ ∀ line, (nameToken line x).kind = .ident := by
  simp only [isFreeName, Bool.and_eq_true, decide_eq_true_eq] at h
  exact ⟨h.1, fun line => (nameToken_kind line x).trans h.2⟩

theorem nameToken_spelled {x : Bytes} (hx : isPlainName x = true) :
    (nameToken line x).Spelled := by
  by_cases hident : (nameToken line x).kind = .ident
  · refine ⟨by simp [Token.isSpelled, hident, Grammar.level?], fun _ _ => ?_⟩
    rw [nameToken_lexeme, isFreeName, hx, ← nameToken_kind line, hident]
    rfl
  · have hother : Grammar.level? (nameToken line x).kind = none ∧
        (nameToken line x).kind ≠ .bang := by
      unfold nameToken
      split
      · exact ⟨rfl, by simp⟩
      split
      · exact ⟨rfl, by simp⟩
      cases hk : keyword? x with
      | none => exact ⟨rfl, by simp⟩
      | some kind => exact (keyword?_spec hk).2
    exact spelled_of_kind hother.1 hother.2 hident

theorem piece_spelled (h : piece line b rest = .token t) : t.Spelled := by
  unfold piece at h
  split at h
  · contradiction
  split at h
  · cases h
    exact spelled_of_kind rfl (by simp) (by simp)
  split at h
  · contradiction
  split at h
  · unfold stringPiece at h
    split at h
    · cases h
      exact spelled_of_kind rfl (by simp) (by simp)
    · contradiction
  split at h
  · unfold quotedName at h
    dsimp only at h
    split at h
    · cases h
      exact ⟨rfl, fun _ hquote => absurd rfl hquote⟩
    · contradiction
  split at h
  · rename_i kind two hop
    cases h
    exact operator?_spelled hop
  split at h
  · rename_i kind hsingle
    cases h
    exact single?_spelled hsingle
  split at h
  · unfold number at h
    dsimp only at h
    split at h
    · cases h
      exact spelled_of_kind rfl (by simp) (by simp)
    · split at h
      · cases h
        exact spelled_of_kind rfl (by simp) (by simp)
      · contradiction
  split at h
  · rename_i hstart
    cases h
    exact nameToken_spelled (by simp [isPlainName, hstart])
  · contradiction

end Pieces

/-! ## Sources -/

theorem tokens_spelled (source : Bytes) : ∀ t ∈ tokens source, t.Spelled :=
  tokens_of_pieces (fun _ _ _ _ h => piece_spelled h)
    (fun _ => spelled_of_kind rfl (by simp [Token.eof]) (by simp [Token.eof])) source

end RToJulia
