import RToJulia.Proofs.Grammar.Soundness
import RToJulia.Proofs.Julia.Totality
import RToJulia.Translate

/-! # Translating any source

A source has a syntax fault or a translation: reading it never halts, and what was
read is written to its end as long as its indentations are in range.
-/

namespace RToJulia

open Julia Node

/-- The deepest level whose indentation is asked for: a record definition has one level, and
statements have their nesting. -/
def programDepth (ss : List Node) : Nat :=
  max 1 (nestingAll ss)

section Generate

variable (o : Options) {ss : List Node}

theorem writeProgram_writes (h : areStatements ss = true) :
    Writes (fun _ => True) (¬ Fits o (programDepth ss)) (writeProgram o ss) := by
  have hnesting : ∀ s ∈ ss, nesting s ≤ nestingAll ss := by
    intro s hs
    induction ss with
    | nil => contradiction
    | cons t ss ih =>
        simp only [nestingAll]
        rcases List.mem_cons.mp hs with rfl | hs
        · exact Nat.le_max_left _ _
        · simp only [areStatements, Bool.and_eq_true] at h
          exact Nat.le_trans (ih h.2 hs) (Nat.le_max_right _ _)
  have hall : ∀ s ∈ ss, Writes (fun _ => True) (¬ Fits o (programDepth ss)) (write o s 0) := by
    intro s hs
    have hlevel : 0 + nesting s ≤ programDepth ss := by
      have := hnesting s hs
      unfold programDepth
      omega
    exact write_statement s ((areStatements_iff ss).mp h s hs) 0 hlevel
  exact .bind (.mapM hall) fun _ _ => .pure trivial

/-- A session writes a well-formed program, unless an indentation is out of range. -/
theorem generate_writes (s : Session) (h : areStatements ss = true) :
    (∃ text s', s.generate o ss = .ok (.ok text, s')) ∨
      s.generate o ss = .error .indentation ∧ ¬ Fits o (programDepth ss) := by
  rcases writeProgram_writes o h s.start rfl with ⟨lines, w, hrun, hw, -⟩ | ⟨hhalt, hshort⟩
  · have hdefinition : ∀ type ∈ w.fresh,
        Writes (fun _ => True) (¬ Fits o (programDepth ss)) (recordDefinition o type) :=
      fun _ _ => .bind (margin_writes (Nat.le_max_left 1 _)) fun _ _ => .pure trivial
    rcases Writes.mapM hdefinition w hw with ⟨definitions, w', hd, -, -⟩ | ⟨hd, hshort⟩
    · exact .inl ⟨_, _, Session.generate_written hrun hw hd⟩
    · exact .inr ⟨Session.generate_definition_halt hrun hw hd, hshort⟩
  · exact .inr ⟨Session.generate_halt hhalt, hshort⟩

end Generate

/-- A source has a syntax fault, or it is read as a program that is translated: no node is
refused and no body is missed. Only an indentation past the greatest one is not written. -/
theorem translate_fault_or_text (o : Options) (source : Bytes) (hw : 0 ≤ o.indentWidth) :
    (∃ f, parseSource source = .error (.fault f) ∧ translate o source = .ok (.error (.parse f))) ∨
      ∃ ss, parseSource source = .ok ss ∧
        ((∃ text, translate o source = .ok (.ok text)) ∨
          translate o source = .error (.writer .indentation) ∧
            Writer.maxMargin < o.indentWidth * programDepth ss) := by
  unfold translate
  cases hparse : parseSource source with
  | error refusal =>
      cases refusal with
      | fault f => exact .inl ⟨f, rfl, rfl⟩
      | halt reason => exact (parse_ne_halt (tokens_readable source) reason hparse).elim
  | ok ss =>
      refine .inr ⟨ss, rfl, ?_⟩
      rcases generate_writes o {} (parse_wellFormed hparse) with ⟨text, s', h⟩ | ⟨h, hshort⟩
      · exact .inl ⟨text, by simp only [h]⟩
      · refine .inr ⟨by simp only [h], ?_⟩
        rw [fits_iff hw] at hshort
        omega

/-- A loop in a `let` has its two levels of indentation in range. -/
theorem translate_fault_or_text_loop :
    ∃ text, translate {} "while (i < 3) i <- i + 1" = .ok (.ok text) := by
  have hparse : parseSource "while (i < 3) i <- i + 1" =
      .ok [.whileLoop (.binary "<" (.var "i") (.int "3"))
        (some [.assign "i" (.binary "+" (.var "i") (.int "1"))])] := rfl
  rcases translate_fault_or_text {} "while (i < 3) i <- i + 1" (by decide) with
    ⟨f, hf, -⟩ | ⟨ss, hss, h | ⟨-, hwide⟩⟩
  · rw [hparse] at hf
    exact nomatch hf
  · exact h
  · rw [hparse] at hss
    cases hss
    exact absurd hwide (by decide)

/-- One level of 2^49 spaces is counted without wrapping around, and is too wide to be written. -/
theorem wide_margin_halts :
    ∃ ss, parseSource "if (a) b" = .ok ss ∧
      562949953421312 * (programDepth ss : Int) < Nat.pow 2 63 ∧
      translate { indentWidth := 562949953421312 } "if (a) b" = .error (.writer .indentation) :=
  ⟨[.ifElse (.var "a") (some [.exprStmt (.var "b")]) none], rfl, by decide, rfl⟩

end RToJulia
