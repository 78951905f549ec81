import Mathlib.Data.List.Forall2
import RToJulia.Proofs.Grammar.Lines
import RToJulia.Proofs.Token.Seams
import RToJulia.Proofs.Token.Spans
import RToJulia.Translate

/-! # Sources one behind the other

A line break ends every piece but an open string, so the tokens of two texts with a line break
between them come one behind the other. Only line breaks at the seam become one token, and the
tokens of the second text are on later lines. So two programs are read as the statements of
the first and then those of the second.
-/

namespace RToJulia

open Text Lexer

/-! ## In front of a line break -/

/-- A piece is cut in front of a line break that is put behind the text, unless it is an open
string or takes the line break in. -/
theorem Cut.before_newline {line : Nat} {s left : Bytes} {p : Piece} (h : Cut line s p left)
    (hstring : ∀ text l, p ≠ .fault text (.unterminated l))
    (hnewline : left = [] → ∀ t, p = .token t → t.kind ≠ .newline) (more : Bytes) :
    Cut line (s ++ 0x0a :: more) p (left ++ 0x0a :: more) :=
  h.before rfl more hstring (fun hleft _ => hnewline hleft) (fun _ hne => absurd rfl hne)
    fun _ lone => not_quotable_seam (.inl rfl) lone more

/-- The pieces of a text are cut in front of a line break as well, except for line breaks at its
end, which become one piece with what comes behind them. -/
theorem Cuts.before_newline {line last : Nat} {s : Bytes} {ps : List Piece}
    (h : Cuts line s ps last) (hstring : ∀ text l, .fault text (.unterminated l) ∉ ps) :
    ∃ front gap breaks l, ps = front ++ gap ∧
      (∀ p ∈ gap, ∃ t, p = .token t ∧ t.kind = .newline) ∧ (∀ b ∈ breaks, b = 0x0a) ∧
      ∀ more qs last', Cuts l (breaks ++ 0x0a :: more) qs last' →
        Cuts line (s ++ 0x0a :: more) (front ++ qs) last' := by
  induction h with
  | nil line => exact ⟨[], [], [], line, rfl, by simp, by simp, fun _ _ _ h => h⟩
  | @cons line last s left p ps first later ih =>
      by_cases hp : left = [] ∧ ∃ t, p = .token t ∧ t.kind = .newline
      · obtain ⟨rfl, t, rfl, hk⟩ := hp
        have hs : s = t.lexeme := first.source_eq.trans (List.append_nil _)
        refine ⟨[], [.token t], s, line, by rw [later.eq_nil]; rfl, ?_, ?_, fun _ _ _ h => h⟩
        · simpa using hk
        · rw [hs]
          exact (first.newline_spec hk).1
      · obtain ⟨front, gap, breaks, l, rfl, hgap, hbreaks, hcuts⟩ :=
          ih fun text l hmem => hstring text l (List.mem_cons_of_mem p hmem)
        refine ⟨p :: front, gap, breaks, l, rfl, hgap, hbreaks, fun more qs last' h => ?_⟩
        refine .cons (first.before_newline ?_ ?_ more) (hcuts more qs last' h)
        · rintro text l rfl
          exact hstring text l (by simp)
        · intro hleft t ht hk
          exact hp ⟨hleft, t, ht, hk⟩

/-! ## On another line -/

theorem nameToken_alike (line line' : Nat) (x : Bytes) :
    (nameToken line x).Alike (nameToken line' x) := by
  unfold nameToken
  split
  · exact ⟨rfl, rfl, rfl⟩
  split <;> exact ⟨rfl, rfl, rfl⟩

theorem Cut.shift {line : Nat} {s left : Bytes} {p : Piece} (h : Cut line s p left) (line' : Nat) :
    ∃ q, Cut line' s q left ∧ (p.token? = none ∧ q.token? = none ∨
      ∃ t u, p.token? = some t ∧ q.token? = some u ∧ t.Alike u) := by
  cases h with
  | blank left hb => exact ⟨_, .blank left hb, .inl ⟨rfl, rfl⟩⟩
  | newline inside ends => exact ⟨_, .newline inside ends, .inr ⟨_, _, rfl, rfl, rfl, rfl, rfl⟩⟩
  | comment inside ends => exact ⟨_, .comment inside ends, .inl ⟨rfl, rfl⟩⟩
  | string left hquote closed =>
      exact ⟨_, .string left hquote closed, .inr ⟨_, _, rfl, rfl, rfl, rfl, rfl⟩⟩
  | unterminated hquote unclosed => exact ⟨_, .unterminated hquote unclosed, .inl ⟨rfl, rfl⟩⟩
  | quoted left hbody => exact ⟨_, .quoted left hbody, .inr ⟨_, _, rfl, rfl, rfl, rfl, rfl⟩⟩
  | backtick lone => exact ⟨_, .backtick lone, .inl ⟨rfl, rfl⟩⟩
  | pair left spelled => exact ⟨_, .pair left spelled, .inr ⟨_, _, rfl, rfl, rfl, rfl, rfl⟩⟩
  | operator spelled => exact ⟨_, .operator spelled, .inr ⟨_, _, rfl, rfl, rfl, rfl, rfl⟩⟩
  | single left spelled => exact ⟨_, .single left spelled, .inr ⟨_, _, rfl, rfl, rfl, rfl, rfl⟩⟩
  | float longest reads => exact ⟨_, .float longest reads, .inr ⟨_, _, rfl, rfl, rfl, rfl, rfl⟩⟩
  | floatRange longest range => exact ⟨_, .floatRange longest range, .inl ⟨rfl, rfl⟩⟩
  | integer digits suffix longest noFloat =>
      exact ⟨_, .integer digits suffix longest noFloat, .inr ⟨_, _, rfl, rfl, rfl, rfl, rfl⟩⟩
  | name plain ends =>
      exact ⟨_, .name plain ends, .inr ⟨_, _, rfl, rfl, nameToken_alike line line' _⟩⟩
  | unexpected stray rune => exact ⟨_, .unexpected stray rune, .inl ⟨rfl, rfl⟩⟩

/-- The tokens of a text are alike on whatever line it starts. -/
theorem Cuts.shift {line last : Nat} {s : Bytes} {ps : List Piece} (h : Cuts line s ps last)
    (line' : Nat) : ∃ qs last', Cuts line' s qs last' ∧
      List.Forall₂ Token.Alike (ps.filterMap Piece.token?) (qs.filterMap Piece.token?) := by
  induction h generalizing line' with
  | nil line => exact ⟨[], line', .nil line', .nil⟩
  | @cons line last s left p ps first later ih =>
      obtain ⟨q, hq, halike⟩ := first.shift line'
      obtain ⟨qs, last', hqs, hrest⟩ := ih (line' + lineBreaks q)
      refine ⟨q :: qs, last', .cons hq hqs, ?_⟩
      rcases halike with ⟨hp, hq⟩ | ⟨t, u, hp, hq, alike⟩
      · rw [List.filterMap_cons_none hp, List.filterMap_cons_none hq]
        exact hrest
      · rw [List.filterMap_cons_some hp, List.filterMap_cons_some hq]
        exact .cons alike hrest

theorem Cuts.ne_eof {line last : Nat} {s : Bytes} {ps : List Piece} (h : Cuts line s ps last) :
    ∀ t ∈ ps.filterMap Piece.token?, t.kind ≠ .eof := by
  intro t ht
  obtain ⟨p, hp, hpt⟩ := List.mem_filterMap.mp ht
  cases p <;> cases hpt
  exact h.spans.ne_eof t hp

theorem follows_of_alike {ts us : List Token} (h : List.Forall₂ Token.Alike ts us)
    (hts : ∀ t ∈ ts, t.kind ≠ .eof) (l l' : Nat) :
    Grammar.Follows [Token.eof l'] (ts ++ [Token.eof l]) (us ++ [Token.eof l']) := by
  induction h with
  | nil => exact .tail (.eof rfl [])
  | @cons t u ts us alike later ih =>
      exact .cons alike (hts t (by simp)) (ih fun v hv => hts v (by simp [hv]))

/-! ## The seam -/

/-- Line breaks in front of a text are one piece, and the text is cut behind it. -/
theorem exists_cuts_breaks (line : Nat) {breaks left : Bytes} (hbreaks : ∀ b ∈ breaks, b = 0x0a)
    (hleft : left.head? ≠ some 0x0a) :
    ∃ gap l, (∀ t ∈ gap, t.kind = .newline) ∧ (breaks ≠ [] → gap ≠ []) ∧
      ∀ ps last, Cuts l left ps last →
        Cuts line (breaks ++ left) (gap.map Piece.token ++ ps) last := by
  cases breaks with
  | nil => exact ⟨[], line, by simp, by simp, fun _ _ h => h⟩
  | cons b breaks =>
      obtain rfl : b = 0x0a := hbreaks b (by simp)
      have hfirst : Cut line _ _ left :=
        .newline (fun c hc => hbreaks c (List.mem_cons_of_mem _ hc)) hleft
      exact ⟨[_], _, by simp, by simp, fun _ _ h => .cons hfirst h⟩

theorem filterMap_token (ts : List Token) :
    (ts.map Piece.token).filterMap Piece.token? = ts := by
  have hsome : Piece.token? ∘ Piece.token = some := rfl
  rw [List.filterMap_map, hsome, List.filterMap_some]

theorem tokens_joined (s₁ s₂ : Bytes) (hstring : ∀ line, .unterminated line ∉ lexFaults s₁) :
    Grammar.Joined (tokens s₁) (tokens s₂) (tokens (s₁ ++ 0x0a :: s₂)) := by
  obtain ⟨ps, last₁, hfirst⟩ := exists_cuts 1 s₁
  have hopen : ∀ text l, .fault text (.unterminated l) ∉ ps := fun text l hmem =>
    hstring l ((hfirst.mem_lexFaults _).mpr ⟨text, hmem⟩)
  obtain ⟨front, gap, breaks, line, rfl, hgap, hbreaks, hwhole⟩ := hfirst.before_newline hopen
  -- `run` goes into the piece at the seam, and `left` is cut as it is in the second text alone.
  obtain ⟨run, left, rfl, hrun, hleft⟩ := exists_run (· == 0x0a) s₂
  have hrun : ∀ b ∈ run, b = 0x0a := fun b hb => by simpa using hrun b hb
  have hleft : left.head? ≠ some 0x0a := fun hb => by simpa using hleft _ hb
  have hseam : ∀ b ∈ breaks ++ 0x0a :: run, b = 0x0a := by
    intro b hb
    rcases List.mem_append.mp hb with hb | hb
    · exact hbreaks b hb
    · exact (List.mem_cons.mp hb).elim id (hrun b)
  obtain ⟨gap', l, hgap', -, hsecond⟩ := exists_cuts_breaks 1 hrun hleft
  obtain ⟨seam, l', hseam, hne, hjoined⟩ := exists_cuts_breaks line hseam hleft
  obtain ⟨qs, last₂, hqs⟩ := exists_cuts l left
  obtain ⟨rs, last, hrs, halike⟩ := hqs.shift l'
  have hjoin := hwhole (run ++ left) _ last (by simpa using hjoined rs last hrs)
  rw [hfirst.tokens_eq, (hsecond qs last₂ hqs).tokens_eq, hjoin.tokens_eq]
  simp only [List.filterMap_append, filterMap_token, List.append_assoc]
  refine .mk ?_ ?_ hgap' hseam (hne (by simp)) rfl rfl
    (follows_of_alike halike hqs.ne_eof last₂ last)
  · intro t ht
    exact hfirst.ne_eof t (by rw [List.filterMap_append]; exact List.mem_append_left _ ht)
  · intro t ht
    obtain ⟨p, hp, hpt⟩ := List.mem_filterMap.mp ht
    obtain ⟨u, rfl, hu⟩ := hgap p hp
    cases hpt
    exact hu

/-- Two programs with a line break between them are read as one, unless the first ends in an open
string. -/
theorem parseSource_lines (s₁ s₂ : Bytes) (hstring : ∀ line, .unterminated line ∉ lexFaults s₁)
    {as bs : List Node} (h₁ : parseSource s₁ = .ok as) (h₂ : parseSource s₂ = .ok bs) :
    parseSource (s₁ ++ 0x0a :: s₂) = .ok (as ++ bs) :=
  parse_joined (tokens_joined s₁ s₂ hstring) h₁ h₂ (tokens_readable _)

theorem parseSource_lines_comment :
    parseSource (utf8 "if (a) b # c" ++ 0x0a :: utf8 "\n-d") =
      .ok [.ifElse (.var "a") (some [.exprStmt (.var "b")]) none,
        .exprStmt (.unary "-" (.var "d"))] := by
  have hfaults : lexFaults (utf8 "if (a) b # c") = [] := rfl
  have hfirst : parseSource (utf8 "if (a) b # c") =
      .ok [.ifElse (.var "a") (some [.exprStmt (.var "b")]) none] := rfl
  have hsecond : parseSource (utf8 "\n-d") = .ok [.exprStmt (.unary "-" (.var "d"))] := rfl
  exact parseSource_lines _ _ (by simp [hfaults]) hfirst hsecond

end RToJulia
