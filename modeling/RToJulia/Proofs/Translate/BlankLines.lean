import RToJulia.Proofs.Grammar.Agreement
import RToJulia.Proofs.Translate.Lines

/-! # Blank lines and comment lines

Lines of blanks and comments are cut into pieces whose only tokens are line breaks. Put in
behind a line break, they leave every piece around them as it was, so the tokens vary only
in the number of these line breaks, and the program is the same.
-/

namespace RToJulia

open Text Lexer Grammar

/-- Lines of blanks, each with a comment at its end or without one. -/
inductive BlankLines : Bytes → Prop
  | nil : BlankLines []
  | cons {gap comment later : Bytes} (blank : ∀ b ∈ gap, b = 0x20 ∨ b = 0x0d ∨ b = 0x09)
      (ends : comment = [] ∨ ∃ body, comment = 0x23 :: body ∧ 0x0a ∉ body)
      (lines : BlankLines later) : BlankLines (gap ++ comment ++ 0x0a :: later)

/-- The text `front` ends just behind a line break that a token of `front ++ back` holds. -/
def BehindBreak (front back : Bytes) : Prop :=
  ∃ before t after breaks more, (pieces (front ++ back)).1 = before ++ .token t :: after ∧
    t.kind = .newline ∧ t.lexeme = breaks ++ more ∧ breaks ≠ [] ∧
    front = before.flatMap Piece.text ++ breaks

/-! ## Pieces of blank lines -/

theorem cuts_blanks {gap : Bytes} (hgap : ∀ b ∈ gap, b = 0x20 ∨ b = 0x0d ∨ b = 0x09) {line last : Nat}
    {left : Bytes} {ps : List Piece} (h : Cuts line left ps last) :
    Cuts line (gap ++ left) (gap.map Piece.blank ++ ps) last := by
  induction gap with
  | nil => exact h
  | cons b gap ih =>
      exact .cons (.blank _ (hgap b (by simp))) (ih fun c hc => hgap c (by simp [hc]))

/-- What stands on a blank line has no token. -/
theorem cuts_blankLine {gap comment : Bytes} (hgap : ∀ b ∈ gap, b = 0x20 ∨ b = 0x0d ∨ b = 0x09)
    (hcomment : comment = [] ∨ ∃ body, comment = 0x23 :: body ∧ 0x0a ∉ body) :
    ∃ qs, qs.filterMap Piece.token? = [] ∧ ∀ line more ps last,
      Cuts line (0x0a :: more) ps last →
        Cuts line (gap ++ comment ++ 0x0a :: more) (qs ++ ps) last := by
  have hblanks : (gap.map Piece.blank).filterMap Piece.token? = [] := by
    simp [List.filterMap_map, Function.comp_def, Piece.token?]
  rcases hcomment with rfl | ⟨body, rfl, hbody⟩
  · refine ⟨gap.map Piece.blank, hblanks, fun line more ps last h => ?_⟩
    rw [List.append_nil]
    exact cuts_blanks hgap h
  · refine ⟨gap.map Piece.blank ++ [.comment (0x23 :: body)], ?_, fun line more ps last h => ?_⟩
    · rw [List.filterMap_append, hblanks]
      rfl
    · rw [List.append_assoc, List.append_assoc]
      exact cuts_blanks hgap (.cons (.comment hbody (.inr rfl)) h)

/-- Blank lines between line breaks, and these line breaks, have no other tokens than line
breaks. -/
theorem cuts_blankLines {text : Bytes} (h : BlankLines text) {more left : Bytes}
    (hmore : ∀ b ∈ more, b = 0x0a) (hleft : left.head? ≠ some 0x0a) (line : Nat) (breaks : Bytes)
    (hbreaks : ∀ b ∈ breaks, b = 0x0a) :
    ∃ qs l, (∀ t ∈ qs.filterMap Piece.token?, t.kind = .newline) ∧
      (breaks ≠ [] → qs.filterMap Piece.token? ≠ []) ∧
      ∀ ps last, Cuts l left ps last →
        Cuts line (breaks ++ (text ++ (more ++ left))) (qs ++ ps) last := by
  induction h generalizing line breaks with
  | nil =>
      have hall : ∀ b ∈ breaks ++ more, b = 0x0a := fun b hb =>
        (List.mem_append.mp hb).elim (hbreaks b) (hmore b)
      obtain ⟨gap, l, hgap, hne, hcuts⟩ := exists_cuts_breaks line hall hleft
      refine ⟨gap.map Piece.token, l, ?_, fun h => ?_, fun ps last hps => ?_⟩
      · rwa [filterMap_token]
      · rw [filterMap_token]
        exact hne (by simp [h])
      · rw [List.nil_append, ← List.append_assoc]
        exact hcuts ps last hps
  | @cons gap comment later blank ends lines ih =>
      by_cases hline : gap ++ comment = []
      · obtain ⟨qs, l, hqs, hne, hcuts⟩ := ih line (breaks ++ [0x0a]) fun b hb =>
          (List.mem_append.mp hb).elim (hbreaks b) (by simp)
        refine ⟨qs, l, hqs, fun _ => hne (by simp), fun ps last hps => ?_⟩
        rw [hline]
        simpa using hcuts ps last hps
      · have hhead : (gap ++ comment ++ 0x0a :: later ++ (more ++ left)).head? ≠ some 0x0a := by
          cases gap with
          | nil =>
              rcases ends with rfl | ⟨body, rfl, -⟩
              · exact absurd rfl hline
              · simp
          | cons b gap => rcases blank b (by simp) with rfl | rfl | rfl <;> simp
        obtain ⟨front, l, hfront, hne, hcuts⟩ := exists_cuts_breaks line hbreaks hhead
        obtain ⟨onLine, hnone, hcut⟩ := cuts_blankLine blank ends
        obtain ⟨qs, l', hqs, -, hlater⟩ := ih l [0x0a] (by simp)
        refine ⟨front.map Piece.token ++ (onLine ++ qs), l', ?_, ?_, fun ps last hps => ?_⟩
        · intro t ht
          rw [List.filterMap_append, List.filterMap_append, filterMap_token, hnone,
            List.nil_append] at ht
          exact (List.mem_append.mp ht).elim (hfront t) (hqs t)
        · intro hb
          rw [List.filterMap_append, filterMap_token]
          simp [hne hb]
        · rw [List.append_assoc (front.map Piece.token), List.append_assoc onLine]
          refine hcuts _ last ?_
          rw [List.append_assoc (gap ++ comment)]
          exact hcut l _ _ last (hlater ps last hps)

/-! ## Tokens and programs -/

/-- Blank lines behind a line break change the number of line breaks there, and nothing else. -/
theorem tokens_blankLines {front back inserted : Bytes} (hplace : BehindBreak front back)
    (hinserted : BlankLines inserted) :
    Variant Eq (tokens (front ++ back)) (tokens (front ++ inserted ++ back)) := by
  obtain ⟨before, t, after, breaks, more, hpieces, hk, hlexeme, hne, rfl⟩ := hplace
  obtain ⟨ps, last, hcuts⟩ := exists_cuts 1 (before.flatMap Piece.text ++ breaks ++ back)
  obtain rfl : ps = before ++ .token t :: after := by
    rw [← hpieces, pieces, hcuts.pieces_eq]
  -- The token holds the line breaks in front of the place and `more` of them behind it.
  obtain rfl : more ++ after.flatMap Piece.text = back := by
    have hsource := hcuts.spans.flatMap_text
    rw [List.flatMap_append, List.flatMap_cons, Piece.text, hlexeme] at hsource
    simpa using hsource
  obtain ⟨_, _, _, hcut⟩ := hcuts.cut_of_mem (p := .token t) (by simp)
  have hall : ∀ b ∈ breaks ++ more, b = 0x0a := hlexeme ▸ (hcut.newline_spec hk).1
  have hbreaks : ∀ b ∈ breaks, b = 0x0a := fun b hb => hall b (by simp [hb])
  have hmore : ∀ b ∈ more, b = 0x0a := fun b hb => hall b (by simp [hb])
  obtain ⟨x, breaks, rfl⟩ := List.exists_cons_of_ne_nil hne
  obtain rfl : x = 0x0a := hbreaks x (by simp)
  have hwhole := hcuts
  rw [List.append_assoc, List.cons_append] at hwhole
  obtain ⟨l, hrest, hswap⟩ := hwhole.reseam (by decide) (c := 0x0a) rfl (by simp) (.inl rfl)
  cases hrest with
  | @cons _ _ _ left _ _ first later =>
  obtain rfl : after.flatMap Piece.text = left := by
    have hsource := first.source_eq
    rw [Piece.text, hlexeme] at hsource
    simpa using hsource
  obtain ⟨qs, l', hqs, hqsne, hblank⟩ :=
    cuts_blankLines hinserted hmore (first.newline_spec hk).2 l _ hbreaks
  obtain ⟨rs, last', hrs, halike⟩ := later.shift l'
  have hinside := hswap (breaks ++ (inserted ++ (more ++ after.flatMap Piece.text))) (qs ++ rs) last'
    (hblank rs last' hrs)
  have htext : before.flatMap Piece.text ++ 0x0a :: breaks ++ inserted ++
      (more ++ after.flatMap Piece.text) = before.flatMap Piece.text ++
        0x0a :: (breaks ++ (inserted ++ (more ++ after.flatMap Piece.text))) := by simp
  rw [hcuts.tokens_eq, htext, hinside.tokens_eq]
  simp only [List.filterMap_append, List.append_assoc]
  refine .append (List.forall₂_same.mpr fun t _ => .refl (fun _ => rfl) t) ?_
  have hone : ∀ u ∈ [t], u.kind = .newline := by simpa using hk
  have hend : Variant Eq [Token.eof last] [Token.eof last'] := .eof rfl rfl [] []
  have hlater := hend.append (halike.imp fun _ _ h => h.varies)
  have hbehind := hlater.breaks hone hqs (by simp) (hqsne hne)
  exact hbehind

/-- Blank lines and comment lines put in behind a line break change neither the text that a source
is written as nor whether it has one. -/
theorem translate_blankLines (o : Options) {front back inserted : Bytes}
    (hplace : BehindBreak front back) (hinserted : BlankLines inserted) :
    (∀ text, translate o (front ++ inserted ++ back) = .ok (.ok text) ↔
        translate o (front ++ back) = .ok (.ok text)) ∧
      ((∃ f, translate o (front ++ inserted ++ back) = .ok (.error f)) ↔
        ∃ f, translate o (front ++ back) = .ok (.error f)) ∧
      ∀ reason, translate o (front ++ inserted ++ back) = .error reason ↔
        translate o (front ++ back) = .error reason := by
  unfold translate parseSource
  rcases parse_variant Builds.eq (tokens_blankLines hplace hinserted) (tokens_readable _)
    (tokens_readable _) with ⟨ss, ss', hfirst, hsecond, heq⟩ | ⟨f, f', hfirst, hsecond⟩
  · rw [List.forall₂_eq_eq_eq] at heq
    rw [hfirst, hsecond, heq]
    simp
  · rw [hfirst, hsecond]
    simp

theorem translate_blankLines_comment :
    BehindBreak (utf8 "if (a)\n") (utf8 "\nb") ∧ BlankLines (utf8 "\t # \"c\n\n") ∧
      translate {} (utf8 "if (a)\n" ++ utf8 "\t # \"c\n\n" ++ utf8 "\nb") =
        .ok (.ok "if a\n    b\nend") := by
  have hplace : BehindBreak (utf8 "if (a)\n") (utf8 "\nb") :=
    ⟨(pieces (utf8 "if (a)")).1, ⟨.newline, utf8 "\n\n", 1, none⟩,
      [.token ⟨.ident, utf8 "b", 3, none⟩], [0x0a], [0x0a], rfl, rfl, rfl, by simp, rfl⟩
  have hlast : BlankLines ([] ++ [] ++ [0x0a]) := .cons (by simp) (.inl rfl) .nil
  have hinserted : BlankLines ([0x09, 0x20] ++ utf8 "# \"c" ++ 0x0a :: [0x0a]) :=
    .cons (by simp) (.inr ⟨_, rfl, by decide⟩) hlast
  exact ⟨hplace, hinserted, ((translate_blankLines {} hplace hinserted).1 _).mpr rfl⟩

end RToJulia
