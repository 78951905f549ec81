import RToJulia.Proofs.Token.Spans

/-! # The line of a token

A token has the line of its first byte, and a string the line of its last one: the line
breaks in front of that byte, counted from one. Only a line break behind a backslash in a
string is passed over, so each one of these makes all later lines too small by one.
-/

namespace RToJulia

open Text Lexer

/-- The line breaks in the body of a string that a backslash takes with it. -/
def escapedBreaks : Bytes → Nat
  | [] => 0
  | 0x5c :: [] => 0
  | 0x5c :: b :: rest => (if b = 0x0a then 1 else 0) + escapedBreaks rest
  | _ :: rest => escapedBreaks rest

def Piece.missedBreaks : Piece → Nat
  | .token t => if t.kind = .string then escapedBreaks (t.lexeme.drop 1) else 0
  | .fault text (.unterminated _) => escapedBreaks (text.drop 1)
  | _ => 0

/-- The part of a token in front of the byte whose line it has. -/
def Token.lead (t : Token) : Bytes :=
  if t.kind = .string then t.lexeme.dropLast else []

/-! ## Strings -/

section Strings

variable {b : UInt8} (rest : Bytes)

theorem escapedBreaks_cons (hb : b ≠ 0x5c) : escapedBreaks (b :: rest) = escapedBreaks rest := by
  rw [escapedBreaks]
  · rintro rfl
    contradiction
  · rintro c tail rfl
    contradiction

theorem bodyBreaks_cons (hb : b ≠ 0x5c) :
    bodyBreaks (b :: rest) = (if b = 0x0a then 1 else 0) + bodyBreaks rest := by
  rw [bodyBreaks]
  · rintro rfl
    contradiction
  · rintro c tail rfl
    contradiction

end Strings

/-- A line break in a string is counted or escaped. -/
theorem bodyBreaks_add_escapedBreaks (body : Bytes) :
    bodyBreaks body + escapedBreaks body = body.count 0x0a := by
  induction body using string_induction with
  | nil => rfl
  | lone => rfl
  | escape b rest ih =>
      rw [bodyBreaks, escapedBreaks, List.count_cons, List.count_cons]
      simp only [beq_iff_eq, (by decide : (0x5c : UInt8) ≠ 0x0a), if_false]
      omega
  | plain b rest hb ih =>
      rw [bodyBreaks_cons rest hb, escapedBreaks_cons rest hb, List.count_cons]
      simp only [beq_iff_eq]
      omega

/-- The quote at the end of a string is no line break, whether it is escaped or not. -/
theorem escapedBreaks_concat {quote : UInt8} (hq : quote ≠ 0x0a) (body : Bytes) :
    escapedBreaks (body ++ [quote]) = escapedBreaks body := by
  induction body using string_induction with
  | nil =>
      by_cases hs : quote = 0x5c
      · rw [hs]
        rfl
      · exact escapedBreaks_cons [] hs
  | lone => simp [escapedBreaks, hq]
  | escape b rest ih => rw [List.cons_append, List.cons_append, escapedBreaks, escapedBreaks, ih]
  | plain b rest hb ih =>
      rw [List.cons_append, escapedBreaks_cons _ hb, escapedBreaks_cons _ hb, ih]

/-! ## Pieces -/

theorem isNameByte_newline {b : UInt8} (h : isNameByte b = true) : b ≠ 0x0a := by
  rintro rfl
  contradiction

theorem isPlainName_newline {x : Bytes} (h : isPlainName x = true) : 0x0a ∉ x := by
  cases x with
  | nil => contradiction
  | cons b x =>
      simp only [isPlainName, Bool.and_eq_true, List.all_eq_true] at h
      rw [List.mem_cons, not_or]
      refine ⟨(isNameByte_newline (by simp [isNameByte, h.1])).symm, fun hmem => ?_⟩
      exact isNameByte_newline (h.2 _ hmem) rfl

theorem operator?_newline_free {b : UInt8} {next : Option UInt8} {kind : Kind} {two : Bool}
    (h : operator? b next = some (kind, two)) :
    b ≠ 0x0a ∧ (two = true → next ≠ some 0x0a) := by
  obtain ⟨-, hb, hnext⟩ := operator?_spec h
  refine ⟨?_, fun htwo => ?_⟩
  · rintro rfl
    contradiction
  · obtain ⟨c, hc, hsym⟩ := hnext htwo
    rw [hc, ne_eq, Option.some.injEq]
    rintro rfl
    contradiction

/-- A token that is neither line breaks nor a string, on one line. -/
theorem breaks_eq_of_token {t : Token} (hstring : t.kind ≠ .string) (hnewline : t.kind ≠ .newline)
    (hline : 0x0a ∉ t.lexeme) :
    lineBreaks (.token t) + (Piece.token t).missedBreaks = t.lexeme.count 0x0a := by
  have hbreaks : lineBreaks (.token t) = 0 := by
    rw [lineBreaks]
    split
    · contradiction
    · contradiction
    · rfl
  rw [hbreaks, Piece.missedBreaks, if_neg hstring, List.count_eq_zero_of_not_mem hline]

/-- The line breaks of a piece are counted or passed over. -/
theorem Cut.breaks_eq {line : Nat} {s left : Bytes} {p : Piece} (h : Cut line s p left) :
    lineBreaks p + p.missedBreaks = p.text.count 0x0a := by
  have hmark : ∀ {kind : Kind}, isMark kind = true → kind ≠ .string ∧ kind ≠ .newline :=
    fun h => ⟨ne_of_isMark h rfl, ne_of_isMark h rfl⟩
  have hquoteBreak : ∀ {quote : UInt8}, quote = 0x22 ∨ quote = 0x27 → quote ≠ 0x0a := by
    rintro quote (rfl | rfl) <;> decide
  cases h with
  | blank left hb => rcases hb with rfl | rfl | rfl <;> rfl
  | @newline breaks left inside ends =>
      have hall : ∀ b ∈ (0x0a : UInt8) :: breaks, 0x0a = b := by
        simpa using fun b hb => (inside b hb).symm
      exact (List.count_eq_length.mpr hall).symm
  | comment inside ends =>
      exact (List.count_eq_zero_of_not_mem (by simpa [Piece.text] using inside)).symm
  | @string quote body left hquote closed =>
      rw [Piece.text, List.cons_append, List.count_cons_of_ne (hquoteBreak hquote)]
      exact bodyBreaks_add_escapedBreaks (body ++ [quote])
  | @unterminated quote body hquote unclosed =>
      rw [Piece.text, List.count_cons_of_ne (hquoteBreak hquote)]
      exact bodyBreaks_add_escapedBreaks body
  | quoted left hbody =>
      exact breaks_eq_of_token (by simp) (by simp) (by simpa using hbody.newline)
  | backtick lone => rfl
  | pair left spelled =>
      obtain ⟨hs, hn⟩ := hmark (operator?_spec spelled).1
      obtain ⟨hb, hc⟩ := operator?_newline_free spelled
      exact breaks_eq_of_token hs hn (by simpa using ⟨hb.symm, fun hn => hc rfl (by rw [hn])⟩)
  | operator spelled =>
      obtain ⟨hs, hn⟩ := hmark (operator?_spec spelled).1
      exact breaks_eq_of_token hs hn (by simpa using (operator?_newline_free spelled).1.symm)
  | single left spelled =>
      obtain ⟨hs, hn⟩ := hmark (single?_spec spelled).1
      refine breaks_eq_of_token hs hn ?_
      rw [List.mem_singleton]
      rintro rfl
      cases spelled
  | float longest reads =>
      exact breaks_eq_of_token (by simp) (by simp) (longest.1.not_mem rfl (by simp) (by simp))
  | floatRange longest range =>
      exact (List.count_eq_zero_of_not_mem (longest.1.not_mem rfl (by simp) (by simp))).symm
  | integer digits suffix longest noFloat =>
      exact breaks_eq_of_token (by simp) (by simp) (longest.1.not_mem rfl)
  | @name x left plain ends =>
      refine breaks_eq_of_token (nameToken_kind_ne line x rfl (by simp) (by simp))
        (nameToken_kind_ne line x rfl (by simp) (by simp)) ?_
      rw [nameToken_lexeme]
      exact isPlainName_newline plain
  | unexpected stray rune =>
      refine (List.count_eq_zero_of_not_mem fun hmem => ?_).symm
      rw [← eq_of_mem_headRune hmem (by decide)] at stray
      exact absurd stray (by decide)

/-- A token has the line it starts on, and a string adds the line breaks counted in it. -/
theorem Cut.line_eq {line : Nat} {s left : Bytes} {t : Token} (h : Cut line s (.token t) left) :
    t.line + (Piece.token t).missedBreaks = line + t.lead.count 0x0a := by
  generalize hp : Piece.token t = p at h
  have hother : ∀ {u : Token}, u.kind ≠ .string → u.line = line →
      u.line + (Piece.token u).missedBreaks = line + u.lead.count 0x0a := by
    intro u hk hl
    simp [Piece.missedBreaks, Token.lead, hk, hl]
  cases h with
  | @string quote body left hquote closed =>
      cases hp
      have hq : quote ≠ 0x0a := by rcases hquote with rfl | rfl <;> decide
      have hbody := bodyBreaks_add_escapedBreaks body
      have hlead : (quote :: body ++ [quote]).dropLast = quote :: body := List.dropLast_concat
      have hdrop : (quote :: body ++ [quote]).drop 1 = body ++ [quote] := rfl
      simp only [Piece.missedBreaks, Token.lead, if_true]
      rw [hlead, hdrop, escapedBreaks_concat hq, List.count_cons_of_ne hq]
      omega
  | newline inside ends => cases hp; exact hother (by simp) rfl
  | quoted left hbody => cases hp; exact hother (by simp) rfl
  | pair left spelled => cases hp; exact hother (ne_of_isMark (operator?_spec spelled).1 rfl) rfl
  | operator spelled => cases hp; exact hother (ne_of_isMark (operator?_spec spelled).1 rfl) rfl
  | single left spelled => cases hp; exact hother (ne_of_isMark (single?_spec spelled).1 rfl) rfl
  | float longest reads => cases hp; exact hother (by simp) rfl
  | integer digits suffix longest noFloat => cases hp; exact hother (by simp) rfl
  | @name x left plain ends =>
      cases hp
      have hline : (nameToken line x).line = line := by
        unfold nameToken
        repeat' split
        all_goals rfl
      exact hother (nameToken_kind_ne line x rfl (by simp) (by simp)) hline
  | _ => contradiction

/-! ## Sources -/

def missedBreaks (ps : List Piece) : Nat :=
  ps.foldr (fun p n => p.missedBreaks + n) 0

@[simp] theorem missedBreaks_cons (p : Piece) (ps : List Piece) :
    missedBreaks (p :: ps) = p.missedBreaks + missedBreaks ps :=
  rfl

theorem Cuts.last_eq {line last : Nat} {s : Bytes} {ps : List Piece} (h : Cuts line s ps last) :
    last + missedBreaks ps = line + s.count 0x0a := by
  induction h with
  | nil line => rfl
  | cons first later ih =>
      have hfirst := first.breaks_eq
      rw [first.source_eq, List.count_append, missedBreaks_cons]
      omega

/-- Every token of a text has the line of its place there. -/
theorem Cuts.token_line {line last : Nat} {s : Bytes} {ps : List Piece} (h : Cuts line s ps last)
    {before after : List Piece} {t : Token} (hps : ps = before ++ .token t :: after) :
    t.line + missedBreaks (before ++ [.token t]) =
      line + (before.flatMap Piece.text ++ t.lead).count 0x0a := by
  induction h generalizing before with
  | nil line => simp at hps
  | @cons line last s left p ps first later ih =>
      cases before with
      | nil =>
          cases hps
          simpa [missedBreaks] using first.line_eq
      | cons q before =>
          obtain ⟨rfl, htail⟩ : p = q ∧ ps = before ++ .token t :: after := List.cons.inj hps
          -- The line behind the first piece is ahead by the breaks of the piece that are counted.
          have hfirst := first.breaks_eq
          have hrest := ih htail
          rw [List.cons_append, missedBreaks_cons, List.flatMap_cons, List.append_assoc,
            List.count_append]
          omega

/-- The line of a token is one more than the number of line breaks in front of its first byte, or
in front of the last byte of a string, less those escaped in strings up to there; and `eof` has
the number of all line breaks, less all that are escaped. So a line is right if and only if no
line break is escaped in front of it. -/
theorem tokens_lines (source : Bytes) :
    (pieces source).1.flatMap Piece.text = source ∧
      tokens source = (pieces source).1.filterMap Piece.token? ++ [Token.eof (pieces source).2] ∧
      (∀ (before : List Piece) (t : Token) (after : List Piece),
        (pieces source).1 = before ++ .token t :: after →
          t.line + missedBreaks (before ++ [.token t]) =
            1 + (before.flatMap Piece.text ++ t.lead).count 0x0a) ∧
      (pieces source).2 + missedBreaks (pieces source).1 = 1 + source.count 0x0a := by
  obtain ⟨ps, last, hcuts⟩ := exists_cuts 1 source
  have hpieces : pieces source = (ps, last) := hcuts.pieces_eq
  rw [hpieces]
  refine ⟨hcuts.spans.flatMap_text, hcuts.tokens_eq, fun before t after hps => ?_, hcuts.last_eq⟩
  exact hcuts.token_line hps

/-- Behind a string with an escaped line break, a name on the third line is given the second, and
so is the end of the source. -/
theorem line_too_small :
    ∃ before t after, (pieces "\"a\\\nb\"\nx").1 = before ++ .token t :: after ∧
      t.kind = .ident ∧ t.line = 2 ∧ 1 + (before.flatMap Piece.text ++ t.lead).count 0x0a = 3 ∧
      (pieces "\"a\\\nb\"\nx").2 = 2 ∧ 1 + (utf8 "\"a\\\nb\"\nx").count 0x0a = 3 := by
  let string : Token := ⟨.string, "\"a\\\nb\"", 1, some (.text "a\\\nb")⟩
  exact ⟨[.token string, .token ⟨.newline, "\n", 1, none⟩], ⟨.ident, "x", 2, none⟩, [], rfl, rfl, rfl,
    rfl, rfl, rfl⟩

end RToJulia
