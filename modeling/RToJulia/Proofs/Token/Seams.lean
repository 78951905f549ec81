import RToJulia.Proofs.Token.Spans

/-! # Pieces in front of other text

A piece is cut from what it covers and from a few bytes behind it. So it is still cut
when the text behind it is taken away, and when other text is put there that begins with
a byte of no word, number or longer operator. Only an open string, line breaks, a comment
and a lone backtick look further.
-/

namespace RToJulia

open Text Lexer
open Julia (areDigits areDigits_iff)

/-- A byte that ends names, numbers, operators and runes in front of it. -/
def isSeam (c : UInt8) : Bool :=
  !isNameByte c && c < 0x80 && !([0x2b, 0x2d, 0x3d, 0x26, 0x7c].contains c)

/-! ## Taking text away -/

section Shorten

variable {x : UInt8} {left more : Bytes}

theorem operator?_shorten {b : UInt8} {kind : Kind}
    (h : operator? b (left ++ x :: more).head? = some (kind, false)) :
    operator? b left.head? = some (kind, false) := by
  cases left with
  | cons c left => exact h
  | nil =>
      change operator? b (some x) = _ at h
      unfold operator? at h
      split at h <;> cases h <;> rfl

theorem Longest.shorten {P : Bytes → Prop} {t : Bytes} (h : Longest P t (left ++ more)) :
    Longest P t left := by
  refine ⟨h.1, fun front rest heq hfront => h.2 front (rest ++ more) ?_ hfront⟩
  rw [heq, List.append_assoc]

/-- No rune of several bytes has a byte below 0x80. -/
theorem headRune_ascii (hx : x < 0x80) (b : UInt8) (rest more : Bytes) :
    headRune b (rest ++ x :: more) = headRune b rest := by
  have hsecond : isSecond b x = false := by
    rw [← Bool.not_eq_true]
    intro h
    exact absurd (isSecond_bounds h).1 (Nat.not_le.mpr hx)
  have hcontinuation : isContinuation x = false := by
    rw [← Bool.not_eq_true]
    intro h
    exact absurd (isContinuation_bounds h).1 (Nat.not_le.mpr hx)
  unfold headRune
  rcases rest with _ | ⟨c, _ | ⟨d, _ | ⟨e, rest⟩⟩⟩
  · rcases more with _ | ⟨y, _ | ⟨z, more⟩⟩ <;> simp [hsecond, hcontinuation]
  · cases more <;> simp [hcontinuation]
  · simp [hcontinuation]
  · rfl

/-- A piece in front of a byte below 0x80 is cut by itself. -/
theorem Cut.shorten {line : Nat} {s : Bytes} {p : Piece} (hx : x < 0x80)
    (h : Cut line (s ++ x :: more) p (left ++ x :: more)) : Cut line s p left := by
  have hs : s = p.text ++ left :=
    List.append_cancel_right (h.source_eq.trans (List.append_assoc _ _ _).symm)
  generalize hsource : s ++ x :: more = source at h
  generalize hbehind : left ++ x :: more = behind at h
  cases h with
  | blank _ hb =>
      subst hs
      exact .blank left hb
  | newline inside ends =>
      subst hs hbehind
      refine .newline inside fun hhead => ends ?_
      rw [List.head?_append, hhead]
      rfl
  | comment inside ends =>
      subst hs hbehind
      refine .comment inside ?_
      cases left with
      | nil => exact .inl rfl
      | cons b left => exact .inr (ends.resolve_left (by simp))
  | string _ hquote closed =>
      rw [hs, Piece.text, List.append_assoc]
      exact .string left hquote closed
  | unterminated hquote unclosed => simp at hbehind
  | quoted _ hbody =>
      rw [hs, Piece.text, List.append_assoc]
      exact .quoted left hbody
  | backtick lone =>
      subst hs hbehind
      have hlone : ∀ body rest, left = body ++ 0x60 :: rest → ¬ IsQuotable body := by
        intro body rest heq
        refine lone body (rest ++ x :: more) ?_
        rw [heq, List.append_assoc, List.cons_append]
      exact .backtick hlone
  | pair _ spelled =>
      subst hs
      exact .pair left spelled
  | operator spelled =>
      subst hs hbehind
      exact .operator (operator?_shorten spelled)
  | single _ spelled =>
      subst hs
      exact .single left spelled
  | float longest reads =>
      subst hs hbehind
      exact .float longest.shorten reads
  | floatRange longest range =>
      subst hs hbehind
      exact .floatRange longest.shorten range
  | integer digits suffix longest noFloat =>
      subst hs hbehind
      refine .integer digits suffix longest.shorten fun front rest heq => ?_
      refine noFloat front (rest ++ x :: more) ?_
      rw [← List.append_assoc, heq, List.append_assoc]
  | name plain ends =>
      subst hbehind
      rw [hs, Piece.text, nameToken_lexeme]
      refine .name plain fun b hb => ends b ?_
      rw [List.head?_append, hb]
      rfl
  | @unexpected b rest _ stray rune =>
      subst hbehind
      cases s with
      | nil =>
          have hnil : (headRune b rest).bytes = [] := (List.append_eq_nil_iff.mp hs.symm).1
          exact absurd hnil (List.length_pos_iff.mp (headRune b rest).length_bytes_pos)
      | cons c s =>
          rw [List.cons_append, List.cons.injEq] at hsource
          obtain ⟨rfl, rfl⟩ := hsource
          rw [headRune_ascii hx] at hs ⊢
          exact .unexpected stray hs

end Shorten

/-! ## Putting other text behind -/

theorem isSeam_spec {c : UInt8} (h : isSeam c = true) :
    isNameByte c = false ∧ c < 0x80 ∧ c ≠ 0x2b ∧ c ≠ 0x2d ∧ c ≠ 0x3d ∧ c ≠ 0x26 ∧ c ≠ 0x7c := by
  simp only [isSeam, Bool.and_eq_true, Bool.not_eq_true', decide_eq_true_eq,
    List.contains_eq_mem, List.mem_cons, List.not_mem_nil, or_false, decide_eq_false_iff_not,
    not_or] at h
  exact ⟨h.1.1, h.1.2, h.2⟩

theorem isFloat_seam {c : UInt8} (h : isSeam c = true) (u : Bytes) (hu : IsFloat u) : c ∉ u := by
  obtain ⟨hname, -, hplus, hminus, -⟩ := isSeam_spec h
  exact hu.not_mem hname hplus hminus

theorem operator?_seam {b c : UInt8} {left : Bytes} {kind : Kind} (hc : isSeam c = true)
    (h : operator? b left.head? = some (kind, false)) (more : Bytes) :
    operator? b (left ++ c :: more).head? = some (kind, false) := by
  obtain ⟨-, -, -, hminus, hequal, hand, hor⟩ := isSeam_spec hc
  cases left with
  | cons d left => exact h
  | nil =>
      change operator? b none = _ at h
      unfold operator? at h
      split at h <;> cases h <;> simp [operator?, hminus, hequal, hand, hor]

/-- A lone backtick stays alone in front of a line break, and in front of a backtick that what
is between them keeps apart from it. -/
theorem not_quotable_seam {left : Bytes} {c : UInt8}
    (hc : c = 0x0a ∨ c = 0x60 ∧ ¬ IsQuotable left)
    (lone : ∀ body rest, left = body ++ 0x60 :: rest → ¬ IsQuotable body) (more : Bytes) :
    ∀ body rest, left ++ c :: more = body ++ 0x60 :: rest → ¬ IsQuotable body := by
  intro body rest heq hbody
  rcases List.append_eq_append_iff.mp heq with ⟨mid, rfl, hmid⟩ | ⟨mid, rfl, hmid⟩
  · cases mid with
    | nil =>
        cases hmid
        rcases hc with hc | ⟨-, hleft⟩
        · cases hc
        · rw [List.append_nil] at hbody
          exact hleft hbody
    | cons b mid =>
        cases hmid
        rcases hc with rfl | ⟨rfl, -⟩
        · exact hbody.newline (by simp)
        · exact hbody.backtick (by simp)
  · cases mid with
    | nil =>
        cases hmid
        rcases hc with hc | ⟨-, hleft⟩
        · cases hc
        · rw [List.append_nil] at hleft
          exact hleft hbody
    | cons b mid =>
        cases hmid
        exact lone body mid rfl hbody

/-- A piece is cut in front of a seam that is put behind the text, unless it is an open string
or would go on there. -/
theorem Cut.before {line : Nat} {s left : Bytes} {p : Piece} {c : UInt8} (h : Cut line s p left)
    (hc : isSeam c = true) (more : Bytes) (hstring : ∀ text l, p ≠ .fault text (.unterminated l))
    (hbreaks : left = [] → c = 0x0a → ∀ t, p = .token t → t.kind ≠ .newline)
    (hcomment : left = [] → c ≠ 0x0a → ∀ text, p ≠ .comment text)
    (hlone : p.text = [0x60] → (∀ body rest, left = body ++ 0x60 :: rest → ¬ IsQuotable body) →
      ∀ body rest, left ++ c :: more = body ++ 0x60 :: rest → ¬ IsQuotable body) :
    Cut line (s ++ c :: more) p (left ++ c :: more) := by
  obtain ⟨hname, hascii, -⟩ := isSeam_spec hc
  cases h with
  | blank left hb => exact .blank _ hb
  | newline inside ends =>
      rw [List.append_assoc]
      refine .newline inside ?_
      cases left with
      | nil => exact fun heq => hbreaks rfl (by simpa using heq) _ rfl rfl
      | cons b left => exact ends
  | comment inside ends =>
      rw [List.append_assoc]
      refine .comment inside (.inr ?_)
      rcases ends with rfl | ends
      · exact congrArg some (Decidable.byContradiction fun hne => hcomment rfl hne _ rfl)
      · rw [List.head?_append, ends]
        rfl
  | string left hquote closed =>
      rw [List.append_assoc, List.cons_append]
      exact .string _ hquote closed
  | unterminated hquote unclosed => exact absurd rfl (hstring _ _)
  | quoted left hbody =>
      rw [List.append_assoc, List.cons_append]
      exact .quoted _ hbody
  | backtick lone => exact .backtick (hlone rfl lone)
  | pair left spelled => exact .pair _ spelled
  | operator spelled => exact .operator (operator?_seam hc spelled more)
  | single left spelled => exact .single _ spelled
  | float longest reads =>
      rw [List.append_assoc]
      exact .float (longest.append (isFloat_seam hc) more) reads
  | floatRange longest range =>
      rw [List.append_assoc]
      exact .floatRange (longest.append (isFloat_seam hc) more) range
  | integer digits suffix longest noFloat =>
      rw [List.append_assoc]
      refine .integer digits suffix (longest.append (fun u hu => hu.not_mem hname) more) ?_
      rw [← List.append_assoc]
      exact not_front_append noFloat (isFloat_seam hc) more
  | name plain ends =>
      rw [List.append_assoc]
      refine .name plain ?_
      cases left with
      | nil => exact endsWord_cons hname more
      | cons b left => exact ends
  | @unexpected b rest left stray rune =>
      have hlonger : b :: (rest ++ c :: more) =
          (headRune b (rest ++ c :: more)).bytes ++ (left ++ c :: more) := by
        rw [headRune_ascii hascii, ← List.append_assoc, ← rune, List.cons_append]
      have hcut : Cut line _ _ _ := .unexpected stray hlonger
      rw [headRune_ascii hascii] at hcut
      exact hcut

/-! ## Whole texts -/

/-- A token of the kind of line breaks has nothing else in it, and none of them is left. -/
theorem Cut.newline_spec {line : Nat} {s left : Bytes} {t : Token}
    (h : Cut line s (.token t) left) (hk : t.kind = .newline) :
    (∀ b ∈ t.lexeme, b = 0x0a) ∧ left.head? ≠ some 0x0a := by
  generalize hp : Piece.token t = p at h
  cases h with
  | newline inside ends =>
      cases hp
      refine ⟨fun b hb => ?_, ends⟩
      rcases List.mem_cons.mp hb with hb | hb
      · exact hb
      · exact inside b hb
  | pair left spelled =>
      cases hp
      exact absurd hk (ne_of_isMark (operator?_spec spelled).1 rfl)
  | operator spelled =>
      cases hp
      exact absurd hk (ne_of_isMark (operator?_spec spelled).1 rfl)
  | single left spelled =>
      cases hp
      exact absurd hk (ne_of_isMark (single?_spec spelled).1 rfl)
  | name plain ends =>
      cases hp
      exact absurd hk (nameToken_kind_ne line _ rfl (by simp) (by simp))
  | _ => cases hp <;> contradiction

theorem Cuts.cut_of_mem {line last : Nat} {s : Bytes} {p : Piece} {ps : List Piece}
    (h : Cuts line s ps last) (hp : p ∈ ps) : ∃ l text left, Cut l text p left := by
  induction h with
  | nil => cases hp
  | cons first later ih =>
      rcases List.mem_cons.mp hp with rfl | hp
      · exact ⟨_, _, _, first⟩
      · exact ih hp

/-- No backtick that is a piece by itself is closed by a backtick behind the pieces. -/
def StayLone (front : List Piece) : Prop :=
  ∀ before p after, front = before ++ p :: after → p.text = [0x60] →
    ¬ IsQuotable (after.flatMap Piece.text)

/-- The pieces in front of one seam are cut in front of another one. -/
theorem Cuts.reseam {line last : Nat} {front ps : List Piece} {x c : UInt8} {tail : Bytes}
    (h : Cuts line (front.flatMap Piece.text ++ x :: tail) (front ++ ps) last) (hx : x < 0x80)
    (hc : isSeam c = true) (hbreak : c = 0x0a ↔ x = 0x0a)
    (hlone : c = 0x0a ∨ c = 0x60 ∧ StayLone front) :
    ∃ l, Cuts l (x :: tail) ps last ∧ ∀ more qs last', Cuts l (c :: more) qs last' →
      Cuts line (front.flatMap Piece.text ++ c :: more) (front ++ qs) last' := by
  induction front generalizing line with
  | nil => exact ⟨line, h, fun _ _ _ h => h⟩
  | cons p front ih =>
      rw [List.flatMap_cons, List.append_assoc, List.cons_append] at h
      generalize hs : p.text ++ (front.flatMap Piece.text ++ x :: tail) = s at h
      cases h with
      | @cons _ _ _ left _ _ first later =>
      obtain rfl : front.flatMap Piece.text ++ x :: tail = left :=
        List.append_cancel_left (hs.trans first.source_eq)
      have hlater : c = 0x0a ∨ c = 0x60 ∧ StayLone front := by
        refine hlone.imp_right fun ⟨hc, h⟩ => ⟨hc, fun before q after heq => ?_⟩
        exact h (p :: before) q after (by rw [heq, List.cons_append])
      obtain ⟨l, hpieces, hcuts⟩ := ih later hlater
      refine ⟨l, hpieces, fun more qs last' hqs => ?_⟩
      rw [List.flatMap_cons, List.append_assoc, List.cons_append, ← List.append_assoc]
      rw [← hs, ← List.append_assoc] at first
      refine .cons ((first.shorten hx).before hc more ?_ ?_ ?_ ?_) (hcuts more qs last' hqs)
      · rintro text l rfl
        cases first.covers with
        | fault covers =>
            generalize hleft : front.flatMap Piece.text ++ x :: tail = left at covers
            cases covers with
            | unterminated => simp at hleft
      · rintro hleft hnewline t rfl hk
        have hends := (first.newline_spec hk).2
        rw [hleft] at hends
        exact hends (congrArg some (hbreak.mp hnewline))
      · rintro hleft hne text rfl
        cases first.covers with
        | comment inside ends =>
            rw [hleft] at ends
            exact hne (hbreak.mpr (by simpa using ends))
      · intro htext lone
        refine not_quotable_seam (hlone.imp_right fun ⟨hc, h⟩ => ⟨hc, ?_⟩) lone more
        exact h [] p front rfl htext

end RToJulia
