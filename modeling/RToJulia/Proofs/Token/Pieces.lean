import RToJulia.Proofs.Token.Numerals

/-! # The piece at the front of a text

`Cut line s p left` says by the form of `s` alone that the piece `p` is cut from its
front and `left` is behind it. Every text that is not empty has such a piece, and it is
the one that the lexer cuts. So what is to be known of pieces is read off the forms.
-/

namespace RToJulia

open Text Lexer
open Julia (areDigits areDigits_iff)

def isOpening (b : UInt8) : Bool :=
  b ∈ [0x20, 0x0d, 0x09, 0x0a, 0x23, 0x22, 0x27, 0x60]

def beginsNothing (b : UInt8) : Bool :=
  !isOpening b && (operator? b none).isNone && (single? b).isNone && !isDigitByte b &&
    !isNameStart b

structure IsQuotable (body : Bytes) : Prop where
  nonempty : body ≠ []
  backtick : 0x60 ∉ body
  newline : 0x0a ∉ body

/-- The piece at the front of a text, and the text behind it. -/
inductive Cut (line : Nat) : Bytes → Piece → Bytes → Prop
  | blank {b : UInt8} (left : Bytes) (hb : b = 0x20 ∨ b = 0x0d ∨ b = 0x09) :
      Cut line (b :: left) (.blank b) left
  | newline {breaks left : Bytes} (inside : ∀ b ∈ breaks, b = 0x0a)
      (ends : left.head? ≠ some 0x0a) :
      Cut line (0x0a :: breaks ++ left) (.token ⟨.newline, 0x0a :: breaks, line, none⟩) left
  | comment {body left : Bytes} (inside : 0x0a ∉ body)
      (ends : left = [] ∨ left.head? = some 0x0a) :
      Cut line (0x23 :: body ++ left) (.comment (0x23 :: body)) left
  | string {quote : UInt8} {body : Bytes} (left : Bytes) (hquote : quote = 0x22 ∨ quote = 0x27)
      (closed : stringBody? quote (body ++ [quote]) = some body) :
      Cut line (quote :: body ++ quote :: left)
        (.token ⟨.string, quote :: body ++ [quote], (line + bodyBreaks body : Nat),
          some (.text (mend (unescape quote body)))⟩) left
  | unterminated {quote : UInt8} {body : Bytes} (hquote : quote = 0x22 ∨ quote = 0x27)
      (unclosed : stringBody? quote body = none) :
      Cut line (quote :: body)
        (.fault (quote :: body) (.unterminated (line + bodyBreaks body))) []
  | quoted {body : Bytes} (left : Bytes) (hbody : IsQuotable body) :
      Cut line (0x60 :: body ++ 0x60 :: left)
        (.token ⟨.ident, 0x60 :: body ++ [0x60], line, none⟩) left
  | backtick {left : Bytes} (lone : ∀ body rest, left = body ++ 0x60 :: rest → ¬ IsQuotable body) :
      Cut line (0x60 :: left) (.fault [0x60] (.unexpected (Char.ofNat 0x60) line)) left
  | pair {b c : UInt8} {kind : Kind} (left : Bytes)
      (spelled : operator? b (some c) = some (kind, true)) :
      Cut line (b :: c :: left) (.token ⟨kind, [b, c], line, none⟩) left
  | operator {b : UInt8} {kind : Kind} {left : Bytes}
      (spelled : operator? b left.head? = some (kind, false)) :
      Cut line (b :: left) (.token ⟨kind, [b], line, none⟩) left
  | single {b : UInt8} {kind : Kind} (left : Bytes) (spelled : single? b = some kind) :
      Cut line (b :: left) (.token ⟨kind, [b], line, none⟩) left
  | float {t left : Bytes} {value : Decimal.Binary64} (longest : Longest IsFloat t left)
      (reads : (Decimal.Number.ofText t).toBinary64? = some value) :
      Cut line (t ++ left) (.token ⟨.float, t, line, some (.real value)⟩) left
  | floatRange {t left : Bytes} (longest : Longest IsFloat t left)
      (range : (Decimal.Number.ofText t).toBinary64? = none) :
      Cut line (t ++ left) (.fault t (.floatRange t line)) left
  | integer {ds mark left : Bytes} (digits : areDigits ds = true)
      (suffix : mark = [] ∨ mark = [0x4c]) (longest : Longest IsInteger (ds ++ mark) left)
      (noFloat : ∀ front rest, ds ++ mark ++ left = front ++ rest → ¬ IsFloat front) :
      Cut line (ds ++ mark ++ left) (.token ⟨.integer, ds ++ mark, line, some (.text ds)⟩) left
  | name {x left : Bytes} (plain : isPlainName x = true) (ends : EndsWord left) :
      Cut line (x ++ left) (.token (nameToken line x)) left
  | unexpected {b : UInt8} {rest left : Bytes} (stray : beginsNothing b = true)
      (rune : b :: rest = (headRune b rest).bytes ++ left) :
      Cut line (b :: rest)
        (.fault (headRune b rest).bytes (.unexpected (headRune b rest).char line)) left

theorem Cut.source_eq {line : Nat} {s left : Bytes} {p : Piece} (h : Cut line s p left) :
    s = p.text ++ left := by
  cases h with
  | unexpected stray rune => exact rune
  | name plain ends => simp [Piece.text, nameToken_lexeme]
  | _ => simp [Piece.text]

/-! ## What the lexer cuts -/

section Piece

variable {line : Nat} {b : UInt8} {rest left body : Bytes}

theorem stringBody?_cons {quote : UInt8} (hb : b ≠ 0x5c) (rest : Bytes) :
    stringBody? quote (b :: rest) =
      if b = quote then some [] else (stringBody? quote rest).map (b :: ·) := by
  rw [stringBody?]
  · rintro rfl
    contradiction
  · rintro c tail rfl
    contradiction

/-- A backslash takes the next byte with it, and at the end of a text it waits for one. -/
theorem string_induction {P : Bytes → Prop} (nil : P []) (lone : P [0x5c])
    (escape : ∀ b rest, P rest → P (0x5c :: b :: rest))
    (plain : ∀ b rest, b ≠ 0x5c → P rest → P (b :: rest)) (s : Bytes) : P s := by
  induction hn : s.length using Nat.strongRecOn generalizing s with
  | ind n ih =>
      cases s with
      | nil => exact nil
      | cons b rest =>
          rw [List.length_cons] at hn
          by_cases hb : b = 0x5c
          · subst hb
            cases rest with
            | nil => exact lone
            | cons c rest =>
                rw [List.length_cons] at hn
                exact escape c rest (ih rest.length (by omega) rest rfl)
          · exact plain b rest hb (ih rest.length (by omega) rest rfl)

/-- The body of a string ends at a quote, and any text may come behind it. -/
theorem stringBody?_eq_some {quote : UInt8} {s : Bytes} (h : stringBody? quote s = some body) :
    (∃ left, s = body ++ quote :: left) ∧
      ∀ more, stringBody? quote (body ++ quote :: more) = some body := by
  induction s using string_induction generalizing body with
  | nil => contradiction
  | lone => contradiction
  | escape b rest ih =>
      obtain ⟨inner, hi, rfl⟩ := Option.map_eq_some_iff.mp h
      obtain ⟨⟨left, rfl⟩, hmore⟩ := ih hi
      exact ⟨⟨left, rfl⟩, fun more => by simp [stringBody?, hmore more]⟩
  | plain b rest hb ih =>
      rw [stringBody?_cons hb] at h
      by_cases hq : b = quote
      · rw [if_pos hq] at h
        cases h
        refine ⟨⟨rest, by rw [hq]; rfl⟩, fun more => ?_⟩
        rw [List.nil_append, stringBody?_cons (hq ▸ hb), if_pos rfl]
      · rw [if_neg hq] at h
        obtain ⟨inner, hi, rfl⟩ := Option.map_eq_some_iff.mp h
        obtain ⟨⟨left, rfl⟩, hmore⟩ := ih hi
        refine ⟨⟨left, rfl⟩, fun more => ?_⟩
        rw [List.cons_append, stringBody?_cons hb, if_neg hq, hmore more]
        rfl

/-- Whether a byte begins an operator does not depend on what follows. -/
theorem operator?_isSome (b : UInt8) (next : Option UInt8) :
    (operator? b next).isSome = (operator? b none).isSome := by
  unfold operator?
  split
  case h_14 => split <;> simp_all
  all_goals rfl

theorem operator?_opening {next : Option UInt8} (h : (operator? b next).isSome) :
    isOpening b = false := by
  unfold operator? at h
  split at h <;> first | rfl | contradiction

theorem single?_opening (h : (single? b).isSome) :
    isOpening b = false ∧ ∀ next, operator? b next = none := by
  unfold single? at h
  split at h <;> first | exact ⟨rfl, fun _ => rfl⟩ | contradiction

theorem piece_operator {kind : Kind} {two : Bool} (rest : Bytes)
    (h : operator? b rest.head? = some (kind, two)) :
    piece line b rest = .token ⟨kind, if two then b :: rest.take 1 else [b], line, none⟩ := by
  have hopen : isOpening b = false := operator?_opening (by rw [h]; rfl)
  simp only [isOpening, List.mem_cons, List.not_mem_nil, or_false, decide_eq_false_iff_not,
    not_or] at hopen
  unfold piece
  simp [hopen, h]

theorem piece_single {kind : Kind} (h : single? b = some kind) :
    piece line b rest = .token ⟨kind, [b], line, none⟩ := by
  obtain ⟨hopen, hop⟩ := single?_opening (by rw [h]; rfl : (single? b).isSome)
  simp only [isOpening, List.mem_cons, List.not_mem_nil, or_false, decide_eq_false_iff_not,
    not_or] at hopen
  unfold piece
  simp [hopen, hop, h]

theorem piece_unexpected (h : beginsNothing b = true) :
    piece line b rest =
      .fault (headRune b rest).bytes (.unexpected (headRune b rest).char line) := by
  simp only [beginsNothing, isOpening, Bool.and_eq_true, Bool.not_eq_true',
    Option.isNone_iff_eq_none, List.mem_cons, List.not_mem_nil, or_false, decide_eq_false_iff_not, not_or] at h
  obtain ⟨⟨⟨⟨hopen, hnone⟩, hsingle⟩, hdigit⟩, hname⟩ := h
  have hop : operator? b rest.head? = none := by
    have hsome := operator?_isSome b rest.head?
    rw [hnone] at hsome
    simpa using hsome
  unfold piece
  simp [hopen, hop, hsingle, hdigit, hname]

theorem piece_digit (h : isDigitByte b = true) : piece line b rest = number line (b :: rest) := by
  have hdot : b ≠ 0x2e := by
    rintro rfl
    contradiction
  rw [piece_word (by simp [isNameByte, h]) hdot, if_pos h]

theorem isNameStart_spec (h : isNameStart b = true) :
    isNameByte b = true ∧ b ≠ 0x2e ∧ isDigitByte b = false := by
  refine ⟨by simp [isNameByte, h], ?_, ?_⟩
  · rintro rfl
    contradiction
  · simp only [isNameStart, isDigitByte] at h ⊢
    grind

/-- A body is cut as a name in backticks exactly when it can stand between them. -/
theorem quotedName_quoted (h : IsQuotable body) (left : Bytes) :
    quotedName line (body ++ 0x60 :: left) =
      .token ⟨.ident, 0x60 :: body ++ [0x60], line, none⟩ := by
  have hinside : body.all (fun b => b != 0x60 && b != 0x0a) = true := by
    rw [List.all_eq_true]
    intro b hb
    have hback : b ≠ 0x60 := fun heq => h.backtick (heq ▸ hb)
    have hnewline : b ≠ 0x0a := fun heq => h.newline (heq ▸ hb)
    simp [hback, hnewline]
  have hends : ∀ c, (0x60 :: left).head? = some c → (c != 0x60 && c != 0x0a) = false := by
    intro c hc
    cases hc
    rfl
  have htake := (takeWhile_word hinside hends).1
  unfold quotedName
  dsimp only
  rw [htake]
  simp [h.nonempty]

theorem quotedName_lone (h : ∀ body rest, left = body ++ 0x60 :: rest → ¬ IsQuotable body) :
    quotedName line left = .fault [0x60] (.unexpected (Char.ofNat 0x60) line) := by
  unfold quotedName
  dsimp only
  split
  · rename_i hbody
    simp only [ne_eq, decide_not, Bool.and_eq_true, Bool.not_eq_true', decide_eq_false_iff_not,
      beq_iff_eq] at hbody
    obtain ⟨hne, hclose⟩ := hbody
    have hsplit :=
      List.takeWhile_append_dropWhile (p := fun b => b != 0x60 && b != 0x0a) (l := left)
    have hinside : ∀ b ∈ left.takeWhile (fun b => b != 0x60 && b != 0x0a), b ≠ 0x60 ∧ b ≠ 0x0a := by
      intro b hb
      simpa using List.all_eq_true.mp List.all_takeWhile b hb
    generalize left.takeWhile (fun b => b != 0x60 && b != 0x0a) = body at *
    generalize left.dropWhile (fun b => b != 0x60 && b != 0x0a) = tail at *
    subst hsplit
    rw [List.getElem?_append_right (Nat.le_refl _), Nat.sub_self,
      ← List.head?_eq_getElem?] at hclose
    obtain ⟨rest, rfl⟩ := List.head?_eq_some_iff.mp hclose
    exact absurd ⟨hne, fun hb => (hinside _ hb).1 rfl, fun hb => (hinside _ hb).2 rfl⟩
      (h body rest rfl)
  · rfl

theorem ne_of_isMark {kind other : Kind} (h : isMark kind = true) (ho : isMark other = false) :
    kind ≠ other := by
  rintro rfl
  simp [h] at ho

/-- A plain name is a mark, a truth value or an identifier. -/
theorem nameToken_kind_ne (line : Nat) (x : Bytes) {kind : Kind} (hmark : isMark kind = false)
    (hbool : .bool ≠ kind) (hident : .ident ≠ kind) : (nameToken line x).kind ≠ kind := by
  unfold nameToken
  split
  · exact hbool
  split
  · exact hbool
  cases hk : keyword? x with
  | none => exact hident
  | some found => exact ne_of_isMark (keyword?_spec hk).1 hmark

end Piece

/-- What is cut by its form is what the lexer cuts. -/
theorem Cut.piece_eq {line : Nat} {b : UInt8} {rest left : Bytes} {p : Piece}
    (h : Cut line (b :: rest) p left) : piece line b rest = p := by
  generalize hs : b :: rest = s at h
  cases h with
  | blank left hb =>
      cases hs
      rcases hb with rfl | rfl | rfl <;> rfl
  | @newline breaks _ inside ends =>
      cases hs
      have hall : breaks.all (· == 0x0a) = true :=
        List.all_eq_true.mpr fun c hc => beq_iff_eq.mpr (inside c hc)
      have hends : ∀ c, left.head? = some c → (c == 0x0a) = false := by
        intro c hc
        rw [beq_eq_false_iff_ne]
        rintro rfl
        exact ends hc
      have htake := (takeWhile_word hall hends).1
      change Piece.token ⟨.newline, 0x0a :: (breaks ++ left).takeWhile (· == 0x0a), line, none⟩ = _
      rw [htake]
  | @comment body _ inside ends =>
      cases hs
      have hall : body.all (· != 0x0a) = true := by
        rw [List.all_eq_true]
        intro c hc
        rw [bne_iff_ne]
        rintro rfl
        exact inside hc
      have hends : ∀ c, left.head? = some c → (c != 0x0a) = false := by
        intro c hc
        rcases ends with rfl | ends
        · contradiction
        · cases hc.symm.trans ends
          rfl
      have htake := (takeWhile_word hall hends).1
      change Piece.comment (0x23 :: (body ++ left).takeWhile (· != 0x0a)) = _
      rw [htake]
  | @string quote body _ hquote closed =>
      have hpiece : piece line quote (body ++ quote :: left) =
          stringPiece line quote (body ++ quote :: left) := by
        rcases hquote with rfl | rfl <;> rfl
      rw [List.cons_append, List.cons.injEq] at hs
      obtain ⟨rfl, rfl⟩ := hs
      rw [hpiece, stringPiece, (stringBody?_eq_some closed).2 left]
  | @unterminated quote body hquote unclosed =>
      have hpiece : piece line quote body = stringPiece line quote body := by
        rcases hquote with rfl | rfl <;> rfl
      cases hs
      rw [hpiece, stringPiece, unclosed]
  | quoted left hbody =>
      cases hs
      exact quotedName_quoted hbody left
  | backtick lone =>
      cases hs
      exact quotedName_lone lone
  | @pair _ c _ left spelled =>
      cases hs
      exact piece_operator (c :: left) spelled
  | operator spelled =>
      cases hs
      exact piece_operator rest spelled
  | single left spelled =>
      cases hs
      exact piece_single spelled
  | @float t _ value longest reads =>
      obtain ⟨c, tail, rfl, hc⟩ := longest.1.head
      rw [List.cons_append, List.cons.injEq] at hs
      obtain ⟨rfl, rfl⟩ := hs
      rw [piece_digit hc, ← List.cons_append, number_float line longest, floatPiece, reads]
      rfl
  | @floatRange t _ longest range =>
      obtain ⟨c, tail, rfl, hc⟩ := longest.1.head
      rw [List.cons_append, List.cons.injEq] at hs
      obtain ⟨rfl, rfl⟩ := hs
      rw [piece_digit hc, ← List.cons_append, number_float line longest, floatPiece, range]
      rfl
  | @integer ds mark _ digits suffix longest noFloat =>
      obtain ⟨c, tail, htext, hc⟩ := longest.1.head
      have hnumber := number_integer line digits suffix longest noFloat
      rw [htext] at hs
      rw [List.cons_append, List.cons.injEq] at hs
      obtain ⟨rfl, rfl⟩ := hs
      rw [piece_digit hc, ← List.cons_append, ← htext, hnumber]
  | @name x _ plain ends =>
      cases x with
      | nil => contradiction
      | cons c x =>
          rw [List.cons_append, List.cons.injEq] at hs
          obtain ⟨rfl, rfl⟩ := hs
          simp only [isPlainName, Bool.and_eq_true] at plain
          obtain ⟨hword, hdot, hdigit⟩ := isNameStart_spec plain.1
          rw [piece_word hword hdot, hdigit, (takeWhile_word plain.2 ends).1]
          rfl
  | unexpected stray rune =>
      cases hs
      exact piece_unexpected stray

/-! ## Every text has a piece at its front -/

section Front

variable {b : UInt8}

/-- The text up to the first byte outside a class. -/
theorem exists_run (p : UInt8 → Bool) (s : Bytes) :
    ∃ front left, s = front ++ left ∧ (∀ b ∈ front, p b = true) ∧
      ∀ b, left.head? = some b → p b = false := by
  refine ⟨s.takeWhile p, s.dropWhile p, List.takeWhile_append_dropWhile.symm,
    fun b hb => List.all_eq_true.mp List.all_takeWhile b hb, fun b hb => ?_⟩
  have hhead := List.head?_dropWhile_not p s
  rw [hb] at hhead
  simpa using hhead

theorem cut_opening (line : Nat) (h : isOpening b = true) (rest : Bytes) :
    ∃ p left, Cut line (b :: rest) p left := by
  simp only [isOpening, List.mem_cons, List.not_mem_nil, or_false, decide_eq_true_eq] at h
  have hstring : b = 0x22 ∨ b = 0x27 → ∃ p left, Cut line (b :: rest) p left := by
    intro hquote
    cases hbody : stringBody? b rest with
    | none => exact ⟨_, _, .unterminated hquote hbody⟩
    | some body =>
        obtain ⟨⟨left, rfl⟩, hmore⟩ := stringBody?_eq_some hbody
        exact ⟨_, _, .string left hquote (hmore [])⟩
  rcases h with h | h | h | rfl | rfl | h | h | rfl
  · exact ⟨_, _, .blank rest (.inl h)⟩
  · exact ⟨_, _, .blank rest (.inr (.inl h))⟩
  · exact ⟨_, _, .blank rest (.inr (.inr h))⟩
  · obtain ⟨breaks, left, rfl, hinside, hends⟩ := exists_run (· == 0x0a) rest
    refine ⟨_, _, .newline (fun c hc => by simpa using hinside c hc) fun hc => ?_⟩
    simpa using hends _ hc
  · obtain ⟨body, left, rfl, hinside, hends⟩ := exists_run (· != 0x0a) rest
    refine ⟨_, _, .comment (fun hc => by simpa using hinside _ hc) ?_⟩
    cases left with
    | nil => exact .inl rfl
    | cons c left => exact .inr (by simpa using hends c rfl)
  · exact hstring (.inl h)
  · exact hstring (.inr h)
  · by_cases hbody : ∃ body left, rest = body ++ 0x60 :: left ∧ IsQuotable body
    · obtain ⟨body, left, rfl, hbody⟩ := hbody
      exact ⟨_, _, .quoted left hbody⟩
    · exact ⟨_, _, .backtick fun body left heq hq => hbody ⟨body, left, heq, hq⟩⟩

theorem cut_number (line : Nat) (h : isDigitByte b = true) (rest : Bytes) :
    ∃ p left, Cut line (b :: rest) p left := by
  by_cases hfloat : ∃ front left, b :: rest = front ++ left ∧ IsFloat front
  · obtain ⟨front, left, heq, hfront⟩ := hfloat
    obtain ⟨t, left, heq', ht⟩ := exists_longest left hfront
    rw [heq, heq']
    cases hvalue : (Decimal.Number.ofText t).toBinary64? with
    | none => exact ⟨_, _, .floatRange ht hvalue⟩
    | some value => exact ⟨_, _, .float ht hvalue⟩
  · have hdigits : areDigits [b] = true := (areDigits_iff [b]).mpr ⟨by simp, by simpa using h⟩
    have hone : IsInteger [b] := ⟨[b], [], hdigits, .inl rfl, rfl⟩
    obtain ⟨t, left, heq, ht⟩ := exists_longest rest hone
    obtain ⟨ds, mark, hds, hmark, rfl⟩ := ht.1
    have hs : b :: rest = ds ++ mark ++ left := heq
    rw [hs]
    refine ⟨_, _, .integer hds hmark ht fun front tail hfront hf => hfloat ⟨front, tail, ?_, hf⟩⟩
    exact hs.trans hfront

theorem exists_cut (line : Nat) (b : UInt8) (rest : Bytes) :
    ∃ p left, Cut line (b :: rest) p left := by
  by_cases hopen : isOpening b = true
  · exact cut_opening line hopen rest
  by_cases hop : (operator? b rest.head?).isSome
  · obtain ⟨⟨kind, two⟩, hspelled⟩ := Option.isSome_iff_exists.mp hop
    cases two with
    | false => exact ⟨_, _, .operator hspelled⟩
    | true =>
        cases rest with
        | nil =>
            obtain ⟨c, hc, -⟩ := (operator?_spec hspelled).2.2 rfl
            contradiction
        | cons c left => exact ⟨_, _, .pair left hspelled⟩
  by_cases hsingle : (single? b).isSome
  · obtain ⟨kind, hspelled⟩ := Option.isSome_iff_exists.mp hsingle
    exact ⟨_, _, .single rest hspelled⟩
  by_cases hdigit : isDigitByte b = true
  · exact cut_number line hdigit rest
  by_cases hname : isNameStart b = true
  · obtain ⟨x, left, rfl, hinside, hends⟩ := exists_run isNameByte rest
    have hplain : isPlainName (b :: x) = true := by
      simp only [isPlainName, hname, Bool.true_and]
      exact List.all_eq_true.mpr hinside
    exact ⟨_, _, .name hplain hends⟩
  · obtain ⟨left, hleft⟩ := headRune_bytes b rest
    rw [operator?_isSome] at hop
    refine ⟨_, _, .unexpected ?_ hleft⟩
    simp_all [beginsNothing]

end Front

/-! ## Whole texts -/

/-- The pieces of a text that starts on a line, and the line of its end. -/
inductive Cuts : Nat → Bytes → List Piece → Nat → Prop
  | nil (line : Nat) : Cuts line [] [] line
  | cons {line last : Nat} {s left : Bytes} {p : Piece} {ps : List Piece}
      (first : Cut line s p left) (later : Cuts (line + lineBreaks p) left ps last) :
      Cuts line s (p :: ps) last

theorem Cut.text_ne_nil {line : Nat} {s left : Bytes} {p : Piece} (h : Cut line s p left) :
    p.text ≠ [] := by
  cases h with
  | name plain ends =>
      rw [Piece.text, nameToken_lexeme]
      rintro rfl
      contradiction
  | float longest reads =>
      obtain ⟨c, tail, rfl, -⟩ := longest.1.head
      exact List.cons_ne_nil c tail
  | floatRange longest range =>
      obtain ⟨c, tail, rfl, -⟩ := longest.1.head
      exact List.cons_ne_nil c tail
  | integer digits suffix longest noFloat =>
      obtain ⟨c, tail, htext, -⟩ := longest.1.head
      rw [Piece.text, htext]
      exact List.cons_ne_nil c tail
  | @unexpected b rest left stray rune =>
      exact List.length_pos_iff.mp (headRune b rest).length_bytes_pos
  | _ => exact List.cons_ne_nil _ _

theorem Cuts.eq_nil {line last : Nat} {ps : List Piece} (h : Cuts line [] ps last) : ps = [] := by
  generalize hs : ([] : Bytes) = s at h
  cases h with
  | nil => rfl
  | cons first later =>
      rw [first.source_eq] at hs
      exact absurd (List.append_eq_nil_iff.mp hs.symm).1 first.text_ne_nil

theorem Cuts.pieces_eq {line last : Nat} {s : Bytes} {ps : List Piece} (h : Cuts line s ps last) :
    piecesAfter line 0 s = (ps, last) := by
  induction h with
  | nil line => rfl
  | @cons line last s left p ps first later ih =>
      have hs := first.source_eq
      obtain ⟨b, front, htext⟩ := List.exists_cons_of_ne_nil first.text_ne_nil
      rw [htext] at hs
      subst hs
      have hpiece : piece line b (front ++ left) = p := first.piece_eq
      rw [List.cons_append, piecesAfter, hpiece, htext]
      simp only [List.length_cons, Nat.add_sub_cancel, piecesAfter_skip, ih]

def Piece.token? : Piece → Option Token
  | .token t => some t
  | _ => none

theorem Cuts.tokens_eq {s : Bytes} {ps : List Piece} {last : Nat} (h : Cuts 1 s ps last) :
    tokens s = ps.filterMap Piece.token? ++ [Token.eof last] := by
  unfold tokens
  rw [scan_eq_eventsFrom, eventsFrom, h.pieces_eq, List.filterMap_append, List.filterMap_filterMap]
  congr 2
  funext p
  cases p <;> rfl

theorem Cuts.mem_lexFaults {s : Bytes} {ps : List Piece} {last : Nat} (h : Cuts 1 s ps last)
    (f : LexFault) : f ∈ lexFaults s ↔ ∃ text, .fault text f ∈ ps := by
  unfold lexFaults
  rw [scan_eq_eventsFrom, eventsFrom, h.pieces_eq, List.filterMap_append, List.filterMap_filterMap]
  simp only [List.mem_append, List.mem_filterMap]
  constructor
  · rintro (⟨p, hp, hf⟩ | ⟨event, hevent, hf⟩)
    · cases p <;> cases hf
      exact ⟨_, hp⟩
    · cases List.mem_singleton.mp hevent
      contradiction
  · rintro ⟨text, htext⟩
    exact .inl ⟨_, htext, rfl⟩

theorem exists_cuts (line : Nat) (s : Bytes) : ∃ ps last, Cuts line s ps last := by
  induction hn : s.length using Nat.strongRecOn generalizing line s with
  | ind n ih =>
      cases s with
      | nil => exact ⟨[], line, .nil line⟩
      | cons b rest =>
          obtain ⟨p, left, hcut⟩ := exists_cut line b rest
          have hlen := congrArg List.length hcut.source_eq
          have hpos := List.length_pos_iff.mpr hcut.text_ne_nil
          rw [List.length_append, hn] at hlen
          obtain ⟨ps, last, hlater⟩ := ih left.length (by omega) (line + lineBreaks p) left rfl
          exact ⟨p :: ps, last, .cons hcut hlater⟩

end RToJulia
