import RToJulia.Proofs.Token.Spans

/-! # Numerals are cut by their rules

A piece that begins with a digit is the longest float, if a float begins there, and else
the longest integer with its digits as value. Only a capital `L` belongs to an integer:
where a small one follows the digits, it is left to the next piece.
-/

namespace RToJulia

open Text Lexer
open Julia (areDigits areDigits_iff)

/-! ## Places of pieces -/

/-- The source is cut into `front`, the piece `p` and `rest`. -/
def CutAt (source front : Bytes) (p : Piece) (rest : Bytes) : Prop :=
  ∃ before after, (pieces source).1 = before ++ p :: after ∧
    front = before.flatMap Piece.text ∧ rest = after.flatMap Piece.text

def HasFront (P : Bytes → Prop) (s : Bytes) : Prop :=
  ∃ front rest, s = front ++ rest ∧ P front

theorem Cuts.cut_at {line last : Nat} {s : Bytes} {p : Piece} {before after : List Piece}
    (h : Cuts line s (before ++ p :: after) last) :
    s = before.flatMap Piece.text ++ (p.text ++ after.flatMap Piece.text) ∧
      ∃ l, Cut l (p.text ++ after.flatMap Piece.text) p (after.flatMap Piece.text) := by
  induction before generalizing line s with
  | nil =>
      cases h with
      | cons first later =>
          have hleft := later.spans.flatMap_text
          have hs := first.source_eq
          subst hs
          rw [hleft]
          exact ⟨rfl, line, first⟩
  | cons q before ih =>
      cases h with
      | cons first later =>
          obtain ⟨hleft, hcut⟩ := ih later
          refine ⟨?_, hcut⟩
          rw [first.source_eq, hleft, List.flatMap_cons, List.append_assoc]

theorem CutAt.cut {source front rest : Bytes} {p : Piece} (h : CutAt source front p rest) :
    source = front ++ (p.text ++ rest) ∧ ∃ line, Cut line (p.text ++ rest) p rest := by
  obtain ⟨before, after, hpieces, rfl, rfl⟩ := h
  obtain ⟨ps, last, hcuts⟩ := exists_cuts 1 source
  have heq : ps = before ++ p :: after := by
    rw [← hpieces, pieces, hcuts.pieces_eq]
  exact (heq ▸ hcuts).cut_at

/-! ## The piece at a digit -/

def IsSuffixed (t : Bytes) : Prop :=
  ∃ ds mark, areDigits ds = true ∧ (mark = [] ∨ mark = [0x4c] ∨ mark = [0x6c]) ∧ t = ds ++ mark

theorem floatPiece_text (line : Nat) (t : Bytes) : (floatPiece line t).text = t := by
  unfold floatPiece
  cases (Decimal.Number.ofText t).toBinary64? <;> rfl

section Digit

variable {line : Nat} {b : UInt8} {text rest : Bytes} {p : Piece}

/-- At a digit the lexer reads a number. -/
theorem Cut.number_eq (h : Cut line (text ++ rest) p rest) (first : text.head? = some b)
    (digit : isDigitByte b = true) : number line (text ++ rest) = p := by
  obtain ⟨tail, rfl⟩ := List.head?_eq_some_iff.mp first
  rw [List.cons_append, ← piece_digit digit]
  exact h.piece_eq

theorem Cut.float_of_front (h : Cut line (p.text ++ rest) p rest) (first : p.text.head? = some b)
    (digit : isDigitByte b = true) (hfloat : HasFront IsFloat (p.text ++ rest)) :
    p = floatPiece line p.text ∧ Longest IsFloat p.text rest := by
  have hnumber := h.number_eq first digit
  obtain ⟨front, back, hfront, hf⟩ := hfloat
  obtain ⟨t, left, hback, ht⟩ := exists_longest back hf
  have hsplit : p.text ++ rest = t ++ left := hfront.trans hback
  have hp : floatPiece line t = p := by
    rw [← number_float line ht, ← hsplit, hnumber]
  have htext : t = p.text := by
    rw [← hp, floatPiece_text]
  subst htext
  cases List.append_cancel_left hsplit
  exact ⟨hp.symm, ht⟩

theorem Cut.integer_of_no_front (h : Cut line (p.text ++ rest) p rest)
    (first : p.text.head? = some b) (digit : isDigitByte b = true)
    (hfloat : ¬ HasFront IsFloat (p.text ++ rest)) :
    ∃ ds mark, areDigits ds = true ∧ (mark = [] ∨ mark = [0x4c]) ∧
      p = .token ⟨.integer, ds ++ mark, line, some (.text ds)⟩ ∧
      Longest IsInteger (ds ++ mark) rest := by
  have hnumber := h.number_eq first digit
  obtain ⟨tail, htail⟩ := List.head?_eq_some_iff.mp first
  have hone : IsInteger [b] :=
    ⟨[b], [], (areDigits_iff [b]).mpr ⟨by simp, by simpa using digit⟩, .inl rfl, rfl⟩
  obtain ⟨t, left, hback, ht⟩ := exists_longest (tail ++ rest) hone
  obtain ⟨ds, mark, hds, hmark, rfl⟩ := ht.1
  have hsplit : p.text ++ rest = ds ++ mark ++ left := by
    rw [htail, ← hback]
    rfl
  rw [hsplit, number_integer line hds hmark ht fun front back hfront hf =>
    hfloat ⟨front, back, hsplit.trans hfront, hf⟩] at hnumber
  subst hnumber
  cases List.append_cancel_left hsplit
  exact ⟨ds, mark, hds, hmark, rfl, ht⟩

end Digit

/-! ## Small suffixes -/

section Suffix

variable {ds mark rest t : Bytes}

theorem IsInteger.isSuffixed (h : IsInteger t) : IsSuffixed t := by
  obtain ⟨ds, mark, hds, hmark, rfl⟩ := h
  exact ⟨ds, mark, hds, hmark.imp_right .inl, rfl⟩

/-- Suffixed digits are an integer, or end with a small suffix behind their digits. -/
theorem IsSuffixed.cases (h : IsSuffixed t) :
    IsInteger t ∨ ∃ ds, areDigits ds = true ∧ t = ds ++ [0x6c] := by
  obtain ⟨ds, mark, hds, hmark | hmark | rfl, rfl⟩ := h
  · exact .inl ⟨ds, mark, hds, .inl hmark, rfl⟩
  · exact .inl ⟨ds, mark, hds, .inr hmark, rfl⟩
  · exact .inr ⟨ds, hds, rfl⟩

/-- The longest integer is the longest one with a suffix of either case, unless a small suffix
follows its digits. -/
theorem Longest.suffixed_iff (hds : areDigits ds = true) (hmark : mark = [] ∨ mark = [0x4c])
    (h : Longest IsInteger (ds ++ mark) rest) :
    Longest IsSuffixed (ds ++ mark) rest ↔ ¬ (mark = [] ∧ rest.head? = some 0x6c) := by
  constructor
  · rintro hlongest ⟨rfl, hhead⟩
    obtain ⟨tail, rfl⟩ := List.head?_eq_some_iff.mp hhead
    exact hlongest.not_extends ⟨ds, [0x6c], hds, .inr (.inr rfl), by simp⟩
  · intro hnone
    refine ⟨h.1.isSuffixed, fun more tail hrest hmore => ?_⟩
    rcases hmore.cases with hint | ⟨ds', hds', heq⟩
    · exact h.2 more tail hrest hint
    · -- What comes behind the longest integer up to the small suffix is empty.
      rcases List.eq_nil_or_concat more with rfl | ⟨inner, c, rfl⟩
      · rfl
      · rw [List.concat_eq_append, ← List.append_assoc] at heq
        obtain ⟨hdigits, hc⟩ := List.append_inj' heq rfl
        cases hc
        have hinner : inner = [] := by
          refine h.2 inner (0x6c :: tail) (by rw [hrest]; simp) ?_
          rw [hdigits]
          exact ⟨ds', [], hds', .inl rfl, by simp⟩
        subst hinner
        have hplain : mark = [] := by
          rcases hmark with hm | rfl
          · exact hm
          · rw [List.append_nil] at hdigits
            have hout := not_mem_digits (x := 0x4c) rfl hds'
            rw [← hdigits] at hout
            simp at hout
        exact absurd ⟨hplain, by rw [hrest]; rfl⟩ hnone

end Suffix

/-- Where a piece begins with a digit, it is the longest float if a float begins there, and else
the longest integer, with its digits as value; it is also the longest one with a suffix of either
case, unless a small suffix follows. -/
theorem numerals_longest {source front rest : Bytes} {p : Piece} {b : UInt8}
    (cut : CutAt source front p rest) (first : p.text.head? = some b)
    (digit : isDigitByte b = true) :
    source = front ++ (p.text ++ rest) ∧
    (HasFront IsFloat (p.text ++ rest) →
      (∃ line, p = floatPiece line p.text) ∧ Longest IsFloat p.text rest) ∧
    (¬ HasFront IsFloat (p.text ++ rest) →
      ∃ ds mark, ∃ line : Nat, areDigits ds = true ∧ (mark = [] ∨ mark = [0x4c]) ∧
        p = .token ⟨.integer, ds ++ mark, line, some (.text ds)⟩ ∧
        Longest IsInteger p.text rest ∧
        (Longest IsSuffixed p.text rest ↔ ¬ (mark = [] ∧ rest.head? = some 0x6c))) := by
  obtain ⟨hsource, line, hcut⟩ := cut.cut
  refine ⟨hsource, fun hfloat => ?_, fun hfloat => ?_⟩
  · obtain ⟨hp, hlongest⟩ := hcut.float_of_front first digit hfloat
    exact ⟨⟨line, hp⟩, hlongest⟩
  · obtain ⟨ds, mark, hds, hmark, rfl, hlongest⟩ := hcut.integer_of_no_front first digit hfloat
    exact ⟨ds, mark, line, hds, hmark, rfl, hlongest, hlongest.suffixed_iff hds hmark⟩

/-- The digit of a name begins no piece, and the exponent of a float is cut with its sign. -/
theorem numerals_longest_exponent :
    CutAt (utf8 "x2-2.5e+7L") (utf8 "x2-") (floatPiece 1 (utf8 "2.5e+7")) (utf8 "L") ∧
      Longest IsFloat (utf8 "2.5e+7") (utf8 "L") := by
  have hcut : CutAt (utf8 "x2-2.5e+7L") (utf8 "x2-") (floatPiece 1 (utf8 "2.5e+7")) (utf8 "L") :=
    ⟨[.token ⟨.ident, "x2", 1, none⟩, .token ⟨.minus, "-", 1, none⟩],
      [.token ⟨.ident, "L", 1, none⟩], rfl, rfl, rfl⟩
  have hfloat : HasFront IsFloat (utf8 "2.5e+7L") :=
    ⟨utf8 "2.5", utf8 "e+7L", rfl, utf8 "2", utf8 "5", [], ⟨rfl, rfl, .inl rfl⟩, rfl⟩
  exact ⟨hcut, ((numerals_longest hcut rfl rfl).2.1 hfloat).2⟩

/-- A small suffix is not cut with its digits. -/
theorem small_suffix_left :
    CutAt (utf8 "1l") [] (.token ⟨.integer, "1", 1, some (.text "1")⟩) (utf8 "l") ∧
      ¬ HasFront IsFloat (utf8 "1l") ∧
      Longest IsSuffixed (utf8 "1l") [] ∧ ¬ Longest IsSuffixed (utf8 "1") (utf8 "l") := by
  have hsuffixed : IsSuffixed (utf8 "1l") := ⟨utf8 "1", [0x6c], rfl, .inr (.inr rfl), rfl⟩
  refine ⟨⟨[], [.token ⟨.ident, "l", 1, none⟩], rfl, rfl, rfl⟩, ?_, .alone hsuffixed,
    fun h => h.not_extends hsuffixed⟩
  rintro ⟨front, rest, heq, whole, fraction, exponent, -, rfl⟩
  have hpoint : (0x2e : UInt8) ∈ utf8 "1l" := by
    rw [heq]
    simp
  exact absurd hpoint (by decide)

end RToJulia
