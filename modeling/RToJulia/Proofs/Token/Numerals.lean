import RToJulia.Proofs.Julia.Literal
import RToJulia.Proofs.Token.Cutting

/-! # Numbers in a source

A float is digits, a point, digits and an exponent if there is one; an integer is
digits and an `L` if there is one. Where a float can be cut, the longest one is, and
elsewhere the longest integer.
-/

namespace RToJulia

open Text Lexer
open Julia (areDigits areDigits_iff)

/-! ## Longest matches -/

/-- `t` is the longest text of a class in front of `left`. -/
def Longest (P : Bytes → Prop) (t left : Bytes) : Prop :=
  P t ∧ ∀ more rest, left = more ++ rest → P (t ++ more) → more = []

namespace Longest

variable {P : Bytes → Prop} {t left : Bytes}

theorem alone (h : P t) : Longest P t [] := by
  refine ⟨h, fun more rest heq _ => ?_⟩
  exact (List.append_eq_nil_iff.mp heq.symm).1

/-- A byte outside the class does not make the match longer. -/
theorem append {x : UInt8} (h : Longest P t left) (hx : ∀ u, P u → x ∉ u) (more : Bytes) :
    Longest P t (left ++ x :: more) := by
  refine ⟨h.1, fun front rest heq hfront => ?_⟩
  have hout : x ∉ front := fun hmem => hx _ hfront (List.mem_append_right t hmem)
  rcases List.append_eq_append_iff.mp heq with ⟨mid, rfl, hmid⟩ | ⟨mid, rfl, -⟩
  · cases mid with
    | nil => exact h.2 _ [] (by simp) hfront
    | cons y mid =>
        cases hmid
        simp at hout
  · exact h.2 front mid rfl hfront

/-- The byte behind a longest match does not belong to it. -/
theorem not_extends {b : UInt8} {rest : Bytes} (h : Longest P t (b :: rest)) : ¬ P (t ++ [b]) :=
  fun hb => nomatch h.2 [b] rest rfl hb

end Longest

/-- Where a class has a match it has a longest one. -/
theorem exists_longest {P : Bytes → Prop} {t : Bytes} (left : Bytes) (h : P t) :
    ∃ u rest, t ++ left = u ++ rest ∧ Longest P u rest := by
  induction hn : left.length using Nat.strongRecOn generalizing t left with
  | ind n ih =>
      by_cases hmore : ∃ more rest, left = more ++ rest ∧ P (t ++ more) ∧ more ≠ []
      · obtain ⟨more, rest, rfl, hlonger, hne⟩ := hmore
        have hpos := List.length_pos_iff.mpr hne
        rw [List.length_append] at hn
        obtain ⟨u, rest', heq, hu⟩ := ih rest.length (by omega) rest hlonger rfl
        exact ⟨u, rest', by rw [← List.append_assoc, heq], hu⟩
      · refine ⟨t, left, rfl, h, fun more rest heq hlonger => ?_⟩
        by_cases hne : more = []
        · exact hne
        · exact absurd ⟨more, rest, heq, hlonger, hne⟩ hmore

/-- A class that matches at no front of a text matches at none of a longer one, if the byte
between is outside the class. -/
theorem not_front_append {P : Bytes → Prop} {s : Bytes} {x : UInt8}
    (h : ∀ front rest, s = front ++ rest → ¬ P front) (hx : ∀ u, P u → x ∉ u) (more : Bytes) :
    ∀ front rest, s ++ x :: more = front ++ rest → ¬ P front := by
  intro front rest heq hfront
  rcases List.append_eq_append_iff.mp heq with ⟨mid, rfl, hmid⟩ | ⟨mid, rfl, -⟩
  · cases mid with
    | nil => exact h s [] (by simp) (by simpa using hfront)
    | cons y mid =>
        cases hmid
        exact hx _ hfront (by simp)
  · exact h front mid rfl hfront

/-! ## Shapes -/

def IsExponent (t : Bytes) : Prop :=
  ∃ mark sign ds, (mark = 0x65 ∨ mark = 0x45) ∧ (sign = [] ∨ sign = [0x2b] ∨ sign = [0x2d]) ∧
    areDigits ds = true ∧ t = mark :: (sign ++ ds)

structure FloatParts (whole fraction exponent : Bytes) : Prop where
  whole : areDigits whole = true
  fraction : areDigits fraction = true
  exponent : exponent = [] ∨ IsExponent exponent

def IsFloat (t : Bytes) : Prop :=
  ∃ whole fraction exponent, FloatParts whole fraction exponent ∧
    t = whole ++ 0x2e :: (fraction ++ exponent)

def IsInteger (t : Bytes) : Prop :=
  ∃ ds mark, areDigits ds = true ∧ (mark = [] ∨ mark = [0x4c]) ∧ t = ds ++ mark

section Bytes

variable {t : Bytes} {x : UInt8}

theorem not_mem_digits (hx : isDigitByte x = false) (h : areDigits t = true) : x ∉ t := by
  intro hmem
  have hdigit := ((areDigits_iff t).mp h).2 x hmem
  simp [hx] at hdigit

/-- Numbers are written without blanks and line breaks. -/
theorem IsFloat.not_mem (hx : isNameByte x = false) (hplus : x ≠ 0x2b) (hminus : x ≠ 0x2d)
    (h : IsFloat t) : x ∉ t := by
  simp only [isNameByte, Bool.or_eq_false_iff, beq_eq_false_iff_ne] at hx
  obtain ⟨⟨hstart, hdigit⟩, hdot⟩ := hx
  obtain ⟨whole, fraction, exponent, ⟨hw, hf, he⟩, rfl⟩ := h
  have hexponent : x ∉ exponent := by
    rcases he with rfl | ⟨mark, sign, ds, hmark, hsign, hds, rfl⟩
    · simp
    · have hne : x ≠ mark := by
        rintro rfl
        rcases hmark with rfl | rfl <;> simp [isNameStart] at hstart
      have hout : x ∉ sign := by
        rcases hsign with rfl | rfl | rfl <;> simp [hplus, hminus]
      simp [hne, hout, not_mem_digits hdigit hds]
  simp [not_mem_digits hdigit hw, not_mem_digits hdigit hf, hdot, hexponent]

theorem IsInteger.not_mem (hx : isNameByte x = false) (h : IsInteger t) : x ∉ t := by
  simp only [isNameByte, Bool.or_eq_false_iff, beq_eq_false_iff_ne] at hx
  obtain ⟨ds, mark, hds, hmark, rfl⟩ := h
  have hout : x ∉ mark := by
    rcases hmark with rfl | rfl
    · simp
    · rintro hmem
      cases List.mem_singleton.mp hmem
      simp [isNameStart] at hx
  simp [not_mem_digits hx.1.2 hds, hout]

theorem IsFloat.head (h : IsFloat t) : ∃ b rest, t = b :: rest ∧ isDigitByte b = true := by
  obtain ⟨whole, fraction, exponent, parts, rfl⟩ := h
  obtain ⟨hne, hall⟩ := (areDigits_iff whole).mp parts.whole
  obtain ⟨b, ds, rfl⟩ := List.exists_cons_of_ne_nil hne
  exact ⟨b, _, rfl, hall b (by simp)⟩

theorem IsInteger.head (h : IsInteger t) : ∃ b rest, t = b :: rest ∧ isDigitByte b = true := by
  obtain ⟨ds, mark, hds, -, rfl⟩ := h
  obtain ⟨hne, hall⟩ := (areDigits_iff ds).mp hds
  obtain ⟨b, ds, rfl⟩ := List.exists_cons_of_ne_nil hne
  exact ⟨b, _, rfl, hall b (by simp)⟩

end Bytes

/-! ## Cutting -/

section Cutting

variable {s left whole fraction exponent ds : Bytes}

theorem areDigits_snoc {b : UInt8} (h : areDigits ds = true) (hb : isDigitByte b = true) :
    areDigits (ds ++ [b]) = true := by
  rw [areDigits_iff] at h ⊢
  refine ⟨by simp, fun c hc => ?_⟩
  rcases List.mem_append.mp hc with hc | hc
  · exact h.2 c hc
  · rwa [List.mem_singleton.mp hc]

theorem digits_cut (h : areDigits ds = true)
    (hleft : ∀ b, left.head? = some b → isDigitByte b = false) :
    (ds ++ left).takeWhile isDigitByte = ds ∧ (ds ++ left).dropWhile isDigitByte = left :=
  takeWhile_word (List.all_eq_true.mpr ((areDigits_iff ds).mp h).2) hleft

def EndsSign (rest : Bytes) : Prop :=
  ∀ b, rest.head? = some b → b ≠ 0x2b ∧ b ≠ 0x2d

/-- Behind a mark and a sign, if there is one, all digits are cut. -/
theorem exponentPart_cons {mark : UInt8} {sign rest : Bytes} (hmark : mark = 0x65 ∨ mark = 0x45)
    (hsign : sign = [0x2b] ∨ sign = [0x2d] ∨ sign = [] ∧ EndsSign rest) :
    exponentPart (mark :: (sign ++ rest)) =
      if rest.takeWhile isDigitByte = [] then []
      else mark :: (sign ++ rest.takeWhile isDigitByte) := by
  have hmark' : (decide (mark = 0x65) || decide (mark = 0x45)) = true := by simpa using hmark
  unfold exponentPart
  rcases hsign with rfl | rfl | ⟨rfl, hends⟩
  · simp [hmark']
  · simp [hmark']
  · cases rest with
    | nil => simp [hmark']
    | cons b rest =>
        obtain ⟨hplus, hminus⟩ := hends b rfl
        simp [hmark', hplus, hminus]

/-- What is cut as an exponent is one. -/
theorem exponentPart_spec (s : Bytes) :
    exponentPart s = [] ∨ IsExponent (exponentPart s) ∧ ∃ rest, s = exponentPart s ++ rest := by
  cases s with
  | nil => exact .inl rfl
  | cons mark s =>
      by_cases hmark : mark = 0x65 ∨ mark = 0x45
      · have hsplit : ∃ sign rest, s = sign ++ rest ∧
            (sign = [0x2b] ∨ sign = [0x2d] ∨ sign = [] ∧ EndsSign rest) := by
          cases s with
          | nil => exact ⟨[], [], rfl, .inr (.inr ⟨rfl, nofun⟩)⟩
          | cons b rest =>
              by_cases hplus : b = 0x2b
              · exact ⟨[b], rest, rfl, .inl (by rw [hplus])⟩
              by_cases hminus : b = 0x2d
              · exact ⟨[b], rest, rfl, .inr (.inl (by rw [hminus]))⟩
              · refine ⟨[], b :: rest, rfl, .inr (.inr ⟨rfl, fun c hc => ?_⟩)⟩
                cases hc
                exact ⟨hplus, hminus⟩
        obtain ⟨sign, rest, rfl, hsign⟩ := hsplit
        rw [exponentPart_cons hmark hsign]
        by_cases hds : rest.takeWhile isDigitByte = []
        · exact .inl (if_pos hds)
        · have hdigits : areDigits (rest.takeWhile isDigitByte) = true := by
            rw [areDigits_iff]
            exact ⟨hds, fun b hb => List.all_eq_true.mp List.all_takeWhile b hb⟩
          have hsigns : sign = [] ∨ sign = [0x2b] ∨ sign = [0x2d] := by
            rcases hsign with hs | hs | ⟨hs, -⟩ <;> simp [hs]
          rw [if_neg hds]
          refine .inr ⟨⟨mark, sign, _, hmark, hsigns, hdigits, rfl⟩, rest.dropWhile isDigitByte, ?_⟩
          simp [List.takeWhile_append_dropWhile]
      · have hmark' : ¬ (decide (mark = 0x65) || decide (mark = 0x45)) = true := by
          simpa using hmark
        unfold exponentPart
        exact .inl (if_neg hmark')

/-- An exponent is cut whole in front of what is no digit. -/
theorem exponentPart_append (h : IsExponent exponent)
    (hleft : ∀ b, left.head? = some b → isDigitByte b = false) :
    exponentPart (exponent ++ left) = exponent := by
  obtain ⟨mark, sign, ds, hmark, hsign, hds, rfl⟩ := h
  obtain ⟨hne, hall⟩ := (areDigits_iff ds).mp hds
  have hends : EndsSign (ds ++ left) := by
    obtain ⟨d, ds, rfl⟩ := List.exists_cons_of_ne_nil hne
    intro b hb
    cases hb
    have hdigit := hall d (by simp)
    constructor <;> rintro rfl <;> exact absurd hdigit (by decide)
  have hsign' : sign = [0x2b] ∨ sign = [0x2d] ∨ sign = [] ∧ EndsSign (ds ++ left) := by
    rcases hsign with hs | hs | hs <;> simp [hs, hends]
  rw [List.cons_append, List.append_assoc, exponentPart_cons hmark hsign',
    (digits_cut hds hleft).1, if_neg hne]

theorem fractionPart_append (h : areDigits fraction = true)
    (hleft : ∀ b, left.head? = some b → isDigitByte b = false) :
    fractionPart (0x2e :: (fraction ++ left)) = 0x2e :: fraction := by
  have hne := ((areDigits_iff fraction).mp h).1
  simp [fractionPart, (digits_cut h hleft).1, hne]

/-- No digit stands behind the longest float. -/
theorem Longest.float_digits (parts : FloatParts whole fraction exponent)
    (h : Longest IsFloat (whole ++ 0x2e :: (fraction ++ exponent)) left) (b : UInt8)
    (hb : left.head? = some b) : isDigitByte b = false := by
  obtain ⟨rest, rfl⟩ := List.head?_eq_some_iff.mp hb
  rw [← Bool.not_eq_true]
  intro hdigit
  apply h.not_extends
  rcases parts.exponent with rfl | ⟨mark, sign, ds, hmark, hsign, hds, rfl⟩
  · exact ⟨whole, fraction ++ [b], [],
      ⟨parts.whole, areDigits_snoc parts.fraction hdigit, .inl rfl⟩, by simp⟩
  · exact ⟨whole, fraction, mark :: (sign ++ (ds ++ [b])), ⟨parts.whole, parts.fraction,
      .inr ⟨mark, sign, ds ++ [b], hmark, hsign, areDigits_snoc hds hdigit, rfl⟩⟩, by simp⟩

/-- A longest float is cut with all its parts. -/
theorem float_cut (parts : FloatParts whole fraction exponent)
    (h : Longest IsFloat (whole ++ 0x2e :: (fraction ++ exponent)) left) :
    fractionPart (0x2e :: (fraction ++ (exponent ++ left))) = 0x2e :: fraction ∧
      exponentPart (exponent ++ left) = exponent := by
  have hdigits := h.float_digits parts
  have hexponent : exponentPart (exponent ++ left) = exponent := by
    rcases parts.exponent with rfl | he
    · rcases exponentPart_spec left with hnone | ⟨he, rest, hrest⟩
      · exact hnone
      · -- An exponent in front would make the float longer.
        have hlonger : IsFloat (whole ++ 0x2e :: (fraction ++ []) ++ exponentPart left) :=
          ⟨whole, fraction, exponentPart left, ⟨parts.whole, parts.fraction, .inr he⟩, by simp⟩
        exact h.2 _ rest hrest hlonger
    · exact exponentPart_append he hdigits
  refine ⟨fractionPart_append parts.fraction fun b hb => ?_, hexponent⟩
  rcases parts.exponent with rfl | ⟨mark, sign, ds, hmark, -, -, rfl⟩
  · exact hdigits b hb
  · cases hb
    rcases hmark with rfl | rfl <;> rfl

def floatPiece (line : Nat) (t : Bytes) : Piece :=
  (Decimal.Number.ofText t).toBinary64?.elim (.fault t (.floatRange t line)) fun value =>
    .token ⟨.float, t, line, some (.real value)⟩

theorem number_float {t : Bytes} (line : Nat) (h : Longest IsFloat t left) :
    number line (t ++ left) = floatPiece line t := by
  obtain ⟨whole, fraction, exponent, parts, rfl⟩ := h.1
  obtain ⟨hfraction, hexponent⟩ := float_cut parts h
  have hs : whole ++ 0x2e :: (fraction ++ exponent) ++ left =
      whole ++ 0x2e :: (fraction ++ (exponent ++ left)) := by simp
  have hpoint : ∀ b, (0x2e :: (fraction ++ (exponent ++ left))).head? = some b →
      isDigitByte b = false := by
    intro b hb
    cases hb
    rfl
  obtain ⟨htake, hdrop⟩ := digits_cut parts.whole hpoint
  have hrest : (0x2e :: (fraction ++ (exponent ++ left))).drop (0x2e :: fraction).length =
      exponent ++ left := by simp
  have htext : whole ++ 0x2e :: fraction ++ exponent = whole ++ 0x2e :: (fraction ++ exponent) := by
    simp
  unfold number floatPiece
  dsimp only
  rw [hs, htake, hdrop, hfraction, hrest, hexponent, if_neg (List.cons_ne_nil _ _), htext]
  cases (Decimal.Number.ofText (whole ++ 0x2e :: (fraction ++ exponent))).toBinary64? <;> rfl

/-- A longest integer is cut where no float can be. -/
theorem number_integer {mark : Bytes} (line : Nat) (hds : areDigits ds = true)
    (hmark : mark = [] ∨ mark = [0x4c]) (h : Longest IsInteger (ds ++ mark) left)
    (hfloat : ∀ front rest, ds ++ mark ++ left = front ++ rest → ¬ IsFloat front) :
    number line (ds ++ mark ++ left) =
      .token ⟨.integer, ds ++ mark, line, some (.text ds)⟩ := by
  have hends : ∀ b, (mark ++ left).head? = some b → isDigitByte b = false := by
    intro b hb
    rw [← Bool.not_eq_true]
    intro hdigit
    rcases hmark with rfl | rfl
    · obtain ⟨rest, rfl⟩ := List.head?_eq_some_iff.mp hb
      exact h.not_extends ⟨ds ++ [b], [], areDigits_snoc hds hdigit, .inl rfl, by simp⟩
    · cases hb
      contradiction
  obtain ⟨htake, hdrop⟩ := digits_cut hds hends
  have hfraction : fractionPart (mark ++ left) = [] := by
    unfold fractionPart
    split
    · rename_i rest heq
      dsimp only
      split
      · rfl
      · rename_i hne
        have hdigits : areDigits (rest.takeWhile isDigitByte) = true := by
          rw [areDigits_iff]
          exact ⟨hne, fun b hb => List.all_eq_true.mp List.all_takeWhile b hb⟩
        refine absurd ⟨ds, rest.takeWhile isDigitByte, [], ⟨hds, hdigits, .inl rfl⟩, rfl⟩
          (hfloat _ (rest.dropWhile isDigitByte) ?_)
        rw [List.append_assoc, heq]
        simp [List.takeWhile_append_dropWhile]
    · rfl
  have hfinal : (if (mark ++ left).head? = some 0x4c then ([0x4c] : Bytes) else []) = mark := by
    rcases hmark with rfl | rfl
    · rw [if_neg]
      intro hb
      obtain ⟨rest, rfl⟩ := List.head?_eq_some_iff.mp hb
      exact h.not_extends ⟨ds, [0x4c], hds, .inr rfl, by simp⟩
    · rfl
  unfold number
  dsimp only
  rw [List.append_assoc, htake, hdrop, hfraction, if_pos rfl, hfinal]

end Cutting

end RToJulia
