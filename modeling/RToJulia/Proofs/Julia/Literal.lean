import RToJulia.Julia.Literal
import RToJulia.Proofs.Text.Escape

/-! # Literals in Julia text

The shapes of literals: numbers without a sign, strings whose quotes are closed,
and truth values. What the writers of literals write has one of these shapes.
-/

namespace RToJulia.Julia

open Text Decimal

/-! ## Shapes -/

/-- The inside of a string literal: single bytes that need no escape, and backslashes with a
byte each. -/
inductive Units : Bytes → Prop
  | nil : Units []
  | plain {b : UInt8} {s : Bytes} (quote : b ≠ 0x22) (slash : b ≠ 0x5c) (dollar : b ≠ 0x24)
      (rest : Units s) : Units (b :: s)
  | escape (b : UInt8) {s : Bytes} (rest : Units s) : Units (0x5c :: b :: s)

def areDigits (ds : Bytes) : Bool :=
  ds ≠ [] && ds.all isDigitByte

/-- A number without a sign: digits, a fraction if there is one, an exponent if there is one. -/
structure IsNumeral (t whole fraction exponent : Bytes) : Prop where
  parts : t = whole ++ fraction ++ exponent
  whole : areDigits whole = true
  fraction : fraction = [] ∨ ∃ ds, areDigits ds = true ∧ fraction = 0x2e :: ds
  exponent : exponent = [] ∨ ∃ sign ds, (sign = 0x2b ∨ sign = 0x2d) ∧ areDigits ds = true ∧
    exponent = 0x65 :: sign :: ds

inductive IsLiteral : Bytes → Prop
  | number {t whole fraction exponent : Bytes} (h : IsNumeral t whole fraction exponent) :
      IsLiteral t
  | string {body : Bytes} (h : Units body) : IsLiteral (0x22 :: body ++ [0x22])
  | truth (b : Bool) : IsLiteral (if b then "true" else "false")

def isNumberByte (b : UInt8) : Bool :=
  isDigitByte b || b ∈ [0x2b, 0x2d, 0x2e, 0x65]

theorem IsNumeral.bytes {t whole fraction exponent : Bytes}
    (h : IsNumeral t whole fraction exponent) : t.all isNumberByte = true := by
  have hdigits : ∀ {ds : Bytes}, areDigits ds = true → ds.all isNumberByte = true := by
    intro ds hds
    simp only [areDigits, Bool.and_eq_true, List.all_eq_true] at hds ⊢
    exact fun b hb => by simp [isNumberByte, hds.2 b hb]
  have hfraction : fraction.all isNumberByte = true := by
    rcases h.fraction with rfl | ⟨ds, hds, rfl⟩
    · rfl
    · simp [isNumberByte, hdigits hds]
  have hexponent : exponent.all isNumberByte = true := by
    rcases h.exponent with rfl | ⟨sign, ds, rfl | rfl, hds, rfl⟩
    · rfl
    · simp [isNumberByte, hdigits hds]
    · simp [isNumberByte, hdigits hds]
  rw [h.parts, List.all_append, List.all_append, hdigits h.whole, hfraction, hexponent]
  rfl

/-- What a literal begins with or is made of. -/
theorem IsLiteral.cases_bytes {t : Bytes} (h : IsLiteral t) :
    t.all isNumberByte = true ∨ t.head? = some 0x22 ∨ t = "true" ∨ t = "false" := by
  cases h with
  | number h => exact .inl h.bytes
  | string h => exact .inr (.inl rfl)
  | truth b =>
      cases b with
      | true => exact .inr (.inr (.inl rfl))
      | false => exact .inr (.inr (.inr rfl))

/-! ## Strings -/

theorem units_stringBody {s : Bytes} (h : isWhole s = true) : Units (stringBody s) := by
  fun_induction stringBody s with
  | case1 => exact .nil
  | case2 => contradiction
  | case3 b rest ih => exact .escape b (ih (by simpa [isWhole, pending] using h))
  | case4 b rest hlone hpair hb ih =>
      have hrest : isWhole rest = true := by
        simp only [Bool.or_eq_true, decide_eq_true_eq] at hb
        rcases hb with rfl | rfl <;> simpa [isWhole, pending] using h
      exact .escape b (ih hrest)
  | case5 b rest hlone hpair hb ih =>
      have hslash : b ≠ 0x5c := by
        rintro rfl
        cases rest with
        | nil => exact hlone rfl rfl
        | cons c rest => exact hpair c rest rfl rfl
      simp only [Bool.or_eq_true, decide_eq_true_eq, not_or] at hb
      exact .plain hb.1 hslash hb.2 (ih (by simpa [isWhole, pending, hslash] using h))

theorem stringLiteral_isLiteral {s : Bytes} (h : isWhole s = true) : IsLiteral (stringLiteral s) :=
  .string (units_stringBody h)

/-! ## Numbers -/

theorem areDigits_iff (ds : Bytes) : areDigits ds = true ↔ ds ≠ [] ∧ ∀ b ∈ ds, isDigitByte b = true := by
  simp [areDigits, List.all_eq_true]

theorem areDigits_decimal (n : Nat) : areDigits (decimal n) = true := by
  rw [areDigits_iff]
  refine ⟨by simp [decimal, Nat.toDigits_ne_nil], fun b hb => ?_⟩
  obtain ⟨c, hc, rfl⟩ := List.mem_map.mp hb
  have hd := Nat.isDigit_of_mem_toDigits (by decide) (by decide) hc
  simp only [Char.isDigit, Bool.and_eq_true, decide_eq_true_eq] at hd
  have hlow : 48 ≤ c.toNat := hd.1
  have hhigh : c.toNat ≤ 57 := hd.2
  simp only [isDigitByte, Bool.and_eq_true, decide_eq_true_eq, UInt8.le_iff_toNat_le,
    UInt8.toNat_ofNat', UInt8.reduceToNat]
  omega

theorem isWhole_of_digits {ds : Bytes} (h : areDigits ds = true) : isWhole ds = true := by
  apply isWhole_of_not_mem
  intro hslash
  have hdigit := ((areDigits_iff ds).mp h).2 0x5c hslash
  contradiction

theorem areDigits_append {ds es : Bytes} (h : areDigits ds = true)
    (he : ∀ b ∈ es, isDigitByte b = true) : areDigits (ds ++ es) = true := by
  rw [areDigits_iff] at h ⊢
  refine ⟨by simp [h.1], fun b hb => ?_⟩
  rcases List.mem_append.mp hb with hb | hb
  · exact h.2 b hb
  · exact he b hb

theorem zeros_digits (n : Nat) : ∀ b ∈ zeros n, isDigitByte b = true := by
  intro b hb
  rw [List.eq_of_mem_replicate hb]
  rfl

/-- Digits with a point inside, or none when they end before it. -/
theorem point_numeral {ds : Bytes} {n : Nat} (h : areDigits ds = true) (hn : 0 < n)
    (hl : n < ds.length) : IsNumeral (ds.take n ++ "." ++ ds.drop n) (ds.take n)
      (0x2e :: ds.drop n) [] := by
  rw [areDigits_iff] at h
  refine ⟨by simp; rfl, ?_, .inr ⟨ds.drop n, ?_, rfl⟩, .inl rfl⟩
  · rw [areDigits_iff]
    refine ⟨?_, fun b hb => h.2 b (List.mem_of_mem_take hb)⟩
    exact List.ne_nil_of_length_pos (by rw [List.length_take]; omega)
  · rw [areDigits_iff]
    refine ⟨?_, fun b hb => h.2 b (List.mem_of_mem_drop hb)⟩
    exact List.ne_nil_of_length_pos (by rw [List.length_drop]; omega)

theorem positional_numeral {ds : Bytes} (h : areDigits ds = true) (x : Int) :
    ∃ whole fraction, IsNumeral (positional ds x) whole fraction [] := by
  unfold positional
  split
  · refine ⟨[0x30], 0x2e :: (zeros (-x - 1).toNat ++ ds), by simp; rfl, rfl,
      .inr ⟨_, ?_, rfl⟩, .inl rfl⟩
    rw [areDigits_iff] at h ⊢
    refine ⟨by simp [h.1], fun b hb => ?_⟩
    rcases List.mem_append.mp hb with hb | hb
    · exact zeros_digits _ b hb
    · exact h.2 b hb
  · dsimp only
    split
    · exact ⟨ds ++ zeros (x.toNat + 1 - ds.length), [], by simp,
        areDigits_append h (zeros_digits _), .inl rfl, .inl rfl⟩
    · exact ⟨_, _, point_numeral h (by omega) (by omega)⟩

theorem exponentText_spec (x : Int) : ∃ sign ds, (sign = 0x2b ∨ sign = 0x2d) ∧
    areDigits ds = true ∧ exponentText x = 0x65 :: sign :: ds := by
  have hds := areDigits_decimal x.natAbs
  have hpad : areDigits (if (decimal x.natAbs).length < 2 then 0x30 :: decimal x.natAbs
      else decimal x.natAbs) = true := by
    split
    · change areDigits ([0x30] ++ decimal x.natAbs) = true
      exact areDigits_append rfl ((areDigits_iff _).mp hds).2
    · exact hds
  unfold exponentText
  dsimp only
  by_cases hx : x < 0
  · rw [if_pos hx]
    exact ⟨0x2d, _, .inr rfl, hpad, rfl⟩
  · rw [if_neg hx]
    exact ⟨0x2b, _, .inl rfl, hpad, rfl⟩

theorem scientific_numeral {ds : Bytes} (h : areDigits ds = true) (x : Int) :
    ∃ whole fraction, IsNumeral (scientific ds x) whole fraction (exponentText x) := by
  unfold scientific
  split
  · exact ⟨ds, [], by simp, h, .inl rfl, .inr (exponentText_spec x)⟩
  · have hp := point_numeral h (n := 1) (by decide) (by omega)
    refine ⟨_, _, ?_, hp.whole, hp.fraction, .inr (exponentText_spec x)⟩
    rw [hp.parts, List.append_nil]

theorem generalForm_numeral (m : Nat) (e : Int) : ∃ whole fraction exponent,
    IsNumeral (Binary64.finite false m e).generalForm whole fraction exponent := by
  have hds : areDigits (leadingDigits m e).1 = true := areDigits_decimal _
  have hform : (Binary64.finite false m e).generalForm =
      if isPositional (leadingDigits m e).2 then positional (leadingDigits m e).1 (leadingDigits m e).2
      else scientific (leadingDigits m e).1 (leadingDigits m e).2 := rfl
  rw [hform]
  split
  · obtain ⟨whole, fraction, h⟩ := positional_numeral hds (leadingDigits m e).2
    exact ⟨whole, fraction, [], h⟩
  · obtain ⟨whole, fraction, h⟩ := scientific_numeral hds (leadingDigits m e).2
    exact ⟨whole, fraction, _, h⟩

/-- A number that shows neither a point nor an exponent has neither. -/
theorem floatLiteral_isLiteral (m : Nat) (e : Int) :
    IsLiteral (floatLiteral (.finite false m e)) := by
  obtain ⟨whole, fraction, exponent, h⟩ := generalForm_numeral m e
  unfold floatLiteral
  dsimp only
  split
  · exact .number h
  · rename_i hshow
    have hnone : ∀ b ∈ whole ++ fraction ++ exponent, b ≠ 0x2e ∧ b ≠ 0x65 := by
      intro b hb
      rw [h.parts] at hshow
      simp only [showsFloat, Bool.not_eq_true, List.any_eq_false] at hshow
      have := hshow b hb
      simp_all
    have hf : fraction = [] := by
      rcases h.fraction with hf | ⟨ds, -, hf⟩
      · exact hf
      · exact ((hnone 0x2e (by simp [hf])).1 rfl).elim
    have he : exponent = [] := by
      rcases h.exponent with he | ⟨sign, ds, -, -, he⟩
      · exact he
      · exact ((hnone 0x65 (by simp [he])).2 rfl).elim
    have hpoint : IsNumeral ((Binary64.finite false m e).generalForm ++ ".0") whole
        [0x2e, 0x30] [] := by
      refine ⟨?_, h.whole, .inr ⟨[0x30], rfl, rfl⟩, .inl rfl⟩
      rw [h.parts, hf, he]
      simp
      rfl
    exact .number hpoint

end RToJulia.Julia
