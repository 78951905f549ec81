import Mathlib.Algebra.Order.Field.Power
import Mathlib.Algebra.Order.Field.Rat
import Mathlib.Tactic.FieldSimp
import Mathlib.Tactic.Linarith
import Mathlib.Tactic.NormNum
import Mathlib.Tactic.Ring
import RToJulia.Decimal.Read
import RToJulia.Decimal.Shortest

/-!
# Rounding intervals

The significand and the exponent of a number are canonical when no other pair stands for it.
Quotients are rounded to canonical numbers.  The reals that round to a canonical number form an
interval around it, and the intervals of two canonical numbers have no point in common.
-/

namespace RToJulia.Decimal

/-- Powers with a negative exponent, as those of naturals with the exponent on the other side. -/
theorem pow_toNat {b : ℚ} (hb : b ≠ 0) (e : Int) :
    b ^ e.toNat = b ^ e * b ^ (-e).toNat := by
  rw [← zpow_natCast, ← zpow_natCast, ← zpow_add₀ hb]
  congr 1
  omega

namespace Binary64

/-- A significand has at most 53 bits, and fewer only at the least exponent. -/
structure IsCanonical (m : Nat) (e : Int) : Prop where
  bound : m < Nat.pow 2 53
  normal : Nat.pow 2 52 ≤ m ∨ e = minExponent
  least : minExponent ≤ e
  greatest : e ≤ maxExponent

theorem zero_isCanonical : IsCanonical 0 minExponent where
  bound := by decide
  normal := .inr rfl
  least := le_rfl
  greatest := by decide

end Binary64

open Binary64

/-! ## Quotients are rounded to canonical numbers -/

theorem roundDiv_cases (num den : Nat) :
    roundDiv num den = num / den ∨ roundDiv num den = num / den + 1 := by
  unfold roundDiv
  dsimp only
  split
  · exact .inl rfl
  · exact .inr rfl

/-- The floor of `num / den / 2 ^ e` against a power of two. -/
theorem scaleDown_lt {num den : Nat} (hden : 0 < den) (e : Int) (k : Nat) :
    (scaleDown num den e).1 / (scaleDown num den e).2 < Nat.pow 2 k ↔
      (num : ℚ) < 2 ^ k * 2 ^ e * den := by
  have hpos : (0 : ℚ) < 2 ^ (-e).toNat := by positivity
  have hd : 0 < den * Nat.pow 2 e.toNat := Nat.mul_pos hden (Nat.two_pow_pos _)
  calc _ ↔ num * Nat.pow 2 (-e).toNat < Nat.pow 2 k * (den * Nat.pow 2 e.toNat) :=
        Nat.div_lt_iff_lt_mul hd
    _ ↔ (num : ℚ) * 2 ^ (-e).toNat < 2 ^ k * (den * 2 ^ e.toNat) := by
        rw [Nat.pow_eq, Nat.pow_eq, Nat.pow_eq]
        exact_mod_cast Iff.rfl
    _ ↔ (num : ℚ) * 2 ^ (-e).toNat < 2 ^ k * 2 ^ e * den * 2 ^ (-e).toNat := by
        rw [pow_toNat two_ne_zero e]
        ring_nf
    _ ↔ _ := mul_lt_mul_iff_left₀ hpos

/-- The exponent guessed from the bit lengths is right or one too small. -/
theorem guess_bounds {num den : Nat} (hnum : 0 < num) (hden : 0 < den) {e : Int}
    (he : e = (Nat.log2 num : Int) - Nat.log2 den - 53) :
    (2 ^ 52 : ℚ) * 2 ^ e * den ≤ num ∧ (num : ℚ) < 2 ^ 54 * 2 ^ e * den := by
  have hnumLow : (2 : ℚ) ^ num.log2 ≤ num := by exact_mod_cast Nat.log2_self_le hnum.ne'
  have hnumHigh : (num : ℚ) < 2 ^ (num.log2 + 1) := by exact_mod_cast Nat.lt_log2_self
  have hdenLow : (2 : ℚ) ^ den.log2 ≤ den := by exact_mod_cast Nat.log2_self_le hden.ne'
  have hdenHigh : (den : ℚ) ≤ 2 ^ (den.log2 + 1) := by exact_mod_cast Nat.lt_log2_self.le
  have hpos : (0 : ℚ) < 2 ^ e := by positivity
  have hlow : (2 ^ 52 : ℚ) * 2 ^ e * 2 ^ (den.log2 + 1) = 2 ^ num.log2 := by
    rw [← zpow_natCast, ← zpow_natCast, ← zpow_natCast, ← zpow_add₀ two_ne_zero,
      ← zpow_add₀ two_ne_zero]
    congr 1
    push_cast
    omega
  have hhigh : (2 ^ 54 : ℚ) * 2 ^ e * 2 ^ den.log2 = 2 ^ (num.log2 + 1) := by
    rw [← zpow_natCast, ← zpow_natCast, ← zpow_natCast, ← zpow_add₀ two_ne_zero,
      ← zpow_add₀ two_ne_zero]
    congr 1
    push_cast
    omega
  constructor
  · calc (2 ^ 52 : ℚ) * 2 ^ e * den ≤ 2 ^ 52 * 2 ^ e * 2 ^ (den.log2 + 1) := by gcongr
      _ = 2 ^ num.log2 := hlow
      _ ≤ num := hnumLow
  · calc (num : ℚ) < 2 ^ (num.log2 + 1) := hnumHigh
      _ = 2 ^ 54 * 2 ^ e * 2 ^ den.log2 := hhigh.symm
      _ ≤ 2 ^ 54 * 2 ^ e * den := by gcongr

/-- The exponent of a quotient, before it is held at the least one. -/
def quotientExponent (num den : Nat) : Int :=
  let guess : Int := (Nat.log2 num : Int) - Nat.log2 den - 53
  if (scaleDown num den guess).1 / (scaleDown num den guess).2 < Nat.pow 2 53 then guess
  else guess + 1

theorem quotientExponent_bounds {num den : Nat} (hnum : 0 < num) (hden : 0 < den) :
    (2 ^ 52 : ℚ) * 2 ^ quotientExponent num den * den ≤ num ∧
      (num : ℚ) < 2 ^ 53 * 2 ^ quotientExponent num den * den := by
  obtain ⟨hlow, hhigh⟩ := guess_bounds hnum hden rfl
  unfold quotientExponent
  dsimp only
  split
  · rename_i hlt
    exact ⟨hlow, (scaleDown_lt hden _ _).mp hlt⟩
  · rename_i hge
    rw [scaleDown_lt hden, not_lt] at hge
    rw [zpow_add_one₀ two_ne_zero]
    constructor <;> linarith

/-- What is left of a significand of 54 bits after a carry. -/
def carried (m : Nat) (e : Int) : Nat × Int :=
  if m = Nat.pow 2 53 then (Nat.pow 2 52, e + 1) else (m, e)

theorem carried_isCanonical {m : Nat} {e : Int} (hbound : m ≤ Nat.pow 2 53)
    (hnormal : Nat.pow 2 52 ≤ m ∨ e = minExponent) (hleast : minExponent ≤ e)
    (hgreatest : (carried m e).2 ≤ maxExponent) : IsCanonical (carried m e).1 (carried m e).2 := by
  unfold carried at hgreatest ⊢
  split at hgreatest
  · rename_i h
    rw [if_pos h]
    exact ⟨Nat.pow_lt_pow_right (by decide) (by decide), .inl le_rfl, hleast.trans (by simp), hgreatest⟩
  · rename_i h
    rw [if_neg h]
    exact ⟨lt_of_le_of_ne hbound h, hnormal, hleast, hgreatest⟩

theorem ofQuotient?_isCanonical {negative : Bool} {num den : Nat} {x : Binary64}
    (hnum : 0 < num) (hden : 0 < den) (h : ofQuotient? negative num den = some x) :
    ∃ m e, x = .finite negative m e ∧ IsCanonical m e := by
  obtain ⟨hlow, hhigh⟩ := quotientExponent_bounds hnum hden
  let e := max (quotientExponent num den) minExponent
  let q := scaleDown num den e
  let m := roundDiv q.1 q.2
  have hform : ofQuotient? negative num den = if (carried m e).2 ≤ maxExponent then
      some (.finite negative (carried m e).1 (carried m e).2) else none := rfl
  rw [hform] at h
  split at h
  · rename_i hgreatest
    cases h
    have hfloor : q.1 / q.2 < Nat.pow 2 53 := by
      rw [scaleDown_lt hden]
      have hle : (2 : ℚ) ^ quotientExponent num den ≤ 2 ^ e :=
        zpow_le_zpow_right₀ (by norm_num) (le_max_left _ _)
      exact lt_of_lt_of_le hhigh (by gcongr)
    have hround := roundDiv_cases q.1 q.2
    refine ⟨_, _, rfl, carried_isCanonical ?_ ?_ (le_max_right _ _) hgreatest⟩
    · change roundDiv q.1 q.2 ≤ _
      omega
    · rcases le_total minExponent (quotientExponent num den) with hle | hle
      · have he : e = quotientExponent num den := max_eq_left hle
        have hnormal : ¬ q.1 / q.2 < Nat.pow 2 52 := by
          rw [scaleDown_lt hden, he, not_lt]
          exact hlow
        left
        change _ ≤ roundDiv q.1 q.2
        omega
      · exact .inr (max_eq_right hle)
  · cases h

theorem Number.toBinary64?_isCanonical {x : Number} {v : Binary64} (h : x.toBinary64? = some v) :
    ∃ m e, v = .finite x.negative m e ∧ IsCanonical m e := by
  unfold Number.toBinary64? at h
  split at h
  · cases h
    exact ⟨0, minExponent, rfl, zero_isCanonical⟩
  · rename_i hne
    exact ofQuotient?_isCanonical
      (Nat.mul_pos (Nat.pos_of_ne_zero hne) (Nat.pow_pos (by decide))) (Nat.pow_pos (by decide)) h

/-! ## The interval that rounds to a number -/

/-- The real `x / 4 * 2 ^ e`. -/
def mark (x : Nat) (e : Int) : ℚ :=
  x * 2 ^ (e - 2)

/-- The reals that round to a number; the ends belong to an even significand. -/
def Rounds (m : Nat) (e : Int) (x : ℚ) : Prop :=
  mark (lowerEnd m e) e ≤ x ∧ x ≤ mark (4 * m + 2) e ∧
    (m % 2 = 1 → mark (lowerEnd m e) e < x ∧ x < mark (4 * m + 2) e)

theorem mark_le_mark {a b : Nat} {e : Int} : mark a e ≤ mark b e ↔ a ≤ b := by
  have hpos : (0 : ℚ) < 2 ^ (e - 2) := by positivity
  rw [mark, mark, mul_le_mul_iff_left₀ hpos, Nat.cast_le]

theorem mark_lt_mark {a b : Nat} {e : Int} : mark a e < mark b e ↔ a < b := by
  rw [← not_le, mark_le_mark, not_le]

theorem mark_succ (a : Nat) (e : Int) : mark a (e + 1) = mark (2 * a) e := by
  rw [mark, mark, show e + 1 - 2 = e - 2 + 1 by ring, zpow_add_one₀ two_ne_zero]
  push_cast
  ring

theorem mark_double_le {a : Nat} {e e' : Int} (h : e < e') : mark (2 * a) e ≤ mark a e' := by
  rw [← mark_succ, mark, mark]
  gcongr
  · norm_num
  · omega

theorem lowerEnd_ge (m : Nat) (e : Int) : 4 * m - 2 ≤ lowerEnd m e := by
  unfold lowerEnd
  split <;> omega

/-- Below a significand the next one rounds: their intervals meet in an end at most, which belongs to
the even one of the two. -/
theorem rounds_significand {m m' : Nat} {e : Int} {x : ℚ} (h : Rounds m e x)
    (h' : Rounds m' e x) : m' ≤ m := by
  by_contra hlt
  have hle : lowerEnd m' e ≤ 4 * m + 2 := mark_le_mark.mp (h'.1.trans h.2.1)
  have hlower := lowerEnd_ge m' e
  have hnext : m' = m + 1 := by omega
  have hstrict : ¬ lowerEnd m' e < 4 * m + 2 := by omega
  rcases Nat.mod_two_eq_zero_or_one m with hm | hm
  · have hodd : m' % 2 = 1 := by omega
    exact hstrict (mark_lt_mark.mp ((h'.2.2 hodd).1.trans_le h.2.1))
  · exact hstrict (mark_lt_mark.mp (h'.1.trans_lt (h.2.2 hm).2))

/-- The greatest number of one exponent is odd, so that its interval ends before those of a greater
exponent begin. -/
theorem rounds_exponent {m m' : Nat} {e e' : Int} {x : ℚ} (hc : IsCanonical m e)
    (hc' : IsCanonical m' e') (h : Rounds m e x) (h' : Rounds m' e' x) : e' ≤ e := by
  by_contra hlt
  have hbound := hc.bound
  have hleast := hc.least
  have hnormal : Nat.pow 2 52 ≤ m' := hc'.normal.resolve_right (by omega)
  have hlower : 2 * (4 * Nat.pow 2 53 - 2) ≤ 2 * (2 * lowerEnd m' e') := by
    unfold lowerEnd
    split
    · simp only [Nat.pow_eq, Nat.reducePow] at hnormal ⊢
      omega
    · rename_i hif
      simp only [Bool.and_eq_true, decide_eq_true_eq, bne_iff_ne, not_and, ne_eq] at hif
      have hne : m' ≠ Nat.pow 2 52 := fun heq => hif heq (by omega)
      simp only [Nat.pow_eq, Nat.reducePow] at hnormal hne ⊢
      omega
  have hdouble : mark (2 * lowerEnd m' e') e ≤ x :=
    (mark_double_le (by omega)).trans h'.1
  have hle : 2 * lowerEnd m' e' ≤ 4 * m + 2 := mark_le_mark.mp (hdouble.trans h.2.1)
  have hodd : m % 2 = 1 := by
    simp only [Nat.pow_eq, Nat.reducePow] at hlower hbound
    omega
  have hltEnd : 2 * lowerEnd m' e' < 4 * m + 2 :=
    mark_lt_mark.mp (hdouble.trans_lt (h.2.2 hodd).2)
  simp only [Nat.pow_eq, Nat.reducePow] at hlower hbound
  omega

/-- No real rounds to two numbers. -/
theorem rounds_unique {m m' : Nat} {e e' : Int} {x : ℚ} (hc : IsCanonical m e)
    (hc' : IsCanonical m' e') (h : Rounds m e x) (h' : Rounds m' e' x) : m = m' ∧ e = e' := by
  have he : e = e' := le_antisymm (rounds_exponent hc' hc h' h) (rounds_exponent hc hc' h h')
  cases he
  exact ⟨le_antisymm (rounds_significand h' h) (rounds_significand h h'), rfl⟩

theorem Rounds.pos {m : Nat} {e : Int} {x : ℚ} (hm : 0 < m) (h : Rounds m e x) : 0 < x := by
  have hlower := lowerEnd_ge m e
  have hmark : mark 0 e < mark (lowerEnd m e) e := mark_lt_mark.mpr (by omega)
  rw [mark, Nat.cast_zero, zero_mul] at hmark
  exact hmark.trans_le h.1

end RToJulia.Decimal
