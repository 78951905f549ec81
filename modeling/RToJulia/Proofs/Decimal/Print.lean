import Mathlib.Data.List.Induction
import Mathlib.Data.List.TakeWhile
import RToJulia.Proofs.Decimal.Shortest
import RToJulia.Proofs.Julia.Literal

/-!
# Printed numbers

The text of a number reads as the decimal that was chosen for it.  That decimal rounds to the number,
so that two numbers never have the same text.
-/

namespace RToJulia.Decimal

open Text Binary64
open Julia (areDigits areDigits_iff areDigits_decimal areDigits_append zeros_digits)

/-! ## Digits -/

theorem digitsFrom_eq (ds : Bytes) (n : Nat) :
    ds.foldl (fun n d => 10 * n + (d.toNat - 0x30)) n = n * 10 ^ ds.length + digitsValue ds := by
  unfold digitsValue
  induction ds generalizing n with
  | nil => simp
  | cons d ds ih =>
      rw [List.foldl_cons, List.foldl_cons, ih, ih (10 * 0 + _), List.length_cons, pow_succ]
      ring

theorem digitsValue_append (ds es : Bytes) :
    digitsValue (ds ++ es) = digitsValue ds * 10 ^ es.length + digitsValue es := by
  rw [digitsValue, List.foldl_append, digitsFrom_eq]
  rfl

theorem digitsValue_zeros (n : Nat) : digitsValue (zeros n) = 0 := by
  induction n with
  | zero => rfl
  | succ n ih =>
      rw [zeros, List.replicate_succ', digitsValue_append]
      simpa using ⟨ih, rfl⟩

theorem foldl_digitChars {cs : List Char} (hcs : ∀ c ∈ cs, c.isDigit = true) (n : Nat) :
    (cs.map fun c => UInt8.ofNat c.toNat).foldl (fun n d => 10 * n + (d.toNat - 0x30)) n =
      Nat.ofDigitChars 10 cs n := by
  induction cs generalizing n with
  | nil => simp
  | cons c cs ih =>
      obtain ⟨hc, hcs⟩ := List.forall_mem_cons.mp hcs
      simp only [Char.isDigit, Bool.and_eq_true, decide_eq_true_eq] at hc
      have hhigh : c.toNat ≤ 57 := hc.2
      have hbyte : (UInt8.ofNat c.toNat).toNat = c.toNat := by
        rw [UInt8.toNat_ofNat']
        omega
      rw [List.map_cons, List.foldl_cons, ih hcs, hbyte, Nat.ofDigitChars_cons]
      rfl

theorem digitsValue_decimal (n : Nat) : digitsValue (decimal n) = n := by
  have hdigits : ∀ c ∈ Nat.toDigits 10 n, c.isDigit = true := fun c hc =>
    Nat.isDigit_of_mem_toDigits (by decide) (by decide) hc
  rw [digitsValue, decimal, foldl_digitChars hdigits, Nat.ofDigitChars_ten_toDigits]

/-- Small exponents are read in full. -/
theorem exponentValue_eq {ds : Bytes} (h : digitsValue ds < 10000) :
    exponentValue ds = digitsValue ds := by
  induction ds using List.reverseRecOn with
  | nil => rfl
  | append_singleton ds d ih =>
      have hsplit : digitsValue (ds ++ [d]) = 10 * digitsValue ds + (d.toNat - 0x30) := by
        rw [digitsValue, List.foldl_append]
        rfl
      have hsmall : digitsValue ds < 10000 := by omega
      rw [exponentValue, List.foldl_append, ← exponentValue, ih hsmall, hsplit]
      simp [hsmall]

/-! ## Reading numbers -/

def readValue (t : Bytes) : ℚ :=
  gridPoint (Number.ofText t).significand (Number.ofText t).exponent

/-- What may follow the digits: nothing or an exponent. -/
def EndsDigits (rest : Bytes) : Prop :=
  rest = [] ∨ ∃ t, rest = 0x65 :: t

theorem splitSign_digits {ds : Bytes} (h : areDigits ds = true) (rest : Bytes) :
    splitSign (ds ++ rest) = (false, ds ++ rest) := by
  cases ds with
  | nil => cases h
  | cons b ds =>
      have hb := ((areDigits_iff _).mp h).2 b List.mem_cons_self
      rw [List.cons_append]
      unfold splitSign
      split
      · rename_i heq
        cases heq
        cases hb
      · rename_i heq
        cases heq
        cases hb
      · rfl

theorem span_digits {ds rest : Bytes} (h : ∀ b ∈ ds, isDigitByte b = true)
    (hrest : rest = [] ∨ ∃ b t, rest = b :: t ∧ isDigitByte b = false) :
    (ds ++ rest).span isDigitByte = (ds, rest) := by
  rw [List.span_eq_takeWhile_dropWhile, List.takeWhile_append_of_pos h,
    List.dropWhile_append_of_pos h]
  rcases hrest with rfl | ⟨b, t, rfl, hb⟩
  · simp
  · simp [hb]

theorem EndsDigits.not_digit {rest : Bytes} (h : EndsDigits rest) :
    rest = [] ∨ ∃ b t, rest = b :: t ∧ isDigitByte b = false := by
  rcases h with rfl | ⟨t, rfl⟩
  · exact .inl rfl
  · exact .inr ⟨_, t, rfl, rfl⟩

theorem readValue_whole {ds rest : Bytes} (h : areDigits ds = true) (hrest : EndsDigits rest) :
    readValue (ds ++ rest) = gridPoint (digitsValue ds) (readExponent rest) := by
  have hfraction : splitFraction rest = ([], rest) := by
    rcases hrest with rfl | ⟨t, rfl⟩ <;> rfl
  have hspan := span_digits ((areDigits_iff ds).mp h).2 hrest.not_digit
  have hread : Number.ofText (ds ++ rest) = ⟨false, digitsValue ds, readExponent rest⟩ := by
    simp only [Number.ofText, splitSign_digits h, hspan, hfraction, List.append_nil, List.length_nil,
      Nat.cast_zero, sub_zero]
  rw [readValue, hread]

theorem readValue_point {ds fs rest : Bytes} (h : areDigits ds = true)
    (hfs : ∀ b ∈ fs, isDigitByte b = true) (hrest : EndsDigits rest) :
    readValue (ds ++ 0x2e :: (fs ++ rest)) =
      gridPoint (digitsValue (ds ++ fs)) (readExponent rest - fs.length) := by
  have hspan : (ds ++ 0x2e :: (fs ++ rest)).span isDigitByte = (ds, 0x2e :: (fs ++ rest)) :=
    span_digits ((areDigits_iff ds).mp h).2 (.inr ⟨_, _, rfl, rfl⟩)
  have hfraction : splitFraction (0x2e :: (fs ++ rest)) = (fs, rest) :=
    span_digits hfs hrest.not_digit
  have hread : Number.ofText (ds ++ 0x2e :: (fs ++ rest)) =
      ⟨false, digitsValue (ds ++ fs), readExponent rest - fs.length⟩ := by
    simp only [Number.ofText, splitSign_digits h, hspan, hfraction]
  rw [readValue, hread]

theorem readExponent_exponentText {x : Int} (h : x.natAbs < 10000) :
    readExponent (exponentText x) = x := by
  -- the exponent digits, with the zero that makes two of a single one
  let ds := if (decimal x.natAbs).length < 2 then 0x30 :: decimal x.natAbs else decimal x.natAbs
  have hdigits : ∀ b ∈ ds, isDigitByte b = true := by
    have hdecimal := ((areDigits_iff _).mp (areDigits_decimal x.natAbs)).2
    intro b hb
    simp only [ds] at hb
    split at hb
    · rcases List.mem_cons.mp hb with rfl | hb
      · rfl
      · exact hdecimal b hb
    · exact hdecimal b hb
  have hvalue : digitsValue ds = x.natAbs := by
    simp only [ds]
    split
    · have hzero : digitsValue [0x30] = 0 := rfl
      have hpad := digitsValue_append [0x30] (decimal x.natAbs)
      rw [hzero, digitsValue_decimal, Nat.zero_mul, Nat.zero_add] at hpad
      exact hpad
    · exact digitsValue_decimal _
  have htake : ds.takeWhile isDigitByte = ds := List.takeWhile_eq_self_iff.mpr hdigits
  have hread : (exponentValue ds : Int) = x.natAbs := by rw [exponentValue_eq (by omega), hvalue]
  by_cases hx : x < 0
  · have htext : exponentText x = 0x65 :: 0x2d :: ds := by
      unfold exponentText
      rw [if_pos hx]
      rfl
    rw [htext]
    change -(exponentValue (ds.takeWhile isDigitByte) : Int) = x
    rw [htake, hread]
    omega
  · have htext : exponentText x = 0x65 :: 0x2b :: ds := by
      unfold exponentText
      rw [if_neg hx]
      rfl
    rw [htext]
    change (exponentValue (ds.takeWhile isDigitByte) : Int) = x
    rw [htake, hread]
    omega

/-! ## The two forms -/

theorem gridPoint_shift (c n : Nat) (k : Int) :
    gridPoint (c * 10 ^ n) k = gridPoint c (k + n) := by
  rw [gridPoint, gridPoint, zpow_add₀ (by norm_num), zpow_natCast]
  push_cast
  ring

/-- Digits with a point among them keep their value. -/
theorem readValue_split {ds rest : Bytes} (h : areDigits ds = true) {n : Nat} (hn : 0 < n)
    (hrest : EndsDigits rest) :
    readValue (ds.take n ++ utf8 "." ++ ds.drop n ++ rest) =
      gridPoint (digitsValue ds) (readExponent rest - (ds.drop n).length) := by
  obtain ⟨hne, hdigits⟩ := (areDigits_iff ds).mp h
  have hlength : 0 < ds.length := List.length_pos_of_ne_nil hne
  have htake : areDigits (ds.take n) = true := by
    rw [areDigits_iff]
    refine ⟨?_, fun b hb => hdigits b (List.mem_of_mem_take hb)⟩
    exact List.ne_nil_of_length_pos (by rw [List.length_take]; omega)
  have hdrop : ∀ b ∈ ds.drop n, isDigitByte b = true := fun b hb =>
    hdigits b (List.mem_of_mem_drop hb)
  have htext : ds.take n ++ utf8 "." ++ ds.drop n ++ rest = ds.take n ++ 0x2e :: (ds.drop n ++ rest) := by
    simp
    rfl
  rw [htext, readValue_point htake hdrop hrest, List.take_append_drop]

theorem positional_value {ds : Bytes} (h : areDigits ds = true) (k : Int) :
    readValue (positional ds (k + ds.length - 1)) = gridPoint (digitsValue ds) k := by
  have hdigits := ((areDigits_iff ds).mp h).2
  have hlength : 0 < ds.length := List.length_pos_of_ne_nil ((areDigits_iff ds).mp h).1
  unfold positional
  split
  · -- all digits stand after the point
    rename_i hx
    have hzeros : ∀ b ∈ zeros (-(k + ds.length - 1) - 1).toNat ++ ds, isDigitByte b = true := by
      intro b hb
      exact (List.mem_append.mp hb).elim (zeros_digits _ b) (hdigits b)
    have hread := @readValue_point [0x30] _ [] rfl hzeros (.inl rfl)
    have htext : utf8 "0." ++ zeros (-(k + ds.length - 1) - 1).toNat ++ ds =
        [0x30] ++ 0x2e :: (zeros (-(k + ds.length - 1) - 1).toNat ++ ds ++ []) := by
      simp
      rfl
    rw [htext, hread, digitsValue_append, digitsValue_append, digitsValue_zeros]
    congr 1
    · simp
      rfl
    · simp [readExponent, zeros]
      omega
  · dsimp only
    split
    · -- zeros follow the digits
      rename_i hx hle
      rw [← List.append_nil (ds ++ _), readValue_whole (areDigits_append h (zeros_digits _)) (.inl rfl),
        digitsValue_append, digitsValue_zeros, Nat.add_zero, gridPoint_shift]
      congr 1
      simp [readExponent, zeros]
      omega
    · -- the point stands among the digits
      rename_i hx hlt
      rw [← List.append_nil (_ ++ _), readValue_split h (Nat.succ_pos _) (.inl rfl)]
      congr 1
      simp [readExponent]
      omega

theorem scientific_value {ds : Bytes} (h : areDigits ds = true) {k : Int}
    (hk : (k + ds.length - 1).natAbs < 10000) :
    readValue (scientific ds (k + ds.length - 1)) = gridPoint (digitsValue ds) k := by
  have hlength : 0 < ds.length := List.length_pos_of_ne_nil ((areDigits_iff ds).mp h).1
  obtain ⟨sign, es, -, -, hexponent⟩ := Julia.exponentText_spec (k + ds.length - 1)
  have hends : EndsDigits (exponentText (k + ds.length - 1)) := .inr ⟨_, hexponent⟩
  unfold scientific
  split
  · rename_i hle
    rw [readValue_whole h hends, readExponent_exponentText hk]
    congr 1
    omega
  · rename_i hlt
    rw [readValue_split h Nat.one_pos hends, readExponent_exponentText hk]
    congr 1
    simp
    omega

/-! ## Printed numbers differ -/

theorem gridPoint_bounds {c : Nat} (hc : 0 < c) (k : Int) :
    (10 : ℚ) ^ (k + (decimal c).length - 1) ≤ gridPoint c k ∧
      gridPoint c k < 10 ^ (k + (decimal c).length) := by
  have hten : (10 : ℚ) ≠ 0 := by norm_num
  have hlength : (decimal c).length = (Nat.toDigits 10 c).length := List.length_map ..
  have hpos : 0 < (Nat.toDigits 10 c).length := Nat.length_toDigits_pos
  obtain ⟨n, hn⟩ : ∃ n, (Nat.toDigits 10 c).length = n + 1 := ⟨_, (Nat.succ_pred hpos.ne').symm⟩
  have hhigh : c < 10 ^ (n + 1) := (Nat.length_toDigits_le_iff (by decide) (by omega)).mp hn.le
  have hlow : 10 ^ n ≤ c := by
    cases n with
    | zero => exact hc
    | succ n =>
        have hlong := (Nat.length_toDigits_le_iff (n := c) (k := n + 1) (b := 10) (by decide)
          (by omega)).not.mp (by omega)
        omega
  rw [hlength, hn, gridPoint, Nat.cast_add, Nat.cast_one, ← add_assoc, add_sub_cancel_right,
    add_assoc, zpow_add₀ hten, zpow_add₀ hten, mul_comm ((10 : ℚ) ^ k), mul_comm ((10 : ℚ) ^ k)]
  constructor
  · gcongr
    exact_mod_cast hlow
  · gcongr
    exact_mod_cast hhigh

theorem upper_mark_le {m : Nat} {e : Int} (hc : IsCanonical m e) :
    mark (4 * m + 2) e ≤ 10 ^ (1024 : Int) := by
  have hbound := hc.bound
  have hgreatest := hc.greatest
  rw [maxExponent] at hgreatest
  have hsignificand : ((4 * m + 2 : ℕ) : ℚ) ≤ 2 ^ (55 : Int) := by
    have : 4 * m + 2 ≤ 2 ^ 55 := by
      simp only [Nat.pow_eq] at hbound
      omega
    exact_mod_cast this
  calc mark (4 * m + 2) e ≤ 2 ^ (55 : Int) * 2 ^ (969 : Int) := by
        unfold mark
        gcongr
        · norm_num
        · omega
    _ = 2 ^ (1024 : Int) := (zpow_add₀ two_ne_zero _ _).symm
    _ ≤ 10 ^ (1024 : Int) := zpow_le_zpow_left₀ (by norm_num) (by norm_num) (by norm_num)

theorem le_lower_mark {m : Nat} {e : Int} (hm : 0 < m) (hc : IsCanonical m e) :
    (10 : ℚ) ^ (-1076 : Int) ≤ mark (lowerEnd m e) e := by
  have hleast := hc.least
  rw [minExponent] at hleast
  have hend : 1 ≤ lowerEnd m e := le_trans (by omega) (lowerEnd_ge m e)
  calc (10 : ℚ) ^ (-1076 : Int) = 10⁻¹ ^ (1076 : Int) := by rw [inv_zpow']
    _ ≤ 2⁻¹ ^ (1076 : Int) := zpow_le_zpow_left₀ (by norm_num) (by norm_num) (by norm_num)
    _ = 2 ^ (-1076 : Int) := by rw [inv_zpow']
    _ ≤ 2 ^ (e - 2) := zpow_le_zpow_right₀ (by norm_num) (by omega)
    _ = mark 1 e := by rw [mark, Nat.cast_one, one_mul]
    _ ≤ mark (lowerEnd m e) e := mark_le_mark.mpr hend

/-- The exponents of all numbers have few digits. -/
theorem exponent_small {m : Nat} {e : Int} (hm : 0 < m) (hc : IsCanonical m e) :
    ((shortest m e).2 + (decimal (shortest m e).1).length - 1).natAbs < 10000 := by
  have hrounds := shortest_rounds hm hc
  set c := (shortest m e).1
  set k := (shortest m e).2
  have hcpos : 0 < c := by
    have hpos := hrounds.pos hm
    refine Nat.pos_of_ne_zero fun hzero => ?_
    rw [hzero, gridPoint, Nat.cast_zero, zero_mul] at hpos
    exact lt_irrefl _ hpos
  obtain ⟨hlow, hhigh⟩ := gridPoint_bounds hcpos k
  have habove : k + (decimal c).length - 1 ≤ 1024 :=
    (zpow_le_zpow_iff_right₀ (by norm_num)).mp (hlow.trans (hrounds.2.1.trans (upper_mark_le hc)))
  have hbelow : -1076 < k + (decimal c).length :=
    (zpow_lt_zpow_iff_right₀ (by norm_num)).mp (((le_lower_mark hm hc).trans hrounds.1).trans_lt hhigh)
  omega

/-- The text of a number reads as its shortest decimal. -/
theorem generalForm_value {m : Nat} {e : Int} (hc : IsCanonical m e) :
    readValue (Binary64.finite false m e).generalForm =
      gridPoint (shortest m e).1 (shortest m e).2 := by
  have hform : (Binary64.finite false m e).generalForm =
      if isPositional ((shortest m e).2 + (decimal (shortest m e).1).length - 1)
      then positional (decimal (shortest m e).1) ((shortest m e).2 + (decimal (shortest m e).1).length - 1)
      else scientific (decimal (shortest m e).1)
        ((shortest m e).2 + (decimal (shortest m e).1).length - 1) := rfl
  rw [hform]
  split
  · rw [positional_value (areDigits_decimal _), digitsValue_decimal]
  · rename_i hx
    have hm : 0 < m := by
      refine Nat.pos_of_ne_zero ?_
      rintro rfl
      exact hx (by rw [shortest, if_pos rfl]; rfl)
    rw [scientific_value (areDigits_decimal _) (exponent_small hm hc), digitsValue_decimal]

theorem generalForm_injective {m m' : Nat} {e e' : Int} (hc : IsCanonical m e)
    (hc' : IsCanonical m' e')
    (h : (Binary64.finite false m e).generalForm = (Binary64.finite false m' e').generalForm) :
    m = m' ∧ e = e' := by
  have hvalue := congrArg readValue h
  rw [generalForm_value hc, generalForm_value hc'] at hvalue
  have hzero : ∀ e, gridPoint (shortest 0 e).1 (shortest 0 e).2 = 0 := fun e => by
    rw [shortest, if_pos rfl, gridPoint, Nat.cast_zero, zero_mul]
  have hleast : ∀ {e}, IsCanonical 0 e → e = minExponent := fun hc =>
    hc.normal.resolve_left (by decide)
  rcases Nat.eq_zero_or_pos m with rfl | hm
  · rcases Nat.eq_zero_or_pos m' with rfl | hm'
    · exact ⟨rfl, (hleast hc).trans (hleast hc').symm⟩
    · have hpos := (shortest_rounds hm' hc').pos hm'
      rw [← hvalue, hzero] at hpos
      exact (lt_irrefl _ hpos).elim
  · rcases Nat.eq_zero_or_pos m' with rfl | hm'
    · have hpos := (shortest_rounds hm hc).pos hm
      rw [hvalue, hzero] at hpos
      exact (lt_irrefl _ hpos).elim
    · have hrounds := shortest_rounds hm hc
      rw [hvalue] at hrounds
      exact rounds_unique hc hc' hrounds (shortest_rounds hm' hc')

end RToJulia.Decimal
