import RToJulia.Proofs.Decimal.Rounding

/-!
# The shortest decimal rounds to its number

Every grid that is at least as fine as a quarter of the last place has a point that rounds to the
number, and the search reaches such a grid.  So its result is a decimal in the rounding interval.
-/

namespace RToJulia.Decimal

open Binary64

def gridPoint (c : Nat) (k : Int) : ℚ :=
  c * 10 ^ k

/-! ## Marks and grid points in one unit -/

theorem Scale.of_units (e k : Int) : ∃ u : ℚ, 0 < u ∧
    ((Scale.of e k).markUnit : ℚ) = u * 2 ^ (e - 2) ∧
      ((Scale.of e k).gridUnit : ℚ) = u * 10 ^ k := by
  have hten : (10 : ℚ) ≠ 0 := by norm_num
  refine ⟨2 ^ (2 - e).toNat * 10 ^ (-k).toNat, by positivity, ?_, ?_⟩
  · have hmark : ((Scale.of e k).markUnit : ℚ) = 2 ^ (e - 2).toNat * 10 ^ (-k).toNat := by
      simp [Scale.of]
    rw [hmark, pow_toNat two_ne_zero (e - 2), neg_sub]
    ring
  · have hgrid : ((Scale.of e k).gridUnit : ℚ) = 10 ^ k.toNat * 2 ^ (2 - e).toNat := by
      simp [Scale.of]
    rw [hgrid, pow_toNat hten k]
    ring

theorem mark_le_gridPoint (a c : Nat) (e k : Int) :
    a * (Scale.of e k).markUnit ≤ c * (Scale.of e k).gridUnit ↔ mark a e ≤ gridPoint c k := by
  obtain ⟨u, hu, hmark, hgrid⟩ := Scale.of_units e k
  rw [← @Nat.cast_le ℚ, Nat.cast_mul, Nat.cast_mul, hmark, hgrid, mul_left_comm,
    mul_left_comm (c : ℚ), mul_le_mul_iff_right₀ hu, mark, gridPoint]

theorem gridPoint_le_mark (a c : Nat) (e k : Int) :
    c * (Scale.of e k).gridUnit ≤ a * (Scale.of e k).markUnit ↔ gridPoint c k ≤ mark a e := by
  obtain ⟨u, hu, hmark, hgrid⟩ := Scale.of_units e k
  rw [← @Nat.cast_le ℚ, Nat.cast_mul, Nat.cast_mul, hmark, hgrid, mul_left_comm,
    mul_left_comm (a : ℚ), mul_le_mul_iff_right₀ hu, mark, gridPoint]

theorem roundsTo_iff (m c : Nat) (e k : Int) :
    roundsTo m e (Scale.of e k) c = true ↔ Rounds m e (gridPoint c k) := by
  have hlow := mark_le_gridPoint (lowerEnd m e) c e k
  have hhigh := gridPoint_le_mark (4 * m + 2) c e k
  have hlow' : lowerEnd m e * (Scale.of e k).markUnit < c * (Scale.of e k).gridUnit ↔
      mark (lowerEnd m e) e < gridPoint c k := by
    rw [← not_le, gridPoint_le_mark, not_le]
  have hhigh' : c * (Scale.of e k).gridUnit < (4 * m + 2) * (Scale.of e k).markUnit ↔
      gridPoint c k < mark (4 * m + 2) e := by
    rw [← not_le, mark_le_gridPoint, not_le]
  unfold roundsTo Rounds
  dsimp only
  split
  · rename_i heven
    simp only [Bool.and_eq_true, decide_eq_true_eq, hlow, hhigh, heven, zero_ne_one, false_implies,
      and_true]
  · rename_i hne
    have hodd : m % 2 = 1 := by omega
    simp only [Bool.and_eq_true, decide_eq_true_eq, hlow', hhigh', hodd, true_implies]
    exact ⟨fun h => ⟨h.1.le, h.2.le, h⟩, fun h => h.2.2⟩

/-! ## The search -/

theorem gridPoint?_rounds {m c : Nat} {e k : Int} (h : gridPoint? m e k = some c) :
    Rounds m e (gridPoint c k) := by
  rw [← roundsTo_iff]
  unfold gridPoint? at h
  dsimp only at h
  split at h
  · cases h
  · split at h
    · rename_i hboth
      rw [Bool.and_eq_true] at hboth
      split at h
      · cases h
        exact hboth.1
      · cases h
        exact hboth.2
    · split at h
      · cases h
        assumption
      · split at h
        · cases h
          assumption
        · cases h

/-- The point below the number is less than a quarter of the last place away from it. -/
theorem gridPoint?_ne_none {m : Nat} {e k : Int} (hm : 0 < m)
    (hfine : gridPoint 1 k ≤ mark 1 e) : gridPoint? m e k ≠ none := by
  set s := Scale.of e k with hs
  have hunits : s.gridUnit ≤ s.markUnit := by simpa using (gridPoint_le_mark 1 1 e k).mpr hfine
  have hgrid : 0 < s.gridUnit := Nat.mul_pos (Nat.pow_pos (by decide)) (Nat.pow_pos (by decide))
  have hmul : s.markUnit ≤ 4 * m * s.markUnit := Nat.le_mul_of_pos_left _ (by omega)
  set c := 4 * m * s.markUnit / s.gridUnit with hcdef
  have hc : c ≠ 0 := (Nat.div_pos (hunits.trans hmul) hgrid).ne'
  have hbelow : c * s.gridUnit ≤ 4 * m * s.markUnit := Nat.div_mul_le_self _ _
  have habove : 4 * m * s.markUnit < c * s.gridUnit + s.gridUnit := by
    rw [← Nat.succ_mul, Nat.mul_comm c.succ]
    exact Nat.lt_mul_div_succ _ hgrid
  have hlow : lowerEnd m e * s.markUnit < c * s.gridUnit := by
    have hend : lowerEnd m e + 1 ≤ 4 * m := by
      unfold lowerEnd
      split <;> omega
    have hle := Nat.mul_le_mul_right s.markUnit hend
    rw [Nat.add_mul] at hle
    omega
  have hhigh : c * s.gridUnit < (4 * m + 2) * s.markUnit := by
    rw [Nat.add_mul]
    omega
  have hrounds : roundsTo m e s c = true := by
    unfold roundsTo
    dsimp only
    split
    · simp [hlow.le, hhigh.le]
    · simp [hlow, hhigh]
  unfold gridPoint?
  dsimp only
  rw [← hs, ← hcdef, if_neg hc, hrounds]
  split
  · split <;> simp
  · simp

/-- The search ends with a decimal that rounds to the number if its last grid is fine. -/
theorem searchGrids_rounds {m : Nat} {e : Int} (hm : 0 < m) (n : Nat) (k : Int)
    (hfine : gridPoint 1 (k - n) ≤ mark 1 e) :
    Rounds m e (gridPoint (searchGrids m e (n + 1) k).1 (searchGrids m e (n + 1) k).2) := by
  induction n generalizing k with
  | zero =>
      have hsome := gridPoint?_ne_none hm (by simpa using hfine)
      unfold searchGrids
      cases h : gridPoint? m e k with
      | some c => exact gridPoint?_rounds h
      | none => exact (hsome h).elim
  | succ n ih =>
      unfold searchGrids
      cases h : gridPoint? m e k with
      | some c => exact gridPoint?_rounds h
      | none =>
          refine ih (k - 1) ?_
          rwa [show k - 1 - (n : Int) = k - (n + 1 : ℕ) by push_cast; ring]

/-! ## The first grid is near the number -/

/-- `10 ^ u` is hardly more than `2 ^ y` where `u` is at most `y * log 2 / log 10`. -/
theorem ten_zpow_le {u y : Int} (hu : u * 100000 ≤ y * 30103) (hlow : -1100 ≤ y) (hhigh : y ≤ 1100) :
    (10 : ℚ) ^ u ≤ 2 ^ (y + 18) := by
  rcases le_total 0 u with hpos | hneg
  · -- from `10 ^ 3 ≤ 2 ^ 10`
    have hcube : ((10 : ℚ) ^ u) ^ 3 ≤ (2 ^ (y + 18)) ^ 3 := by
      calc ((10 : ℚ) ^ u) ^ 3 = (10 ^ 3) ^ u := by rw [← zpow_natCast, zpow_comm, zpow_natCast]
        _ ≤ (2 ^ 10) ^ u := zpow_le_zpow_left₀ hpos (by norm_num) (by norm_num)
        _ = 2 ^ (10 * u) := by rw [zpow_mul, zpow_ofNat]
        _ ≤ 2 ^ ((y + 18) * 3) := zpow_le_zpow_right₀ (by norm_num) (by omega)
        _ = (2 ^ (y + 18)) ^ 3 := by rw [zpow_mul, zpow_ofNat]
    exact le_of_pow_le_pow_left₀ (by norm_num) (by positivity) hcube
  · -- from `2 ^ 93 ≤ 10 ^ 28`
    have hpower : ((10 : ℚ) ^ u) ^ 28 ≤ (2 ^ (y + 18)) ^ 28 := by
      calc ((10 : ℚ) ^ u) ^ 28 = (10 ^ 28) ^ u := by rw [← zpow_natCast, zpow_comm, zpow_natCast]
        _ = (10 ^ 28)⁻¹ ^ (-u) := by rw [inv_zpow', neg_neg]
        _ ≤ (2 ^ 93)⁻¹ ^ (-u) :=
            zpow_le_zpow_left₀ (by omega) (by positivity) (inv_anti₀ (by positivity) (by norm_num))
        _ = (2 ^ 93) ^ u := by rw [inv_zpow', neg_neg]
        _ = 2 ^ (93 * u) := by rw [zpow_mul, zpow_ofNat]
        _ ≤ 2 ^ ((y + 18) * 28) := zpow_le_zpow_right₀ (by norm_num) (by omega)
        _ = (2 ^ (y + 18)) ^ 28 := by rw [zpow_mul, zpow_ofNat]
    exact le_of_pow_le_pow_left₀ (by norm_num) (by positivity) hpower

theorem upperPower_fine {m : Nat} {e : Int} (hm : 0 < m) (hc : IsCanonical m e) :
    gridPoint 1 (upperPower m e - 23) ≤ mark 1 e := by
  have hbits : m.log2 ≤ 52 := by
    have := (Nat.log2_lt hm.ne').mpr hc.bound
    omega
  have hleast := hc.least
  have hgreatest := hc.greatest
  rw [minExponent] at hleast
  rw [maxExponent] at hgreatest
  have hten : (10 : ℚ) ≠ 0 := by norm_num
  let u := ((m.log2 : Int) + 1 + e) * 30103 / 100000
  have hle : (10 : ℚ) ^ u ≤ 2 ^ (e + 53 + 18) := by
    refine ten_zpow_le ?_ (by omega) (by omega)
    omega
  calc gridPoint 1 (upperPower m e - 23) = 10 ^ u * 10 ^ (-22 : Int) := by
        rw [gridPoint, upperPower, Nat.cast_one, one_mul, ← zpow_add₀ hten]
        congr 1
        omega
    _ ≤ 2 ^ (e + 53 + 18) * 2 ^ (-73 : Int) := by
        gcongr
        norm_num
    _ = mark 1 e := by
        rw [mark, Nat.cast_one, one_mul, ← zpow_add₀ two_ne_zero]
        congr 1
        ring

/-! ## Trailing zeros -/

theorem stripZeros_value (n : Nat) (x : Nat × Int) :
    gridPoint (stripZeros n x).1 (stripZeros n x).2 = gridPoint x.1 x.2 := by
  induction n generalizing x with
  | zero => rfl
  | succ n ih =>
      obtain ⟨c, k⟩ := x
      unfold stripZeros
      split
      · rename_i h
        simp only [Bool.and_eq_true, decide_eq_true_eq] at h
        have hc : (c : ℚ) = (c / 10 : ℕ) * 10 := by
          exact_mod_cast (Nat.div_mul_cancel (Nat.dvd_of_mod_eq_zero h.1)).symm
        rw [ih, gridPoint, gridPoint, zpow_add_one₀ (by norm_num), hc]
        ring
      · rfl

/-- The decimal with the fewest digits rounds to the number it was searched for. -/
theorem shortest_rounds {m : Nat} {e : Int} (hm : 0 < m) (hc : IsCanonical m e) :
    Rounds m e (gridPoint (shortest m e).1 (shortest m e).2) := by
  rw [shortest, if_neg hm.ne', stripZeros_value]
  exact searchGrids_rounds hm 23 _ (upperPower_fine hm hc)

end RToJulia.Decimal
