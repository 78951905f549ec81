import RToJulia.Text.Bytes

/-! # Byte strings with marks

A string cut at its only mark gives back its two parts, and a string in backticks
gives back what stands between them.
-/

namespace RToJulia.Text

theorem cut_append {b : UInt8} {front : Bytes} (h : b ∉ front) (tail : Bytes) :
    cut b (front ++ b :: tail) = (front, tail) := by
  have hall : ∀ x ∈ front, (x != b) = true := by
    intro x hx
    simp only [bne_iff_ne, ne_eq]
    rintro rfl
    exact h hx
  simp [cut, List.takeWhile_append_of_pos hall, List.dropWhile_append_of_pos hall]

/-- A byte that occurs once has none of its kind on either side. -/
theorem eq_append_of_count_one {b : UInt8} {s : Bytes} (h : s.count b = 1) :
    ∃ front tail, s = front ++ b :: tail ∧ b ∉ front ∧ b ∉ tail := by
  have hmem : b ∈ s := List.count_pos_iff.mp (by omega)
  obtain ⟨front, tail, rfl, hf⟩ := List.eq_append_cons_of_mem hmem
  refine ⟨front, tail, rfl, hf, ?_⟩
  rw [List.count_append, List.count_cons_self, List.count_eq_zero_of_not_mem hf] at h
  exact List.count_eq_zero.mp (by omega)

/-- The bytes between the first and the last one. -/
theorem drop_dropLast_wrap (a b : UInt8) (s : Bytes) :
    ((a :: (s ++ [b])).drop 1).dropLast = s := by
  rw [List.drop_succ_cons, List.drop_zero, List.dropLast_concat]

/-- The texts in backticks. -/
theorem backticks_iff {name : Bytes} :
    (decide (name.length ≥ 2) && name.head? == some 0x60 && name.getLast? == some 0x60) = true ↔
      ∃ inner, name = 0x60 :: (inner ++ [0x60]) := by
  simp only [Bool.and_eq_true, decide_eq_true_eq, beq_iff_eq]
  constructor
  · rintro ⟨⟨hl, hh⟩, ht⟩
    cases name with
    | nil => simp at hl
    | cons b rest =>
        cases hh
        have hne : rest ≠ [] := by
          rintro rfl
          simp at hl
        rw [List.getLast?_cons, List.getLast?_eq_some_getLast hne] at ht
        simp only [Option.getD_some, Option.some.injEq] at ht
        exact ⟨rest.dropLast, by rw [← ht, List.dropLast_concat_getLast hne]⟩
  · rintro ⟨inner, rfl⟩
    refine ⟨⟨by simp, rfl⟩, ?_⟩
    rw [← List.cons_append, List.getLast?_concat]

end RToJulia.Text
