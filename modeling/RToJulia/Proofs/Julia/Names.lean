import RToJulia.Julia.Name
import RToJulia.Proofs.Text.Utf8

/-! # The bytes of symbols and record names

A symbol and the name of a record type are made of letters, digits and underscores of any
script, so they hold no byte below the digits: no space, no line break and no quote.
-/

namespace RToJulia.Text

theorem mem_encode {cs : List Char} {b : UInt8} (hb : b.toNat < 0x80) (h : b ∈ encode cs) :
    ∃ c ∈ cs, c.toNat = b.toNat := by
  obtain ⟨c, hc, hmem⟩ := List.mem_flatMap.mp h
  exact ⟨c, hc, toNat_of_mem_utf8EncodeChar hmem hb⟩

theorem ofNat_mem_chars {b : UInt8} (hb : b.toNat < 0x80) (s : Bytes) (h : b ∈ s) :
    Char.ofNat b.toNat ∈ chars s := by
  induction s using rune_induction with
  | nil => cases h
  | cons c rest left hleft hruns ih =>
      have hchars : chars (c :: rest) = (headRune c rest).char :: chars left := by
        rw [chars, hruns, List.map_cons]
        rfl
      rw [hchars]
      rw [hleft] at h
      rcases List.mem_append.mp h with h | h
      · cases eq_of_mem_headRune h hb
        have hrune : headRune b rest = .scalar (Char.ofNat b.toNat) := if_pos hb
        rw [hrune]
        exact List.mem_cons_self
      · exact List.mem_cons_of_mem _ (ih h)

theorem inBounds_below {first n : Nat} (rest : List Nat) (h : n < first) :
    inBounds (first :: rest) n = false := by
  simp [inBounds, Nat.not_le.mpr h]

theorem isLetter_below {c : Char} (h : c.toNat < 0x30) : isLetter c = false :=
  inBounds_below letterBounds.tail (Nat.lt_trans h (by decide))

theorem isDigit_below {c : Char} (h : c.toNat < 0x30) : isDigit c = false :=
  inBounds_below digitBounds.tail h

/-- Upper case leads to no character below the letters, except for the null character, which
stands for what is no character. -/
theorem upper_below {c : Char} (h : (upper c).toNat < 0x30) : upper c = c ∨ (upper c).toNat = 0 := by
  have hruns : upperRuns.all (fun run => decide (0x41 ≤ run.1 + run.2.2.2)) = true := by
    decide +kernel
  unfold upper moveBy at h ⊢
  dsimp only at h ⊢
  split
  · rename_i first last stride shift hit
    have hfirst := List.all_eq_true.mp hruns _ (List.mem_of_find?_eq_some hit)
    have hmatch := List.find?_some hit
    simp only [hit] at h
    simp only [Bool.and_eq_true, decide_eq_true_eq] at hmatch hfirst
    right
    by_cases hvalid : ((c.toNat + shift).toNat).isValidChar
    · have hval := val_ofNat hvalid
      rw [Char.toNat, hval] at h
      omega
    · unfold Char.ofNat
      rw [dif_neg hvalid]
      rfl
  · exact .inl rfl

end RToJulia.Text

namespace RToJulia.Julia

open Text

theorem isIdentifier_bytes {x : Bytes} (h : isIdentifier x = true) :
    ∀ b ∈ x, 0x30 ≤ b.toNat := by
  intro b hb
  refine Nat.not_lt.mp fun hlow => ?_
  have hmem := ofNat_mem_chars (Nat.lt_trans hlow (by decide)) x hb
  have hnat : (Char.ofNat b.toNat).toNat = b.toNat := val_ofNat (.inl (by omega))
  have hlow' : (Char.ofNat b.toNat).toNat < 0x30 := by rw [hnat]; exact hlow
  have hscore : Char.ofNat b.toNat ≠ '_' := by
    intro heq
    rw [heq] at hlow'
    exact absurd hlow' (by decide)
  have hno : ∀ c ∈ chars x, (c = '_' || isLetter c || isDigit c) = true := by
    unfold isIdentifier at h
    split at h
    · cases h
    · rename_i c cs hcs
      simp only [Bool.and_eq_true, List.all_eq_true] at h
      rw [hcs]
      exact List.forall_mem_cons.mpr ⟨by simp [h.1], h.2⟩
  have hfalse := hno _ hmem
  simp [hscore, isLetter_below hlow', isDigit_below hlow'] at hfalse

theorem le_recordChar {c : Char} : 0x30 ≤ (recordChar c).toNat := by
  refine Nat.not_lt.mp fun hlow => ?_
  unfold recordChar at hlow
  split at hlow
  · rename_i hc
    have hscore : c ≠ '_' := by
      rintro rfl
      exact absurd hlow (by decide)
    simp [hscore, isLetter_below hlow, isDigit_below hlow] at hc
  · exact absurd hlow (by decide)

theorem recordName_bytes (cls : Bytes) : ∀ b ∈ recordName cls, b.toNat = 0 ∨ 0x30 ≤ b.toNat := by
  intro b hb
  by_cases hlow : b.toNat < 0x30
  · left
    unfold recordName at hb
    split at hb
    · cases hb
    · rename_i c cs hcs
      have hall : ∀ d ∈ c :: cs, 0x30 ≤ d.toNat := by
        intro d hd
        rw [← hcs] at hd
        obtain ⟨e, -, rfl⟩ := List.mem_map.mp hd
        exact le_recordChar
      obtain ⟨d, hd, hdb⟩ := mem_encode (Nat.lt_trans hlow (by decide)) hb
      -- Only the first character is put into upper case.
      rcases List.mem_cons.mp hd with rfl | hd
      · rcases upper_below (c := c) (by omega) with hup | hup
        · have := hall c List.mem_cons_self
          rw [hup] at hdb
          omega
        · omega
      · have := hall d (List.mem_cons_of_mem c hd)
        omega
  · exact .inr (Nat.not_lt.mp hlow)

end RToJulia.Julia
