import RToJulia.Proofs.Text.Utf8

/-! # Escapes

A backslash takes the next byte with it. A text is whole when no backslash at its
end waits for a byte; mending stray bytes keeps a text whole.
-/

namespace RToJulia.Text

/-- Whether a backslash waits for its byte behind `s`, given whether one does before it. -/
def pending : Bool → Bytes → Bool
  | waiting, [] => waiting
  | true, _ :: s => pending false s
  | false, b :: s => pending (b = 0x5c) s

def isWhole (s : Bytes) : Bool :=
  !pending false s

theorem pending_append (waiting : Bool) (s t : Bytes) :
    pending waiting (s ++ t) = pending (pending waiting s) t := by
  induction s generalizing waiting with
  | nil => cases waiting <;> rfl
  | cons b s ih => cases waiting <;> simp [pending, ih]

/-- Text without backslashes ends no escape but one that waits in front of it. -/
theorem pending_of_not_mem {s : Bytes} (h : 0x5c ∉ s) (hs : s ≠ []) (waiting : Bool) :
    pending waiting s = false := by
  have hfalse : ∀ t : Bytes, 0x5c ∉ t → pending false t = false := by
    intro t ht
    induction t with
    | nil => rfl
    | cons b t ih =>
        simp only [List.mem_cons, not_or] at ht
        rw [pending, decide_eq_false (Ne.symm ht.1)]
        exact ih ht.2
  cases s with
  | nil => contradiction
  | cons b s =>
      simp only [List.mem_cons, not_or] at h
      cases waiting with
      | true => exact hfalse s h.2
      | false => exact hfalse (b :: s) (by simpa using h)

theorem isWhole_of_not_mem {s : Bytes} (h : 0x5c ∉ s) : isWhole s = true := by
  cases s with
  | nil => rfl
  | cons b s => rw [isWhole, pending_of_not_mem h (by simp)]; rfl

theorem pending_rune {b : UInt8} {rest : Bytes} (waiting : Bool) :
    pending waiting (String.utf8EncodeChar (headRune b rest).char) =
      pending waiting (headRune b rest).bytes := by
  cases hr : headRune b rest with
  | scalar c => rfl
  | stray c =>
      have hc := headRune_stray hr
      have hstray : 0x5c ∉ [c] := by
        rw [List.mem_singleton]
        rintro rfl
        simp at hc
      rw [Rune.bytes, Rune.char, pending_of_not_mem hstray (by simp)]
      exact pending_of_not_mem (by decide) (by decide) waiting

/-- Mending keeps every backslash in its place. -/
theorem pending_mend (s : Bytes) (waiting : Bool) :
    pending waiting (mend s) = pending waiting s := by
  induction s using rune_induction generalizing waiting with
  | nil => rfl
  | cons b rest left hleft hruns ih =>
      have hmend : mend (b :: rest) =
          String.utf8EncodeChar (headRune b rest).char ++ mend left := by
        simp [mend, chars, encode, hruns]
      rw [hmend, pending_append, pending_rune, ih, ← pending_append, ← hleft]

theorem isWhole_mend (s : Bytes) : isWhole (mend s) = isWhole s := by
  rw [isWhole, isWhole, pending_mend]

end RToJulia.Text
