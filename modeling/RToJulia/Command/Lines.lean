import RToJulia.Text.Bytes

/-!
# Lines of input

A line ends with a line feed, or a carriage return and a line feed, and comes
without them.  Input is read through a buffer of fixed size: a line that fills it
is given out in parts.
-/

namespace RToJulia.Command

open Text

def bufferSize : Nat := 4096

/-- A line, or a part of one that goes on. -/
structure Line where
  text : Bytes
  goesOn : Bool
  deriving DecidableEq, Repr

def dropReturn (s : Bytes) : Bytes :=
  dropTail [0x0d] s

/-- The next line and what follows it, after `held`, of length `size`, has been read in reverse.
A carriage return at the end of a full buffer is left for the next part. -/
def takeLineFrom : Bytes → Nat → Bytes → Option (Line × Bytes)
  | held, _, [] => if held = [] then none else some (⟨held.reverse, false⟩, [])
  | held, size, b :: rest =>
      if b = 0x0a then some (⟨dropReturn held.reverse, false⟩, rest)
      else if size + 1 < bufferSize then takeLineFrom (b :: held) (size + 1) rest
      else if b = 0x0d then some (⟨held.reverse, true⟩, b :: rest)
      else some (⟨(b :: held).reverse, true⟩, rest)

def takeLine? (s : Bytes) : Option (Line × Bytes) :=
  takeLineFrom [] 0 s

/-- What follows a line is not longer than what was left, and shorter if nothing was held back. -/
theorem takeLineFrom_length {held : Bytes} {size : Nat} {s : Bytes} {line : Line} {rest : Bytes}
    (h : takeLineFrom held size s = some (line, rest)) :
    rest.length ≤ s.length ∧ (size + 1 < bufferSize → held = [] → rest.length < s.length) := by
  induction s generalizing held size with
  | nil =>
      simp only [takeLineFrom] at h
      split at h <;> simp_all
  | cons b s ih =>
      simp only [takeLineFrom] at h
      split at h
      · simp_all
      · split at h
        · have := (ih h).1
          simp only [List.length_cons]
          exact ⟨by omega, fun _ _ => by omega⟩
        · rename_i full
          split at h <;> simp only [Option.some.injEq, Prod.mk.injEq] at h <;>
            obtain ⟨_, rfl⟩ := h <;> exact ⟨by simp, fun room => absurd room full⟩

/-- A line takes at least one byte. -/
theorem takeLine?_length {s : Bytes} {line : Line} {rest : Bytes}
    (h : takeLine? s = some (line, rest)) : rest.length < s.length :=
  (takeLineFrom_length h).2 (by decide) rfl

def lines (s : Bytes) : List Line :=
  match h : takeLine? s with
  | none => []
  | some (line, rest) =>
      have := takeLine?_length h
      line :: lines rest
termination_by s.length

end RToJulia.Command
