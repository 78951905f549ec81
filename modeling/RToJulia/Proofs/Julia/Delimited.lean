import RToJulia.Julia.Name
import RToJulia.Julia.Work
import RToJulia.Proofs.Julia.Literal

/-! # Delimited text

Julia text in which brackets match, names and literals counting as one unit each,
and among it the text that nothing around it can take apart: a name, a literal, a
call, an index of such text, or text in one pair of parentheses or brackets. What
counts as a name is left open.
-/

namespace RToJulia.Julia

open Text

/-- A byte that neither opens nor closes anything; `#` opens a comment. -/
def isPlainByte (b : UInt8) : Bool :=
  b ∉ [0x22, 0x23, 0x27, 0x28, 0x29, 0x5b, 0x5d, 0x60, 0x7b, 0x7d]

/-- Text with matching brackets, where names, record types and literals are units. -/
inductive Balanced (name : Bytes → Prop) : Bytes → Prop
  | nil : Balanced name []
  | byte {b : UInt8} (h : isPlainByte b = true) : Balanced name [b]
  | name {t : Bytes} (h : name t) : Balanced name t
  | record (cls : Bytes) : Balanced name (recordName cls)
  | literal {t : Bytes} (h : IsLiteral t) : Balanced name t
  | parens {t : Bytes} (h : Balanced name t) : Balanced name ("(" ++ t ++ ")")
  | brackets {t : Bytes} (h : Balanced name t) : Balanced name ("[" ++ t ++ "]")
  | append {s t : Bytes} (hs : Balanced name s) (ht : Balanced name t) : Balanced name (s ++ t)

/-- Text that nothing around it can take apart. -/
inductive Delimited (name : Bytes → Prop) : Bytes → Prop
  | name {t : Bytes} (h : name t) : Delimited name t
  | literal {t : Bytes} (h : IsLiteral t) : Delimited name t
  | call {f t : Bytes} (hf : name f) (ht : Balanced name t) : Delimited name (f ++ ("(" ++ t ++ ")"))
  | index {t i : Bytes} (ht : Delimited name t) (hi : Balanced name i) :
      Delimited name (t ++ ("[" ++ i ++ "]"))
  | parens {t : Bytes} (h : Balanced name t) : Delimited name ("(" ++ t ++ ")")
  | brackets {t : Bytes} (h : Balanced name t) : Delimited name ("[" ++ t ++ "]")

variable {name : Bytes → Prop}

theorem Delimited.balanced {t : Bytes} (h : Delimited name t) : Balanced name t := by
  induction h with
  | name h => exact .name h
  | literal h => exact .literal h
  | call hf ht => exact .append (.name hf) (.parens ht)
  | index _ hi ih => exact .append ih (.brackets hi)
  | parens h => exact .parens h
  | brackets h => exact .brackets h

theorem balanced_plain {t : Bytes} (h : t.all isPlainByte = true) : Balanced name t := by
  induction t with
  | nil => exact .nil
  | cons b t ih =>
      simp only [List.all_cons, Bool.and_eq_true] at h
      exact .append (.byte h.1) (ih h.2)

theorem balanced_commaList {parts : List Bytes} (h : ∀ p ∈ parts, Balanced name p) :
    Balanced name (commaList parts) := by
  induction parts with
  | nil => exact .nil
  | cons p parts ih =>
      have hp := h p (by simp)
      have hrest := ih fun q hq => h q (by simp [hq])
      cases parts with
      | nil => simpa [commaList, List.intercalate] using hp
      | cons q parts =>
          have htext : commaList (p :: q :: parts) = p ++ (utf8 ", " ++ commaList (q :: parts)) := by
            simp [commaList, List.intercalate]
          rw [htext]
          exact .append hp (.append (balanced_plain (by decide)) hrest)

/-- Delimited text that closes no bracket at its end is a name or a literal. -/
theorem Delimited.unit {t : Bytes} (h : Delimited name t) (hp : t.getLast? ≠ some 0x29)
    (hb : t.getLast? ≠ some 0x5d) : name t ∨ IsLiteral t := by
  have hparen : ∀ s : Bytes, (s ++ utf8 ")").getLast? = some 0x29 := fun s => List.getLast?_concat
  have hbracket : ∀ s : Bytes, (s ++ utf8 "]").getLast? = some 0x5d := fun s => List.getLast?_concat
  cases h with
  | name h => exact .inl h
  | literal h => exact .inr h
  | call hf ht => exact (hp (by rw [← List.append_assoc]; exact hparen _)).elim
  | index ht hi => exact (hb (by rw [← List.append_assoc]; exact hbracket _)).elim
  | parens h => exact (hp (hparen _)).elim
  | brackets h => exact (hb (hbracket _)).elim

end RToJulia.Julia
