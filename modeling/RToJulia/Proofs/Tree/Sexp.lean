import RToJulia.Proofs.Text.Quoted
import RToJulia.Tree.Text

/-!
# S-expressions

Words, and lists of S-expressions between parentheses with single spaces.  A word is plain, without
spaces, parentheses and quotes, or it is quoted text.  Then no text of an S-expression has another
reading: each item shows where it ends.
-/

namespace RToJulia

open Text

inductive Sexp where
  | word (text : Bytes)
  | list (items : List Sexp)

namespace Sexp

/-! ## Texts -/

mutual

def text : Sexp → Bytes
  | word t => t
  | list items => 0x28 :: ([0x20].intercalate (texts items) ++ [0x29])

def texts : List Sexp → List Bytes
  | [] => []
  | i :: items => text i :: texts items

end

@[simp]
theorem text_word (t : Bytes) : (word t).text = t := rfl

@[simp]
theorem text_list_ne_nil (items : List Sexp) : (list items).text ≠ [] := by
  simp [text]

theorem texts_eq_map (items : List Sexp) : texts items = items.map text := by
  induction items with
  | nil => rfl
  | cons i items ih => rw [texts, ih, List.map_cons]

def tailText (items : List Sexp) : Bytes :=
  items.flatMap fun i => 0x20 :: i.text

theorem intercalate_texts (i : Sexp) (items : List Sexp) :
    [0x20].intercalate (texts (i :: items)) = i.text ++ tailText items := by
  rw [texts_eq_map]
  induction items generalizing i with
  | nil => simp [List.intercalate, tailText]
  | cons j items ih =>
      rw [List.map_cons, List.map_cons, List.intercalate_cons_cons, ← List.map_cons, ih]
      simp [tailText]

theorem text_list_nil (rest : Bytes) : (list []).text ++ rest = 0x28 :: 0x29 :: rest := rfl

theorem text_list_cons (i : Sexp) (items : List Sexp) (rest : Bytes) :
    (list (i :: items)).text ++ rest = 0x28 :: (i.text ++ (tailText items ++ 0x29 :: rest)) := by
  rw [text, intercalate_texts]
  simp [List.append_assoc]

/-! ## Words -/

def isWordByte (b : UInt8) : Bool :=
  b ∉ [0x20, 0x22, 0x28, 0x29]

def isWord (t : Bytes) : Bool :=
  t ≠ [] && t.all isWordByte

inductive Fits : Sexp → Prop
  | word {t : Bytes} (plain : isWord t = true) : Fits (word t)
  | quoted (cs : List Char) : Fits (word (quoted (encode cs)))
  | list {items : List Sexp} (fits : ∀ i ∈ items, Fits i) : Fits (list items)

/-- What may follow an item: nothing, a space or the end of a list. -/
def Ends (rest : Bytes) : Prop :=
  rest = [] ∨ ∃ b t, rest = b :: t ∧ (b = 0x20 ∨ b = 0x29)

theorem ends_tailText (items : List Sexp) (rest : Bytes) :
    Ends (tailText items ++ 0x29 :: rest) := by
  cases items with
  | nil => exact .inr ⟨_, _, rfl, .inr rfl⟩
  | cons i items => exact .inr ⟨_, _, rfl, .inl rfl⟩

/-- A plain word ends where its bytes do. -/
theorem takeWhile_word {t rest : Bytes} (h : isWord t = true) (hrest : Ends rest) :
    (t ++ rest).takeWhile isWordByte = t := by
  simp only [isWord, Bool.and_eq_true, List.all_eq_true] at h
  rw [List.takeWhile_append_of_pos h.2]
  rcases hrest with rfl | ⟨b, t, rfl, rfl | rfl⟩
  · simp
  · simp [isWordByte]
  · simp [isWordByte]

theorem Fits.text_ne_close {i : Sexp} (h : i.Fits) (rest t : Bytes) :
    i.text ++ rest ≠ 0x29 :: t := by
  intro heq
  cases h with
  | @word w plain =>
      cases w with
      | nil => cases plain
      | cons b w =>
          cases heq
          cases plain
  | quoted cs => cases heq
  | list fits => cases heq

/-! ## One reading -/

/-- An item whose text has one reading in front of what may follow. -/
def Readable (i : Sexp) : Prop :=
  ∀ (j : Sexp) (rest rest' : Bytes), j.Fits → Ends rest → Ends rest' →
    i.text ++ rest = j.text ++ rest' → i = j ∧ rest = rest'

theorem readable_word {t : Bytes} (h : isWord t = true) : Readable (word t) := by
  intro j rest rest' hj hrest hrest' heq
  have htake := takeWhile_word h hrest
  rw [show t ++ rest = j.text ++ rest' from heq] at htake
  cases hj with
  | word plain =>
      have hword := htake.symm.trans (takeWhile_word plain hrest')
      cases hword
      exact ⟨rfl, List.append_cancel_left heq⟩
  | quoted cs =>
      cases htake
      cases h
  | list fits =>
      cases htake
      cases h

theorem readable_quoted (cs : List Char) : Readable (word (quoted (encode cs))) := by
  intro j rest rest' hj hrest hrest' heq
  cases hj with
  | word plain => exact (readable_word plain _ _ _ (.quoted cs) hrest' hrest heq.symm).imp Eq.symm Eq.symm
  | quoted cs' =>
      obtain ⟨rfl, hrest⟩ := quoted_cancel heq
      exact ⟨rfl, hrest⟩
  | list fits => cases heq

theorem tailText_cancel {items items' : List Sexp} {rest rest' : Bytes}
    (hitems : ∀ i ∈ items, Readable i) (hitems' : ∀ i ∈ items', Fits i)
    (h : tailText items ++ 0x29 :: rest = tailText items' ++ 0x29 :: rest') :
    items = items' ∧ rest = rest' := by
  induction items generalizing items' with
  | nil =>
      cases items' with
      | nil =>
          cases h
          exact ⟨rfl, rfl⟩
      | cons j items' => cases h
  | cons i items ih =>
      cases items' with
      | nil => cases h
      | cons j items' =>
          have hitem : i.text ++ (tailText items ++ 0x29 :: rest) =
              j.text ++ (tailText items' ++ 0x29 :: rest') := by
            simpa [tailText] using h
          obtain ⟨rfl, htail⟩ := hitems i List.mem_cons_self j _ _ (hitems' j List.mem_cons_self)
            (ends_tailText _ _) (ends_tailText _ _) hitem
          obtain ⟨rfl, hrest⟩ := ih (fun k hk => hitems k (List.mem_cons_of_mem _ hk))
            (fun k hk => hitems' k (List.mem_cons_of_mem _ hk)) htail
          exact ⟨rfl, hrest⟩

theorem readable_list {items : List Sexp} (hfits : ∀ i ∈ items, Fits i)
    (hitems : ∀ i ∈ items, Readable i) : Readable (list items) := by
  intro j rest rest' hj hrest hrest' heq
  cases hj with
  | word plain =>
      exact (readable_word plain _ _ _ (.list hfits) hrest' hrest heq.symm).imp Eq.symm Eq.symm
  | quoted cs => cases heq
  | @list items' hfits' =>
      cases items with
      | nil =>
          cases items' with
          | nil =>
              cases heq
              exact ⟨rfl, rfl⟩
          | cons j items' =>
              rw [text_list_nil, text_list_cons] at heq
              exact ((hfits' j List.mem_cons_self).text_ne_close _ _ (List.cons.inj heq).2.symm).elim
      | cons i items =>
          cases items' with
          | nil =>
              rw [text_list_nil, text_list_cons] at heq
              exact ((hfits i List.mem_cons_self).text_ne_close _ _ (List.cons.inj heq).2).elim
          | cons j items' =>
              rw [text_list_cons, text_list_cons] at heq
              have htail : tailText (i :: items) ++ 0x29 :: rest =
                  tailText (j :: items') ++ 0x29 :: rest' := by
                simpa [tailText] using (List.cons.inj heq).2
              obtain ⟨hsame, hrest⟩ := tailText_cancel hitems hfits' htail
              exact ⟨by rw [hsame], hrest⟩

theorem Fits.readable {i : Sexp} (h : i.Fits) : Readable i := by
  induction h with
  | word plain => exact readable_word plain
  | quoted cs => exact readable_quoted cs
  | list fits ih => exact readable_list fits ih

/-- No two S-expressions have the same text. -/
theorem text_injective {i j : Sexp} (hi : i.Fits) (hj : j.Fits) (h : i.text = j.text) : i = j :=
  (hi.readable j [] [] hj (.inl rfl) (.inl rfl) (by rw [h])).1

end Sexp

end RToJulia
