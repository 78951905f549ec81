import RToJulia.Proofs.Token.Spelled

/-! # Cutting a text from the front

What is cut from a text whose front is known: a name, digits, a bracket, an operator
in front of a blank. The longest match decides, so each lemma says what may come next.
-/

namespace RToJulia

open Text Lexer

def eventsFrom (line : Nat) (s : Bytes) : List LexEvent :=
  (piecesAfter line 0 s).1.filterMap Piece.event? ++
    [.token (Token.eof (piecesAfter line 0 s).2)]

theorem scan_eq_eventsFrom (source : Bytes) : scan source = eventsFrom 1 source := rfl

theorem piecesAfter_skip (line : Nat) (front rest : Bytes) :
    piecesAfter line front.length (front ++ rest) = piecesAfter line 0 rest := by
  induction front with
  | nil => rfl
  | cons b front ih => exact ih

/-- One piece is cut from the front, and reading goes on behind it. -/
theorem eventsFrom_piece {line : Nat} {b : UInt8} {front rest : Bytes} {p : Piece}
    (h : piece line b (front ++ rest) = p) (htext : p.text = b :: front) :
    eventsFrom line (b :: front ++ rest) =
      p.event?.toList ++ eventsFrom (line + lineBreaks p) rest := by
  have hafter : piecesAfter line 0 (b :: (front ++ rest)) =
      (p :: (piecesAfter (line + lineBreaks p) 0 rest).1,
        (piecesAfter (line + lineBreaks p) 0 rest).2) := by
    rw [piecesAfter, h, htext]
    simp only [List.length_cons, Nat.add_sub_cancel, piecesAfter_skip]
  unfold eventsFrom
  rw [List.cons_append, hafter, List.filterMap_cons]
  cases p.event? <;> simp

/-- A token without line breaks is cut from the front. -/
theorem eventsFrom_token {line : Nat} {b : UInt8} {front rest : Bytes} {t : Token}
    (h : piece line b (front ++ rest) = .token t) (hlexeme : t.lexeme = b :: front)
    (hbreaks : lineBreaks (.token t) = 0) :
    eventsFrom line (b :: front ++ rest) = .token t :: eventsFrom line rest := by
  rw [eventsFrom_piece h hlexeme, hbreaks]
  rfl

theorem eventsFrom_byte {line : Nat} {b : UInt8} {rest : Bytes} {t : Token}
    (h : piece line b rest = .token t) (hlexeme : t.lexeme = [b])
    (hbreaks : lineBreaks (.token t) = 0) :
    eventsFrom line (b :: rest) = .token t :: eventsFrom line rest :=
  (eventsFrom_token h hlexeme hbreaks : eventsFrom line (b :: [] ++ rest) = _)

theorem eventsFrom_blank (line : Nat) (rest : Bytes) :
    eventsFrom line (0x20 :: rest) = eventsFrom line rest := by
  have hpiece : piece line 0x20 ([] ++ rest) = .blank 0x20 := rfl
  have hcut := eventsFrom_piece hpiece rfl
  rw [(rfl : lineBreaks (.blank 0x20) = 0)] at hcut
  exact hcut

/-! ## Names and numbers -/

def EndsWord (rest : Bytes) : Prop :=
  ∀ b, rest.head? = some b → isNameByte b = false

theorem endsWord_cons {b : UInt8} (h : isNameByte b = false) (rest : Bytes) :
    EndsWord (b :: rest) := by
  intro c hc
  cases hc
  exact h

/-- The text is cut into the tokens in front of whatever ends a word. -/
def CutsInto (line : Nat) (text : Bytes) (ts : List Token) : Prop :=
  ∀ rest, EndsWord rest →
    eventsFrom line (text ++ rest) = ts.map .token ++ eventsFrom line rest

theorem takeWhile_word {p : UInt8 → Bool} {s rest : Bytes} (hs : s.all p = true)
    (hrest : ∀ b, rest.head? = some b → p b = false) :
    (s ++ rest).takeWhile p = s ∧ (s ++ rest).dropWhile p = rest := by
  rw [List.takeWhile_append_of_pos (List.all_eq_true.mp hs),
    List.dropWhile_append_of_pos (List.all_eq_true.mp hs)]
  cases rest with
  | nil => simp
  | cons b rest => simp [hrest b rfl]

/-- The byte at the front of a name or a number is at the front of nothing else. -/
theorem word_spec {b : UInt8} (h : isNameByte b = true) (next : Option UInt8) :
    operator? b next = none ∧ single? b = none := by
  constructor
  · unfold operator?
    split <;> first | rfl | exact absurd h (by decide)
  · unfold single?
    split <;> first | rfl | exact absurd h (by decide)

theorem piece_word {line : Nat} {b : UInt8} {rest : Bytes} (h : isNameByte b = true)
    (hdot : b ≠ 0x2e) :
    piece line b rest = if isDigitByte b then number line (b :: rest)
      else .token (nameToken line (b :: rest.takeWhile isNameByte)) := by
  have hne : ∀ c, isNameByte c = false → b ≠ c := by
    rintro c hc rfl
    simp_all
  obtain ⟨hop, hsingle⟩ := word_spec h rest.head?
  have hpiece : piece line b rest = if isDigitByte b then number line (b :: rest)
      else if isNameStart b then .token (nameToken line (b :: rest.takeWhile isNameByte))
      else .fault (headRune b rest).bytes (.unexpected (headRune b rest).char line) := by
    unfold piece
    simp [hne 0x20 rfl, hne 0x0d rfl, hne 0x09 rfl, hne 0x0a rfl, hne 0x23 rfl, hne 0x22 rfl,
      hne 0x27 rfl, hne 0x60 rfl, hop, hsingle]
  rw [hpiece]
  by_cases hdigit : isDigitByte b = true
  · rw [if_pos hdigit, if_pos hdigit]
  · have hstart : isNameStart b = true := by
      simpa [isNameByte, hdigit, hdot] using h
    rw [if_neg hdigit, if_neg hdigit, if_pos hstart]

theorem lineBreaks_nameToken (line : Nat) (x : Bytes) :
    lineBreaks (.token (nameToken line x)) = 0 := by
  unfold nameToken
  split
  · rfl
  split
  · rfl
  cases hk : keyword? x with
  | none => rfl
  | some kind =>
      have hmark := (keyword?_spec hk).1
      unfold lineBreaks
      cases kind <;> first | rfl | contradiction

/-- A name is cut in front of a byte that no name goes on with. -/
theorem cutsInto_name {line : Nat} {x : Bytes} (hx : isPlainName x = true) :
    CutsInto line x [nameToken line x] := by
  intro rest hrest
  cases x with
  | nil => contradiction
  | cons b s =>
      simp only [isPlainName, Bool.and_eq_true] at hx
      have hword : isNameByte b = true := by simp [isNameByte, hx.1]
      have hdot : b ≠ 0x2e := by
        rintro rfl
        exact absurd hx.1 (by decide)
      have hdigit : isDigitByte b = false := by
        have hstart := hx.1
        simp only [isNameStart, isDigitByte] at hstart ⊢
        grind
      have hpiece : piece line b (s ++ rest) = .token (nameToken line (b :: s)) := by
        rw [piece_word hword hdot, hdigit, (takeWhile_word hx.2 hrest).1]
        rfl
      exact eventsFrom_token hpiece (nameToken_lexeme line _) (lineBreaks_nameToken line _)

theorem cutsInto_digits {line : Nat} {digits : Bytes} (hne : digits ≠ [])
    (hall : digits.all isDigitByte = true) :
    CutsInto line digits [⟨.integer, digits, line, some (.text digits)⟩] := by
  intro rest hrest
  cases digits with
  | nil => contradiction
  | cons b s =>
      have hb : isDigitByte b = true := (Bool.and_eq_true .. ▸ hall).1
      have hword : isNameByte b = true := by simp [isNameByte, hb]
      have hdot : b ≠ 0x2e := by
        rintro rfl
        exact absurd hb (by decide)
      have hends : ∀ c, rest.head? = some c → isDigitByte c = false ∧ c ≠ 0x2e ∧ c ≠ 0x4c := by
        intro c hc
        have hname := hrest c hc
        refine ⟨?_, ?_, ?_⟩
        · simp only [isNameByte, Bool.or_eq_false_iff] at hname
          exact hname.1.2
        · rintro rfl
          contradiction
        · rintro rfl
          contradiction
      obtain ⟨htake, hdrop⟩ := takeWhile_word hall fun c hc => (hends c hc).1
      have hfraction : fractionPart rest = [] := by
        cases rest with
        | nil => rfl
        | cons c rest =>
            unfold fractionPart
            split
            · rename_i heq
              cases heq
              exact absurd rfl (hends _ rfl).2.1
            · rfl
      have hmark : rest.head? ≠ some 0x4c := fun h => (hends _ h).2.2 rfl
      have hpiece : piece line b (s ++ rest) =
          .token ⟨.integer, b :: s, line, some (.text (b :: s))⟩ := by
        rw [piece_word hword hdot, if_pos hb]
        unfold number
        rw [← List.cons_append, htake, hdrop]
        simp [hfraction, hmark]
      exact eventsFrom_token hpiece rfl rfl

/-! ## Brackets and operators -/

theorem eventsFrom_single {line : Nat} {b : UInt8} {kind : Kind} (h : single? b = some kind)
    (rest : Bytes) :
    eventsFrom line (b :: rest) = .token ⟨kind, [b], line, none⟩ :: eventsFrom line rest := by
  unfold single? at h
  split at h <;> cases h <;> exact eventsFrom_byte rfl rfl rfl

/-- A line break is one token, and the next line goes on behind it. -/
theorem eventsFrom_newline {line : Nat} {rest : Bytes} (h : rest.head? ≠ some 0x0a) :
    eventsFrom line (0x0a :: rest) =
      .token ⟨.newline, "\n", line, none⟩ :: eventsFrom (line + 1) rest := by
  have htake : rest.takeWhile (· == 0x0a) = [] := by
    cases rest with
    | nil => rfl
    | cons b rest => simp_all
  have hpiece : piece line 0x0a ([] ++ rest) = .token ⟨.newline, "\n", line, none⟩ := by
    change Piece.token ⟨.newline, 0x0a :: rest.takeWhile (· == 0x0a), line, none⟩ = _
    rw [htake]
    rfl
  exact eventsFrom_piece hpiece rfl

/-! ## Forms -/

section Forms

variable {line : Nat} {text other : Bytes} {ts us : List Token}

/-- A text is cut in front of another one that goes on with no byte of a name. -/
theorem CutsInto.append {b : UInt8} (h : CutsInto line text ts) (hb : isNameByte b = false)
    (hother : CutsInto line (b :: other) us) : CutsInto line (text ++ b :: other) (ts ++ us) := by
  intro rest hrest
  rw [List.append_assoc, List.cons_append, h _ (endsWord_cons hb _), ← List.cons_append,
    hother rest hrest, List.map_append, List.append_assoc]

theorem cutsInto_enclosed {o c : UInt8} {left right : Kind} (ho : single? o = some left)
    (hc : single? c = some right) (hend : isNameByte c = false) (h : CutsInto line text ts) :
    CutsInto line (o :: (text ++ [c]))
      (⟨left, [o], line, none⟩ :: (ts ++ [⟨right, [c], line, none⟩])) := by
  intro rest _
  have htext : o :: (text ++ [c]) ++ rest = o :: (text ++ c :: rest) := by simp
  rw [htext, eventsFrom_single ho, h _ (endsWord_cons hend rest), eventsFrom_single hc]
  simp

/-- A sign is cut in front of anything but an equals sign. -/
theorem cutsInto_sign {op : Bytes} {b : UInt8} (hop : op = "-" ∨ op = "!") (hb : b ≠ 0x3d)
    (h : CutsInto line (b :: text) ts) :
    CutsInto line (op ++ b :: text) (⟨(Canonical.sign op).kind, op, line, none⟩ :: ts) := by
  intro rest hrest
  have hsign : eventsFrom line (op ++ (b :: text ++ rest)) =
      .token ⟨(Canonical.sign op).kind, op, line, none⟩ :: eventsFrom line (b :: text ++ rest) := by
    rcases hop with rfl | rfl
    · exact eventsFrom_byte (b := 0x2d) rfl rfl rfl
    · have hbang : operator? 0x21 (some b) = some (.bang, false) := by
        unfold operator?
        split <;> simp_all
      have hpiece : piece line 0x21 (b :: text ++ rest) = .token ⟨.bang, "!", line, none⟩ := by
        unfold piece
        rw [List.cons_append, List.head?_cons, hbang]
        rfl
      exact eventsFrom_byte hpiece rfl rfl
  rw [List.append_assoc, hsign, h rest hrest]
  rfl

/-- An operator between blanks is cut as its kind. -/
theorem cutsInto_operator {op : Bytes} {p : Nat} (hop : operatorLevel? op = some p)
    (h : CutsInto line text ts) :
    CutsInto line (0x20 :: (op ++ 0x20 :: text))
      (⟨(Canonical.operator op).kind, op, line, none⟩ :: ts) := by
  intro rest hrest
  obtain ⟨entry, hmem, rfl, hkind, -⟩ := operator_of_level hop
  have hcut : ∃ b front, utf8 entry.1 = b :: front ∧
      piece line b (front ++ 0x20 :: (text ++ rest)) =
        .token ⟨entry.2, utf8 entry.1, line, none⟩ ∧
      lineBreaks (.token ⟨entry.2, utf8 entry.1, line, none⟩) = 0 := by
    clear hop hkind
    simp only [Canonical.operators, List.mem_cons, List.not_mem_nil, or_false] at hmem
    rcases hmem with rfl | rfl | rfl | rfl | rfl | rfl | rfl | rfl | rfl | rfl | rfl | rfl | rfl |
      rfl | rfl | rfl <;> exact ⟨_, _, rfl, rfl, rfl⟩
  obtain ⟨b, front, hutf8, hpiece, hbreaks⟩ := hcut
  have htoken := eventsFrom_token hpiece hutf8 hbreaks
  rw [← hutf8, eventsFrom_blank, h rest hrest] at htoken
  have htext : 0x20 :: (utf8 entry.1 ++ 0x20 :: text) ++ rest =
      0x20 :: (utf8 entry.1 ++ 0x20 :: (text ++ rest)) := by simp
  rw [htext, eventsFrom_blank, htoken, hkind]
  rfl

theorem cutsInto_equal (h : CutsInto line text ts) :
    CutsInto line (0x20 :: 0x3d :: 0x20 :: text) (⟨.equal, "=", line, none⟩ :: ts) := by
  intro rest hrest
  have hpiece : piece line 0x3d ([] ++ 0x20 :: (text ++ rest)) = .token ⟨.equal, "=", line, none⟩ :=
    rfl
  have htoken := eventsFrom_token hpiece rfl rfl
  rw [eventsFrom_blank, h rest hrest] at htoken
  rw [List.cons_append, eventsFrom_blank]
  exact htoken

/-- Texts with commas between them are cut one by one. -/
theorem cutsInto_separated {ι : Type} {items : List ι} {texts : ι → Bytes}
    {toks : ι → List Token} (h : ∀ i ∈ items, CutsInto line (texts i) (toks i)) :
    CutsInto line ((utf8 ", ").intercalate (items.map texts))
      ([⟨.comma, ",", line, none⟩].intercalate (items.map toks)) := by
  induction items with
  | nil => exact fun rest _ => rfl
  | cons i items ih =>
      have hfirst := h i (by simp)
      have hmore := ih fun j hj => h j (by simp [hj])
      cases items with
      | nil => simpa using hfirst
      | cons j items =>
          intro rest hrest
          have htext : (utf8 ", ").intercalate ((i :: j :: items).map texts) ++ rest =
              texts i ++ 0x2c :: 0x20 :: ((utf8 ", ").intercalate ((j :: items).map texts) ++
                rest) := by
            simp only [List.map_cons, List.intercalate_cons_cons, List.append_assoc]
            rfl
          rw [htext, hfirst _ (endsWord_cons rfl _),
            eventsFrom_single (rfl : single? 0x2c = some .comma), eventsFrom_blank, hmore rest hrest]
          simp only [List.map_cons, List.intercalate_cons_cons, List.map_append, List.append_assoc]
          rfl

end Forms

end RToJulia
