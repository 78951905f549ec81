import RToJulia.Proofs.Token.Cutting
import RToJulia.Proofs.Token.Pieces
import RToJulia.Translate

/-!
# String literals

The body of a literal is a sequence of units: characters, and backslashes with a character each.
Reading and writing a literal go over bytes, but neither splits a unit: the bytes of a character
other than the first are no quotes, backslashes or dollar signs.  So a literal is translated unit by
unit.
-/

namespace RToJulia

open Text Julia Lexer

/-! ## Units -/

/-- A character that stands for itself, or one with a backslash in front. -/
inductive StringUnit where
  | bare (c : Char)
  | escaped (c : Char)
  deriving DecidableEq

namespace StringUnit

def text : StringUnit → Bytes
  | bare c => String.utf8EncodeChar c
  | escaped c => 0x5c :: String.utf8EncodeChar c

def bodyText (units : List StringUnit) : Bytes :=
  units.flatMap text

end StringUnit

open StringUnit

inductive Quote where
  | double
  | single
  deriving DecidableEq

namespace Quote

def char : Quote → Char
  | double => '"'
  | single => '\''

def byte : Quote → UInt8
  | double => 0x22
  | single => 0x27

def admits (q : Quote) : StringUnit → Bool
  | bare c => c ≠ q.char && c ≠ '\\'
  | escaped _ => true

def translated : Quote → StringUnit → StringUnit
  | double, bare c => if c = '$' then escaped c else bare c
  | double, escaped c => escaped c
  | single, bare c => if c = '"' || c = '$' then escaped c else bare c
  | single, escaped c => if c = '\'' then bare c else escaped c

/-- A unit as it is kept in a token: an escaped quote is the quote. -/
def decoded (q : Quote) : StringUnit → StringUnit
  | bare c => bare c
  | escaped c => if c = q.char then bare c else escaped c

end Quote

/-- A unit as it is written: a bare quote or dollar sign gets a backslash. -/
def StringUnit.guarded : StringUnit → StringUnit
  | bare c => if c = '"' || c = '$' then escaped c else bare c
  | escaped c => escaped c

theorem Quote.guarded_decoded {q : Quote} {u : StringUnit} (h : q.admits u = true) :
    (q.decoded u).guarded = q.translated u := by
  cases u with
  | bare c =>
      simp only [admits, Bool.and_eq_true, decide_eq_true_eq] at h
      cases q with
      | double => simp [decoded, guarded, translated, show c ≠ '"' from h.1]
      | single => rfl
  | escaped c =>
      cases q with
      | double =>
          by_cases hc : c = '"'
          · subst hc
            rfl
          · simp [decoded, guarded, translated, char, hc]
      | single =>
          by_cases hc : c = '\''
          · subst hc
            rfl
          · simp [decoded, guarded, translated, char, hc]

/-! ## The bytes of a unit -/

/-- The bytes of a character, if none of them is a given one below 0x80. -/
theorem not_mem_utf8EncodeChar {c d : Char} {b : UInt8} (hb : b.toNat = d.toNat)
    (hd : d.toNat < 0x80) (h : c ≠ d) : b ∉ String.utf8EncodeChar c := by
  intro hmem
  have hc := toNat_of_mem_utf8EncodeChar hmem (by omega)
  exact h (Char.toNat_inj.mp (hc.trans hb))

/-- The bytes behind the first of a character are above all of ASCII. -/
theorem utf8EncodeChar_tail {c : Char} {b : UInt8} {t : Bytes}
    (h : String.utf8EncodeChar c = b :: t) : ∀ x ∈ t, 0x80 ≤ x.toNat := by
  intro x hx
  refine Nat.le_of_not_lt fun hlow => ?_
  have hc : c.toNat = x.toNat :=
    toNat_of_mem_utf8EncodeChar (by rw [h]; exact List.mem_cons_of_mem _ hx) hlow
  have hbytes := encode_ascii hlow
  rw [← hc, Char.ofNat_toNat, h] at hbytes
  cases hbytes
  cases hx

theorem utf8EncodeChar_cons (c : Char) : ∃ b t, String.utf8EncodeChar c = b :: t ∧
    ∀ x ∈ t, 0x80 ≤ x.toNat := by
  obtain ⟨b, t, h⟩ := List.exists_cons_of_ne_nil (@String.utf8EncodeChar_ne_nil c)
  exact ⟨b, t, h, utf8EncodeChar_tail h⟩

/-! ## Scans over bytes -/

section Bytes

variable {q : UInt8} (bs rest : Bytes)

theorem stringBody?_bytes (h : ∀ b ∈ bs, b ≠ q ∧ b ≠ 0x5c) :
    stringBody? q (bs ++ rest) = (stringBody? q rest).map (bs ++ ·) := by
  induction bs with
  | nil => simp
  | cons b bs ih =>
      obtain ⟨hb, hbs⟩ := List.forall_mem_cons.mp h
      rw [List.cons_append, stringBody?_cons hb.2, if_neg hb.1, ih hbs, Option.map_map]
      rfl

theorem unescape_bytes (h : 0x5c ∉ bs) : unescape q (bs ++ rest) = bs ++ unescape q rest := by
  induction bs with
  | nil => rfl
  | cons b bs ih =>
      simp only [List.mem_cons, not_or] at h
      rw [List.cons_append, unescape, ih h.2, List.cons_append]
      · rintro rfl
        exact (h.1 rfl).elim
      · rintro c tail rfl
        exact (h.1 rfl).elim

theorem stringBody_bytes (h : ∀ b ∈ bs, b ≠ 0x5c ∧ b ≠ 0x22 ∧ b ≠ 0x24) :
    stringBody (bs ++ rest) = bs ++ stringBody rest := by
  induction bs with
  | nil => rfl
  | cons b bs ih =>
      obtain ⟨hb, hbs⟩ := List.forall_mem_cons.mp h
      rw [List.cons_append, stringBody, if_neg (by simp [hb]), ih hbs, List.cons_append]
      · rintro rfl
        exact (hb.1 rfl).elim
      · rintro c tail rfl
        exact (hb.1 rfl).elim

end Bytes

/-! ## Scans over units -/

section Units

variable {q : Quote} {u : StringUnit} (rest : Bytes)

theorem Quote.toNat_byte (q : Quote) : q.byte.toNat = q.char.toNat := by
  cases q <;> rfl

theorem Quote.char_lt (q : Quote) : q.char.toNat < 0x80 := by
  cases q <;> decide

theorem tail_ne {t : Bytes} (h : ∀ x ∈ t, 0x80 ≤ x.toNat) {b : UInt8} (hb : b.toNat < 0x80) :
    b ∉ t := by
  intro hmem
  have := h b hmem
  omega

theorem stringBody?_unit (h : q.admits u = true) :
    stringBody? q.byte (u.text ++ rest) = (stringBody? q.byte rest).map (u.text ++ ·) := by
  have hq : q.byte.toNat < 0x80 := q.toNat_byte ▸ q.char_lt
  cases u with
  | bare c =>
      simp only [Quote.admits, Bool.and_eq_true, decide_eq_true_eq] at h
      refine stringBody?_bytes _ rest fun b hb => ⟨?_, ?_⟩
      · rintro rfl
        exact not_mem_utf8EncodeChar q.toNat_byte q.char_lt h.1 hb
      · rintro rfl
        exact not_mem_utf8EncodeChar (d := '\\') rfl (by decide) h.2 hb
  | escaped c =>
      obtain ⟨b, t, hc, ht⟩ := utf8EncodeChar_cons c
      have hscan := stringBody?_bytes (q := q.byte) t rest fun x hx => by
        constructor
        · rintro rfl
          exact tail_ne ht hq hx
        · rintro rfl
          exact tail_ne ht (by decide) hx
      rw [StringUnit.text, hc, List.cons_append, List.cons_append, stringBody?, hscan, Option.map_map]
      rfl

theorem unescape_unit (h : u ≠ bare '\\') :
    unescape q.byte (u.text ++ rest) = (q.decoded u).text ++ unescape q.byte rest := by
  cases u with
  | bare c =>
      refine unescape_bytes _ rest ?_
      exact not_mem_utf8EncodeChar (d := '\\') rfl (by decide) fun hc => h (by rw [hc])
  | escaped c =>
      obtain ⟨b, t, hc, ht⟩ := utf8EncodeChar_cons c
      have hscan := unescape_bytes (q := q.byte) t rest (tail_ne ht (by decide))
      have hlead : b = q.byte ↔ c = q.char := by
        constructor
        · rintro rfl
          refine Char.toNat_inj.mp (Eq.trans ?_ q.toNat_byte)
          exact toNat_of_mem_utf8EncodeChar (by rw [hc]; exact List.mem_cons_self)
            (q.toNat_byte ▸ q.char_lt)
        · rintro rfl
          cases q <;> exact (List.cons.inj hc).1.symm
      rw [StringUnit.text, hc, List.cons_append, List.cons_append, unescape, hscan, Quote.decoded]
      by_cases hquote : c = q.char
      · rw [if_pos (hlead.mpr hquote), if_pos hquote, StringUnit.text, hc, List.cons_append]
      · rw [if_neg (mt hlead.mp hquote), if_neg hquote, StringUnit.text, hc, List.cons_append,
          List.cons_append]

theorem stringBody_unit (h : u ≠ bare '\\') :
    stringBody (u.text ++ rest) = u.guarded.text ++ stringBody rest := by
  cases u with
  | bare c =>
      unfold StringUnit.guarded
      dsimp only
      split
      · rename_i hc
        simp only [Bool.or_eq_true, decide_eq_true_eq] at hc
        rcases hc with rfl | rfl <;> rfl
      · rename_i hc
        simp only [Bool.or_eq_true, decide_eq_true_eq, not_or] at hc
        refine stringBody_bytes _ rest fun b hb => ⟨?_, ?_, ?_⟩
        · rintro rfl
          exact not_mem_utf8EncodeChar (d := '\\') rfl (by decide) (fun hc => h (by rw [hc])) hb
        · rintro rfl
          exact not_mem_utf8EncodeChar (d := '"') rfl (by decide) hc.1 hb
        · rintro rfl
          exact not_mem_utf8EncodeChar (d := '$') rfl (by decide) hc.2 hb
  | escaped c =>
      obtain ⟨b, t, hc, ht⟩ := utf8EncodeChar_cons c
      have hscan := stringBody_bytes t rest fun x hx => by
        refine ⟨?_, ?_, ?_⟩
        all_goals
          rintro rfl
          exact tail_ne ht (by decide) hx
      rw [StringUnit.guarded, StringUnit.text, hc, List.cons_append, List.cons_append, stringBody,
        hscan]
      rfl

end Units

/-! ## Bodies -/

section Body

variable {q : Quote} {units : List StringUnit}

theorem Quote.ne_backslash {u : StringUnit} (h : q.admits u = true) : u ≠ bare '\\' := by
  rintro rfl
  simp [admits] at h

theorem Quote.decoded_ne_backslash {u : StringUnit} (h : q.admits u = true) :
    q.decoded u ≠ bare '\\' := by
  cases u with
  | bare c => exact ne_backslash h
  | escaped c =>
      unfold decoded
      dsimp only
      split
      · rename_i hc
        rw [hc]
        cases q <;> decide
      · simp

/-- The scan for the closing quote finds the one behind the body. -/
theorem stringBody?_body (h : ∀ u ∈ units, q.admits u = true) (rest : Bytes) :
    stringBody? q.byte (bodyText units ++ q.byte :: rest) = some (bodyText units) := by
  induction units with
  | nil =>
      have hslash : q.byte ≠ 0x5c := by cases q <;> decide
      exact (stringBody?_cons hslash rest).trans (if_pos rfl)
  | cons u units ih =>
      obtain ⟨hu, hunits⟩ := List.forall_mem_cons.mp h
      rw [bodyText, List.flatMap_cons, List.append_assoc, stringBody?_unit _ hu, ← bodyText,
        ih hunits]
      rfl

theorem unescape_body (h : ∀ u ∈ units, q.admits u = true) :
    unescape q.byte (bodyText units) = bodyText (units.map q.decoded) := by
  induction units with
  | nil => rfl
  | cons u units ih =>
      obtain ⟨hu, hunits⟩ := List.forall_mem_cons.mp h
      rw [bodyText, List.flatMap_cons, unescape_unit _ (Quote.ne_backslash hu), ← bodyText, ih hunits]
      rfl

theorem stringBody_body (h : ∀ u ∈ units, u ≠ bare '\\') :
    stringBody (bodyText units) = bodyText (units.map guarded) := by
  induction units with
  | nil => rfl
  | cons u units ih =>
      obtain ⟨hu, hunits⟩ := List.forall_mem_cons.mp h
      rw [bodyText, List.flatMap_cons, stringBody_unit _ hu, ← bodyText, ih hunits]
      rfl

theorem bodyText_encoded (units : List StringUnit) : ∃ cs, bodyText units = encode cs := by
  induction units with
  | nil => exact ⟨[], rfl⟩
  | cons u units ih =>
      obtain ⟨cs, hcs⟩ := ih
      cases u with
      | bare c => exact ⟨c :: cs, congrArg (String.utf8EncodeChar c ++ ·) hcs⟩
      | escaped c => exact ⟨'\\' :: c :: cs, congrArg (0x5c :: String.utf8EncodeChar c ++ ·) hcs⟩

theorem mend_bodyText (units : List StringUnit) : mend (bodyText units) = bodyText units := by
  obtain ⟨cs, hcs⟩ := bodyText_encoded units
  rw [hcs, mend_encode]

/-- What a body becomes on its way from a source to a literal. -/
theorem stringLiteral_body (h : ∀ u ∈ units, q.admits u = true) :
    stringLiteral (mend (unescape q.byte (bodyText units))) =
      0x22 :: (bodyText (units.map q.translated) ++ [0x22]) := by
  have hdecoded : ∀ u ∈ units.map q.decoded, u ≠ bare '\\' := by
    intro u hu
    obtain ⟨v, hv, rfl⟩ := List.mem_map.mp hu
    exact Quote.decoded_ne_backslash (h v hv)
  have htranslated : (units.map q.decoded).map guarded = units.map q.translated := by
    rw [List.map_map]
    exact List.map_congr_left fun u hu => Quote.guarded_decoded (h u hu)
  rw [unescape_body h, mend_bodyText, stringLiteral, stringBody_body hdecoded, htranslated]
  rfl

end Body

/-! ## Translation -/

def assignedLiteral (quote : UInt8) (body : Bytes) : Bytes :=
  "s <- " ++ quote :: (body ++ [quote])

/-- The literal is one token, whatever its body. -/
theorem eventsFrom_assignedLiteral {q : Quote} {body : Bytes}
    (h : stringBody? q.byte (body ++ [q.byte]) = some body) : ∃ line last : Nat,
    eventsFrom 1 (assignedLiteral q.byte body) =
      [.token ⟨.ident, "s", 1, none⟩, .token ⟨.backArrow, "<-", 1, none⟩,
        .token ⟨.string, q.byte :: (body ++ [q.byte]), line,
          some (.text (mend (unescape q.byte body)))⟩, .token (Token.eof last)] := by
  have hpiece : piece 1 q.byte (body ++ [q.byte] ++ []) =
      .token ⟨.string, q.byte :: (body ++ [q.byte]), (1 + bodyBreaks body : Nat),
        some (.text (mend (unescape q.byte body)))⟩ := by
    have hstring : piece 1 q.byte (body ++ [q.byte]) = stringPiece 1 q.byte (body ++ [q.byte]) := by
      cases q <;> rfl
    rw [List.append_nil, hstring, stringPiece, h]
    rfl
  have hliteral := eventsFrom_piece hpiece rfl
  rw [List.append_nil] at hliteral
  have harrow := @eventsFrom_token 1 0x3c [0x2d] (0x20 :: q.byte :: (body ++ [q.byte]))
    ⟨.backArrow, "<-", 1, none⟩ rfl rfl rfl
  have hname := @cutsInto_name 1 "s" rfl (0x20 :: 0x3c :: 0x2d :: 0x20 :: q.byte :: (body ++ [q.byte]))
    (endsWord_cons rfl _)
  rw [eventsFrom_blank] at hname
  exact ⟨_, _, hname.trans (congrArg _ (harrow.trans (congrArg _
    ((eventsFrom_blank 1 _).trans hliteral))))⟩

theorem parse_assignedLiteral (line last : Nat) (lexeme value : Bytes) :
    parse [⟨.ident, "s", 1, none⟩, ⟨.backArrow, "<-", 1, none⟩,
      ⟨.string, lexeme, line, some (.text value)⟩, Token.eof last] =
        .ok [.assign "s" (.string value)] := rfl

theorem generate_assignedLiteral (o : Options) (value : Bytes) :
    Session.generate o {} [.assign "s" (.string value)] =
      .ok (.ok (utf8 "s = " ++ stringLiteral value), {}) := by
  have hwritten : Session.generate o {} [.assign "s" (.string value)] =
      .ok (.ok (utf8 "s = " ++ stringLiteral value ++ []), {}) := rfl
  rw [hwritten, List.append_nil]

/-- A literal in either quote is translated unit by unit, without a complaint. -/
theorem translate_string_units (o : Options) (q : Quote) (units : List StringUnit)
    (h : ∀ u ∈ units, q.admits u = true) :
    lexFaults (assignedLiteral q.byte (bodyText units)) = [] ∧
      translate o (assignedLiteral q.byte (bodyText units)) =
        .ok (.ok (utf8 "s = " ++ 0x22 :: (bodyText (units.map q.translated) ++ [0x22]))) := by
  obtain ⟨line, last, hevents⟩ := eventsFrom_assignedLiteral (stringBody?_body h [])
  have hscan : scan (assignedLiteral q.byte (bodyText units)) = _ := hevents
  constructor
  · rw [lexFaults, hscan]
    rfl
  · have hparse : parseSource (assignedLiteral q.byte (bodyText units)) = .ok [.assign "s"
        (.string (mend (unescape q.byte (bodyText units))))] := by
      rw [parseSource, tokens, hscan]
      exact parse_assignedLiteral line last _ _
    rw [translate, hparse]
    simp only [generate_assignedLiteral, stringLiteral_body h]

/-- Escaped and bare quotes, a dollar sign, backslashes and characters of several bytes. -/
theorem translate_string_units_mixed :
    let units := [bare '"', escaped '\'', bare '$', escaped '\\', escaped 'é', bare '\n', escaped '$']
    (∀ u ∈ units, Quote.single.admits u = true) ∧
      lexFaults (assignedLiteral Quote.single.byte (bodyText units)) = [] ∧
        translate {} (assignedLiteral Quote.single.byte (bodyText units)) =
          .ok (.ok (utf8 "s = " ++ 0x22 :: (bodyText (units.map Quote.single.translated) ++ [0x22]))) := by
  intro units
  have hadmits : ∀ u ∈ units, Quote.single.admits u = true := by decide
  exact ⟨hadmits, translate_string_units {} .single units hadmits⟩

end RToJulia
