import RToJulia.Proofs.Text.Utf8
import RToJulia.Text.Quoted

/-!
# Reading quoted text

Each character of quoted text can be read back from the front, whatever follows it, and none begins
with a quote.  So the quoted form of encoded text shows where it ends and which text it is.
-/

namespace RToJulia.Text

/-! ## Hexadecimal digits -/

def hexDigitValue (d : UInt8) : Nat :=
  if d.toNat < 0x3a then d.toNat - 0x30 else d.toNat - 0x57

def hexRead (ds : Bytes) : Nat :=
  ds.foldl (fun n d => 16 * n + hexDigitValue d) 0

theorem hexDigitValue_hexDigit {n : Nat} (h : n < 16) : hexDigitValue (hexDigit n) = n := by
  unfold hexDigit
  split
  · rw [hexDigitValue, toNat_ofNat_lt (by omega), if_pos (by omega)]
    omega
  · rw [hexDigitValue, toNat_ofNat_lt (by omega), if_neg (by omega)]
    omega

theorem length_hex (width n : Nat) : (hex width n).length = width := by
  induction width generalizing n with
  | zero => rfl
  | succ width ih => rw [hex, List.length_append, ih, List.length_singleton]

theorem hexRead_hex {width n : Nat} (h : n < Nat.pow 16 width) : hexRead (hex width n) = n := by
  induction width generalizing n with
  | zero =>
      have hn : n = 0 := Nat.lt_one_iff.mp h
      rw [hn]
      rfl
  | succ width ih =>
      have hhigh : n / 16 < Nat.pow 16 width := Nat.div_lt_of_lt_mul (by rwa [Nat.mul_comm])
      rw [hexRead, hex, List.foldl_append, ← hexRead, ih hhigh, List.foldl_cons, List.foldl_nil,
        hexDigitValue_hexDigit (Nat.mod_lt _ (by decide))]
      omega

/-! ## Reading one character -/

def controlOf? (letter : UInt8) : Option Char :=
  if letter = 0x61 then some (Char.ofNat 0x07)
  else if letter = 0x62 then some (Char.ofNat 0x08)
  else if letter = 0x66 then some (Char.ofNat 0x0c)
  else if letter = 0x6e then some (Char.ofNat 0x0a)
  else if letter = 0x72 then some (Char.ofNat 0x0d)
  else if letter = 0x74 then some (Char.ofNat 0x09)
  else if letter = 0x76 then some (Char.ofNat 0x0b)
  else none

def hexWidth? (mark : UInt8) : Option Nat :=
  if mark = 0x78 then some 2
  else if mark = 0x75 then some 4
  else if mark = 0x55 then some 8
  else none

def readEscape? : Bytes → Option (Char × Bytes)
  | [] => none
  | b :: rest =>
      match hexWidth? b with
      | some width => some (Char.ofNat (hexRead (rest.take width)), rest.drop width)
      | none => some ((controlOf? b).getD (Char.ofNat b.toNat), rest)

def readQuoted? : Bytes → Option (Char × Bytes)
  | [] => none
  | b :: rest =>
      if b = 0x5c then readEscape? rest
      else
        match headRune b rest with
        | .scalar c => some (c, (b :: rest).drop (String.utf8EncodeChar c).length)
        | .stray _ => none

theorem readEscape?_hex (mark : UInt8) (width : Nat) (c : Char) (rest : Bytes)
    (hmark : hexWidth? mark = some width) (hc : c.toNat < Nat.pow 16 width) :
    readEscape? (mark :: (hex width c.toNat ++ rest)) = some (c, rest) := by
  have hlength := length_hex width c.toNat
  have htake : (hex width c.toNat ++ rest).take width = hex width c.toNat := List.take_left' hlength
  have hdrop : (hex width c.toNat ++ rest).drop width = rest := List.drop_left' hlength
  simp only [readEscape?, hmark, htake, hdrop, hexRead_hex hc, Char.ofNat_toNat]

theorem readEscape?_letter {c : Char} {letter : UInt8} (rest : Bytes)
    (h : escapeLetter? c = some letter) : readEscape? (letter :: rest) = some (c, rest) := by
  unfold escapeLetter? at h
  have hc : ∀ n, c.toNat = n → Char.ofNat n = c := by
    rintro n rfl
    exact Char.ofNat_toNat c
  split at h
  all_goals first
    | cases h
      rename_i hn
      exact congrArg (fun c => some (c, rest)) (hc _ hn)
    | cases h

/-- A character of quoted text is read back, whatever follows it. -/
theorem readQuoted?_quotedRune (c : Char) (rest : Bytes) :
    readQuoted? (quotedRune (.scalar c) ++ rest) = some (c, rest) := by
  unfold quotedRune
  dsimp only
  split
  · rename_i h
    simp only [Bool.or_eq_true, decide_eq_true_eq] at h
    rcases h with rfl | rfl <;> rfl
  · rename_i h
    simp only [Bool.or_eq_true, decide_eq_true_eq, not_or] at h
    split
    · obtain ⟨b, t, hbytes, hhead⟩ := headRune_utf8EncodeChar c rest
      have hb : b ≠ 0x5c := by
        rintro rfl
        have hslash : c.toNat = 0x5c :=
          toNat_of_mem_utf8EncodeChar (b := 0x5c) (by rw [hbytes]; exact List.mem_cons_self) (by decide)
        exact h.2 (by rw [← Char.ofNat_toNat c, hslash])
      rw [hbytes, List.cons_append, readQuoted?, if_neg hb, hhead]
      simp only [hbytes]
      rw [← List.cons_append, List.drop_left]
    · split
      · rename_i letter hletter
        exact readEscape?_letter rest hletter
      · split
        · rename_i hlow
          simp only [Bool.or_eq_true, decide_eq_true_eq] at hlow
          exact readEscape?_hex 0x78 2 c rest rfl (Nat.lt_of_le_of_lt (m := 0x7f) (by omega) (by decide))
        · split
          · rename_i hlow
            exact readEscape?_hex 0x75 4 c rest rfl hlow
          · have hvalid : c.toNat < 0x110000 := by
              rcases c.valid with h | h
              · exact Nat.lt_trans h (by decide)
              · exact h.2
            exact readEscape?_hex 0x55 8 c rest rfl (Nat.lt_trans hvalid (by decide))

theorem quotedRune_ne_quote (c : Char) (rest : Bytes) :
    ∀ t, quotedRune (.scalar c) ++ rest ≠ 0x22 :: t := by
  intro t h
  have hread := readQuoted?_quotedRune c rest
  have hquote : headRune 0x22 t = .scalar '"' := rfl
  rw [h, readQuoted?, if_neg (by decide), hquote] at hread
  cases hread
  cases h

/-! ## Reading quoted text -/

/-- Up to its closing quote, quoted text has one reading. -/
theorem quotedRunes_cancel {cs cs' : List Char} {rest rest' : Bytes}
    (h : (cs.map Rune.scalar).flatMap quotedRune ++ 0x22 :: rest =
      (cs'.map Rune.scalar).flatMap quotedRune ++ 0x22 :: rest') : cs = cs' ∧ rest = rest' := by
  induction cs generalizing cs' with
  | nil =>
      cases cs' with
      | nil =>
          cases h
          exact ⟨rfl, rfl⟩
      | cons c cs' =>
          rw [List.map_cons, List.flatMap_cons, List.append_assoc] at h
          exact (quotedRune_ne_quote c _ _ h.symm).elim
  | cons c cs ih =>
      cases cs' with
      | nil =>
          rw [List.map_cons, List.flatMap_cons, List.append_assoc] at h
          exact (quotedRune_ne_quote c _ _ h).elim
      | cons c' cs' =>
          rw [List.map_cons, List.flatMap_cons, List.append_assoc, List.map_cons,
            List.flatMap_cons, List.append_assoc] at h
          have hread := congrArg readQuoted? h
          rw [readQuoted?_quotedRune, readQuoted?_quotedRune, Option.some.injEq,
            Prod.mk.injEq] at hread
          obtain ⟨rfl, hrest⟩ := hread
          obtain ⟨rfl, hleft⟩ := ih hrest
          exact ⟨rfl, hleft⟩

theorem quoted_encode (cs : List Char) :
    quoted (encode cs) = 0x22 :: (cs.map Rune.scalar).flatMap quotedRune ++ [0x22] := by
  rw [quoted, runes_encode]

/-- Quoted text shows which text it is and where it ends. -/
theorem quoted_cancel {cs cs' : List Char} {rest rest' : Bytes}
    (h : quoted (encode cs) ++ rest = quoted (encode cs') ++ rest') : cs = cs' ∧ rest = rest' := by
  rw [quoted_encode, quoted_encode, List.append_assoc, List.append_assoc] at h
  exact quotedRunes_cancel (List.cons.inj h).2

end RToJulia.Text
