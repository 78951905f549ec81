import RToJulia.Text.Utf8

/-! # Runes and bytes

The runes of a byte string stand for its bytes in order: a well-formed sequence is
encoded by the bytes it was read from, and every other byte stands for itself.
-/

namespace RToJulia.Text

/-! ## Encoding a decoded sequence -/

theorem ofNat_eq {n : Nat} {b : UInt8} (h : n = b.toNat) : UInt8.ofNat n = b := by
  rw [h, UInt8.ofNat_toNat]

theorem val_ofNat {n : Nat} (h : n.isValidChar) : (Char.ofNat n).val.toNat = n := by
  unfold Char.ofNat
  rw [dif_pos h]
  rfl

theorem isContinuation_bounds {b : UInt8} (h : isContinuation b = true) :
    0x80 ≤ b.toNat ∧ b.toNat ≤ 0xBF := by
  simp only [isContinuation, Bool.and_eq_true, decide_eq_true_eq] at h
  exact h

theorem isSecond_bounds {lead b : UInt8} (h : isSecond lead b = true) :
    0x80 ≤ b.toNat ∧ b.toNat ≤ 0xBF ∧ (lead.toNat = 0xE0 → 0xA0 ≤ b.toNat) ∧
      (lead.toNat = 0xED → b.toNat ≤ 0x9F) ∧ (lead.toNat = 0xF0 → 0x90 ≤ b.toNat) ∧
      (lead.toNat = 0xF4 → b.toNat ≤ 0x8F) := by
  simp only [isSecond, isContinuation, beq_iff_eq, UInt8.le_iff_toNat_le, ← UInt8.toNat_inj,
    UInt8.reduceToNat] at h
  repeat' split at h
  all_goals
    simp only [Bool.and_eq_true, decide_eq_true_eq] at h
    omega

theorem encode_ascii {b : UInt8} (hb : b.toNat < 0x80) :
    String.utf8EncodeChar (Char.ofNat b.toNat) = [b] := by
  unfold String.utf8EncodeChar
  rw [val_ofNat (.inl (by omega))]
  dsimp only
  rw [if_pos (by omega), ofNat_eq rfl]

theorem encode_two {b c : UInt8} (hb : 0xC2 ≤ b.toNat) (hb' : b.toNat ≤ 0xDF)
    (hc : isContinuation c = true) :
    String.utf8EncodeChar (Char.ofNat (b.toNat % 32 * 64 + payload c)) = [b, c] := by
  have hc := isContinuation_bounds hc
  unfold String.utf8EncodeChar payload
  rw [val_ofNat (.inl (by omega))]
  dsimp only
  rw [if_neg (by omega), if_pos (by omega), ofNat_eq (b := b) (by omega), ofNat_eq (b := c) (by omega)]

theorem encode_three {b c d : UInt8} (hb : 0xE0 ≤ b.toNat) (hb' : b.toNat ≤ 0xEF)
    (hc : isSecond b c = true) (hd : isContinuation d = true) :
    String.utf8EncodeChar (Char.ofNat ((b.toNat % 16 * 64 + payload c) * 64 + payload d)) =
      [b, c, d] := by
  have hc := isSecond_bounds hc
  have hd := isContinuation_bounds hd
  have hvalid : ((b.toNat % 16 * 64 + c.toNat % 64) * 64 + d.toNat % 64).isValidChar := by
    by_cases h : b.toNat ≤ 0xED
    · exact .inl (by omega)
    · exact .inr (by omega)
  unfold String.utf8EncodeChar payload
  rw [val_ofNat hvalid]
  dsimp only
  rw [if_neg (by omega), if_neg (by omega), if_pos (by omega), ofNat_eq (b := b) (by omega),
    ofNat_eq (b := c) (by omega), ofNat_eq (b := d) (by omega)]

theorem encode_four {b c d e : UInt8} (hb : 0xF0 ≤ b.toNat) (hb' : b.toNat ≤ 0xF4)
    (hc : isSecond b c = true) (hd : isContinuation d = true) (he : isContinuation e = true) :
    String.utf8EncodeChar (Char.ofNat
      (((b.toNat % 8 * 64 + payload c) * 64 + payload d) * 64 + payload e)) = [b, c, d, e] := by
  have hc := isSecond_bounds hc
  have hd := isContinuation_bounds hd
  have he := isContinuation_bounds he
  unfold String.utf8EncodeChar payload
  rw [val_ofNat (.inr (by omega))]
  dsimp only
  rw [if_neg (by omega), if_neg (by omega), if_neg (by omega), ofNat_eq (b := b) (by omega),
    ofNat_eq (b := c) (by omega), ofNat_eq (b := d) (by omega), ofNat_eq (b := e) (by omega)]

/-! ## Runes of a string -/

/-- A rune is read from the bytes it stands for. -/
theorem headRune_bytes (b : UInt8) (rest : Bytes) :
    ∃ left, b :: rest = (headRune b rest).bytes ++ left := by
  unfold headRune
  split
  · rename_i h
    exact ⟨rest, by rw [Rune.bytes, encode_ascii h]; rfl⟩
  split
  · rename_i h
    simp only [Bool.and_eq_true, decide_eq_true_eq] at h
    split
    · split
      · rename_i hc
        exact ⟨_, by rw [Rune.bytes, encode_two h.1 h.2 hc]; rfl⟩
      · exact ⟨_, rfl⟩
    · exact ⟨_, rfl⟩
  split
  · rename_i h
    simp only [Bool.and_eq_true, decide_eq_true_eq] at h
    split
    · split
      · rename_i hc
        simp only [Bool.and_eq_true] at hc
        exact ⟨_, by rw [Rune.bytes, encode_three h.1 h.2 hc.1 hc.2]; rfl⟩
      · exact ⟨_, rfl⟩
    · exact ⟨_, rfl⟩
  split
  · rename_i h
    simp only [Bool.and_eq_true, decide_eq_true_eq] at h
    split
    · split
      · rename_i hc
        simp only [Bool.and_eq_true] at hc
        exact ⟨_, by rw [Rune.bytes, encode_four h.1 h.2 hc.1.1 hc.1.2 hc.2]; rfl⟩
      · exact ⟨_, rfl⟩
    · exact ⟨_, rfl⟩
  · exact ⟨rest, rfl⟩

theorem headRune_stray {b c : UInt8} {rest : Bytes} (h : headRune b rest = .stray c) :
    0x80 ≤ c.toNat := by
  have hne : ∀ x : Char, Rune.scalar x ≠ .stray c := nofun
  by_cases hb : b < 0x80
  · unfold headRune at h
    rw [if_pos hb] at h
    exact (hne _ h).elim
  · have hc : c = b := by
      unfold headRune at h
      rw [if_neg hb] at h
      repeat' split at h
      all_goals first | exact (hne _ h).elim | exact (Rune.stray.inj h).symm
    rw [hc]
    exact Nat.not_lt.mp hb

/-- A byte below 0x80 in the encoding of a character is all of it. -/
theorem toNat_of_mem_utf8EncodeChar {c : Char} {b : UInt8} (h : b ∈ String.utf8EncodeChar c)
    (hb : b.toNat < 0x80) : c.toNat = b.toNat := by
  have hhigh : ∀ n, 0x80 ≤ n → n < 0x100 → b ≠ UInt8.ofNat n := by
    rintro n hl hu rfl
    rw [UInt8.toNat_ofNat'] at hb
    omega
  unfold String.utf8EncodeChar at h
  dsimp only at h
  split at h
  · rename_i hascii
    cases List.mem_singleton.mp h
    rw [UInt8.toNat_ofNat']
    exact (Nat.mod_eq_of_lt (Nat.lt_of_le_of_lt hascii (by decide))).symm
  split at h
  · simp only [List.mem_cons, List.not_mem_nil, or_false] at h
    rcases h with h | h <;> exact (hhigh _ (by omega) (by omega) h).elim
  split at h
  · simp only [List.mem_cons, List.not_mem_nil, or_false] at h
    rcases h with h | h | h <;> exact (hhigh _ (by omega) (by omega) h).elim
  · simp only [List.mem_cons, List.not_mem_nil, or_false] at h
    rcases h with h | h | h | h <;> exact (hhigh _ (by omega) (by omega) h).elim

/-- A byte below 0x80 is read as a rune of its own. -/
theorem eq_of_mem_headRune {b x : UInt8} {rest : Bytes} (h : x ∈ (headRune b rest).bytes)
    (hx : x.toNat < 0x80) : x = b := by
  obtain ⟨left, hleft⟩ := headRune_bytes b rest
  cases hr : headRune b rest with
  | stray c =>
      rw [hr] at h hleft
      cases hleft
      exact List.mem_singleton.mp h
  | scalar c =>
      rw [hr] at h hleft
      have hc := toNat_of_mem_utf8EncodeChar h hx
      have hbytes : (Rune.scalar c).bytes = [x] := by
        have henc := encode_ascii hx
        rwa [← hc, Char.ofNat_toNat] at henc
      rw [hbytes] at hleft
      cases hleft
      rfl

theorem Rune.length_bytes_pos (r : Rune) : 0 < r.bytes.length := by
  cases r with
  | stray b => exact Nat.one_pos
  | scalar c =>
      rw [Rune.bytes, String.length_utf8EncodeChar]
      exact Char.utf8Size_pos c

theorem runesAfter_eq_drop (skip : Nat) (s : Bytes) : runesAfter skip s = runes (s.drop skip) := by
  induction s generalizing skip with
  | nil => cases skip <;> rfl
  | cons b rest ih =>
      cases skip with
      | zero => rfl
      | succ skip => exact ih skip

/-- The first rune, and the runes of what is left behind its bytes. -/
theorem runes_cons (b : UInt8) (rest : Bytes) :
    ∃ left, b :: rest = (headRune b rest).bytes ++ left ∧
      runes (b :: rest) = headRune b rest :: runes left := by
  obtain ⟨left, hleft⟩ := headRune_bytes b rest
  refine ⟨left, hleft, ?_⟩
  have hpos := (headRune b rest).length_bytes_pos
  have hdrop : rest.drop ((headRune b rest).bytes.length - 1) = left := by
    have h := congrArg (List.drop (headRune b rest).bytes.length) hleft
    rw [List.drop_left] at h
    rw [← h, ← List.drop_succ_cons (a := b)]
    congr 1
    omega
  rw [← hdrop, ← runesAfter_eq_drop]
  rfl

/-- Induction over the runes of a string. -/
theorem rune_induction {P : Bytes → Prop} (nil : P [])
    (cons : ∀ b rest left, b :: rest = (headRune b rest).bytes ++ left →
      runes (b :: rest) = headRune b rest :: runes left → P left → P (b :: rest)) (s : Bytes) :
    P s := by
  induction hn : s.length using Nat.strongRecOn generalizing s with
  | ind n ih =>
      cases s with
      | nil => exact nil
      | cons b rest =>
          obtain ⟨left, hleft, hruns⟩ := runes_cons b rest
          have hpos := (headRune b rest).length_bytes_pos
          have hlen := congrArg List.length hleft
          rw [List.length_append, hn] at hlen
          exact cons b rest left hleft hruns (ih left.length (by omega) left rfl)

/-! ## Runes of encoded text -/

theorem toNat_ofNat_lt {n : Nat} (h : n < 0x100) : (UInt8.ofNat n).toNat = n := by
  rw [UInt8.toNat_ofNat']
  exact Nat.mod_eq_of_lt h

theorem isContinuation_ofNat {n : Nat} (hlow : 0x80 ≤ n) (hhigh : n ≤ 0xBF) :
    isContinuation (UInt8.ofNat n) = true := by
  simp only [isContinuation, Bool.and_eq_true, decide_eq_true_eq, UInt8.le_iff_toNat_le,
    toNat_ofNat_lt (show n < 0x100 by omega), UInt8.reduceToNat]
  exact ⟨hlow, hhigh⟩

theorem payload_ofNat {n : Nat} (h : n < 0x100) : payload (UInt8.ofNat n) = n % 64 := by
  rw [payload, toNat_ofNat_lt h]

/-- The second bytes of encoded characters keep out what a lead byte forbids. -/
theorem isSecond_ofNat (lead n : Nat) (hlead : lead < 0x100) (hlow : 0x80 ≤ n) (hhigh : n ≤ 0xBF)
    (hE0 : lead = 0xE0 → 0xA0 ≤ n) (hED : lead = 0xED → n ≤ 0x9F) (hF0 : lead = 0xF0 → 0x90 ≤ n)
    (hF4 : lead = 0xF4 → n ≤ 0x8F) : isSecond (UInt8.ofNat lead) (UInt8.ofNat n) = true := by
  simp only [isSecond, isContinuation, beq_iff_eq, UInt8.le_iff_toNat_le, ← UInt8.toNat_inj,
    toNat_ofNat_lt hlead, toNat_ofNat_lt (show n < 0x100 by omega), UInt8.reduceToNat]
  repeat' split
  all_goals
    simp only [Bool.and_eq_true, decide_eq_true_eq]
    omega

/-- An encoded character is read as that character, whatever follows. -/
theorem headRune_utf8EncodeChar (c : Char) (rest : Bytes) :
    ∃ b t, String.utf8EncodeChar c = b :: t ∧ headRune b (t ++ rest) = .scalar c := by
  have hvalid : c.val.toNat < 0xD800 ∨ 0xDFFF < c.val.toNat ∧ c.val.toNat < 0x110000 := c.valid
  have hchar : ∀ n, n = c.val.toNat → Rune.scalar (Char.ofNat n) = .scalar c := by
    rintro n rfl
    exact congrArg Rune.scalar (Char.ofNat_toNat c)
  unfold String.utf8EncodeChar
  dsimp only
  split
  · rename_i h
    refine ⟨_, _, rfl, ?_⟩
    have hb : UInt8.ofNat c.val.toNat < 0x80 := by
      rw [UInt8.lt_iff_toNat_lt, toNat_ofNat_lt (by omega)]
      exact Nat.lt_succ_of_le h
    unfold headRune
    rw [if_pos hb, toNat_ofNat_lt (by omega)]
    exact hchar _ rfl
  split
  · refine ⟨_, _, rfl, ?_⟩
    simp only [headRune, List.cons_append, List.nil_append, UInt8.lt_iff_toNat_lt,
      UInt8.le_iff_toNat_le, UInt8.reduceToNat,
      toNat_ofNat_lt (show c.val.toNat / 64 % 32 + 192 < 0x100 by omega)]
    rw [if_neg (by omega), if_pos (by simp only [Bool.and_eq_true, decide_eq_true_eq]; omega),
      if_pos (isContinuation_ofNat (by omega) (by omega)), payload_ofNat (by omega)]
    exact hchar _ (by omega)
  split
  · refine ⟨_, _, rfl, ?_⟩
    have hsecond := isSecond_ofNat (c.val.toNat / 4096 % 16 + 224)
      (c.val.toNat / 64 % 64 + 128) (by omega) (by omega) (by omega) (by omega) (by omega)
      (by omega) (by omega)
    have hthird := isContinuation_ofNat (n := c.val.toNat % 64 + 128) (by omega) (by omega)
    simp only [headRune, List.cons_append, List.nil_append, UInt8.lt_iff_toNat_lt,
      UInt8.le_iff_toNat_le, UInt8.reduceToNat,
      toNat_ofNat_lt (show c.val.toNat / 4096 % 16 + 224 < 0x100 by omega)]
    rw [if_neg (by omega), if_neg (by simp only [Bool.and_eq_true, decide_eq_true_eq]; omega),
      if_pos (by simp only [Bool.and_eq_true, decide_eq_true_eq]; omega),
      if_pos (by rw [hsecond, hthird]; rfl), payload_ofNat (by omega), payload_ofNat (by omega)]
    exact hchar _ (by omega)
  · refine ⟨_, _, rfl, ?_⟩
    have hsecond := isSecond_ofNat (c.val.toNat / 262144 % 8 + 240)
      (c.val.toNat / 4096 % 64 + 128) (by omega) (by omega) (by omega) (by omega) (by omega)
      (by omega) (by omega)
    have hthird := isContinuation_ofNat (n := c.val.toNat / 64 % 64 + 128) (by omega) (by omega)
    have hfourth := isContinuation_ofNat (n := c.val.toNat % 64 + 128) (by omega) (by omega)
    simp only [headRune, List.cons_append, List.nil_append, UInt8.lt_iff_toNat_lt,
      UInt8.le_iff_toNat_le, UInt8.reduceToNat,
      toNat_ofNat_lt (show c.val.toNat / 262144 % 8 + 240 < 0x100 by omega)]
    rw [if_neg (by omega), if_neg (by simp only [Bool.and_eq_true, decide_eq_true_eq]; omega),
      if_neg (by simp only [Bool.and_eq_true, decide_eq_true_eq]; omega),
      if_pos (by simp only [Bool.and_eq_true, decide_eq_true_eq]; omega),
      if_pos (by rw [hsecond, hthird, hfourth]; rfl), payload_ofNat (by omega),
      payload_ofNat (by omega), payload_ofNat (by omega)]
    exact hchar _ (by omega)

theorem runes_utf8EncodeChar (c : Char) (rest : Bytes) :
    runes (String.utf8EncodeChar c ++ rest) = .scalar c :: runes rest := by
  obtain ⟨b, t, hc, hhead⟩ := headRune_utf8EncodeChar c rest
  obtain ⟨left, hleft, hruns⟩ := runes_cons b (t ++ rest)
  rw [hhead] at hleft hruns
  have hrest : left = rest := by
    rw [Rune.bytes, hc, List.cons_append, List.cons.injEq] at hleft
    exact (List.append_cancel_left hleft.2).symm
  rw [hc, List.cons_append, hruns, hrest]

theorem runes_encode (cs : List Char) : runes (encode cs) = cs.map .scalar := by
  induction cs with
  | nil => rfl
  | cons c cs ih =>
      rw [List.map_cons, ← ih]
      exact runes_utf8EncodeChar c (encode cs)

/-- Encoded text has nothing to mend. -/
theorem mend_encode (cs : List Char) : mend (encode cs) = encode cs := by
  have hchars : chars (encode cs) = cs := by
    rw [chars, runes_encode, List.map_map]
    exact List.map_id cs
  rw [mend, hchars]

end RToJulia.Text
