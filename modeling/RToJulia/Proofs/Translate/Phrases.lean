import RToJulia.Proofs.Julia.Layout
import RToJulia.Proofs.Token.LineNumbers
import RToJulia.Proofs.Token.Seams
import RToJulia.Proofs.Translate.Operands
import RToJulia.Proofs.Tree.Backticks

/-! # The phrases of a translation

The labels of a program that was read from a source are spelled as the tokens of the source
are: names are plain or in backticks, operators and numbers have their bytes, and no
backslash waits at the end of a string. With labels of that spelling, the translation has
the same lines under every width of an indentation.
-/

namespace RToJulia

open Text Julia Node

/-! ## Names -/

def IsName (x : Bytes) : Prop :=
  isPlainName x = true ∨ ∃ body, body ≠ [] ∧ x = 0x60 :: body ++ [0x60]

/-- The names that a node uses; a declaration uses its parameters only. -/
def Node.usedNames : Node → List Bytes
  | .assign x _ | .forLoop x _ _ _ | .call x _ | .named x _ | .var x | .field _ x => [x]
  | .function _ params _ | .operator _ _ params _ => params
  | _ => []

theorem IsName.isWhole {x : Bytes} (h : IsName x) : isWhole x = true := by
  rcases h with hplain | ⟨body, -, rfl⟩
  · exact isWhole_of_not_mem (isPlainName_spec hplain).1
  · exact isWhole_quoted body

theorem unquote_isInfix (x : Bytes) : unquote x <:+: x := by
  unfold unquote
  split
  · exact (List.dropLast_prefix _).isInfix.trans (List.drop_suffix 1 x).isInfix
  · exact List.infix_rfl

/-- A name in backticks ends on its line. -/
theorem ident_newline_free {source : Bytes} {t : Token} (ht : t ∈ tokens source)
    (hk : t.kind = .ident) : 0x0a ∉ t.lexeme := by
  obtain ⟨ps, last, hcuts⟩ := exists_cuts 1 source
  rw [hcuts.tokens_eq] at ht
  rcases List.mem_append.mp ht with ht | ht
  · obtain ⟨p, hp, hpt⟩ := List.mem_filterMap.mp ht
    cases p <;> cases hpt
    obtain ⟨line, s, rest, hcut⟩ := hcuts.cut_of_mem hp
    -- A token that is neither a string nor a line break counts no line breaks and misses none.
    have hbreaks := hcut.breaks_eq
    simp only [Piece.text, Lexer.lineBreaks, Piece.missedBreaks, hk, reduceCtorEq,
      if_false] at hbreaks
    exact List.count_eq_zero.mp hbreaks.symm
  · cases List.mem_singleton.mp ht
    cases hk

/-! ## Labels of a source -/

def spelling (ok : Bytes → Prop) : Labels where
  name x := IsName x ∧ ∀ t, t <:+: x → ok t
  operator op := op.all isSymbol = true
  sign op := op.all isSymbol = true
  digits ds := areDigits ds = true
  real v := ∃ m e, v = .finite false m e
  text s := isWhole s = true

theorem tokens_carry_spelling {ok : Bytes → Prop} {source : Bytes}
    (hok : ∀ t ∈ tokens source, t.kind = .ident → ∀ x, x <:+: t.lexeme → ok x) :
    ∀ t ∈ tokens source, (spelling ok).Carried t := by
  intro t ht
  have hname : t.kind = .ident → IsName t.lexeme →
      (spelling ok).name t.lexeme ∧ (spelling ok).text t.lexeme :=
    fun hk hx => ⟨⟨hx, hok t ht hk⟩, hx.isWhole⟩
  apply (tokens_lexed source t ht).carried
  · exact fun hk hplain => hname hk (.inl hplain)
  · exact fun body hk hbody _ heq => hname hk (.inr ⟨body, hbody, heq⟩)
  · exact fun op hop => ⟨hop, hop⟩
  · exact fun ds hds => hds
  · exact fun m e => ⟨m, e, rfl⟩
  · exact fun s hs => hs

section Fit

variable {T ok : Bytes → Prop} {lead : UInt8 → Prop} {n : Node}

theorem ink_of_symbols {op : Bytes} (h : op.all isSymbol = true) : op.all isInk = true := by
  have hall : ([0x21, 0x26, 0x2a, 0x2b, 0x2d, 0x2f, 0x3a, 0x3c, 0x3d, 0x3e, 0x5e, 0x7c] : Bytes).all
      isInk = true := by decide
  exact List.all_eq_true.mpr fun b hb =>
    List.all_eq_true.mp hall b (of_decide_eq_true (List.all_eq_true.mp h b hb))

theorem opens_of_numberBytes {t : Bytes} (h : t.all isNumberByte = true) (hne : t ≠ []) :
    opens t = true := by
  have hbyte : ∀ b, isNumberByte b = true → isInk b = true ∧ b ≠ 0x20 := by
    intro b hb
    simp only [isNumberByte, isDigitByte, isInk, Bool.or_eq_true, Bool.and_eq_true,
      decide_eq_true_eq, UInt8.le_iff_toNat_le, UInt8.lt_iff_toNat_lt, bne_iff_ne, ne_eq,
      ← UInt8.toNat_inj, UInt8.reduceToNat] at hb ⊢
    simp only [List.mem_cons, List.not_mem_nil, or_false] at hb
    rcases hb with hb | rfl | rfl | rfl | rfl
    · omega
    all_goals decide
  rw [List.all_eq_true] at h
  cases t with
  | nil => exact (hne rfl).elim
  | cons b s =>
      have hink : (b :: s).all isInk = true :=
        List.all_eq_true.mpr fun c hc => (hbyte c (h c hc)).1
      simp [opens, hink, (hbyte b (h b List.mem_cons_self)).2]

theorem opens_of_digits {ds : Bytes} (h : areDigits ds = true) : opens ds = true := by
  rw [areDigits_iff] at h
  exact opens_of_numberBytes (List.all_eq_true.mpr fun b hb => by simp [isNumberByte, h.2 b hb]) h.1

theorem opens_floatLiteral (m : Nat) (e : Int) : opens (floatLiteral (.finite false m e)) = true := by
  obtain ⟨whole, fraction, exponent, h⟩ := generalForm_numeral m e
  have hne : whole ≠ [] := ((areDigits_iff whole).mp h.whole).1
  have hform : (Decimal.Binary64.finite false m e).generalForm ≠ [] := by simp [h.parts, hne]
  unfold floatLiteral
  dsimp only
  split
  · exact opens_of_numberBytes h.bytes hform
  · refine opens_of_numberBytes ?_ (by simp [hform])
    rw [List.all_append, h.bytes]
    decide

/-- What is asked of a set of texts and of the labels of a program, so that every line of the
program is a phrase of the set. -/
structure Admits (T : Bytes → Prop) (lead : UInt8 → Prop) (ok : Bytes → Prop) (ss : List Node) :
    Prop where
  composes : Composes T
  /-- Only a space may be barred from the front of a line. -/
  front : ∀ b, b ≠ 0x20 → lead b
  name : ∀ x : Bytes, ok x → T x
  /-- A name as a key. -/
  key : ∀ x : Bytes, isWhole x = true → ok x → T (stringLiteral x)
  text : ∀ s, Occurs (.program ss) (.string s) → isWhole s = true → T (stringLiteral s)
  /-- Where a space is barred from the front, no name in backticks is used. -/
  plain : (∀ b, lead b) ∨ ∀ n, Occurs (.program ss) n → ∀ x ∈ n.usedNames, x.head? ≠ some 0x60

variable {ss : List Node} (h : Admits T lead ok ss)

include h

theorem Admits.phrase_name {x : Bytes} (hx : IsName x) (hok : ∀ t, t <:+: x → ok t)
    (hfront : (∀ b, lead b) ∨ x.head? ≠ some 0x60) :
    Phrase T lead x ∧ Phrase T lead (unquote x) := by
  have htext : T x ∧ T (unquote x) :=
    ⟨h.name x (hok x List.infix_rfl), h.name _ (hok _ (unquote_isInfix x))⟩
  rcases hx with hplain | ⟨body, hbody, rfl⟩
  · rw [unquote_plain hplain] at htext ⊢
    have hphrase : Phrase T lead x := by
      cases x with
      | nil => contradiction
      | cons b s =>
          refine ⟨htext.1, b, s, rfl, h.front b ?_⟩
          rintro rfl
          contradiction
    exact ⟨hphrase, hphrase⟩
  · have hlead : ∀ b, lead b := by
      rcases hfront with hlead | hhead
      · exact hlead
      · exact (hhead rfl).elim
    rw [unquote_quoted] at htext ⊢
    obtain ⟨b, s, rfl⟩ := List.exists_cons_of_ne_nil hbody
    exact ⟨⟨htext.1, _, _, rfl, hlead _⟩, ⟨htext.2, b, s, rfl, hlead b⟩⟩

theorem Admits.fit (hn : Occurs (.program ss) n) (hm : (spelling ok).Meets n) : Fit T lead n := by
  have hfront : ∀ x ∈ n.usedNames, (∀ b, lead b) ∨ x.head? ≠ some 0x60 := by
    intro x hx
    rcases h.plain with hlead | hplain
    · exact .inl hlead
    · exact .inr (hplain n hn x hx)
  cases n with
  | assign x _ | forLoop x _ _ _ =>
      exact (h.phrase_name hm.1.1 hm.1.2 (hfront x List.mem_cons_self)).2
  | var x => exact (h.phrase_name hm.1 hm.2 (hfront x List.mem_cons_self)).2
  | call x _ => exact (h.phrase_name hm.1.1 hm.1.2 (hfront x List.mem_cons_self)).1
  | named x _ =>
      have hx := hm.1.2 x List.infix_rfl
      exact ⟨h.name x hx, h.key x hm.1.1.isWhole hx⟩
  | function x params _ =>
      exact ⟨h.name _ (hm.1.2 _ (unquote_isInfix x)),
        fun p hp => h.name p ((hm.2.1 p hp).2 p List.infix_rfl)⟩
  | operator op cls params _ =>
      -- The operator and the class are parts of one name, which is in backticks.
      exact ⟨h.name op (hm.1.2 op ⟨[0x60], 0x2e :: cls ++ [0x60], by simp⟩),
        h.name cls (hm.1.2 cls ⟨0x60 :: op ++ [0x2e], [0x60], by simp⟩),
        fun p hp => h.name p ((hm.2.1 p hp).2 p List.infix_rfl)⟩
  | binary op _ _ | unary op _ => exact h.composes.ink (ink_of_symbols hm.1)
  | int ds => exact phrase_of_opens h.composes h.front (opens_of_digits hm)
  | float v =>
      obtain ⟨m, e, rfl⟩ := hm
      exact phrase_of_opens h.composes h.front (opens_floatLiteral m e)
  | string s => exact h.text s hn hm
  | field _ x => exact h.key x hm.1.1.isWhole (hm.1.2 x List.infix_rfl)
  | _ => trivial

/-- The lines of a translation, the same under every width. -/
theorem Admits.translate_lays {o : Options} {source : Bytes} (hparse : parseSource source = .ok ss)
    (hok : ∀ t ∈ tokens source, t.kind = .ident → ∀ x, x <:+: t.lexeme → ok x) :
    ∃ lines, Laid (Phrase T lead) lines ∧ ∀ width text,
      translate { o with indentWidth := width } source = .ok (.ok text) →
        ∃ below, Stacked { o with indentWidth := width } 0 lines below ∧ text = below.tail := by
  obtain ⟨hshape, hmeets⟩ := parse_sound (tokens_carry_spelling hok) hparse
  have hprogram : (spelling ok).Meets (.program ss) := hmeets
  have hfit : ∀ s ∈ ss, AllFit T lead s := by
    intro s hs n hn
    have hoccurs : Occurs (.program ss) n := occurs_of_child hs hn
    exact h.fit hoccurs (hoccurs.meets hprogram)
  obtain ⟨lines, hlaid, hshows⟩ := generate_lays (o := o) h.composes h.front hshape hfit
  refine ⟨lines, hlaid, fun width text htext => ?_⟩
  obtain ⟨s', hgen⟩ : ∃ s', Session.generate { o with indentWidth := width } {} ss =
      .ok (.ok text, s') := by
    unfold translate at htext
    rw [hparse] at htext
    dsimp only at htext
    split at htext
    · cases htext
    · cases htext
    · rename_i t s' hgen
      cases htext
      exact ⟨s', hgen⟩
  exact hshows width text s' hgen

end Fit

end RToJulia
