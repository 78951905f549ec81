import RToJulia.Proofs.Julia.Names
import RToJulia.Proofs.Translate.Phrases
import RToJulia.Proofs.Translate.Totality

/-! # The indentation of a translation

The lines of a translation are laid in blocks: read by their indentations alone, they show
where each block begins and ends. The width of one level changes nothing but the spaces in
front of the lines, unless an indentation under it is out of range.
-/

namespace RToJulia

open Text Julia Writer Node

/-! ## The lines of a text -/

def textLines (s : Bytes) : List Bytes :=
  if s = [] then [] else s.splitOn 0x0a

def unindent (line : Bytes) : Bytes :=
  line.dropWhile (· = 0x20)

theorem splitOn_append {s : Bytes} (h : 0x0a ∉ s) (t : Bytes) :
    (s ++ t).splitOn 0x0a = (t.splitOn 0x0a).modifyHead (s ++ ·) := by
  obtain ⟨l, ls, hl⟩ := List.exists_cons_of_ne_nil (List.splitOn_ne_nil 0x0a t)
  induction s with
  | nil => simp [hl]
  | cons b s ih =>
      simp only [List.mem_cons, not_or] at h
      have hb : (b == 0x0a) = false := by simpa using Ne.symm h.1
      rw [List.cons_append, List.splitOn_cons_eq_if_modifyHead, hb, ih h.2, hl]
      rfl

def spacesFor (o : Options) (depth : Nat) : Bytes :=
  List.replicate (marginWidth o depth).toNat 0x20

theorem splitOn_stacked {o : Options} {level : Nat} {ls : List Line} {below : Bytes}
    (h : Stacked o level ls below) (s : Bytes) :
    (s ++ below).splitOn 0x0a = s.splitOn 0x0a ++
      ls.flatMap fun l => (spacesFor o (level + l.depth) ++ l.text).splitOn 0x0a := by
  induction h generalizing s with
  | nil => simp
  | @cons l ls spaces text hindent _ ih =>
      rw [List.cons_append, List.splitOn_append_cons_self, ih, List.flatMap_cons,
        margin_spaces hindent]
      rfl

/-- The lines of a stack are those of its lines, one after the other. -/
theorem textLines_stacked {o : Options} {ls : List Line} {below : Bytes}
    (h : Stacked o 0 ls below) (hne : ∀ l ∈ ls, l.text ≠ []) :
    textLines below.tail = ls.flatMap fun l => (spacesFor o l.depth ++ l.text).splitOn 0x0a := by
  cases h with
  | nil => rfl
  | @cons l ls spaces text hindent hrest =>
      have htext : spaces ++ l.text ++ text ≠ [] := by simp [hne l List.mem_cons_self]
      have hsplit := splitOn_stacked hrest (spaces ++ l.text)
      simp only [Nat.zero_add] at hsplit hindent
      rw [textLines, List.cons_append, List.tail_cons, if_neg htext, hsplit, List.flatMap_cons,
        margin_spaces hindent]
      rfl

/-! ## Any two widths -/

theorem unindent_spaces (n : Nat) (line : Bytes) :
    unindent (List.replicate n 0x20 ++ line) = unindent line := by
  induction n with
  | zero => rfl
  | succ n ih =>
      rw [List.replicate_succ, List.cons_append, unindent, List.dropWhile_cons_of_pos (by simp)]
      exact ih

theorem map_unindent_spaces (n : Nat) (text : Bytes) :
    ((List.replicate n 0x20 ++ text).splitOn 0x0a).map unindent =
      (text.splitOn 0x0a).map unindent := by
  obtain ⟨l, ls, hl⟩ := List.exists_cons_of_ne_nil (List.splitOn_ne_nil 0x0a text)
  rw [splitOn_append (by simp), hl, List.modifyHead_cons, List.map_cons, List.map_cons,
    unindent_spaces]

/-- Without the spaces in front, the lines of a stack do not depend on the width. -/
theorem unindent_stacked {o : Options} {ls : List Line} {below : Bytes} (h : Stacked o 0 ls below)
    (hne : ∀ l ∈ ls, l.text ≠ []) :
    (textLines below.tail).map unindent =
      ls.flatMap fun l => (l.text.splitOn 0x0a).map unindent := by
  rw [textLines_stacked h hne, List.map_flatMap]
  simp only [spacesFor, map_unindent_spaces]

theorem true_composes : Composes fun _ => True where
  ink _ := trivial
  append _ _ := trivial
  record _ := trivial
  symbol _ := trivial
  position _ := trivial
  unreturn _ := trivial

theorem translate_unindent {o : Options} {w₁ w₂ : Int} {source t₁ t₂ : Bytes} {ss : List Node}
    (hparse : parseSource source = .ok ss)
    (h₁ : translate { o with indentWidth := w₁ } source = .ok (.ok t₁))
    (h₂ : translate { o with indentWidth := w₂ } source = .ok (.ok t₂)) :
    (textLines t₁).map unindent = (textLines t₂).map unindent := by
  have hadmits : Admits (fun _ => True) (fun _ => True) (fun _ => True) ss :=
    { composes := true_composes
      front := fun _ _ => trivial
      name := fun _ _ => trivial
      key := fun _ _ _ => trivial
      text := fun _ _ _ => trivial
      plain := .inl fun _ => trivial }
  obtain ⟨lines, hlaid, hshows⟩ := hadmits.translate_lays (o := o) hparse fun _ _ _ _ _ => trivial
  have hne : ∀ l ∈ lines, l.text ≠ [] := fun l hl => (hlaid.texts l hl).ne_nil
  obtain ⟨below₁, hstacked₁, rfl⟩ := hshows w₁ t₁ h₁
  obtain ⟨below₂, hstacked₂, rfl⟩ := hshows w₂ t₂ h₂
  rw [unindent_stacked hstacked₁ hne, unindent_stacked hstacked₂ hne]

/-- A source that is read is translated, unless an indentation is past the greatest one. -/
theorem translate_of_parse {o : Options} {source : Bytes} {ss : List Node} (hw : 0 ≤ o.indentWidth)
    (hparse : parseSource source = .ok ss) :
    (∃ text, translate o source = .ok (.ok text)) ∨
      translate o source = .error (.writer .indentation) ∧
        maxMargin < o.indentWidth * programDepth ss := by
  unfold translate
  rw [hparse]
  rcases generate_writes o {} (parse_wellFormed hparse) with ⟨text, s', h⟩ | ⟨h, hshort⟩
  · exact .inl ⟨text, by simp only [h]⟩
  · rw [fits_iff hw] at hshort
    exact .inr ⟨by simp only [h], by omega⟩

/-- Under two widths a source has the same fault, or translations that differ in the spaces in
front of their lines only, or under one of the widths an indentation past the greatest one. -/
theorem width_is_cosmetic (o : Options) (source : Bytes) (w₁ w₂ : Int) (h₁ : 0 ≤ w₁) (h₂ : 0 ≤ w₂) :
    (∃ f, translate { o with indentWidth := w₁ } source = .ok (.error f) ∧
      translate { o with indentWidth := w₂ } source = .ok (.error f)) ∨
    (∃ t₁ t₂, translate { o with indentWidth := w₁ } source = .ok (.ok t₁) ∧
      translate { o with indentWidth := w₂ } source = .ok (.ok t₂) ∧
      (textLines t₁).map unindent = (textLines t₂).map unindent) ∨
    ∃ ss w, parseSource source = .ok ss ∧ (w = w₁ ∨ w = w₂) ∧
      translate { o with indentWidth := w } source = .error (.writer .indentation) ∧
      maxMargin < w * programDepth ss := by
  cases hparse : parseSource source with
  | error refusal =>
      cases refusal with
      | halt reason => exact (parse_ne_halt (tokens_readable source) reason hparse).elim
      | fault f =>
          have hfault : ∀ o, translate o source = .ok (.error (.parse f)) := fun o => by
            unfold translate
            rw [hparse]
          exact .inl ⟨.parse f, hfault _, hfault _⟩
  | ok ss =>
      have hruns := fun w (h : 0 ≤ w) =>
        translate_of_parse (o := { o with indentWidth := w }) h hparse
      rcases hruns w₁ h₁ with ⟨t₁, ht₁⟩ | ⟨hhalt, hwide⟩
      · rcases hruns w₂ h₂ with ⟨t₂, ht₂⟩ | ⟨hhalt, hwide⟩
        · exact .inr (.inl ⟨t₁, t₂, ht₁, ht₂, translate_unindent hparse ht₁ ht₂⟩)
        · exact .inr (.inr ⟨ss, w₂, rfl, .inr rfl, hhalt, hwide⟩)
      · exact .inr (.inr ⟨ss, w₁, rfl, .inl rfl, hhalt, hwide⟩)

/-- A string over two lines in a branch, without an indentation and with one. -/
theorem width_is_cosmetic_string :
    ∃ t₁ t₂, translate { indentWidth := 0 } "if (a) \"x\n  y\"" = .ok (.ok t₁) ∧
      translate { indentWidth := 4 } "if (a) \"x\n  y\"" = .ok (.ok t₂) ∧ t₁ ≠ t₂ ∧
      (textLines t₁).map unindent = (textLines t₂).map unindent := by
  have hzero : translate { indentWidth := 0 } "if (a) \"x\n  y\"" =
      .ok (.ok "if a\n\"x\n  y\"\nend") := rfl
  have hfour : translate { indentWidth := 4 } "if (a) \"x\n  y\"" =
      .ok (.ok "if a\n    \"x\n  y\"\nend") := rfl
  rcases width_is_cosmetic {} "if (a) \"x\n  y\"" 0 4 (by decide) (by decide) with
    ⟨f, hfault, -⟩ | ⟨t₁, t₂, h₁, h₂, heq⟩ | ⟨ss, w, -, rfl | rfl, hhalt, -⟩
  · cases hzero.symm.trans hfault
  · cases hzero.symm.trans h₁
    cases hfour.symm.trans h₂
    exact ⟨_, _, hzero, hfour, by decide, heq⟩
  · cases hzero.symm.trans hhalt
  · cases hfour.symm.trans hhalt

/-- Twice the greatest width has wrapped around to a negative number. -/
theorem greatest_width_halts :
    translate {} "if (a) if (b) c" = .ok (.ok "if a\n    if b\n        c\n    end\nend") ∧
      translate { indentWidth := 9223372036854775807 } "if (a) if (b) c" =
        .error (.writer .indentation) :=
  ⟨rfl, rfl⟩

/-! ## Blocks -/

/-- Lines that show their blocks: each is indented by its depth times the width, the first has
depth zero, and each is followed by what it opens. No line is empty or has a space behind the
indentation, so that the depths can be read off. -/
def IsLaidOut (width : Nat) (lines : List Bytes) : Prop :=
  ∃ laid : List Line,
    lines = laid.map (fun l => List.replicate (l.depth * width) 0x20 ++ l.text) ∧
    (∀ l ∈ laid, l.text ≠ [] ∧ l.text.head? ≠ some 0x20) ∧
    (∀ l ∈ laid.head?, l.depth = 0) ∧
    ∀ before l rest, laid = before ++ l :: rest → Continues l rest

theorem break_not_mem_stringLiteral {s : Bytes} (h : 0x0a ∉ s) : 0x0a ∉ stringLiteral s := by
  have hbody : 0x0a ∉ stringBody s := by
    fun_induction stringBody s with
    | case1 => exact h
    | case2 => exact h
    | case3 b rest ih => simp_all
    | case4 b rest _ _ hb ih => simp_all
    | case5 b rest _ _ hb ih => simp_all
  simp [stringLiteral, hbody]

theorem break_free_composes : Composes fun t => 0x0a ∉ t where
  ink h := fun hmem => absurd (List.all_eq_true.mp h _ hmem) (by decide)
  append hs ht := by simp [hs, ht]
  record cls := fun hmem => absurd (recordName_bytes cls _ hmem) (by decide)
  symbol h := fun hmem => absurd (isIdentifier_bytes h _ hmem) (by decide)
  position n := break_not_mem_stringLiteral fun hmem =>
    absurd (((areDigits_iff _).mp (areDigits_decimal n)).2 _ hmem) (by decide)
  unreturn {t} h := by
    unfold dropLead
    split
    · exact fun hmem => h (List.mem_of_mem_drop hmem)
    · exact h

/-- Below the modulus, a number that has wrapped around is negative. -/
theorem bmod_eq_of_nonneg {x : Int} (hlow : 0 ≤ x) (hhigh : x < 18446744073709551616)
    (h : 0 ≤ x.bmod (Nat.pow 2 64)) : x.bmod (Nat.pow 2 64) = x := by
  have hpow : Nat.pow 2 64 = 18446744073709551616 := by decide
  have hmod : x % (18446744073709551616 : Nat) = x := Int.emod_eq_of_lt hlow hhigh
  rw [hpow, Int.bmod_def, hmod] at h ⊢
  split
  · rfl
  · rename_i hhalf
    rw [if_neg hhalf] at h
    omega

/-- Where no indentation up to a level is out of range, none has wrapped around. -/
theorem marginWidth_exact {o : Options} (hlow : 0 ≤ o.indentWidth)
    (hhigh : o.indentWidth < 9223372036854775808) {level : Nat}
    (h : ∀ k, k ≤ level → ∃ spaces, margin o k = pure spaces) :
    marginWidth o level = o.indentWidth * level := by
  induction level with
  | zero => simp [marginWidth]
  | succ level ih =>
      have hexact := ih fun k hk => h k (Nat.le_succ_of_le hk)
      obtain ⟨_, hmargin⟩ := h level (Nat.le_succ level)
      obtain ⟨_, hnext⟩ := h (level + 1) (Nat.le_refl _)
      obtain ⟨⟨hnonneg, hmax⟩, -⟩ := margin_pure hmargin
      have hpow : maxMargin = 281474976710656 := by decide
      have hproduct : o.indentWidth * (level + 1 : Nat) = o.indentWidth * level + o.indentWidth := by
        rw [Int.natCast_add, Int.mul_add, Int.natCast_one, Int.mul_one]
      rw [hexact] at hnonneg hmax
      -- One more level adds less than half of the modulus to a product within the greatest margin.
      exact bmod_eq_of_nonneg (by omega) (by omega) (margin_pure hnext).1.1

/-- The lines of a stack that is laid in blocks. -/
theorem isLaidOut_stacked {o : Options} {ls : List Line} {below : Bytes} (hlow : 0 ≤ o.indentWidth)
    (hhigh : o.indentWidth < 9223372036854775808)
    (h : Laid (Phrase (fun t => 0x0a ∉ t) (· ≠ 0x20)) ls) (hstacked : Stacked o 0 ls below) :
    IsLaidOut o.indentWidth.toNat (textLines below.tail) := by
  have hindents : ∀ l ∈ ls, spacesFor o l.depth =
      List.replicate (l.depth * o.indentWidth.toNat) 0x20 := by
    intro l hl
    -- Every lower depth has a line too, so its indentation was written.
    have hmargins : ∀ k, k ≤ l.depth → ∃ spaces, margin o k = pure spaces := by
      intro k hk
      obtain ⟨j, hj, rfl⟩ := h.depths_below l hl k hk
      obtain ⟨spaces, hspaces⟩ := hstacked.indents j hj
      exact ⟨spaces, by rwa [Nat.zero_add] at hspaces⟩
    rw [spacesFor, marginWidth_exact hlow hhigh hmargins,
      Int.toNat_mul hlow (Int.natCast_nonneg _), Int.toNat_natCast, Nat.mul_comm]
  have hsplit : ∀ l ∈ ls, (spacesFor o l.depth ++ l.text).splitOn 0x0a =
      [List.replicate (l.depth * o.indentWidth.toNat) 0x20 ++ l.text] := by
    intro l hl
    rw [hindents l hl, List.splitOn_eq_singleton]
    simp [(h.texts l hl).text]
  refine ⟨ls, ?_, fun l hl => ?_, fun l hl => h.head_depth hl, h.continues⟩
  · rw [textLines_stacked hstacked fun l hl => (h.texts l hl).ne_nil, List.flatMap_def,
      List.map_congr_left hsplit, ← List.flatMap_def, ← List.map_eq_flatMap]
  · obtain ⟨b, s, heq, hb⟩ := (h.texts l hl).front
    simp [heq, hb]

/-- Without line breaks in its strings and without the use of a name in backticks, a program has
a translation whose lines show its blocks, unless an indentation is past the greatest one. -/
theorem translate_laid_out (o : Options) (source : Bytes) (ss : List Node)
    (hparse : parseSource source = .ok ss) (hwidth : 1 ≤ o.indentWidth)
    (hword : o.indentWidth < 9223372036854775808)
    (hstrings : ∀ s, Occurs (.program ss) (.string s) → 0x0a ∉ s)
    (hnames : ∀ n, Occurs (.program ss) n → ∀ x ∈ n.usedNames, x.head? ≠ some 0x60) :
    (∃ text, translate o source = .ok (.ok text) ∧
      IsLaidOut o.indentWidth.toNat (textLines text)) ∨
    translate o source = .error (.writer .indentation) ∧
      maxMargin < o.indentWidth * programDepth ss := by
  have hlow : 0 ≤ o.indentWidth := by omega
  have hadmits : Admits (fun t => 0x0a ∉ t) (· ≠ 0x20) (fun t => 0x0a ∉ t) ss :=
    { composes := break_free_composes
      front := fun _ hb => hb
      name := fun _ hx => hx
      key := fun _ _ hx => break_not_mem_stringLiteral hx
      text := fun s hs _ => break_not_mem_stringLiteral (hstrings s hs)
      plain := .inr hnames }
  obtain ⟨lines, hlaid, hshows⟩ := hadmits.translate_lays (o := o) hparse
    fun t ht hk x hx hmem => ident_newline_free ht hk (hx.mem hmem)
  rcases translate_of_parse hlow hparse with ⟨text, htext⟩ | hwide
  · obtain ⟨below, hstacked, rfl⟩ := hshows o.indentWidth text htext
    exact .inl ⟨_, htext, isLaidOut_stacked hlow hword hlaid hstacked⟩
  · exact .inr hwide

/-- A method declared in backticks, behind its record type, with two branches. -/
theorem translate_laid_out_method :
    ∃ text, translate {} "`+.money` <- function(a, b) if (a) b else a" = .ok (.ok text) ∧
      IsLaidOut 4 (textLines text) := by
  let a : Node := .var "a"
  let b : Node := .var "b"
  let branches : Node := .ifElse a (some [.exprStmt b]) (some [.exprStmt a])
  let method : Node := .operator "+" "money" ["a", "b"] (some [branches])
  have hparse : parseSource "`+.money` <- function(a, b) if (a) b else a" = .ok [method] := rfl
  have hnodes : ∀ n, Occurs (.program [method]) n →
      n ∈ [.program [method], method, .block [branches], branches, .block [.exprStmt b],
        .block [.exprStmt a], .exprStmt b, .exprStmt a, b, a] := by
    intro n hn
    induction hn with
    | root => exact List.mem_cons_self
    | child _ hc ih =>
        simp only [List.mem_cons, List.not_mem_nil, or_false] at ih ⊢
        rcases ih with rfl | rfl | rfl | rfl | rfl | rfl | rfl | rfl | rfl | rfl <;>
          simp only [method, branches, a, b, children, bodyNode, List.mem_cons, List.not_mem_nil,
            or_false] at hc ⊢ <;>
          grind
  have hstrings : ∀ s, Occurs (.program [method]) (.string s) → 0x0a ∉ s := by
    intro s hs
    have hmem := hnodes _ hs
    simp [method, branches, a, b] at hmem
  have hnames : ∀ n, Occurs (.program [method]) n → ∀ x ∈ n.usedNames, x.head? ≠ some 0x60 := by
    intro n hn
    have hmem := hnodes n hn
    simp only [List.mem_cons, List.not_mem_nil, or_false] at hmem
    rcases hmem with rfl | rfl | rfl | rfl | rfl | rfl | rfl | rfl | rfl | rfl <;> decide
  rcases translate_laid_out {} _ _ hparse (by decide) (by decide) hstrings hnames with h | h
  · exact h
  · exact absurd h.2 (by decide)

end RToJulia
