import RToJulia.Proofs.Julia.Names
import RToJulia.Proofs.Translate.Phrases

/-! # The string literals of a translation

Every text that a program has quoted becomes a closed literal: nothing in it ends it early or
begins an interpolation. The text of a translation is made of such literals, of parts of the
source's names and of bytes that are no quotes, so each literal ends where it was closed.
-/

namespace RToJulia

open Text Julia Node

/-! ## Closed literals -/

/-- A string literal whose body is made of bytes without a meaning and of backslashes with a byte
each; the first quote that no backslash takes with it is the last byte. -/
def Closed (t : Bytes) : Prop :=
  ∃ body, t = 0x22 :: body ++ [0x22] ∧ Units body ∧
    ∀ rest, Lexer.stringBody? 0x22 (body ++ 0x22 :: rest) = some body

/-- A scan for the end of a body stops at the quote behind it. -/
theorem stringBody?_units {body : Bytes} (h : Units body) (rest : Bytes) :
    Lexer.stringBody? 0x22 (body ++ 0x22 :: rest) = some body := by
  induction h with
  | nil => rfl
  | plain hquote hslash _ _ ih =>
      rw [List.cons_append, stringBody?_cons hslash, if_neg hquote, ih]
      rfl
  | escape b _ ih => simp [Lexer.stringBody?, ih]

theorem closed_stringLiteral {s : Bytes} (h : isWhole s = true) : Closed (stringLiteral s) :=
  ⟨stringBody s, rfl, units_stringBody h, stringBody?_units (units_stringBody h)⟩

/-! ## Text with literals -/

/-- Text made of closed literals, texts of `raw` and bytes that are no quotes. -/
inductive Woven (raw : Bytes → Prop) : Bytes → Prop
  | nil : Woven raw []
  | byte {b : UInt8} {s : Bytes} (h : b ≠ 0x22) (rest : Woven raw s) : Woven raw (b :: s)
  | literal {t s : Bytes} (h : Closed t) (rest : Woven raw s) : Woven raw (t ++ s)
  | raw {x s : Bytes} (h : raw x) (rest : Woven raw s) : Woven raw (x ++ s)

section Woven

variable {raw : Bytes → Prop} {s t : Bytes}

theorem Woven.append (hs : Woven raw s) (ht : Woven raw t) : Woven raw (s ++ t) := by
  induction hs with
  | nil => exact ht
  | byte hb _ ih => exact .byte hb ih
  | literal hl _ ih =>
      rw [List.append_assoc]
      exact .literal hl ih
  | raw hx _ ih =>
      rw [List.append_assoc]
      exact .raw hx ih

theorem woven_bytes (h : 0x22 ∉ t) : Woven raw t := by
  induction t with
  | nil => exact .nil
  | cons b t ih =>
      simp only [List.mem_cons, not_or] at h
      exact .byte (Ne.symm h.1) (ih h.2)

theorem woven_literal (h : isWhole s = true) : Woven raw (stringLiteral s) := by
  have hliteral : Woven raw (stringLiteral s ++ []) := .literal (closed_stringLiteral h) .nil
  rwa [List.append_nil] at hliteral

theorem woven_raw (h : raw t) : Woven raw t := by
  have hraw : Woven raw (t ++ []) := .raw h .nil
  rwa [List.append_nil] at hraw

/-- What is left behind bytes that are no quotes; a raw text may be cut. -/
theorem Woven.drop_front (hraw : ∀ x y, raw (x ++ y) → raw y) (h : Woven raw t) :
    ∀ front rest, t = front ++ rest → 0x22 ∉ front → Woven raw rest := by
  induction h with
  | nil =>
      intro front rest heq _
      rw [(List.append_eq_nil_iff.mp heq.symm).2]
      exact .nil
  | @byte b s hb hs ih =>
      rintro (_ | ⟨c, front⟩) rest heq hfront
      · cases heq
        exact .byte hb hs
      · cases heq
        exact ih front rest rfl fun hmem => hfront (List.mem_cons_of_mem _ hmem)
  | @literal t s hl hs ih =>
      rintro (_ | ⟨c, front⟩) rest heq hfront
      · cases heq
        exact .literal hl hs
      · -- A literal begins with a quote, and none is in front.
        obtain ⟨body, rfl, -, -⟩ := hl
        cases (List.cons.inj heq).1
        exact (hfront List.mem_cons_self).elim
  | @raw x s hx hs ih =>
      intro front rest heq hfront
      rcases List.append_eq_append_iff.mp heq with ⟨m, rfl, rfl⟩ | ⟨m, rfl, rfl⟩
      · exact ih m rest rfl fun hmem => hfront (List.mem_append_right _ hmem)
      · exact .raw (hraw front m hx) hs

theorem woven_composes (hraw : ∀ x y, raw (x ++ y) → raw y) : Composes (Woven raw) where
  ink h := woven_bytes fun hmem => absurd (List.all_eq_true.mp h _ hmem) (by decide)
  append := .append
  record cls := woven_bytes fun hmem => absurd (recordName_bytes cls _ hmem) (by decide)
  symbol h := woven_bytes fun hmem => absurd (isIdentifier_bytes h _ hmem) (by decide)
  position n := woven_literal (isWhole_of_digits (areDigits_decimal n))
  unreturn {t} h := by
    unfold dropLead
    split
    · rename_i hlead
      obtain ⟨rest, rfl⟩ := List.isPrefixOf_iff_prefix.mp hlead
      rw [List.drop_left]
      exact h.drop_front hraw _ rest rfl (by decide)
    · exact h

theorem stacked_woven {o : Options} {level : Nat} {ls : List Line}
    (hls : ∀ l ∈ ls, Woven raw l.text) (h : Stacked o level ls t) : Woven raw t := by
  induction h with
  | nil => exact .nil
  | @cons l ls spaces text hindent _ ih =>
      have hspaces : 0x22 ∉ spaces := by
        rw [margin_spaces hindent]
        simp
      rw [List.cons_append]
      exact .byte (by decide) (((woven_bytes hspaces).append (hls l List.mem_cons_self)).append
        (ih fun k hk => hls k (List.mem_cons_of_mem l hk)))

end Woven

/-! ## Translations -/

def NamePart (source x : Bytes) : Prop :=
  ∃ t ∈ tokens source, t.kind = .ident ∧ x <:+: t.lexeme

/-- The texts that the text of a node has in quotes: a string, the name of a field, and the keys
of a `list`, which are names or positions. -/
def Node.quotedTexts : Node → List Bytes
  | .string s | .field _ s => [s]
  | .call f args =>
      if f = "list" then
        (namedArgs args).map (·.1) ++
          (List.range (positional args).length).map fun i => decimal (i + 1)
      else []
  | _ => []

theorem quotedTexts_whole {ok : Bytes → Prop} {n : Node} {t : Bytes} (hm : (spelling ok).Meets n)
    (ht : t ∈ n.quotedTexts) : isWhole t = true := by
  cases n with
  | string s =>
      cases List.mem_singleton.mp ht
      exact hm
  | field _ x =>
      cases List.mem_singleton.mp ht
      exact hm.2.1
  | call f args =>
      simp only [quotedTexts] at ht
      split at ht
      · rcases List.mem_append.mp ht with ht | ht
        · obtain ⟨⟨x, value⟩, hx, rfl⟩ := List.mem_map.mp ht
          obtain ⟨a, ha, hax⟩ := List.mem_filterMap.mp hx
          have hargs := ((spelling ok).meetsAll_iff args).mp hm.2 a ha
          split at hax
          · cases hax
            exact hargs.1.1.isWhole
          · cases hax
        · obtain ⟨i, -, rfl⟩ := List.mem_map.mp ht
          exact isWhole_of_digits (areDigits_decimal (i + 1))
      · cases ht
  | _ => cases ht

/-- Whatever a program has quoted is written as a closed literal, and the text of its translation
has no quotes but those of closed literals and of names. -/
theorem literals_closed (o : Options) (source : Bytes) (ss : List Node)
    (hparse : parseSource source = .ok ss) :
    (∀ n, Occurs (.program ss) n → ∀ t ∈ n.quotedTexts, Closed (stringLiteral t)) ∧
      ∀ text, translate o source = .ok (.ok text) → Woven (NamePart source) text := by
  have hnames : ∀ t ∈ tokens source, t.kind = .ident → ∀ x, x <:+: t.lexeme → NamePart source x :=
    fun t ht hk x hx => ⟨t, ht, hk, hx⟩
  have hcut : ∀ x y, NamePart source (x ++ y) → NamePart source y := by
    rintro x y ⟨t, ht, hk, hxy⟩
    exact ⟨t, ht, hk, (List.suffix_append x y).isInfix.trans hxy⟩
  have hadmits : Admits (Woven (NamePart source)) (fun _ => True) (NamePart source) ss :=
    { composes := woven_composes hcut
      front := fun _ _ => trivial
      name := fun _ => woven_raw
      key := fun _ hx _ => woven_literal hx
      text := fun _ _ hs => woven_literal hs
      plain := .inl fun _ => trivial }
  constructor
  · obtain ⟨-, hmeets⟩ := parse_sound (tokens_carry_spelling hnames) hparse
    have hprogram : (spelling (NamePart source)).Meets (.program ss) := hmeets
    exact fun n hn t ht => closed_stringLiteral (quotedTexts_whole (hn.meets hprogram) ht)
  · intro text htext
    obtain ⟨lines, hlaid, hshows⟩ := hadmits.translate_lays (o := o) hparse hnames
    obtain ⟨below, hstacked, rfl⟩ := hshows o.indentWidth text htext
    have hwoven := stacked_woven (fun l hl => (hlaid.texts l hl).text) hstacked
    cases hstacked with
    | nil => exact .nil
    | cons _ _ => exact hwoven.drop_front hcut [0x0a] _ rfl (by decide)

/-- Quotes, a `$` and a backslash in strings, and a quote in a name that is a key. -/
theorem literals_closed_escapes :
    Closed (stringLiteral "say \"$5\"") ∧ Closed (stringLiteral "`k\"`") ∧
      ∃ text, translate {} "x <- list(`k\"` = 'say \"$5\"')$`k\"`" = .ok (.ok text) ∧
        Woven (NamePart "x <- list(`k\"` = 'say \"$5\"')$`k\"`") text := by
  let entry : Node := .call "list" [.named "`k\"`" (.string "say \"$5\"")]
  have hparse : parseSource "x <- list(`k\"` = 'say \"$5\"')$`k\"`" =
      .ok [.assign "x" (.field entry "`k\"`")] := rfl
  obtain ⟨hclosed, hwoven⟩ := literals_closed {} _ _ hparse
  have hfield : Occurs (.program [.assign "x" (.field entry "`k\"`")]) (.field entry "`k\"`") :=
    .child (.child .root List.mem_cons_self) List.mem_cons_self
  have hstring : Occurs (.program [.assign "x" (.field entry "`k\"`")]) (.string "say \"$5\"") :=
    .child (.child (.child hfield List.mem_cons_self) List.mem_cons_self) List.mem_cons_self
  have htext : translate {} "x <- list(`k\"` = 'say \"$5\"')$`k\"`" =
      .ok (.ok "x = Dict(\"`k\\\"`\" => \"say \\\"\\$5\\\"\")[\"`k\\\"`\"]") := rfl
  exact ⟨hclosed _ hstring _ List.mem_cons_self, hclosed _ hfield _ List.mem_cons_self, _, htext,
    hwoven _ htext⟩

end RToJulia
