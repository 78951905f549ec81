import RToJulia.Proofs.Token.Pieces

/-! # The spans of a source

A source is its pieces put together: tokens, blanks, comments and what could not be
read. Reading yields one event for each token and each fault, in the order of the
source, and the `eof` token behind them.
-/

namespace RToJulia

open Text Lexer

/-- What a fault covers in front of `after`: one rune, a string without its end, or a whole
float. -/
inductive LexFault.Covers : LexFault → Bytes → Bytes → Prop
  | unexpected {text after : Bytes} {r : Rune} (line : Nat)
      (rune : runes (text ++ after) = r :: runes after) (bytes : text = r.bytes) :
      Covers (.unexpected r.char line) text after
  | unterminated {quote : UInt8} {body : Bytes} (line : Nat) (hquote : quote = 0x22 ∨ quote = 0x27)
      (unclosed : stringBody? quote body = none) :
      Covers (.unterminated line) (quote :: body) []
  | floatRange {text after : Bytes} (line : Nat) (longest : Longest IsFloat text after)
      (range : (Decimal.Number.ofText text).toBinary64? = none) :
      Covers (.floatRange text line) text after

inductive Piece.Covers : Piece → Bytes → Prop
  | token {t : Token} (after : Bytes) (kind : t.kind ≠ .eof) : Covers (.token t) after
  | blank {b : UInt8} (after : Bytes) (hb : b = 0x20 ∨ b = 0x09 ∨ b = 0x0d) :
      Covers (.blank b) after
  | comment {body after : Bytes} (inside : 0x0a ∉ body)
      (ends : after = [] ∨ after.head? = some 0x0a) : Covers (.comment (0x23 :: body)) after
  | fault {text after : Bytes} {f : LexFault} (covers : f.Covers text after) :
      Covers (.fault text f) after

/-- The text is the pieces put together, each of them not empty. -/
inductive Spans : Bytes → List Piece → Prop
  | nil : Spans [] []
  | cons {p : Piece} {after : Bytes} {ps : List Piece} (nonempty : p.text ≠ [])
      (covers : p.Covers after) (later : Spans after ps) : Spans (p.text ++ after) (p :: ps)

theorem Cut.covers {line : Nat} {s left : Bytes} {p : Piece} (h : Cut line s p left) :
    p.Covers left := by
  cases h with
  | blank left hb =>
      apply Piece.Covers.blank
      rcases hb with rfl | rfl | rfl <;> simp
  | comment inside ends => exact .comment inside ends
  | unterminated hquote unclosed => exact .fault (.unterminated _ hquote unclosed)
  | backtick lone =>
      obtain ⟨after, hafter, hrunes⟩ := runes_cons 0x60 left
      obtain rfl : left = after := (List.cons.inj hafter).2
      exact .fault (.unexpected (r := headRune 0x60 left) line hrunes rfl)
  | pair left spelled => exact .token left (ne_of_isMark (operator?_spec spelled).1 rfl)
  | operator spelled => exact .token left (ne_of_isMark (operator?_spec spelled).1 rfl)
  | single left spelled => exact .token left (ne_of_isMark (single?_spec spelled).1 rfl)
  | floatRange longest range => exact .fault (.floatRange line longest range)
  | name plain ends => exact .token left (nameToken_kind_ne line _ rfl (by simp) (by simp))
  | @unexpected b rest _ stray rune =>
      obtain ⟨after, hafter, hrunes⟩ := runes_cons b rest
      cases List.append_cancel_left (rune.symm.trans hafter)
      exact .fault (.unexpected line (by rw [← rune, hrunes]) rfl)
  | _ => exact .token left (by simp)

theorem Cuts.spans {line last : Nat} {s : Bytes} {ps : List Piece} (h : Cuts line s ps last) :
    Spans s ps := by
  induction h with
  | nil line => exact .nil
  | cons first later ih =>
      rw [first.source_eq]
      exact .cons first.text_ne_nil first.covers ih

namespace Spans

variable {s : Bytes} {ps : List Piece}

theorem flatMap_text (h : Spans s ps) : ps.flatMap Piece.text = s := by
  induction h with
  | nil => rfl
  | cons nonempty covers later ih => rw [List.flatMap_cons, ih]

theorem ne_eof (h : Spans s ps) : ∀ t, .token t ∈ ps → t.kind ≠ .eof := by
  induction h with
  | nil => simp
  | cons nonempty covers later ih =>
      intro t ht
      rcases List.mem_cons.mp ht with rfl | ht
      · cases covers with
        | token after kind => exact kind
      · exact ih t ht

end Spans

/-- Reading accounts for every byte of a source, and ends with its only `eof`. -/
theorem scan_spans (source : Bytes) :
    ∃ ps last, Spans source ps ∧ ps.flatMap Piece.text = source ∧
      scan source = ps.filterMap Piece.event? ++ [.token (Token.eof last)] ∧
      ∀ t, .token t ∈ ps.filterMap Piece.event? → t.kind ≠ .eof := by
  obtain ⟨ps, last, hcuts⟩ := exists_cuts 1 source
  have hspans := hcuts.spans
  refine ⟨ps, last, hspans, hspans.flatMap_text, ?_, fun t ht => ?_⟩
  · rw [scan_eq_eventsFrom, eventsFrom, hcuts.pieces_eq]
  · obtain ⟨p, hp, hevent⟩ := List.mem_filterMap.mp ht
    cases p <;> cases hevent
    exact hspans.ne_eof t hp

end RToJulia
